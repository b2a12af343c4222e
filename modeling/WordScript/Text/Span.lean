/-!
# Spans and positions

A span is a stretch of a text in UTF-8 bytes. A position is a line and a column, both counted from
1; columns count characters. The two meet in `SourceText.locate?`.
-/

namespace WordScript

/-- A stretch of text: the byte it starts at and its length in bytes. -/
structure Span where
  offset : Nat
  length : Nat
  deriving DecidableEq, Repr, Inhabited

namespace Span

def point (offset : Nat) : Span := ⟨offset, 1⟩

def stop (s : Span) : Nat := s.offset + s.length

def join (a b : Span) : Span :=
  let start := min a.offset b.offset
  ⟨start, max a.stop b.stop - start⟩

end Span

structure Position where
  line : Nat
  column : Nat
  deriving DecidableEq, Repr, Inhabited

namespace Position

def start : Position := ⟨1, 1⟩

def next (p : Position) (c : Char) : Position :=
  if c = '\n' then ⟨p.line + 1, 1⟩ else ⟨p.line, p.column + 1⟩

def advance (p : Position) (cs : List Char) : Position := cs.foldl next p

def text (p : Position) : String := s!"{p.line}:{p.column}"

end Position

def byteLength : List Char → Nat
  | [] => 0
  | c :: cs => c.utf8Size + byteLength cs

@[simp] theorem byteLength_nil : byteLength [] = 0 := rfl

@[simp] theorem byteLength_cons (c : Char) (cs : List Char) :
    byteLength (c :: cs) = c.utf8Size + byteLength cs := rfl

@[simp] theorem byteLength_append (xs ys : List Char) :
    byteLength (xs ++ ys) = byteLength xs + byteLength ys := by
  induction xs with
  | nil => simp
  | cons c xs ih => simp [ih, Nat.add_assoc]

end WordScript
