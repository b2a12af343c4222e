import WordScript.Text.Span

/-!
# Source texts

A source text with the name of the file it came from, if any, and the line and column of a byte
offset in it. `SourceText.locate?` answers for every offset up to and including the length of the
text.
-/

namespace WordScript

structure SourceText where
  text : String
  file : Option String
  deriving Repr, Inhabited

namespace SourceText

def ofString (text : String) : SourceText := ⟨text, none⟩

def chars (s : SourceText) : List Char := s.text.toList

end SourceText

/-- Cuts `cs` at every separator, which belongs to no part. There is always a first part. -/
def splitWhere (separator : Char → Bool) : List Char → List (List Char)
  | [] => [[]]
  | c :: cs =>
    if separator c then [] :: splitWhere separator cs
    else match splitWhere separator cs with
      | [] => [[c]]
      | part :: parts => (c :: part) :: parts

def splitLines (cs : List Char) : List (List Char) := splitWhere (· == '\n') cs

/-- How many characters take up exactly the first `bytes` bytes; none when that cuts a character. -/
def charsBefore? : List Char → Nat → Option Nat
  | _, 0 => some 0
  | [], _ + 1 => none
  | c :: cs, bytes + 1 =>
    if c.utf8Size ≤ bytes + 1 then (charsBefore? cs (bytes + 1 - c.utf8Size)).map (· + 1) else none

/-- Characters of `line` before byte `bytes`. Inside a character, bytes are counted instead. -/
def columnOffset (line : List Char) (bytes : Nat) : Nat :=
  (charsBefore? line bytes).getD bytes

structure Snippet where
  position : Position
  line : String
  deriving DecidableEq, Repr

/-- Looks for byte `offset` in `lines`, the first of which has number `number` and starts at byte
`start`. A line owns the newline after it. -/
def locateLine? (offset : Nat) : (number start : Nat) → List (List Char) → Option Snippet
  | _, _, [] => none
  | number, start, line :: lines =>
    let next := start + byteLength line + 1
    if offset < next then
      some ⟨⟨number, columnOffset line (offset - start) + 1⟩, String.ofList line⟩
    else locateLine? offset (number + 1) next lines

def SourceText.locate? (s : SourceText) (offset : Nat) : Option Snippet :=
  locateLine? offset 1 0 (splitLines s.chars)

end WordScript
