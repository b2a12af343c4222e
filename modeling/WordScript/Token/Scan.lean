import WordScript.Token
import WordScript.Text.CharClass
import WordScript.Word.Literal

/-!
# Reading tokens

`lexeme` reads one token from the front of a text, which must not start with white space or a
comment. `Cursor.next` skips those first and keeps count of bytes, lines and columns. A fault leaves
the cursor where reading stopped, so reading can go on after it.
-/

namespace WordScript

structure Lexeme where
  kind : TokenKind
  text : List Char
  consumed : List Char
  rest : List Char
  deriving Repr

/-- A failed reading. The cause concerns the place after `before`, counted from the start of the
token; `consumed` has been read all the same. -/
structure Misreading where
  cause : LexError
  contexts : List String
  before : List Char
  consumed : List Char
  rest : List Char
  deriving Repr

/-- Splits off white space and comments. A comment runs from `#` to the end of its line; `inComment`
tells whether the text starts inside one. -/
def spanTrivia (inComment : Bool) : List Char → List Char × List Char
  | [] => ([], [])
  | c :: cs =>
    if inComment then
      let (skipped, rest) := spanTrivia (c != '\n') cs
      (c :: skipped, rest)
    else if isBlank c then
      let (skipped, rest) := spanTrivia false cs
      (c :: skipped, rest)
    else if c = '#' then
      let (skipped, rest) := spanTrivia true cs
      (c :: skipped, rest)
    else ([], c :: cs)

def lexName (cs : List Char) : Lexeme :=
  let name := cs.takeWhile isNameChar
  ⟨.identifier, name, name, cs.dropWhile isNameChar⟩

/-- The digits of a number and what follows them. The point belongs to the number only if a digit
comes after it. -/
def spanNumber (cs : List Char) : TokenKind × List Char × List Char :=
  let whole := cs.takeWhile Char.isDigit
  match cs.dropWhile Char.isDigit with
  | '.' :: d :: rest =>
    if d.isDigit then
      (.float, whole ++ '.' :: (d :: rest).takeWhile Char.isDigit,
        (d :: rest).dropWhile Char.isDigit)
    else (.integer, whole, '.' :: d :: rest)
  | rest => (.integer, whole, rest)

/-- A number must be followed by a delimiter, and an integer must fit in a word. -/
def lexNumber (cs : List Char) : Except Misreading Lexeme :=
  let (kind, digits, rest) := spanNumber cs
  let misread (cause : LexError) (before : List Char) : Except Misreading Lexeme :=
    .error ⟨cause, ["number"], before, digits, rest⟩
  match rest.head?.filter (!isDelimiter ·) with
  | some c => misread (.expected "delimeter or space after number" c) digits
  | none =>
    if kind = .integer ∧ (readWord? digits).isNone then misread .integerOutOfRange []
    else if kind = .float ∧ (readFloat? digits).isNone then misread .invalidFloat []
    else .ok ⟨kind, digits, digits, rest⟩

/-- A string runs to the next `quote`, over lines too; nothing is escaped in it. -/
def lexString (quote : Char) (cs : List Char) : Except Misreading Lexeme :=
  let content := cs.takeWhile (· != quote)
  match cs.dropWhile (· != quote) with
  | [] => .error ⟨.unterminatedString, [], [], quote :: cs, []⟩
  | close :: rest => .ok ⟨.string, content, quote :: (content ++ [close]), rest⟩

/-- A symbol takes its second character whenever that makes a symbol. -/
def lexSymbol (symbol : Symbol) (c : Char) (cs : List Char) : Lexeme :=
  match cs with
  | [] => ⟨.symbol symbol, [c], [c], []⟩
  | d :: rest =>
    match symbol.extend? d with
    | some long => ⟨.symbol long, [c, d], [c, d], rest⟩
    | none => ⟨.symbol symbol, [c], [c], d :: rest⟩

def lexeme : List Char → Except Misreading (Option Lexeme)
  | [] => .ok none
  | c :: cs =>
    if c = '\'' ∨ c = '"' then (lexString c cs).map some
    else if isNameStart c then .ok (some (lexName (c :: cs)))
    else if c.isDigit then (lexNumber (c :: cs)).map some
    else match Symbol.ofChar? c with
      | some symbol => .ok (some (lexSymbol symbol c cs))
      | none => .error ⟨.unexpectedChar c, [], [], [], c :: cs⟩

structure Cursor where
  rest : List Char
  offset : Nat
  position : Position
  deriving Repr, Inhabited

namespace Cursor

def start (cs : List Char) : Cursor := ⟨cs, 0, .start⟩

def past (c : Cursor) (consumed rest : List Char) : Cursor :=
  ⟨rest, c.offset + byteLength consumed, c.position.advance consumed⟩

def endOffset (c : Cursor) : Nat := c.offset + byteLength c.rest

def skipTrivia (c : Cursor) : Cursor :=
  let (skipped, rest) := spanTrivia false c.rest
  c.past skipped rest

def next : EStateM (Fault LexError) Cursor (Option Token) := fun c =>
  let c := c.skipTrivia
  match lexeme c.rest with
  | .ok none => .ok none c
  | .ok (some l) =>
    .ok (some ⟨l.kind, String.ofList l.text, ⟨c.offset, byteLength l.consumed⟩, c.position⟩)
      (c.past l.consumed l.rest)
  | .error e =>
    .error ⟨e.cause, .point (c.offset + byteLength e.before), e.contexts⟩ (c.past e.consumed e.rest)

end Cursor

end WordScript
