import WordScript.Tree
import WordScript.Token.Scan

/-!
# Parsers

A parser reads a text token by token and looks one token ahead. The token ahead is read only when it
is asked for, so a fault of the tokens shows up where the grammar reaches it. A parser keeps its
place after a fault and can be used on.
-/

namespace WordScript

def keywords : List String :=
  ["struct", "func", "static", "return", "if", "else", "while", "sizeof", "and", "or"]

def builtinTypes : List String := ["int", "float", "ptr", "void"]

inductive Wanted
  | kind (k : TokenKind)
  | described (text : String)
  deriving DecidableEq, Repr

def Wanted.text : Wanted → String
  | kind k => k.text
  | described text => text

/-- Why a text could not be parsed. `exhausted` stands for a parser that ran out of its step
allowance, which every text grants in full. -/
inductive ParseError
  | lex (cause : LexError)
  | expected (wanted : Wanted) (found : TokenKind)
  | unexpectedEnd (wanted : Option Wanted)
  | reservedName (name : String)
  | exhausted
  deriving DecidableEq, Repr

def ParseError.message : ParseError → String
  | lex cause => s!"error while lexing source: {cause.message}"
  | expected wanted found => s!"expected {wanted.text}, but found instead {found.text}"
  | unexpectedEnd none => "unexpected end of input"
  | unexpectedEnd (some wanted) => s!"unexpected end of input, expected {wanted.text}"
  | reservedName name => s!"{quoteText name} is reserved and can't be used as a name"
  | exhausted => "parser step allowance exhausted"

instance : ToString ParseError := ⟨ParseError.message⟩

/-- A text being parsed: how far it has been read, the token ahead if it was asked for, and the
names that start a type, which grow as structs are declared. -/
structure Parser where
  cursor : Cursor
  ahead : Option Token
  typeNames : List String
  deriving Inhabited

namespace Parser

def start (cs : List Char) : Parser := ⟨.start cs, none, builtinTypes⟩

/-- What is left to read: the token ahead counts once, other input by its characters. -/
def unread (p : Parser) : Nat := p.cursor.rest.length + (if p.ahead.isSome then 1 else 0)

def currentSpan (p : Parser) : Span :=
  match p.ahead with
  | some t => t.span
  | none => .point p.cursor.endOffset

def currentText (p : Parser) : String := p.ahead.elim "" (·.text)

/-- An upper bound on the steps that parsing the rest of the text takes. -/
def allowance (p : Parser) : Nat := 8 * p.unread + 8

end Parser

/-- Parsing actions. The parser keeps its place when an action fails. -/
abbrev Parse := EStateM (Fault ParseError) Parser

namespace Parse

variable {α : Type}

def failAt (span : Span) (cause : ParseError) : Parse α := throw (.raise cause span)

def reject (cause : ParseError) : Parse α := do failAt (← get).currentSpan cause

def exhausted : Parse α := reject .exhausted

def peek : Parse (Option TokenKind) := fun p =>
  match p.ahead with
  | some t => .ok (some t.kind) p
  | none =>
    match Cursor.next p.cursor with
    | .ok t cursor => .ok (t.map (·.kind)) { p with cursor := cursor, ahead := t }
    | .error e cursor => .error (e.map .lex) { p with cursor := cursor }

def accept : Parse Unit := modify fun p => { p with ahead := none }

def currentSpan : Parse Span := return (← get).currentSpan

def currentText : Parse String := return (← get).currentText

/-- The kind of the token ahead, which must exist. Its absence is reported where reading stood
before. -/
def expectAny (wanted : Option Wanted) : Parse TokenKind := do
  let here := (← get).cursor.offset
  match ← peek with
  | some kind => return kind
  | none => failAt (.point here) (.unexpectedEnd wanted)

def expect (kind : TokenKind) : Parse Unit := do
  let found ← expectAny (some (.kind kind))
  if found ≠ kind then reject (.expected (.kind kind) found)

def symbol (s : Symbol) : Parse Span := do
  expect (.symbol s)
  let span ← currentSpan
  accept
  return span

def keyword (word : String) : Parse Unit := do
  within "parsing keyword" (expect .identifier)
  if (← currentText) ≠ word then reject (.expected (.described word) .identifier)
  accept

def peekKeyword (word : String) : Parse Bool := do
  let kind ← peek
  return kind == some .identifier && (← currentText) == word

def peekSymbol (s : Symbol) : Parse Bool := return (← peek) == some (.symbol s)

def peekTypeName : Parse Bool := do
  let kind ← peek
  let p ← get
  return kind == some .identifier && p.typeNames.contains p.currentText

def declareType (name : String) : Parse Unit :=
  modify fun p => { p with typeNames := name :: p.typeNames }

def repeatWhile (more : Parse Bool) (body : Parse α) : (limit : Nat) → Parse (List α)
  | 0 => exhausted
  | limit + 1 => do
    if ← more then
      let first ← body
      return first :: (← repeatWhile more body limit)
    else return []

def commaSeparated (item : Parse α) : (limit : Nat) → Parse (List α)
  | 0 => exhausted
  | limit + 1 => do
    let first ← item
    if ← peekSymbol .comma then
      accept
      return first :: (← commaSeparated item limit)
    else return [first]

def name : Parse Name := within "parsing identifier" do
  expect .identifier
  let text ← currentText
  if keywords.contains text || builtinTypes.contains text then reject (.reservedName text)
  match (← get).ahead with
  | some t =>
    accept
    return ⟨t.text, t.span, t.position⟩
  | none => reject (.unexpectedEnd none)

def typeName : Parse TypeName := within "parsing type" do
  unless ← peekTypeName do
    let found ← expectAny (some (.described "type name"))
    reject (.expected (.described "type name") found)
  let base ← currentText
  let start ← currentSpan
  accept
  let ampersands ← repeatWhile (peekSymbol .ampersand) (symbol .ampersand) (← get).allowance
  return ⟨base, ampersands.length, ampersands.foldl Span.join start⟩

end Parse

end WordScript
