import WordScript.Diagnostic
import WordScript.Text.Quoted

/-!
# Tokens

What scripts are made of: names, numbers, strings and symbols, each with its text and its place.
-/

namespace WordScript

/-- The symbols of a script. Some of the two-character ones have no meaning yet and are only kept
from being read as two symbols. -/
inductive Symbol
  | plus | minus | star | slash | equals | semicolon | less | greater
  | openBracket | closeBracket | openBrace | closeBrace | openParen | closeParen
  | dot | comma | ampersand | commercialAt | bang
  | plusEquals | plusPlus | minusEquals | minusMinus | starEquals | starStar
  | slashEquals | slashSlash | greaterEquals | shiftRight | lessEquals | shiftLeft
  | doubleEquals | notEquals
  deriving DecidableEq, Repr, Inhabited

namespace Symbol

def text : Symbol → String
  | plus => "+" | minus => "-" | star => "*" | slash => "/" | equals => "=" | semicolon => ";"
  | less => "<" | greater => ">" | openBracket => "[" | closeBracket => "]"
  | openBrace => "\x7b" | closeBrace => "\x7d" | openParen => "(" | closeParen => ")"
  | dot => "." | comma => "," | ampersand => "&" | commercialAt => "@" | bang => "!"
  | plusEquals => "+=" | plusPlus => "++" | minusEquals => "-=" | minusMinus => "--"
  | starEquals => "*=" | starStar => "**" | slashEquals => "/=" | slashSlash => "//"
  | greaterEquals => ">=" | shiftRight => ">>" | lessEquals => "<=" | shiftLeft => "<<"
  | doubleEquals => "==" | notEquals => "!="

def all : List Symbol :=
  [plus, minus, star, slash, equals, semicolon, less, greater, openBracket, closeBracket, openBrace,
    closeBrace, openParen, closeParen, dot, comma, ampersand, commercialAt, bang,
    plusEquals, plusPlus, minusEquals, minusMinus, starEquals, starStar, slashEquals, slashSlash,
    greaterEquals, shiftRight, lessEquals, shiftLeft, doubleEquals, notEquals]

def ofChar? : Char → Option Symbol
  | '+' => some plus | '-' => some minus | '*' => some star | '/' => some slash
  | '=' => some equals | ';' => some semicolon | '<' => some less | '>' => some greater
  | '[' => some openBracket | ']' => some closeBracket
  | '\x7b' => some openBrace | '\x7d' => some closeBrace
  | '(' => some openParen | ')' => some closeParen
  | '.' => some dot | ',' => some comma | '&' => some ampersand
  | '@' => some commercialAt | '!' => some bang
  | _ => none

def extend? : Symbol → Char → Option Symbol
  | plus, '=' => some plusEquals | plus, '+' => some plusPlus
  | minus, '=' => some minusEquals | minus, '-' => some minusMinus
  | star, '=' => some starEquals | star, '*' => some starStar
  | slash, '=' => some slashEquals | slash, '/' => some slashSlash
  | greater, '=' => some greaterEquals | greater, '>' => some shiftRight
  | less, '=' => some lessEquals | less, '<' => some shiftLeft
  | equals, '=' => some doubleEquals | bang, '=' => some notEquals
  | _, _ => none

end Symbol

inductive TokenKind
  | identifier
  | integer
  | float
  | string
  | symbol (s : Symbol)
  deriving DecidableEq, Repr, Inhabited

def TokenKind.text : TokenKind → String
  | identifier => "identifier"
  | integer => "integer"
  | float => "float"
  | string => "string"
  | symbol s => "`" ++ s.text ++ "`"

/-- A token. The text of a string is its content; its span includes the delimiters. -/
structure Token where
  kind : TokenKind
  text : String
  span : Span
  position : Position
  deriving DecidableEq, Repr, Inhabited

inductive LexError
  | expected (wanted : String) (found : Char)
  | unexpectedChar (found : Char)
  | unterminatedString
  | integerOutOfRange
  | invalidFloat
  deriving DecidableEq, Repr

def LexError.message : LexError → String
  | expected wanted found => s!"unexpected {quoteChar found}, expected {wanted}"
  | unexpectedChar found => s!"unexpected {quoteChar found}"
  | unterminatedString => "non-terminated string"
  | integerOutOfRange => "integer literal out of range"
  | invalidFloat => "malformed float literal"

instance : ToString LexError := ⟨LexError.message⟩

end WordScript
