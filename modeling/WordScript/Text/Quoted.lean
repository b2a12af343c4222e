import WordScript.Text.Unprintable

/-!
# Quoted text in messages

Messages show text and single characters between quotes. The quote itself, the backslash and
characters that cannot be shown are escaped, so a quoted text never breaks a line.
-/

namespace WordScript

/-- A code point by its number, as in `\u` and the hexadecimal digits between braces. -/
def escapeCode (c : Char) : List Char :=
  ['\\', 'u', '\x7b'] ++ Nat.toDigits 16 c.toNat ++ ['\x7d']

def escapeChar (quote c : Char) : List Char :=
  if c = '\x00' then ['\\', '0']
  else if c = '\t' then ['\\', 't']
  else if c = '\r' then ['\\', 'r']
  else if c = '\n' then ['\\', 'n']
  else if c = '\\' ∨ c = quote then ['\\', c]
  else if isUnprintable c then escapeCode c
  else [c]

def quoteText (s : String) : String :=
  String.ofList ('"' :: s.toList.flatMap (escapeChar '"') ++ ['"'])

def quoteChar (c : Char) : String :=
  String.ofList ('\'' :: escapeChar '\'' c ++ ['\''])

end WordScript
