import WordScript.Word
import WordScript.Text.Numeral

/-!
# Number literals

The words that number literals of a script stand for.
-/

namespace WordScript

def readWord? (cs : List Char) : Option Word := readInt32? cs

/-- The bit pattern of the float nearest to a decimal number, ties to even. A point stands between
two runs of digits. -/
def readFloat? (cs : List Char) : Option Word :=
  match readDigits? (cs.takeWhile (· != '.')), cs.dropWhile (· != '.') with
  | some whole, '.' :: fraction =>
    (readDigits? fraction).map fun part =>
      Word.ofFloat (Float32.ofScientific (whole * Nat.pow 10 fraction.length + part) true
        fraction.length)
  | _, _ => none

end WordScript
