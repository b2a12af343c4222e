/-!
# Decimal numerals

Readers for unsigned and signed decimal numbers. A sign is optional, at least one digit is required,
and leading zeros do not count. Writing is core's `toString`, which these readers undo.
-/

namespace WordScript

def readDigits? (cs : List Char) : Option Nat :=
  if cs ≠ [] ∧ cs.all Char.isDigit then some (Nat.ofDigitChars 10 cs 0) else none

def sizeBound : Nat := 18446744073709551616

def readNatBelow? (bound : Nat) (cs : List Char) : Option Nat :=
  let digits := match cs with
    | '+' :: rest => rest
    | _ => cs
  (readDigits? digits).filter (· < bound)

def readInt? : List Char → Option Int
  | '+' :: cs => (readDigits? cs).map Int.ofNat
  | '-' :: cs => (readDigits? cs).map fun n => -Int.ofNat n
  | cs => (readDigits? cs).map Int.ofNat

def readInt32? (cs : List Char) : Option Int32 :=
  match readInt? cs with
  | some n => if -2147483648 ≤ n ∧ n < 2147483648 then some (Int32.ofInt n) else none
  | none => none

end WordScript
