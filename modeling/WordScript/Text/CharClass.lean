/-!
# Character classes

The classes of characters that scripts and assembly texts are read with. Letters and digits are
ASCII only; white space is the Unicode property `White_Space`.
-/

namespace WordScript

/-- The code points with the Unicode property `White_Space`. -/
def isBlank (c : Char) : Bool :=
  let n := c.toNat
  (0x09 ≤ n && n ≤ 0x0D) || n == 0x20 || n == 0x85 || n == 0xA0 || n == 0x1680 ||
    (0x2000 ≤ n && n ≤ 0x200A) || n == 0x2028 || n == 0x2029 || n == 0x202F || n ==
    0x205F || n == 0x3000

def isPunctuation (c : Char) : Bool :=
  let n := c.toNat
  (0x21 ≤ n && n ≤ 0x2F) || (0x3A ≤ n && n ≤ 0x40) || (0x5B ≤ n && n ≤ 0x60) ||
    (0x7B ≤ n && n ≤ 0x7E)

def isDelimiter (c : Char) : Bool := isBlank c || isPunctuation c

def isNameStart (c : Char) : Bool := c.isAlpha

def isNameChar (c : Char) : Bool := c.isAlphanum || c == '_'

def trimBlanks (cs : List Char) : List Char :=
  ((cs.dropWhile isBlank).reverse.dropWhile isBlank).reverse

end WordScript
