/-!
# Machine words

The machine computes on 32-bit words. A word is a signed integer with wrapping arithmetic or the bit
pattern of a single-precision float, as the instruction says.
-/

namespace WordScript

abbrev Word := Int32

inductive NumKind
  | integer
  | float
  deriving DecidableEq, Repr, Inhabited

inductive ArithmeticOp
  | add
  | sub
  | mul
  | div
  deriving DecidableEq, Repr, Inhabited

inductive Relation
  | equal
  | notEqual
  | greater
  | less
  | greaterEqual
  | lessEqual
  deriving DecidableEq, Repr, Inhabited

/-- How two words compare. `unordered` is a float comparison with a NaN. -/
inductive Comparison
  | less
  | equal
  | greater
  | unordered
  deriving DecidableEq, Repr

/-- Whether a comparison that came out as `c` satisfies the relation. Nothing holds of a NaN except
being different. -/
def Relation.holds : Relation → Comparison → Bool
  | notEqual, c => c != .equal
  | equal, c => c == .equal
  | greater, c => c == .greater
  | less, c => c == .less
  | greaterEqual, c => c == .greater || c == .equal
  | lessEqual, c => c == .less || c == .equal

namespace Word

def text (w : Word) : String := toString w.toInt

def toFloat (w : Word) : Float32 := Float32.ofBits w.toUInt32

def ofFloat (x : Float32) : Word := Int32.ofUInt32 x.toBits

/-- Integer arithmetic wraps around and division rounds toward zero. Float arithmetic rounds to
nearest. There is no result for an integer division by zero. -/
def arithmetic? : NumKind → ArithmeticOp → Word → Word → Option Word
  | .integer, .add, a, b => some (a + b)
  | .integer, .sub, a, b => some (a - b)
  | .integer, .mul, a, b => some (a * b)
  | .integer, .div, a, b => if b = 0 then none else some (a / b)
  | .float, .add, a, b => some (ofFloat (toFloat a + toFloat b))
  | .float, .sub, a, b => some (ofFloat (toFloat a - toFloat b))
  | .float, .mul, a, b => some (ofFloat (toFloat a * toFloat b))
  | .float, .div, a, b => some (ofFloat (toFloat a / toFloat b))

def compare : NumKind → Word → Word → Comparison
  | .integer, a, b => if a < b then .less else if a = b then .equal else .greater
  | .float, a, b =>
    let x := toFloat a
    let y := toFloat b
    if x < y then .less else if x == y then .equal else if y < x then .greater else .unordered

end Word

end WordScript
