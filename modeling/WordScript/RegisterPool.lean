import WordScript.Assembly
import WordScript.Types.Error

/-!
# The register pool

Which general registers hold an intermediate value at a point of the generated code. The lowest free
register is handed out first; `sp` never is.
-/

namespace WordScript

/-- Bit `n` is set while `rn` is taken. -/
structure RegisterPool where
  used : BitVec generalRegisters
  deriving DecidableEq, Repr

namespace RegisterPool

def empty : RegisterPool := ⟨0⟩

def holds (p : RegisterPool) (index : Nat) : Bool := p.used.getLsbD index

def lowestFree? (p : RegisterPool) : Option Nat :=
  (List.range generalRegisters).find? fun n => !p.holds n

def take (p : RegisterPool) (index : Nat) : RegisterPool := ⟨p.used ||| .twoPow _ index⟩

def acquire (p : RegisterPool) : Except TypeError (Register × RegisterPool) :=
  match p.lowestFree? with
  | some n => .ok (.general n, p.take n)
  | none => .error .registersExhausted

def release (p : RegisterPool) : Register → RegisterPool
  | .sp => p
  | .general n => ⟨p.used &&& ~~~(.twoPow _ n)⟩

def live (p : RegisterPool) : List Register :=
  ((List.range generalRegisters).filter p.holds).map .general

def inUse (p : RegisterPool) : Nat := (List.range generalRegisters).countP p.holds

end RegisterPool

end WordScript
