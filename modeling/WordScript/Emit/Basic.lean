import WordScript.RegisterPool
import WordScript.LiteralPool
import WordScript.Typing

/-!
# Emitting code

The state of a code generator and the steps that all generated code is made of. The generator keeps
the frame in step with the code: whatever moves `sp` changes the depth of the frame by as much. A
register is held for as long as a computation runs, and is given back whether or not that
computation succeeds.
-/

namespace WordScript

structure LabelSupply where
  next : Nat
  deriving DecidableEq, Repr

namespace LabelSupply

def start : LabelSupply := ⟨0⟩

def fresh (s : LabelSupply) : Label × LabelSupply := (.code s.next, ⟨s.next + 1⟩)

end LabelSupply

structure EmitContext where
  structs : Structs
  functions : Functions
  strings : LiteralPool
  /-- What a `return` has to give back. Outside of functions there is nothing to return to. -/
  returns : Option ValueType

structure EmitState where
  frame : Frame
  registers : RegisterPool
  labels : LabelSupply
  deriving DecidableEq, Repr

abbrev Emit := EStateM (Fault TypeError) EmitState

namespace Emit

variable {α : Type}

def fault (cause : TypeError) (span : Span) : Emit α := throw (.raise cause span)

def ofCheck : Typing.Check α → Emit α
  | .ok a => pure a
  | .error e => throw e

def typing (c : EmitContext) : Emit TypeContext :=
  return ⟨c.structs, c.functions, (← get).frame⟩

def typeHere (c : EmitContext) (e : Expr) : Emit ValueType := do
  ofCheck (Typing.typeOf (← typing c) e)

def modifyFrame (f : Frame → Frame) : Emit Unit := modify fun s => { s with frame := f s.frame }

def freshLabel : Emit Label :=
  modifyGet fun s => (s.labels.fresh.1, { s with labels := s.labels.fresh.2 })

def acquire (span : Span) : Emit Register := do
  let s ← get
  match s.registers.acquire with
  | .ok (r, registers) => set { s with registers }; return r
  | .error e => fault e span

/-- Runs `body` and then gives `r` back, also if `body` fails. -/
def holding (r : Register) (body : Emit α) : Emit α := fun s =>
  match body s with
  | .ok a s => .ok a { s with registers := s.registers.release r }
  | .error e s => .error e { s with registers := s.registers.release r }

def withRegister (span : Span) (body : Register → Emit α) : Emit α := do
  let r ← acquire span
  holding r (body r)

/-! ## Instructions -/

abbrev Arg := Operand Register Value

def word (w : Word) : Arg := .value (.immediate w)

def count (n : Nat) : Arg := word (.ofNat n)

def labelled (l : Label) : Arg := .value (.label l)

def line (i : Instruction) : Item := .instruction i none

def noted (i : Instruction) (comment : String) : Item := .instruction i (some comment)

def increase (r : Register) (amount : Arg) : Instruction := .arith .integer .add r amount

def decrease (r : Register) (amount : Arg) : Instruction := .arith .integer .sub r amount

/-- Arithmetic and comparisons treat all types but `float` as integers. -/
def numKind (type : ValueType) : NumKind := if type = .float then .float else .integer

def zeroTest (r : Register) (type : ValueType) : Instruction := .cmp (numKind type) r (word 0)

def copyWords (target source : Register) (words : Nat) : Assembly :=
  (List.replicate words [line (.memCopy target source), line (increase target (word 1)),
    line (increase source (word 1))]).flatten

def pointAt (r : Register) (location : Location) (comment : String) : Assembly :=
  match location with
  | .stack offset =>
    [noted (.mov r (.register .sp)) comment, line (increase r (word (.ofInt offset)))]
  | .static l => [noted (.mov r (labelled l)) comment]

/-! ## Moving the stack pointer -/

def pushWords (words : Nat) : Emit Assembly := do
  if words = 0 then return []
  modifyFrame (·.push words)
  return [line (increase .sp (count words))]

def popWords (words : Nat) : Emit Assembly := do
  if words = 0 then return []
  modifyFrame (·.pop words)
  return [line (decrease .sp (count words))]

def pushValue (value : Arg) : Emit Assembly := do
  return line (.memWrite .sp value) :: (← pushWords 1)

/-- Pushes words from the address in `source`, which ends up past them. -/
def pushCopy (source : Register) (words : Nat) : Emit Assembly := do
  modifyFrame (·.push words)
  return (List.replicate words [line (.memCopy .sp source), line (increase source (word 1)),
    line (increase .sp (word 1))]).flatten

def popHeld (span : Span) : Emit (Assembly × Register) := do
  let pop ← popWords 1
  let r ← acquire span
  return (pop ++ [line (.memRead r .sp)], r)

def withPopped (span : Span) (body : Register → Emit Assembly) : Emit Assembly := do
  let (pop, r) ← popHeld span
  holding r do return pop ++ (← body r)

/-- Pops two words into registers for `body`: the right operand is on top, the left one gets the
lower register. -/
def withOperands (left right : Span) (body : Register → Register → Emit Assembly) : Emit Assembly :=
  withRegister left fun l => withRegister right fun r => do
    let popRight ← popWords 1
    let popLeft ← popWords 1
    let code ← body l r
    return popRight ++ line (.memRead r .sp) :: popLeft ++ line (.memRead l .sp) :: code

/-- Pushes 1 if the last comparison satisfied the relation, and 0 if it did not. -/
def pushRelation (relation : Relation) : Emit Assembly := do
  let yes ← freshLabel
  let done ← freshLabel
  let push ← pushWords 1
  return [line (.branch relation (.label yes)), line (.memWrite .sp (word 0)),
    line (.jmp (labelled done)), .label yes, line (.memWrite .sp (word 1)), .label done] ++ push

end Emit

end WordScript
