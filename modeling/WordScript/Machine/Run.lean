import WordScript.Machine

/-!
# Runs

Repeated steps, with or without a trace. A machine with a budget ends within one step more than
that; `Machine.runFor` takes any machine a bounded part of its way.
-/

namespace WordScript

structure Termination where
  registers : Vector Word registerCount
  memory : Array Word
  /-- Instructions run, the final `halt` included. -/
  steps : Nat
  deriving DecidableEq, Repr

namespace Termination

def stackPointer (t : Termination) : Word := t.registers[0]

/-- The word below the stack pointer, where a script leaves its result. -/
def topOfStack? (t : Termination) : Option Word :=
  if 0 < t.stackPointer then t.memory[t.stackPointer.toNatClampNeg - 1]? else none

end Termination

abbrev Ending := Except Failure Termination

structure Observation where
  pc : Nat
  opcode : Opcode
  operands : List Word
  registers : Vector Word registerCount
  deriving Repr

namespace Machine

def termination (m : Machine) : Termination := ⟨m.registers, m.memory, m.steps⟩

/-- Up to `n` steps: how the run ended, or the machine if it goes on. -/
def runFor : (n : Nat) → Machine → Machine ⊕ Ending
  | 0, m => .inl m
  | n + 1, m =>
    match step m with
    | .ok .running m => runFor n m
    | .ok .halted m => .inr (.ok m.termination)
    | .error e _ => .inr (.error e)

def nextObservation? (m : Machine) : Option Observation :=
  match m.fetch, m.spentBudget? with
  | .ok (some i), none => some ⟨m.pc, i.opcode, (i.words Fin.val).tail, m.registers⟩
  | _, _ => none

/-- Up to `n` steps with what an observer sees of them, latest first, before `seen`. -/
def traceFor : (n : Nat) → (seen : List Observation) → Machine →
    List Observation × (Machine ⊕ Ending)
  | 0, seen, m => (seen, .inl m)
  | n + 1, seen, m =>
    let seen := m.nextObservation?.toList ++ seen
    match step m with
    | .ok .running m => traceFor n seen m
    | .ok .halted m => (seen, .inr (.ok m.termination))
    | .error e _ => (seen, .inr (.error e))

end Machine

end WordScript
