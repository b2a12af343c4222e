import WordScript.Instr
import WordScript.Assembly
import WordScript.Bytecode

/-!
# The machine

A program counter, a file of 17 word registers and a flat word memory that starts at zero. The first
register is the stack pointer, but only the generated code gives it a meaning. A step that fails
leaves registers, memory and the last comparison as they were.
-/

namespace WordScript

abbrev registerCount : Nat := generalRegisters + 1

abbrev Slot := Fin registerCount

/-- Why a run stopped; `pc` is the offset of the instruction at fault. -/
inductive Failure
  | unknownOpcode (pc : Nat) (opcode : Word)
  | truncatedInstruction (pc : Nat)
  | invalidRegister (pc : Nat) (register : Word)
  | invalidAddress (pc : Nat) (address : Word)
  | invalidJump (pc : Nat) (target : Word)
  | divisionByZero (pc : Nat)
  | noComparison (pc : Nat)
  | stepBudgetExhausted (pc budget : Nat)
  deriving DecidableEq, Repr

namespace Failure

def message : Failure → String
  | unknownOpcode pc opcode => s!"unknown opcode {opcode.text} at {pc}"
  | truncatedInstruction pc => s!"instruction at {pc} runs past the end of the code"
  | invalidRegister pc register => s!"invalid register {register.text} at {pc}"
  | invalidAddress pc address => s!"address {address.text} is outside memory, at {pc}"
  | invalidJump pc target => s!"jump to {target.text} leaves the code, at {pc}"
  | divisionByZero pc => s!"division by zero at {pc}"
  | noComparison pc => s!"conditional jump without a comparison at {pc}"
  | stepBudgetExhausted pc budget => s!"step budget of {budget} exhausted at {pc}"

def pc : Failure → Nat
  | unknownOpcode pc _ | truncatedInstruction pc | invalidRegister pc _ | invalidAddress pc _
  | invalidJump pc _ | divisionByZero pc | noComparison pc | stepBudgetExhausted pc _ => pc

end Failure

instance : ToString Failure := ⟨Failure.message⟩

def Slot.ofWord (w : Word) : Except Word Slot :=
  if h : 0 ≤ w ∧ w.toNatClampNeg < registerCount then .ok ⟨w.toNatClampNeg, h.2⟩ else .error w

namespace Instr

def decodeOperand (form : OperandKind) (w : Word) : Except Word (Operand Slot Word) :=
  match form with
  | .register => (Slot.ofWord w).map .register
  | .immediate => .ok (.value w)

/-- The instruction with this opcode and operand words, or the first word that names no register. An
opcode with fewer operands ignores the words it does not need. -/
def decode (opcode : Opcode) (a b : Word) : Except Word (Instr Slot Word) :=
  match opcode with
  | .halt => .ok halt
  | .mov form => return mov (← Slot.ofWord a) (← decodeOperand form b)
  | .arith kind op form => return arith kind op (← Slot.ofWord a) (← decodeOperand form b)
  | .cmp kind form => return cmp kind (← Slot.ofWord a) (← decodeOperand form b)
  | .jmp form => return jmp (← decodeOperand form a)
  | .branch relation => .ok (branch relation a)
  | .memRead => return memRead (← Slot.ofWord a) (← Slot.ofWord b)
  | .memWrite form => return memWrite (← Slot.ofWord a) (← decodeOperand form b)
  | .memCopy => return memCopy (← Slot.ofWord a) (← Slot.ofWord b)

end Instr

/-- How much memory a machine has, and how many instructions it may run; none sets no limit. -/
structure MachineConfig where
  memoryWords : Nat
  budget : Option Nat
  deriving DecidableEq, Repr

def MachineConfig.standard : MachineConfig := ⟨65536, some 10000000⟩

structure Machine where
  code : Bytecode
  budget : Option Nat
  registers : Vector Word registerCount
  memory : Array Word
  /-- How the last comparison came out. -/
  flags : Option Comparison
  pc : Nat
  steps : Nat
  deriving Inhabited

inductive Status
  | running
  | halted
  deriving DecidableEq, Repr

namespace Machine

def load (code : Bytecode) (config : MachineConfig) : Machine where
  code := code
  budget := config.budget
  registers := Vector.replicate registerCount 0
  memory := Array.replicate config.memoryWords 0
  flags := none
  pc := 0
  steps := 0

def fetch (m : Machine) : Except Failure (Option (Instr Slot Word)) :=
  match m.code.words[m.pc]? with
  | none => .ok none
  | some word =>
    match Opcode.ofWord? word with
    | none => .error (.unknownOpcode m.pc word)
    | some opcode =>
      if m.code.size < m.pc + opcode.width then .error (.truncatedInstruction m.pc)
      else
        match Instr.decode opcode (m.code.words.getD (m.pc + 1) 0)
            (m.code.words.getD (m.pc + 2) 0) with
        | .ok i => .ok (some i)
        | .error w => .error (.invalidRegister m.pc w)

def spentBudget? (m : Machine) : Option Nat := m.budget.filter (· ≤ m.steps)

def register (m : Machine) (r : Slot) : Word := m.registers[r]

def setRegister (m : Machine) (r : Slot) (w : Word) : Machine :=
  { m with registers := m.registers.set r w }

def operand (m : Machine) : Operand Slot Word → Word
  | .register r => m.register r
  | .value w => w

def cell? (m : Machine) (address : Word) : Option (Fin m.memory.size) :=
  if h : 0 ≤ address ∧ address.toNatClampNeg < m.memory.size then some ⟨address.toNatClampNeg, h.2⟩
  else none

/-- Goes on at `target`. The end of the code is a valid place to go. -/
def jump (m : Machine) (pc : Nat) (target : Word) : EStateM.Result Failure Machine Status :=
  if 0 ≤ target ∧ target.toNatClampNeg ≤ m.code.size then
    .ok .running { m with pc := target.toNatClampNeg }
  else .error (.invalidJump pc target) m

def exec (pc : Nat) (i : Instr Slot Word) (m : Machine) : EStateM.Result Failure Machine Status :=
  match i with
  | .halt => .ok .halted m
  | .mov target source => .ok .running (m.setRegister target (m.operand source))
  | .arith kind op target rhs =>
    match Word.arithmetic? kind op (m.register target) (m.operand rhs) with
    | some w => .ok .running (m.setRegister target w)
    | none => .error (.divisionByZero pc) m
  | .cmp kind lhs rhs =>
    .ok .running { m with flags := some (Word.compare kind (m.register lhs) (m.operand rhs)) }
  | .jmp target => m.jump pc (m.operand target)
  | .branch relation target =>
    match m.flags with
    | none => .error (.noComparison pc) m
    | some c => if relation.holds c then m.jump pc target else .ok .running m
  | .memRead target address =>
    match m.cell? (m.register address) with
    | some cell => .ok .running (m.setRegister target m.memory[cell])
    | none => .error (.invalidAddress pc (m.register address)) m
  | .memWrite address source =>
    match m.cell? (m.register address) with
    | some cell => .ok .running { m with memory := m.memory.set cell (m.operand source) }
    | none => .error (.invalidAddress pc (m.register address)) m
  | .memCopy target source =>
    match m.cell? (m.register source) with
    | none => .error (.invalidAddress pc (m.register source)) m
    | some read =>
      match m.cell? (m.register target) with
      | none => .error (.invalidAddress pc (m.register target)) m
      | some written => .ok .running { m with memory := m.memory.set written m.memory[read] }

/-- Runs one instruction. The end of the code halts and counts no step. -/
def step : EStateM Failure Machine Status := fun m =>
  match m.fetch with
  | .error e => .error e m
  | .ok none => .ok .halted m
  | .ok (some i) =>
    match m.spentBudget? with
    | some budget => .error (.stepBudgetExhausted m.pc budget) m
    | none => exec m.pc i { m with pc := m.pc + i.width, steps := m.steps + 1 }

end Machine

end WordScript
