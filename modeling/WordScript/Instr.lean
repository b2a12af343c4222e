import WordScript.Opcode

/-!
# Instructions

Instructions over a type of registers and a type of values. In assembly text registers have names
and values may be labels; in the machine registers are slots and values are words.
-/

namespace WordScript

inductive Operand (ρ τ : Type)
  | register (r : ρ)
  | value (v : τ)
  deriving DecidableEq, Repr

inductive Instr (ρ τ : Type)
  /-- Stop the machine. -/
  | halt
  | mov (target : ρ) (source : Operand ρ τ)
  /-- Combine `target` with `rhs` and keep the result in `target`. -/
  | arith (kind : NumKind) (op : ArithmeticOp) (target : ρ) (rhs : Operand ρ τ)
  /-- Compare for the branches that follow. -/
  | cmp (kind : NumKind) (lhs : ρ) (rhs : Operand ρ τ)
  | jmp (target : Operand ρ τ)
  /-- Jump if the last comparison satisfied the relation. -/
  | branch (relation : Relation) (target : τ)
  /-- Load the word at the address in `address`. -/
  | memRead (target address : ρ)
  /-- Store at the address in `address`. -/
  | memWrite (address : ρ) (source : Operand ρ τ)
  /-- Copy one word between the addresses in two registers. -/
  | memCopy (target source : ρ)
  deriving DecidableEq, Repr

variable {ρ τ σ : Type}

namespace Operand

def kind : Operand ρ τ → OperandKind
  | register _ => .register
  | value _ => .immediate

def mapM {m : Type → Type} [Monad m] (f : τ → m σ) : Operand ρ τ → m (Operand ρ σ)
  | register r => return .register r
  | value v => return .value (← f v)

end Operand

namespace Instr

def opcode : Instr ρ τ → Opcode
  | halt => .halt
  | mov _ source => .mov source.kind
  | arith kind op _ rhs => .arith kind op rhs.kind
  | cmp kind _ rhs => .cmp kind rhs.kind
  | jmp target => .jmp target.kind
  | branch relation _ => .branch relation
  | memRead .. => .memRead
  | memWrite _ source => .memWrite source.kind
  | memCopy .. => .memCopy

def operands : Instr ρ τ → List (Operand ρ τ)
  | halt => []
  | mov target source => [.register target, source]
  | arith _ _ target rhs => [.register target, rhs]
  | cmp _ lhs rhs => [.register lhs, rhs]
  | jmp target => [target]
  | branch _ target => [.value target]
  | memRead target address => [.register target, .register address]
  | memWrite address source => [.register address, source]
  | memCopy target source => [.register target, .register source]

def width (i : Instr ρ τ) : Nat := i.opcode.width

theorem kind_operands (i : Instr ρ τ) : i.operands.map Operand.kind = i.opcode.operands := by
  cases i <;> rfl

def ofOperands? : Opcode → List (Operand ρ τ) → Option (Instr ρ τ)
  | .halt, [] => some halt
  | .mov form, [.register r, s] => if s.kind = form then some (mov r s) else none
  | .arith kind op form, [.register r, s] =>
    if s.kind = form then some (arith kind op r s) else none
  | .cmp kind form, [.register r, s] => if s.kind = form then some (cmp kind r s) else none
  | .jmp form, [s] => if s.kind = form then some (jmp s) else none
  | .branch relation, [.value v] => some (branch relation v)
  | .memRead, [.register r, .register a] => some (memRead r a)
  | .memWrite form, [.register a, s] => if s.kind = form then some (memWrite a s) else none
  | .memCopy, [.register t, .register s] => some (memCopy t s)
  | _, _ => none

def ofMnemonic? (mnemonic : String) (operands : List (Operand ρ τ)) : Option (Instr ρ τ) := do
  ofOperands? (← Opcode.select? mnemonic (operands.map Operand.kind)) operands

def mapM {m : Type → Type} [Monad m] (f : τ → m σ) : Instr ρ τ → m (Instr ρ σ)
  | halt => return halt
  | mov target source => return mov target (← source.mapM f)
  | arith kind op target rhs => return arith kind op target (← rhs.mapM f)
  | cmp kind lhs rhs => return cmp kind lhs (← rhs.mapM f)
  | jmp target => return jmp (← target.mapM f)
  | branch relation target => return branch relation (← f target)
  | memRead target address => return memRead target address
  | memWrite address source => return memWrite address (← source.mapM f)
  | memCopy target source => return memCopy target source

def words (slot : ρ → Nat) (i : Instr ρ Word) : List Word :=
  i.opcode.word :: i.operands.map fun
    | .register r => Int32.ofNat (slot r)
    | .value w => w

end Instr

end WordScript
