import WordScript.Word

/-!
# Opcodes

Every instruction is one opcode word followed by a fixed number of operand words. A register operand
is a slot of the register file, an immediate is the value itself. A mnemonic whose last operand can
be either has one opcode for each form.
-/

namespace WordScript

inductive OperandKind
  | register
  | immediate
  deriving DecidableEq, Repr

def OperandKind.text : OperandKind → String
  | register => "register"
  | immediate => "immediate"

/-- The operations of the machine; `form` is the kind of the last operand where there is a choice.
-/
inductive Opcode
  | halt
  | mov (form : OperandKind)
  | arith (kind : NumKind) (op : ArithmeticOp) (form : OperandKind)
  | cmp (kind : NumKind) (form : OperandKind)
  | jmp (form : OperandKind)
  | branch (relation : Relation)
  | memRead
  | memWrite (form : OperandKind)
  | memCopy
  deriving DecidableEq, Repr

def Relation.mnemonic : Relation → String
  | equal => "jeq"
  | notEqual => "jne"
  | greater => "jgt"
  | less => "jlt"
  | greaterEqual => "jge"
  | lessEqual => "jle"

def ArithmeticOp.mnemonic : ArithmeticOp → String
  | add => "add"
  | sub => "sub"
  | mul => "mul"
  | div => "div"

namespace Opcode

def table : Array Opcode := #[
  halt, mov .register, mov .immediate,
  arith .integer .add .register, arith .integer .add .immediate,
  arith .integer .sub .register, arith .integer .sub .immediate,
  arith .integer .mul .register, arith .integer .mul .immediate,
  arith .integer .div .register, arith .integer .div .immediate,
  arith .float .add .register, arith .float .add .immediate,
  arith .float .sub .register, arith .float .sub .immediate,
  arith .float .mul .register, arith .float .mul .immediate,
  arith .float .div .register, arith .float .div .immediate,
  cmp .integer .register, cmp .integer .immediate, cmp .float .register, cmp .float .immediate,
  jmp .immediate, jmp .register,
  branch .equal, branch .notEqual, branch .greater, branch .less, branch .greaterEqual,
  branch .lessEqual,
  memRead, memWrite .register, memWrite .immediate, memCopy]

private def formOffset : OperandKind → Nat
  | .register => 0
  | .immediate => 1

private def arithOffset : ArithmeticOp → Nat
  | .add => 0
  | .sub => 2
  | .mul => 4
  | .div => 6

private def branchOffset : Relation → Nat
  | .equal => 0
  | .notEqual => 1
  | .greater => 2
  | .less => 3
  | .greaterEqual => 4
  | .lessEqual => 5

def number : Opcode → Nat
  | halt => 0
  | mov form => 1 + formOffset form
  | arith .integer op form => 3 + arithOffset op + formOffset form
  | arith .float op form => 11 + arithOffset op + formOffset form
  | cmp .integer form => 19 + formOffset form
  | cmp .float form => 21 + formOffset form
  | jmp .immediate => 23
  | jmp .register => 24
  | branch relation => 25 + branchOffset relation
  | memRead => 31
  | memWrite form => 32 + formOffset form
  | memCopy => 34

def word (o : Opcode) : Word := Int32.ofNat o.number

def ofWord? (w : Word) : Option Opcode := if 0 ≤ w then table[w.toNatClampNeg]? else none

theorem table_number (o : Opcode) : table[o.number]? = some o := by
  cases o with
  | halt | memRead | memCopy => rfl
  | mov form | jmp form | memWrite form => cases form <;> rfl
  | branch relation => cases relation <;> rfl
  | cmp kind form => cases kind <;> cases form <;> rfl
  | arith kind op form => cases kind <;> cases op <;> cases form <;> rfl

def mnemonic : Opcode → String
  | halt => "halt"
  | mov _ => "mov"
  | arith .integer op _ => op.mnemonic
  | arith .float op _ => "f" ++ op.mnemonic
  | cmp .integer _ => "cmp"
  | cmp .float _ => "fcmp"
  | jmp _ => "jmp"
  | branch relation => relation.mnemonic
  | memRead => "memread"
  | memWrite _ => "memwrite"
  | memCopy => "memcopy"

def operands : Opcode → List OperandKind
  | halt => []
  | mov form | arith _ _ form | cmp _ form | memWrite form => [.register, form]
  | jmp form => [form]
  | branch _ => [.immediate]
  | memRead | memCopy => [.register, .register]

def arity (o : Opcode) : Nat := o.operands.length

def width (o : Opcode) : Nat := 1 + o.arity

private def formName : OperandKind → String
  | .register => "Reg"
  | .immediate => "Imm"

private def arithName : ArithmeticOp → String
  | .add => "Add"
  | .sub => "Sub"
  | .mul => "Mul"
  | .div => "Div"

private def branchName : Relation → String
  | .equal => "Jeq"
  | .notEqual => "Jne"
  | .greater => "Jgt"
  | .less => "Jlt"
  | .greaterEqual => "Jge"
  | .lessEqual => "Jle"

/-- The name of an opcode, which unlike the mnemonic tells its forms apart. -/
def name : Opcode → String
  | halt => "Halt"
  | mov form => "Mov" ++ formName form
  | arith .integer op form => arithName op ++ formName form
  | arith .float op form => "F" ++ arithName op ++ formName form
  | cmp .integer form => "Cmp" ++ formName form
  | cmp .float form => "FCmp" ++ formName form
  | jmp form => "Jmp" ++ formName form
  | branch relation => branchName relation
  | memRead => "MemRead"
  | memWrite form => "MemWrite" ++ formName form
  | memCopy => "MemCopy"

def forms (mnemonic : String) : List Opcode := table.toList.filter (·.mnemonic == mnemonic)

def select? (mnemonic : String) (kinds : List OperandKind) : Option Opcode :=
  (forms mnemonic).find? (·.operands == kinds)

end Opcode

end WordScript
