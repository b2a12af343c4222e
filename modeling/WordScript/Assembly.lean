import WordScript.Instr
import WordScript.Text.Padding

/-!
# Assembly

Symbolic programs: static memory, labels, instructions and comments, and the text they are written
as. `Assembly/Reader` reads that text back.
-/

namespace WordScript

/-- Registers by name. Scripts use `r0` to `r15`; the text can name others. -/
inductive Register
  | sp
  | general (index : Nat)
  deriving DecidableEq, Repr, Inhabited

namespace Register

def text : Register → String
  | sp => "sp"
  | general index => s!"r{index}"

def slot : Register → Nat
  | sp => 0
  | general index => index + 1

end Register

def generalRegisters : Nat := 16

structure Label where
  name : String
  deriving DecidableEq, Repr, Inhabited

namespace Label

def function (name : String) : Label := ⟨s!"fn.{name}"⟩

def method (owner name : String) : Label := ⟨s!"fn.{owner}.{name}"⟩

def static (name : String) : Label := ⟨s!"static.{name}"⟩

def string (index : Nat) : Label := ⟨s!"str.{index}"⟩

def code (index : Nat) : Label := ⟨s!".L{index}"⟩

end Label

inductive Value
  | immediate (w : Word)
  | label (l : Label)
  deriving DecidableEq, Repr

def Value.text : Value → String
  | immediate w => w.text
  | label l => l.name

abbrev Instruction := Instr Register Value

namespace Instruction

def operandText : Operand Register Value → String
  | .register r => r.text
  | .value v => v.text

def text (i : Instruction) : String :=
  match i.operands with
  | [] => i.opcode.mnemonic
  | operands => padRight 8 i.opcode.mnemonic ++ " " ++ ", ".intercalate (operands.map operandText)

end Instruction

inductive Item
  /-- Reserve words of static memory. -/
  | static (label : Label) (words : Nat)
  | label (label : Label)
  | instruction (i : Instruction) (comment : Option String)
  | comment (text : String)
  deriving DecidableEq, Repr

namespace Item

def text : Item → String
  | static l words => s!".static {l.name} {words}"
  | label l => l.name ++ ":"
  | instruction i none => "\t" ++ i.text
  | instruction i (some s) => "\t" ++ padRight 24 i.text ++ " # " ++ s
  | comment s => "# " ++ s

def instruction? : Item → Option Instruction
  | instruction i _ => some i
  | _ => none

end Item

abbrev Assembly := List Item

namespace Assembly

def instructions (a : Assembly) : List Instruction := a.filterMap Item.instruction?

/-- The lines, each with its newline; the empty program is one empty line. -/
def text (a : Assembly) : String := "\n".intercalate (a.map Item.text) ++ "\n"

end Assembly

end WordScript
