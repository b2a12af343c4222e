import WordScript.Opcode
import WordScript.Text.CharClass
import WordScript.Text.Numeral
import WordScript.Text.Padding
import WordScript.Text.Quoted
import WordScript.Text.Source

/-!
# Bytecode

Executable programs as words, and their three texts: all words on one line, one word a line, and a
listing for readers. `Bytecode.read` accepts the first two in any mixture.
-/

namespace WordScript

structure Bytecode where
  words : Array Word
  deriving DecidableEq, Repr, Inhabited

inductive BytecodeError
  | invalidWord (index : Nat) (word : String)
  deriving DecidableEq, Repr

def BytecodeError.message : BytecodeError → String
  | invalidWord index word => s!"word {index} is not an integer: {quoteText word}"

instance : ToString BytecodeError := ⟨BytecodeError.message⟩

namespace Bytecode

def ofList (words : List Word) : Bytecode := ⟨words.toArray⟩

def size (b : Bytecode) : Nat := b.words.size

def isEmpty (b : Bytecode) : Bool := b.words.isEmpty

/-- The entries of a text: what stands between commas and newlines, less surrounding white space.
Blank entries do not count. -/
def entries (cs : List Char) : List (List Char) :=
  ((splitWhere (fun c => c == ',' || c == '\n') cs).map trimBlanks).filter (!·.isEmpty)

def readEntries (index : Nat) : List (List Char) → Except BytecodeError (List Word)
  | [] => .ok []
  | entry :: rest =>
    match readInt32? entry with
    | some w => (readEntries (index + 1) rest).map (w :: ·)
    | none => .error (.invalidWord index (String.ofList entry))

def read (text : String) : Except BytecodeError Bytecode :=
  (readEntries 0 (entries text.toList)).map ofList

def line (b : Bytecode) : String := ",".intercalate (b.words.toList.map Word.text)

def lines (b : Bytecode) : String := String.join (b.words.toList.map fun w => w.text ++ "\n")

end Bytecode

/-- What a linear sweep over words finds: instructions, and words that start none. -/
inductive Swept
  | instruction (opcode : Opcode) (operands : List Word)
  | data (word : Word)
  deriving DecidableEq, Repr

namespace Swept

def words : Swept → List Word
  | instruction opcode operands => opcode.word :: operands
  | data word => [word]

def read (w : Word) (rest : List Word) : Swept :=
  match Opcode.ofWord? w with
  | some opcode =>
    if opcode.arity ≤ rest.length then instruction opcode (rest.take opcode.arity) else data w
  | none => data w

/-- An operand as it is listed. The number of a register is a difference of words, which wraps
around at the least word. -/
def operandText : OperandKind → Word → String
  | .register, w => if w = 0 then "sp" else "r" ++ (w - 1).text
  | .immediate, w => w.text

def text : Swept → String
  | instruction opcode operands =>
    padRight 8 opcode.mnemonic ++ " " ++
      ", ".intercalate (List.zipWith operandText opcode.operands operands)
  | data word => padRight 8 ".word" ++ " " ++ word.text

end Swept

namespace Bytecode

def sweep : List Word → List Swept
  | [] => []
  | w :: rest =>
    let item := Swept.read w rest
    item :: sweep (rest.drop (item.words.length - 1))
termination_by words => words.length
decreasing_by simp only [List.length_drop, List.length_cons]; omega

def listingFrom (offset : Nat) : List Swept → List String
  | [] => []
  | item :: rest =>
    (padLeft 5 (toString offset) ++ "  " ++ item.text) :: listingFrom
      (offset + item.words.length) rest

/-- One instruction a line behind its offset; words that start none are listed as data. -/
def listing (b : Bytecode) : String := "\n".intercalate (listingFrom 0 (sweep b.words.toList))

end Bytecode

end WordScript
