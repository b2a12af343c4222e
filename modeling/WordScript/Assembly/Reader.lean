import WordScript.Assembly
import WordScript.Diagnostic
import WordScript.Text.CharClass
import WordScript.Text.Numeral
import WordScript.Text.Quoted

/-!
# Reading assembly

Each line holds labels, then at most one directive or instruction, then perhaps a comment. White
space and commas separate words alike. An operand that is no register and no number names a label.
-/

namespace WordScript

inductive AssembleError
  | unknownMnemonic (mnemonic : String)
  | arity (mnemonic : String) (expected found : Nat)
  | invalidOperand (mnemonic found : String)
  | malformedDirective (problem : String)
  | duplicateLabel (name : String)
  | undefinedLabel (name : String)
  deriving DecidableEq, Repr

def AssembleError.message : AssembleError → String
  | unknownMnemonic mnemonic => s!"unknown mnemonic {quoteText mnemonic}"
  | arity mnemonic expected found => s!"{mnemonic} takes {expected} operands, found {found}"
  | invalidOperand mnemonic found => s!"invalid operands for {mnemonic}: {found}"
  | malformedDirective problem => s!"malformed directive: {problem}"
  | duplicateLabel name => s!"label {quoteText name} is defined more than once"
  | undefinedLabel name => s!"undefined label {quoteText name}"

instance : ToString AssembleError := ⟨AssembleError.message⟩

structure Located (α : Type) where
  value : α
  span : Span
  deriving DecidableEq, Repr

inductive SourceItem
  | label (name : Located String)
  | static (name : Located String) (words : Nat)
  | instruction (i : Instr Register (Located Value))
  deriving DecidableEq, Repr

namespace Assembly

def isSeparator (c : Char) : Bool := isBlank c || c == ','

/-- The words of a text whose first character is byte `offset`, each with the byte it starts at. -/
def splitWords (offset : Nat) : List Char → List (Nat × List Char)
  | [] => []
  | c :: cs =>
    let words := splitWords (offset + c.utf8Size) cs
    if isSeparator c then words
    else match words with
      | [] => [(offset, [c])]
      | (start, word) :: more =>
        if start = offset + c.utf8Size then (offset, c :: word) :: more
        else (offset, [c]) :: (start, word) :: more

/-- The words of a line up to its comment. `start` is where the line starts in the whole text. -/
def lineWords (start : Nat) (line : List Char) : List (Located (List Char)) :=
  (splitWords start (line.takeWhile (· != '#'))).map fun (offset, word) =>
    ⟨word, ⟨offset, byteLength word⟩⟩

def isSymbolStart (c : Char) : Bool := c.isAlpha || c == '_' || c == '.'

def isSymbolChar (c : Char) : Bool := c.isAlphanum || c == '_' || c == '.'

def isSymbol : List Char → Bool
  | [] => false
  | c :: cs => isSymbolStart c && cs.all isSymbolChar

/-- A register, a number or a label. An `r` with digits is a register or nothing. -/
def readOperand? (cs : List Char) : Option (Operand Register Value) :=
  let other : Option (Operand Register Value) :=
    match readInt32? cs with
    | some w => some (.value (.immediate w))
    | none => if isSymbol cs then some (.value (.label ⟨String.ofList cs⟩)) else none
  match cs with
  | ['s', 'p'] => some (.register .sp)
  | 'r' :: digits =>
    match readDigits? digits with
    | some index => if index < generalRegisters then some (.register (.general index)) else none
    | none => other
  | _ => other

def labelName? (word : List Char) : Option (List Char) :=
  if word.getLast? = some ':' ∧ isSymbol word.dropLast then some word.dropLast else none

def spanLabels : List (Located (List Char)) → List SourceItem × List (Located (List Char))
  | [] => ([], [])
  | word :: words =>
    match labelName? word.value with
    | some name =>
      let (labels, rest) := spanLabels words
      (.label ⟨String.ofList name, word.span⟩ :: labels, rest)
    | none => ([], word :: words)

def readStatic (directive : Located (List Char)) (args : List (Located (List Char))) :
    Except (Fault AssembleError) SourceItem :=
  let malformed (problem : String) (span : Span) : Except (Fault AssembleError) SourceItem :=
    .error (.raise (.malformedDirective problem) span)
  match args with
  | [name, words] =>
    if !isSymbol name.value then malformed "expected a static name" name.span
    else match readNatBelow? sizeBound words.value with
      | some n => .ok (.static ⟨String.ofList name.value, name.span⟩ n)
      | none => malformed "expected a word count" words.span
  | _ => malformed ".static takes a name and a word count" directive.span

def locateOperand (span : Span) : Operand Register Value → Operand Register (Located Value)
  | .register r => .register r
  | .value v => .value ⟨v, span⟩

def readInstruction (mnemonic : Located (List Char)) (args : List (Located (List Char))) :
    Except (Fault AssembleError) SourceItem := do
  let text := String.ofList mnemonic.value
  let invalid (span : Span) : Fault AssembleError :=
    .raise (.invalidOperand text (", ".intercalate (args.map fun arg => String.ofList arg.value)))
      span
  match Opcode.forms text with
  | [] => throw (.raise (.unknownMnemonic text) mnemonic.span)
  | form :: _ =>
    if args.length ≠ form.arity then
      throw (.raise (.arity text form.arity args.length) mnemonic.span)
    let operands ← args.mapM fun arg =>
      match readOperand? arg.value with
      | some operand => pure (locateOperand arg.span operand)
      | none => throw (invalid arg.span)
    match Instr.ofMnemonic? text operands with
    | some i => return .instruction i
    | none => throw (invalid mnemonic.span)

def readLine (start : Nat) (line : List Char) : Except (Fault AssembleError) (List SourceItem) := do
  let (labels, words) := spanLabels (lineWords start line)
  match words with
  | [] => return labels
  | first :: args =>
    let item ←
      if first.value = ".static".toList then readStatic first args else readInstruction first args
    return labels ++ [item]

def readLines (start : Nat) : List (List Char) → Except (Fault AssembleError) (List SourceItem)
  | [] => .ok []
  | line :: lines => do
    let items ← readLine start line
    return items ++ (← readLines (start + byteLength line + 1) lines)

def read (cs : List Char) : Except (Fault AssembleError) (List SourceItem) :=
  (readLines 0 (splitLines cs)).mapError (Fault.within "reading assembly")

end Assembly

end WordScript
