import WordScript.Assembly.Reader
import WordScript.Bytecode

/-!
# Assembling

A first pass gives every label its value: code labels the offset of the instruction after them,
statics their address. A second pass writes the words.

Offsets and addresses are words. Their sums wrap around in `Bytecode.ofAssembly`, which is what a
build without overflow checks does. A build with them stops where a sum is not a word
(`Bytecode.ofAssembly?`). Apart from that, the two are the same.
-/

namespace WordScript

def Word.add? (a b : Word) : Option Word :=
  if (a + b).toInt = a.toInt + b.toInt then some (a + b) else none

abbrev SymbolTable := List (String × Word)

namespace Assembly

/-- Gives labels their values. Code and static memory have been counted up to `offset` and
`address`. -/
def collectSymbols (table : SymbolTable) (offset address : Word) :
    List SourceItem → Except (Fault AssembleError) SymbolTable
  | [] => .ok table
  | .instruction i :: items => collectSymbols table (offset + Int32.ofNat i.width) address items
  | .label name :: items =>
    if (table.lookup name.value).isSome then .error (.raise (.duplicateLabel name.value) name.span)
    else collectSymbols ((name.value, offset) :: table) offset address items
  | .static name words :: items =>
    if (table.lookup name.value).isSome then .error (.raise (.duplicateLabel name.value) name.span)
    else collectSymbols ((name.value, address) :: table) offset (address + Int32.ofNat words) items

/-- The first pass with checked sums. The size of a static is added before its name is looked up. -/
def collectSymbols? (table : SymbolTable) (offset address : Word) :
    List SourceItem → Option (Except (Fault AssembleError) SymbolTable)
  | [] => some (.ok table)
  | .instruction i :: items => do
      collectSymbols? table (← offset.add? (.ofNat i.width)) address items
  | .label name :: items =>
    if (table.lookup name.value).isSome then
      some (.error (.raise (.duplicateLabel name.value) name.span))
    else collectSymbols? ((name.value, offset) :: table) offset address items
  | .static name words :: items => do
    let next ← address.add? (.ofNat words)
    if (table.lookup name.value).isSome then
      some (.error (.raise (.duplicateLabel name.value) name.span))
    else collectSymbols? ((name.value, address) :: table) offset next items

def resolve (table : SymbolTable) (v : Located Value) : Except (Fault AssembleError) Word :=
  match v.value with
  | .immediate w => .ok w
  | .label l =>
    match table.lookup l.name with
    | some w => .ok w
    | none => .error (.raise (.undefinedLabel l.name) v.span)

def encode (table : SymbolTable) : List SourceItem → Except (Fault AssembleError) (List Word)
  | [] => .ok []
  | .instruction i :: items => do
    let i ← i.mapM (resolve table)
    return i.words Register.slot ++ (← encode table items)
  | _ :: items => encode table items

end Assembly

/-- Assembles a text. Sums wrap around. -/
def Bytecode.ofAssembly (source : SourceText) : Except (Fault AssembleError) Bytecode := do
  let items ← Assembly.read source.chars
  let table ← Assembly.collectSymbols [] 0 0 items
  return .ofList (← Assembly.encode table items)

/-- Assembles a text with checked sums. There is no answer if one of them is not a word. -/
def Bytecode.ofAssembly? (source : SourceText) : Option (Except (Fault AssembleError) Bytecode) :=
  match Assembly.read source.chars with
  | .error f => some (.error f)
  | .ok items => do
    match ← Assembly.collectSymbols? [] 0 0 items with
    | .error f => some (.error f)
    | .ok table => some ((Assembly.encode table items).map .ofList)

end WordScript
