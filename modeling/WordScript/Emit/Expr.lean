import WordScript.Emit.Basic

/-!
# Code for expressions

The code of an expression leaves its value on top of the stack: `sp` moves up by the words of its
type. The code of a place leaves the stack as it was and its address in a register.
-/

namespace WordScript.Emit

/-! ## Calls -/

def saveAll : List Register → Emit Assembly
  | [] => return []
  | r :: rest => do
    let push ← pushWords 1
    let saves ← saveAll rest
    return noted (.memWrite .sp (.register r)) s!"save {r.text}" :: push ++ saves

def restoreAll : List Register → Emit Assembly
  | [] => return []
  | r :: rest => do
    let pop ← popWords 1
    let restores ← restoreAll rest
    return pop ++ noted (.memRead r .sp) s!"restore {r.text}" :: restores

def reserve (words : Nat) (type : String) : Emit Assembly := do
  if words = 0 then return []
  modifyFrame (·.push words)
  return [noted (increase .sp (count words)) s!"room for {type}"]

def pushReceiver (place : Emit (Option (Assembly × Register))) : Emit Assembly := do
  match ← place with
  | none => return []
  | some (code, address) =>
    holding address do
      let push ← pushWords 1
      return code ++ noted (.memWrite .sp (.register address)) "this" :: push

def popEach : List Nat → Emit Assembly
  | [] => return []
  | words :: rest => do
    let pop ← popWords words
    return pop ++ (← popEach rest)

/-- Restores the saved registers from below the result, then moves the result down to where they
were. -/
def slideResult (span : Span) (saved : List Register) (words : Nat) : Emit Assembly := do
  if saved = [] then return []
  let down := if words = 0 then [] else [line (decrease .sp (count words))]
  let restores ← restoreAll saved.reverse
  if words = 0 then return down ++ restores
  withRegister span fun cursor =>
    return down ++ restores ++
      line (.mov cursor (.register .sp)) :: line (increase cursor (count saved.length)) ::
        copyWords .sp cursor words

/-- A call. The stack holds, from below, the saved registers, room for the result, the receiver, the
arguments and the return address; the callee pops the last. -/
def call (c : EmitContext) (span : Span) (target : CallTarget)
    (receiver : Emit (Option (Assembly × Register))) (args : Emit Assembly) : Emit Assembly := do
  let signature := target.signature
  let words := c.structs.words signature.returns
  let saved := (← get).registers.live
  let saves ← saveAll saved
  let room ← reserve words (c.structs.text signature.returns)
  let this ← pushReceiver receiver
  let args ← args
  let back ← freshLabel
  let enter := [line (.memWrite .sp (labelled back)), line (increase .sp (word 1)),
    noted (.jmp (labelled target.function.label)) s!"call {target.function.text}", .label back]
  let popArgs ← popEach (signature.params.reverse.map fun p => c.structs.words p.2)
  let popThis ← popWords (if signature.receiver.isSome then 1 else 0)
  let result ← slideResult span saved words
  return saves ++ room ++ this ++ args ++ enter ++ popArgs ++ popThis ++ result

/-! ## Operators -/

def operandTest (c : EmitContext) (operand : Expr) (code : Emit Assembly) (deciding : Relation)
    (decided : Label) : Emit Assembly := do
  let type ← typeHere c operand
  let value ← code
  let test ← withPopped operand.span fun r =>
    return [line (zeroTest r type), line (.branch deciding (.label decided))]
  return value ++ test

/-- The right side runs only if the left one does not decide. -/
def logic (c : EmitContext) (op : LogicOp) (lhs rhs : Expr) (left right : Emit Assembly) :
    Emit Assembly := do
  let (deciding, decidedValue, otherwise) : Relation × Word × Word := match op with
    | .and => (.equal, 0, 1)
    | .or => (.notEqual, 1, 0)
  let decided ← freshLabel
  let done ← freshLabel
  let left ← operandTest c lhs left deciding decided
  let right ← operandTest c rhs right deciding decided
  let push ← pushWords 1
  return left ++ right ++ [line (.memWrite .sp (word otherwise)), line (.jmp (labelled done)),
    .label decided, line (.memWrite .sp (word decidedValue)), .label done] ++ push

def unary (c : EmitContext) (op : UnaryOp) (type : ValueType) (operand : Expr)
    (code : Emit Assembly) : Emit Assembly := do
  let value ← code
  match op with
  | .negate =>
    let result ← withPopped operand.span fun r => do
      let minusOne : Word := if type = .float then .ofFloat (-1) else -1
      let push ← pushValue (.register r)
      return line (.arith (numKind type) .mul r (word minusOne)) :: push
    return value ++ result
  | .not =>
    let operandType ← typeHere c operand
    let test ← withPopped operand.span fun r => return [line (zeroTest r operandType)]
    return value ++ test ++ (← pushRelation .equal)

def binary (c : EmitContext) (op : BinaryOp) (type : ValueType) (lhs rhs : Expr)
    (left right : Emit Assembly) : Emit Assembly := do
  match op with
  | .arithmetic op =>
    let left ← left
    let right ← right
    let result ← withOperands lhs.span rhs.span fun l r => do
      let push ← pushValue (.register l)
      return line (.arith (numKind type) op l (.register r)) :: push
    return left ++ right ++ result
  | .relation relation =>
    let operandType ← typeHere c lhs
    let left ← left
    let right ← right
    let test ← withOperands lhs.span rhs.span fun l r =>
      return [line (.cmp (numKind operandType) l (.register r))]
    return left ++ right ++ test ++ (← pushRelation relation)
  | .logic op => logic c op lhs rhs left right

def store (words : Nat) (address : Register) : Assembly :=
  line (decrease .sp (count words)) :: copyWords address .sp words

/-- Combines the word at the place with the value on the stack. The place is read last. -/
def update (op : ArithmeticOp) (type : ValueType) (target value : Expr) (address : Register) :
    Emit Assembly :=
  withPopped value.span fun operand => withRegister target.span fun result => do
    let push ← pushValue (.register result)
    return [line (.memRead result address),
      line (.arith (numKind type) op result (.register operand)),
      line (.memWrite address (.register result))] ++ push

def assign (c : EmitContext) (op : Option ArithmeticOp) (type : ValueType) (target value : Expr)
    (place : Emit (Assembly × Register)) (code : Emit Assembly) : Emit Assembly := do
  let (placeCode, address) ← place
  holding address do
    let valueCode ← code
    match op with
    | none => return placeCode ++ valueCode ++ store (c.structs.words type) address
    | some op => return placeCode ++ valueCode ++ (← update op type target value address)

/-! ## Expressions and places -/

def findVariable (name : String) (span : Span) : Emit Location := do
  match (← get).frame.lookup name with
  | some (_, location) => return location
  | none => fault (.unknownIdentifier name) span

def selectField (c : EmitContext) (span : Span) (structWords : Nat) (field : Field) :
    Emit Assembly := do
  let pop ← popWords structWords
  withRegister span fun cursor => do
    let move := if field.offset = 0 then [] else [line (increase cursor (count field.offset))]
    let push ← pushCopy cursor (c.structs.words field.type)
    return pop ++ noted (.mov cursor (.register .sp)) s!".{field.name}" :: move ++ push

def sizeWords (c : EmitContext) (span : Span) (inner : Expr) : Emit Nat := do
  match Typing.namedSize? c.structs (.sizeOf span inner) with
  | some words => return words
  | none => return c.structs.words (← typeHere c inner)

mutual

/-- Code that pushes the value of an expression. Each is checked before its code is emitted. -/
def expr (c : EmitContext) : Expr → Emit Assembly
  | .integer _ value => pushValue (word value)
  | .float _ bits => pushValue (word bits)
  | .string span content =>
    match c.strings.label? content with
    | some l => pushValue (labelled l)
    | none => fault (.unknownIdentifier content) span
  | .var span name => do
    let type ← typeHere c (.var span name)
    let location ← findVariable name span
    withRegister span fun cursor => do
      let push ← pushCopy cursor (c.structs.words type)
      return pointAt cursor location s!"read {name}" ++ push
  | .call span callee args => do
    let _ ← typeHere c (.call span callee args)
    let target ← ofCheck (Typing.callTarget (← typing c) callee)
    call c span target (receiver c callee) (arguments c args)
  | .binary span op lhs rhs => do
    let type ← typeHere c (.binary span op lhs rhs)
    binary c op type lhs rhs (expr c lhs) (expr c rhs)
  | .unary span op operand => do
    let type ← typeHere c (.unary span op operand)
    unary c op type operand (expr c operand)
  | .assign span op target value => do
    let type ← typeHere c (.assign span op target value)
    assign c op type target value (place c target) (expr c value)
  | .field span base name => do
    let _ ← typeHere c (.field span base name)
    let baseType ← typeHere c base
    let field ← ofCheck (Typing.fieldOf c.structs baseType name)
    let code ← expr c base
    return code ++ (← selectField c span (c.structs.words baseType) field)
  | .addressOf span inner => do
    let _ ← typeHere c (.addressOf span inner)
    let (code, address) ← place c inner
    holding address do return code ++ (← pushValue (.register address))
  | .dereference span inner => do
    let type ← typeHere c (.dereference span inner)
    let code ← expr c inner
    return code ++ (← withPopped inner.span fun cursor => pushCopy cursor (c.structs.words type))
  | .sizeOf span inner => do
    let _ ← typeHere c (.sizeOf span inner)
    pushValue (count (← sizeWords c span inner))

/-- Code that computes the address of a place into a register, which is then held. -/
def place (c : EmitContext) : Expr → Emit (Assembly × Register)
  | .var span name => do
    let location ← findVariable name span
    let address ← acquire span
    return (pointAt address location s!"&{name}", address)
  | .field span base name => do
    unless base.addressable do fault .notAddressable span
    let field ← ofCheck (Typing.fieldOf c.structs (← typeHere c base) name)
    let (code, address) ← place c base
    let move := if field.offset = 0 then []
      else [noted (increase address (count field.offset)) s!".{name.text}"]
    return (code ++ move, address)
  | .dereference span inner => do
    match ← typeHere c inner with
    | .reference _ =>
      let code ← expr c inner
      let (pop, address) ← popHeld inner.span
      return (code ++ pop, address)
    | other => fault (.derefNonReference (c.structs.text other)) span
  | other => fault .notAddressable other.span

def receiver (c : EmitContext) : Expr → Emit (Option (Assembly × Register))
  | .field _ base _ => do return some (← place c base)
  | _ => return none

def arguments (c : EmitContext) : List Expr → Emit Assembly
  | [] => return []
  | e :: rest => do
    let code ← expr c e
    return code ++ (← arguments c rest)

end

end WordScript.Emit
