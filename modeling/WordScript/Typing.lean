import WordScript.Frame

/-!
# Typing

The type of an expression in a frame, and the checks on the way. Operators work on single words.
`ptr` and references take part in arithmetic only as the left side of adding or subtracting an
integer.
-/

namespace WordScript

structure TypeContext where
  structs : Structs
  functions : Functions
  frame : Frame

structure CallTarget where
  function : FunctionName
  signature : Signature
  receiver : Option Expr

namespace Typing

abbrev Check := Except (Fault TypeError)

def fail {α : Type} (cause : TypeError) (span : Span) : Check α := .error (.raise cause span)

def mismatch (structs : Structs) (expected found : ValueType) : TypeError :=
  .mismatch (structs.text expected) (structs.text found)

def singleWord (structs : Structs) (type : ValueType) (span : Span) : Check Unit :=
  if structs.words type = 1 then .ok () else fail (.invalidOperand (structs.text type)) span

/-- Numbers of one kind, or a pointer moved by an integer. -/
def arithmetic (structs : Structs) (op : ArithmeticOp) (lhs rhs : ValueType) (span : Span) :
    Check ValueType :=
  let moved := (op == .add || op == .sub) && lhs.isPointer && rhs == .int
  if moved || (lhs.isNumber && lhs == rhs) then .ok lhs
  else if !lhs.isNumber then fail (.invalidOperand (structs.text lhs)) span
  else fail (mismatch structs lhs rhs) span

def binary (structs : Structs) (op : BinaryOp) (lhs rhs : ValueType) (span : Span) :
    Check ValueType :=
  match op with
  | .arithmetic op => arithmetic structs op lhs rhs span
  | .relation _ =>
    if structs.accepts lhs rhs then .ok .int else fail (mismatch structs lhs rhs) span
  | .logic _ => .ok .int

def unary (structs : Structs) (op : UnaryOp) (type : ValueType) (operandSpan span : Span) :
    Check ValueType :=
  match op with
  | .negate => if type.isNumber then .ok type else fail (.invalidOperand (structs.text type)) span
  | .not => do
    singleWord structs type operandSpan
    return .int

def fieldOf (structs : Structs) (base : ValueType) (name : Name) : Check Field :=
  match base with
  | .struct id =>
    match (structs.get? id).bind (·.field? name.text) with
    | some field => .ok field
    | none => fail (.unknownField (structs.nameOf id) name.text) name.span
  | other => fail (.fieldOfNonStruct (structs.text other) name.text) name.span

/-- The size in `sizeof(Name)` where the name is a type rather than a value. -/
def namedSize? (structs : Structs) : Expr → Option Nat
  | .sizeOf _ (.var _ name) => (structs.baseType? name).map structs.words
  | _ => none

def lookUp (c : TypeContext) (function : FunctionName) (receiver : Option Expr) (span : Span) :
    Check CallTarget :=
  match c.functions.get? function with
  | some signature => .ok ⟨function, signature, receiver⟩
  | none => fail (.unresolvedFunction function.text) span

mutual

def typeOf (c : TypeContext) : Expr → Check ValueType
  | .integer .. => .ok .int
  | .float .. => .ok .float
  | .string .. => .ok (.reference .int)
  | .var span name =>
    match c.frame.lookup name with
    | some (type, _) => .ok type
    | none => fail (.unknownIdentifier name) span
  | .call span target args => do
    let call ← callTarget c target
    if let some receiver := call.receiver then
      unless receiver.addressable do fail .notAddressable receiver.span
    let expected := call.signature.params.length
    if args.length ≠ expected then
      fail (.argumentCount call.function.text expected args.length) span
    checkArgs c args call.signature.params
    return call.signature.returns
  | .binary span op lhs rhs => do
    let left ← typeOf c lhs
    let right ← typeOf c rhs
    singleWord c.structs left lhs.span
    singleWord c.structs right rhs.span
    binary c.structs op left right span
  | .unary span op operand => do
    unary c.structs op (← typeOf c operand) operand.span span
  | .assign span op target value => do
    unless target.addressable do fail .notAddressable target.span
    let place ← typeOf c target
    let type ← typeOf c value
    match op with
    | some op =>
      singleWord c.structs place target.span
      singleWord c.structs type value.span
      arithmetic c.structs op place type span
    | none =>
      if c.structs.accepts place type then return place
      else fail (mismatch c.structs place type) value.span
  | .field _ base name => do
    let field ← fieldOf c.structs (← typeOf c base) name
    return field.type
  | .addressOf _ inner => do
    unless inner.addressable do fail .notAddressable inner.span
    return .reference (← typeOf c inner)
  | .dereference span inner => do
    match ← typeOf c inner with
    | .reference pointee => return pointee
    | other => fail (.derefNonReference (c.structs.text other)) span
  | .sizeOf span inner => do
    if (namedSize? c.structs (.sizeOf span inner)).isNone then
      let _ ← typeOf c inner
    return .int

def callTarget (c : TypeContext) : Expr → Check CallTarget
  | .var span name => lookUp c (.free name) none span
  | .field span base name => do
    match ← typeOf c base with
    | .struct id => lookUp c (.method (c.structs.nameOf id) name.text) (some base) span
    | other => fail (.fieldOfNonStruct (c.structs.text other) name.text) name.span
  | other => fail (.unresolvedFunction "<expression>") other.span

def checkArgs (c : TypeContext) : List Expr → List (String × ValueType) → Check Unit
  | arg :: args, (_, expected) :: params => do
    let found ← typeOf c arg
    unless c.structs.accepts expected found do fail (mismatch c.structs expected found) arg.span
    checkArgs c args params
  | _, _ => .ok ()

end

end Typing

end WordScript
