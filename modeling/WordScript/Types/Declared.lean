import WordScript.Assembly
import WordScript.Diagnostic
import WordScript.Tree
import WordScript.Types.Error
import WordScript.Types.Value

/-!
# Declared structs and functions

The tables that a program's declarations make. Structs are taken in order: a field can use the
structs before its own, and its own only behind a reference, so no struct contains itself.
-/

namespace WordScript

namespace Structs

def baseType? (s : Structs) : String → Option ValueType
  | "int" => some .int
  | "float" => some .float
  | "ptr" => some .ptr
  | "void" => some .void
  | name => (s.find? name).map .struct

/-- The type that a written type stands for. There are no references to `void`. -/
def resolve (s : Structs) (t : TypeName) : Except TypeError ValueType :=
  match s.baseType? t.name with
  | none => .error (.unknownType t.name)
  | some .void =>
    if t.references = 0 then .ok .void
    else .error (.invalidVariableType ("void" ++ String.join (List.replicate t.references "&")))
  | some base => .ok (base.references t.references)

def resolveStored (s : Structs) (t : TypeName) : Except (Fault TypeError) ValueType := do
  let type ← (s.resolve t).mapError (.raise · t.span)
  if type = .void then throw (.raise (.invalidVariableType "void") t.span)
  return type

def declareFields (s : Structs) (self : Nat) (name : String) (before : List (String × ValueType)) :
    List (TypeName × Name) → Except (Fault TypeError) (List (String × ValueType))
  | [] => .ok before
  | (type, field) :: rest => do
    if before.any (·.1 == field.text) then throw (.raise (.redeclared field.text) field.span)
    let resolved ← (s.resolve type).mapError (.raise · type.span)
    if resolved = .struct self then throw (.raise (.recursiveType name) type.span)
    if resolved = .void then throw (.raise (.invalidVariableType "void") type.span)
    s.declareFields self name (before ++ [(field.text, resolved)]) rest

/-- Adds a declared struct. Its own name already counts while its fields are read. -/
def declare (s : Structs) (decl : StructDecl) : Except (Fault TypeError) Structs := do
  let name := decl.name.text
  if (s.find? name).isSome then throw (.raise (.redeclared name) decl.name.span)
  let self := s.entries.length
  let fields ← declareFields ⟨s.entries ++ [⟨name, [], 0, true⟩]⟩ self name [] decl.fields
  return ⟨s.entries ++ [s.build name fields]⟩

def ofDecls (decls : List StructDecl) : Except (Fault TypeError) Structs :=
  decls.foldlM declare empty

end Structs

inductive FunctionName
  | free (name : String)
  | method (owner name : String)
  deriving DecidableEq, Repr

namespace FunctionName

def text : FunctionName → String
  | free name => name
  | method owner name => s!"{owner}.{name}"

def label : FunctionName → Label
  | free name => .function name
  | method owner name => .method owner name

end FunctionName

structure Signature where
  params : List (String × ValueType)
  returns : ValueType
  receiver : Option ValueType
  deriving DecidableEq, Repr

def Signature.argumentWords (s : Signature) (structs : Structs) : Nat :=
  structs.totalWords (s.params.map Prod.snd)

structure Functions where
  entries : List (FunctionName × Signature)
  deriving Repr, Inhabited

namespace Functions

def empty : Functions := ⟨[]⟩

def get? (f : Functions) (name : FunctionName) : Option Signature := f.entries.lookup name

/-- The parameters after `before`. A method cannot call one of them `this`. -/
def declareParams (structs : Structs) (isMethod : Bool) (before : List (String × ValueType)) :
    List (TypeName × Name) → Except (Fault TypeError) (List (String × ValueType))
  | [] => .ok before
  | (type, name) :: rest => do
    if before.any (·.1 == name.text) || (isMethod && name.text == "this") then
      throw (.raise (.redeclared name.text) name.span)
    let resolved ← structs.resolveStored type
    declareParams structs isMethod (before ++ [(name.text, resolved)]) rest

def declare (structs : Structs) (f : Functions) (name : FunctionName) (receiver : Option ValueType)
    (decl : FunctionDecl) : Except (Fault TypeError) Functions := do
  if (f.get? name).isSome then throw (.raise (.redeclared name.text) decl.name.span)
  let returns ← (structs.resolve decl.returnType).mapError (.raise · decl.returnType.span)
  let params ← declareParams structs receiver.isSome [] decl.params
  return ⟨f.entries ++ [(name, ⟨params, returns, receiver⟩)]⟩

def declareMethods (structs : Structs) (f : Functions) (decl : StructDecl) :
    Except (Fault TypeError) Functions :=
  match structs.find? decl.name.text with
  | none => .error (.raise (.unknownType decl.name.text) decl.name.span)
  | some id =>
    decl.methods.foldlM (fun f m =>
      f.declare structs (.method decl.name.text m.name.text) (some (.reference (.struct id))) m) f

def ofProgram (structs : Structs) (p : Program) : Except (Fault TypeError) Functions := do
  let f ← p.functions.foldlM (fun f d => f.declare structs (.free d.name.text) none d) empty
  p.structs.foldlM (declareMethods structs) f

end Functions

end WordScript
