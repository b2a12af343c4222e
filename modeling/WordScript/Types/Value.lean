import WordScript.Text.Quoted

/-!
# Value types

The types of values and the structs they refer to. A struct type is the number of its entry in a
table of structs, so a struct can hold references to itself. Its fields lie one after the other in
declaration order, and its size is the sum of theirs.
-/

namespace WordScript

inductive ValueType
  | void
  | int
  | float
  /-- An address of something unknown. -/
  | ptr
  | struct (id : Nat)
  | reference (pointee : ValueType)
  deriving DecidableEq, Repr, Inhabited

namespace ValueType

def references (t : ValueType) : Nat → ValueType
  | 0 => t
  | n + 1 => (t.references n).reference

def pointee? : ValueType → Option ValueType
  | reference t => some t
  | _ => none

def isPointer : ValueType → Bool
  | reference _ | ptr => true
  | _ => false

def isNumber : ValueType → Bool
  | int | float => true
  | _ => false

end ValueType

structure Field where
  name : String
  offset : Nat
  type : ValueType
  deriving DecidableEq, Repr

structure StructType where
  name : String
  fields : List Field
  words : Nat
  /-- Whether scripts can name it. A host may describe others. -/
  declared : Bool
  deriving DecidableEq, Repr, Inhabited

def StructType.field? (s : StructType) (name : String) : Option Field :=
  s.fields.find? (·.name == name)

structure Structs where
  entries : List StructType
  deriving Repr, Inhabited

namespace Structs

def empty : Structs := ⟨[]⟩

def get? (s : Structs) (id : Nat) : Option StructType := s.entries[id]?

def find? (s : Structs) (name : String) : Option Nat :=
  s.entries.findIdx? fun t => t.declared && t.name == name

def add (s : Structs) (t : StructType) : ValueType × Structs :=
  (.struct s.entries.length, ⟨s.entries ++ [t]⟩)

def nameOf (s : Structs) (id : Nat) : String := (s.get? id).elim "" (·.name)

def words (s : Structs) : ValueType → Nat
  | .void => 0
  | .int | .float | .ptr | .reference _ => 1
  | .struct id => (s.get? id).elim 0 (·.words)

def totalWords (s : Structs) : List ValueType → Nat
  | [] => 0
  | t :: rest => s.words t + s.totalWords rest

def text (s : Structs) : ValueType → String
  | .void => "void"
  | .int => "int"
  | .float => "float"
  | .ptr => "ptr"
  | .struct id => s.nameOf id
  | .reference t => s.text t ++ "&"

/-- Whether two types are the same. Structs are known by their names. -/
def same (s : Structs) : ValueType → ValueType → Bool
  | .struct a, .struct b => s.nameOf a == s.nameOf b
  | .reference a, .reference b => s.same a b
  | a, b => a == b

/-- Whether a value of type `value` can be kept where `place` is expected: `ptr` and references
stand in for each other, and otherwise the types are the same. -/
def accepts (s : Structs) (place value : ValueType) : Bool :=
  s.same place value ||
    match place, value with
    | .ptr, .reference _ | .reference _, .ptr => true
    | _, _ => false

def layOut (s : Structs) (offset : Nat) : List (String × ValueType) → List Field
  | [] => []
  | (name, type) :: rest => ⟨name, offset, type⟩ :: s.layOut (offset + s.words type) rest

def build (s : Structs) (name : String) (fields : List (String × ValueType)) : StructType :=
  ⟨name, s.layOut 0 fields, s.totalWords (fields.map Prod.snd), true⟩

def describe (s : Structs) (t : StructType) : String :=
  let fields := t.fields.map fun f => s!"{quoteText f.name}: {quoteText (s.text f.type)}"
  t.name ++ " \x7b" ++ ", ".intercalate fields ++ "\x7d"

end Structs

end WordScript
