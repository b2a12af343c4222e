import WordScript.Assembly
import WordScript.Types.Declared

/-!
# Frames

What the generated code knows about the stack at a point of a function: how many words have been
pushed since entry, and where each variable lies. Positions count words from the stack pointer at
entry, so what the caller pushed has negative ones.
-/

namespace WordScript

structure StaticVariable where
  name : String
  type : ValueType
  deriving DecidableEq, Repr

def StaticVariable.label (v : StaticVariable) : Label := .static v.name

inductive Storage
  | frame (position : Int)
  | static (label : Label)
  deriving DecidableEq, Repr

structure Variable where
  type : ValueType
  storage : Storage
  deriving DecidableEq, Repr

/-- Where a variable starts, seen from the current stack pointer. -/
inductive Location
  | stack (offset : Int)
  | static (label : Label)
  deriving DecidableEq, Repr

/-- Variables by name, latest first, and the words that its declarations took. -/
structure Scope where
  entries : List (String × Variable)
  words : Nat
  deriving DecidableEq, Repr

def Scope.empty : Scope := ⟨[], 0⟩

/-- Scopes are listed innermost first; the last one holds the statics. -/
structure Frame where
  scopes : List Scope
  depth : Int
  returnSlot : Option Int
  deriving DecidableEq, Repr

namespace Frame

def staticScope (statics : List StaticVariable) : Scope :=
  ⟨(statics.map fun v => (v.name, ⟨v.type, .static v.label⟩)).reverse, 0⟩

def topLevel (statics : List StaticVariable) : Frame := ⟨[.empty, staticScope statics], 0, none⟩

def placeParams (structs : Structs) (position : Int) :
    List (String × ValueType) → List (String × Variable)
  | [] => []
  | (name, type) :: rest =>
    (name, ⟨type, .frame position⟩) :: placeParams structs (position + structs.words type) rest

/-- The frame at the entry of a function. Below the stack pointer are the return address, the
arguments, the receiver and the room for the result. -/
def ofSignature (structs : Structs) (statics : List StaticVariable) (s : Signature) : Frame :=
  let first : Int := -1 - s.argumentWords structs
  let params := (placeParams structs first s.params).reverse
  match s.receiver with
  | none => ⟨[⟨params, 0⟩, staticScope statics], 0, some (first - structs.words s.returns)⟩
  | some type =>
    ⟨[⟨("this", ⟨type, .frame (first - 1)⟩) :: params, 0⟩, staticScope statics], 0,
      some (first - 1 - structs.words s.returns)⟩

def find? (f : Frame) (name : String) : Option Variable :=
  f.scopes.findSome? (·.entries.lookup name)

def lookup (f : Frame) (name : String) : Option (ValueType × Location) :=
  (f.find? name).map fun v => (v.type, match v.storage with
    | .frame position => .stack (position - f.depth)
    | .static label => .static label)

def push (f : Frame) (words : Nat) : Frame := { f with depth := f.depth + words }

def pop (f : Frame) (words : Nat) : Frame := { f with depth := f.depth - words }

/-- Makes the last words pushed the variable `name` of the innermost scope. -/
def declare (f : Frame) (structs : Structs) (name : String) (type : ValueType) :
    Except TypeError Frame :=
  match f.scopes with
  | [] => .error (.unknownIdentifier name)
  | scope :: outer =>
    if (scope.entries.lookup name).isSome then .error (.redeclared name)
    else
      let words := structs.words type
      let v : Variable := ⟨type, .frame (f.depth - words)⟩
      .ok { f with scopes := ⟨(name, v) :: scope.entries, scope.words + words⟩ :: outer }

def enter (f : Frame) : Frame := { f with scopes := .empty :: f.scopes }

/-- Forgets the innermost scope. The words of its variables, also returned, count as popped. -/
def leave (f : Frame) : Nat × Frame :=
  match f.scopes with
  | [] => (0, f)
  | scope :: outer => (scope.words, { f with scopes := outer, depth := f.depth - scope.words })

def returnSlotOffset? (f : Frame) : Option Int := f.returnSlot.map (· - f.depth)

end Frame

end WordScript
