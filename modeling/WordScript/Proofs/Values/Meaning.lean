import WordScript.Proofs.Safety.Expressions

/-!
# What expressions mean

An expression without calls and assignments changes nothing, so it has a meaning wherever it stands.
It rests on a `View`: the tables of the program, the frame, the stack pointer and what memory holds.
Variables, fields and dereferences are places in memory, and everything else is one word
(`View.eval`). There is no meaning where an integer is divided by zero or where a reference points
at something that is not wholly below the stack pointer.
-/

namespace WordScript

/-! ### Words next to each other -/

def wordsAt (memory : Int → Word) (a : Int) (n : Nat) : List Word :=
  (List.range n).map fun (i : Nat) => memory (a + i)

section
variable {memory memory' : Int → Word} {a b : Int} {n : Nat}

@[simp] theorem length_wordsAt : (wordsAt memory a n).length = n := by simp [wordsAt]

@[simp] theorem wordsAt_one : wordsAt memory a 1 = [memory a] := by simp [wordsAt]

theorem getElem?_wordsAt {i : Nat} (hi : i < n) :
    (wordsAt memory a n)[i]? = some (memory (a + i)) := by simp [wordsAt, hi]

theorem wordsAt_congr (h : ∀ i : Nat, i < n → memory (a + i) = memory' (b + i)) :
    wordsAt memory a n = wordsAt memory' b n :=
  List.map_congr_left fun i hi => h i (List.mem_range.mp hi)

theorem eq_of_wordsAt (h : wordsAt memory a n = wordsAt memory' b n) {i : Nat} (hi : i < n) :
    memory (a + i) = memory' (b + i) := by
  have hget := congrArg (·[i]?) h
  simpa only [getElem?_wordsAt hi, Option.some.injEq] using hget

end

/-! ### Expressions that change nothing -/

namespace Expr

/-- Whether running an expression calls nothing and assigns nothing. The operand of `sizeof` does
not run. -/
def effectFree : Expr → Bool
  | integer .. | float .. | string .. | var .. | sizeOf .. => true
  | binary _ _ lhs rhs => lhs.effectFree && rhs.effectFree
  | unary _ _ inner | field _ inner _ | addressOf _ inner | dereference _ inner => inner.effectFree
  | call .. | assign .. => false

/-- Variables, and fields and dereferences of paths. -/
def isPath : Expr → Bool
  | var .. => true
  | field _ base _ => base.isPath
  | dereference _ inner => inner.isPath
  | _ => false

theorem effectFree_of_isPath : ∀ {e : Expr}, e.isPath = true → e.effectFree = true
  | .var .., _ => rfl
  | .field _ base _, h => effectFree_of_isPath (e := base) h
  | .dereference _ inner, h => effectFree_of_isPath (e := inner) h

end Expr

/-! ### Views and meanings -/

/-- Reasons for an expression to have no meaning. The last one is for expressions without a type and
for those that call or assign. -/
inductive Mishap
  | division
  | stray
  | senseless
  deriving DecidableEq, Repr

def Mishap.ifNone (reason : Mishap) : Option α → Except Mishap α
  | some a => .ok a
  | none => .error reason

namespace Mishap

variable {reason other : Mishap} {x : Option α} {a : α}

@[simp] theorem ifNone_some : reason.ifNone (some a) = .ok a := rfl

theorem ifNone_eq_error : reason.ifNone x = .error other ↔ x = none ∧ reason = other := by
  cases x <;> simp [ifNone]

end Mishap

/-- What an expression comes to: words at an address, or one word. -/
inductive Seen
  | place (address : Int)
  | word (w : Word)
  deriving DecidableEq, Repr

namespace Seen

def part (offset : Nat) : Seen → Except Mishap Seen
  | place a => .ok (.place (a + offset))
  | word _ => .error .senseless

def reference : Seen → Except Mishap Seen
  | place a => .ok (.word (.ofInt a))
  | word _ => .error .senseless

end Seen

/-- Everything the meaning of an expression depends on. -/
structure View where
  image : Image
  context : EmitContext
  frame : Frame
  sp : Int
  memory : Int → Word

namespace View

open Emit

variable (v : View)

def typeOf (e : Expr) : Option ValueType := (Typing.typeOf (v.context.at v.frame) e).toOption

def kind (e : Expr) : NumKind := (v.typeOf e).elim .integer numKind

def size (e : Expr) : Nat := (v.typeOf e).elim 0 v.context.structs.words

def field? (e : Expr) (name : Name) : Option Field := do
  (Typing.fieldOf v.context.structs (← v.typeOf e) name).toOption

def locate : Location → Int
  | .stack offset => v.sp + offset
  | .static l => (v.image.value l).toInt

def Inside (a : Int) (n : Nat) : Prop := n = 0 ∨ 0 ≤ a ∧ a + n ≤ v.sp

instance (a : Int) (n : Nat) : Decidable (v.Inside a n) := inferInstanceAs (Decidable (_ ∨ _))

def word : Seen → Word
  | .place a => v.memory a
  | .word w => w

def words (n : Nat) : Seen → List Word
  | .place a => wordsAt v.memory a n
  | .word w => [w]

def decides (op : LogicOp) (e : Expr) (x : Seen) : Bool :=
  (deciding op).holds (Word.compare (v.kind e) (v.word x) 0)

def eval (v : View) : Expr → Except Mishap Seen
  | .integer _ w | .float _ w => .ok (.word w)
  | .string _ content => do
    return .word (v.image.value (← Mishap.senseless.ifNone (v.context.strings.label? content)))
  | .var _ name => do
    let found ← Mishap.senseless.ifNone (v.frame.lookup name)
    return .place (v.locate found.2)
  | .binary _ (.arithmetic op) lhs rhs => do
    let a ← v.eval lhs
    let b ← v.eval rhs
    return .word (← Mishap.division.ifNone (Word.arithmetic? (v.kind lhs) op (v.word a) (v.word b)))
  | .binary _ (.relation rel) lhs rhs => do
    let a ← v.eval lhs
    let b ← v.eval rhs
    return .word (if rel.holds (Word.compare (v.kind lhs) (v.word a) (v.word b)) then 1 else 0)
  | .binary _ (.logic op) lhs rhs => do
    let a ← v.eval lhs
    if v.decides op lhs a then return .word (decidedValue op)
    let b ← v.eval rhs
    return .word (if v.decides op rhs b then decidedValue op else undecidedValue op)
  | .unary _ .negate e => do
    let a ← v.eval e
    let type ← Mishap.senseless.ifNone (v.typeOf e)
    return .word (← Mishap.division.ifNone
      (Word.arithmetic? (v.kind e) .mul (v.word a) (minusOne type)))
  | .unary _ .not e => do
    let a ← v.eval e
    return .word (if Relation.equal.holds (Word.compare (v.kind e) (v.word a) 0) then 1 else 0)
  | .field _ base name => do
    let a ← v.eval base
    let field ← Mishap.senseless.ifNone (v.field? base name)
    a.part field.offset
  | .addressOf _ inner => do (← v.eval inner).reference
  | .dereference span inner => do
    let a := (v.word (← v.eval inner)).toInt
    if v.Inside a (v.size (.dereference span inner)) then return .place a else .error .stray
  | .sizeOf span inner =>
    .ok (.word (.ofNat ((Typing.namedSize? v.context.structs (.sizeOf span inner)).getD
      (v.size inner))))
  | .call .. | .assign .. => .error .senseless

def Consistent : Prop :=
  ∀ name type location, v.frame.lookup name = some (type, location) →
    v.Inside (v.locate location) (v.context.structs.words type)

instance : Decidable v.Consistent :=
  decidable_of_iff (∀ entry ∈ v.frame.variables, ∀ found ∈ v.frame.lookup entry.1,
      v.Inside (v.locate found.2) (v.context.structs.words found.1))
    ⟨fun h _ type location found => h _ (Frame.mem_variables found).choose_spec (type,
      location) found, fun h entry _ found hfound => h entry.1 found.1 found.2 hfound⟩

variable {v} {e lhs rhs inner base : Expr} {x : Seen} {type : ValueType} {a : Int} {n : Nat}

theorem typeOf_eq_some : v.typeOf e = some type ↔
    Typing.typeOf (v.context.at v.frame) e = .ok type :=
  toOption_eq_some

theorem kind_eq (h : v.typeOf e = some type) : v.kind e = numKind type := by simp [kind, h]

theorem size_eq (h : v.typeOf e = some type) : v.size e = v.context.structs.words type := by
  simp [size, h]

theorem field?_eq (h : v.typeOf e = some type)
    (found : Typing.fieldOf v.context.structs type name = .ok field) :
    v.field? e name = some field := by
  simp [field?, h, found, Except.toOption]

@[simp] theorem words_one : v.words 1 x = [v.word x] := by
  cases x with
  | place a => exact wordsAt_one
  | word w => rfl

theorem eval_string : v.eval (.string span content) = (do
    return .word (v.image.value (← Mishap.senseless.ifNone (v.context.strings.label? content)))) :=
      rfl

theorem eval_sizeOf : v.eval (.sizeOf span inner) =
    .ok (.word (.ofNat ((Typing.namedSize? v.context.structs (.sizeOf span inner)).getD
      (v.size inner)))) := rfl

theorem eval_var : v.eval (.var span name) = (do
    let found ← Mishap.senseless.ifNone (v.frame.lookup name)
    return .place (v.locate found.2)) := rfl

theorem eval_arithmetic : v.eval (.binary span (.arithmetic op) lhs rhs) = (do
    let a ← v.eval lhs
    let b ← v.eval rhs
    return .word (← Mishap.division.ifNone
      (Word.arithmetic? (v.kind lhs) op (v.word a) (v.word b)))) := rfl

theorem eval_relation : v.eval (.binary span (.relation rel) lhs rhs) = (do
    let a ← v.eval lhs
    let b ← v.eval rhs
    return .word (if rel.holds (Word.compare (v.kind lhs) (v.word a) (v.word b)) then 1 else 0)) :=
      rfl

theorem eval_logic : v.eval (.binary span (.logic op) lhs rhs) = (do
    let a ← v.eval lhs
    if v.decides op lhs a then return .word (decidedValue op)
    let b ← v.eval rhs
    return .word (if v.decides op rhs b then decidedValue op else undecidedValue op)) := rfl

theorem eval_logic_decided (hx : v.eval lhs = .ok x) (hd : v.decides op lhs x = true) :
    v.eval (.binary span (.logic op) lhs rhs) = .ok (.word (decidedValue op)) := by
  rw [eval_logic, hx]
  exact if_pos hd

theorem eval_logic_undecided (hx : v.eval lhs = .ok x) (hd : v.decides op lhs x = false) :
    v.eval (.binary span (.logic op) lhs rhs) = (do
      let b ← v.eval rhs
      return .word (if v.decides op rhs b then decidedValue op else undecidedValue op)) := by
  rw [eval_logic, hx]
  exact if_neg (by simp [hd])

theorem eval_negate (h : v.typeOf e = some type) : v.eval (.unary span .negate e) = (do
    let a ← v.eval e
    return .word (← Mishap.division.ifNone
      (Word.arithmetic? (v.kind e) .mul (v.word a) (minusOne type)))) := by
  have heval : v.eval (.unary span .negate e) = (do
      let a ← v.eval e
      let type ← Mishap.senseless.ifNone (v.typeOf e)
      return .word (← Mishap.division.ifNone
        (Word.arithmetic? (v.kind e) .mul (v.word a) (minusOne type)))) := rfl
  rw [heval, h]
  rfl

theorem eval_not : v.eval (.unary span .not e) = (do
    let a ← v.eval e
    return .word (if Relation.equal.holds (Word.compare (v.kind e) (v.word a) 0) then 1 else 0)) :=
      rfl

theorem eval_addressOf : v.eval (.addressOf span e) = (do (← v.eval e).reference) := rfl

theorem eval_field : v.eval (.field span base name) = (do
    let a ← v.eval base
    let field ← Mishap.senseless.ifNone (v.field? base name)
    a.part field.offset) := rfl

theorem eval_dereference : v.eval (.dereference span inner) = (do
    let a ← v.eval inner
    if v.Inside (v.word a).toInt (v.size (.dereference span inner)) then
      return .place (v.word a).toInt
    else .error .stray) := rfl

theorem Inside.part (h : v.Inside a m) (hle : offset + n ≤ m) : v.Inside (a + offset) n := by
  simp only [Inside] at *
  omega

theorem eval_ne_division : ∀ {e : Expr}, e.isPath = true → v.eval e ≠ .error .division
  | .var .., _, h => by
    rw [eval_var, bind_eq_error, Mishap.ifNone_eq_error] at h
    obtain ⟨-, hno⟩ | ⟨_, -, hno⟩ := h <;> cases hno
  | .field _ base _, path, h => by
    simp only [eval_field, bind_eq_error, Mishap.ifNone_eq_error] at h
    obtain h | ⟨y, -, ⟨-, hno⟩ | ⟨field, -, hno⟩⟩ := h
    · exact eval_ne_division (e := base) path h
    · cases hno
    · cases y <;> cases hno
  | .dereference _ inner, path, h => by
    rw [eval_dereference, bind_eq_error] at h
    obtain h | ⟨y, -, h⟩ := h
    · exact eval_ne_division (e := inner) path h
    · split at h <;> cases h

theorem eval_field_ne_word (h : v.eval (.field span base name) = .ok (.word w)) : False := by
  simp only [eval_field, bind_eq_ok] at h
  obtain ⟨y, -, field, -, h⟩ := h
  cases y <;> cases h

theorem eval_dereference_ne_word (h : v.eval (.dereference span inner) = .ok (.word w)) :
    False := by
  rw [eval_dereference, bind_eq_ok] at h
  obtain ⟨y, -, h⟩ := h
  split at h <;> cases h

theorem scalar_of_word (typed : v.typeOf e = some type) (h : v.eval e = .ok (.word w)) :
    type.isNumber = true ∨ type.isPointer = true := by
  rw [typeOf_eq_some] at typed
  cases e with
  | integer | float =>
    cases typed
    exact .inl rfl
  | string =>
    cases typed
    exact .inr rfl
  | sizeOf =>
    cases Typing.typeOf_sizeOf typed
    exact .inl rfl
  | call | assign => cases h
  | addressOf =>
    obtain ⟨-, place, -, rfl⟩ := Typing.typeOf_addressOf typed
    exact .inr rfl
  | var =>
    rw [eval_var, bind_eq_ok] at h
    obtain ⟨found, -, h⟩ := h
    cases h
  | field => exact (eval_field_ne_word h).elim
  | dereference => exact (eval_dereference_ne_word h).elim
  | unary span op e =>
    obtain ⟨inner, -, htype⟩ := Typing.typeOf_unary typed
    cases op with
    | negate =>
      simp only [Typing.unary] at htype
      split at htype
      · next number => exact .inl (Except.ok.inj htype ▸ number)
      · simp at htype
    | not =>
      simp only [Typing.unary, bind_eq_ok, pure_eq_ok] at htype
      obtain ⟨-, -, rfl⟩ := htype
      exact .inl rfl
  | binary span op lhs rhs =>
    obtain ⟨left, right, -, -, -, -, htype⟩ := Typing.typeOf_binary typed
    cases op with
    | arithmetic op =>
      obtain rfl := Typing.arithmetic_type htype
      simp only [Typing.binary, Typing.arithmetic] at htype
      split at htype
      · next moved => grind
      · split at htype <;> simp at htype
    | relation =>
      simp only [Typing.binary] at htype
      split at htype
      · cases htype
        exact .inl rfl
      · simp at htype
    | logic =>
      cases htype
      exact .inl rfl

theorem eval_struct {index : Nat} (typed : v.typeOf e = some (.struct index))
    (h : v.eval e = .ok x) : ∃ a, x = .place a := by
  cases x with
  | place a => exact ⟨a, rfl⟩
  | word w => rcases scalar_of_word typed h with hno | hno <;> cases hno

theorem length_words (typed : v.typeOf e = some type) (h : v.eval e = .ok x) :
    (v.words (v.context.structs.words type) x).length = v.context.structs.words type := by
  cases x with
  | place a => exact length_wordsAt
  | word w =>
    have hone : v.context.structs.words type = 1 := by
      have hscalar := scalar_of_word typed h
      cases type with
      | void | struct => rcases hscalar with hno | hno <;> cases hno
      | int | float | ptr | reference => rfl
    rw [hone]
    rfl

end View

end WordScript
