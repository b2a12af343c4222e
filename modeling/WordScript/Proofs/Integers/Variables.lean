import WordScript.Proofs.Integers.Meaning
import WordScript.Proofs.Safety.Statements

/-!
# Where integer variables are

In an integer script every variable takes one word, and memory holds nothing else between two
statements: statics from address 0 on, then the variables of all scopes in the order of their
declarations. So the address of a variable is the number of those declared before it.
-/

namespace WordScript

/-! ### Numbers -/

theorem toInt_arithmetic? (op : ArithmeticOp) (a b : Word) :
    (Word.arithmetic? .integer op a b).map Int32.toInt = op.apply? a.toInt b.toInt := by
  have hzero : b = 0 ↔ b.toInt = 0 := Int32.toInt_inj.symm
  cases op with
  | add => exact congrArg some (Int32.toInt_add a b)
  | sub => exact congrArg some (Int32.toInt_sub a b)
  | mul => exact congrArg some (Int32.toInt_mul a b)
  | div =>
    by_cases hb : b = 0
    · simp only [Word.arithmetic?, ArithmeticOp.apply?, hb, ↓reduceIte, Option.map_none]
      rfl
    · simp only [Word.arithmetic?, ArithmeticOp.apply?, hb, mt hzero.mpr hb, ↓reduceIte,
        Option.map_some]
      exact congrArg some (Int32.toInt_div a b)

theorem holds_compare (r : Relation) (a b : Word) :
    r.holds (Word.compare .integer a b) = r.relates a.toInt b.toInt := by
  have hlt : a < b ↔ a.toInt < b.toInt := Int32.lt_iff_toInt_lt
  have heq : a = b ↔ a.toInt = b.toInt := Int32.toInt_inj.symm
  simp only [Word.compare, hlt, heq]
  generalize a.toInt = x, b.toInt = y
  rcases Int.lt_trichotomy x y with h | rfl | h
  · have hne : x ≠ y := by omega
    have hle : ¬y ≤ x := by omega
    have hgt : ¬y < x := by omega
    cases r <;> simp [Relation.holds, Relation.relates, h, hne, hle, hgt, Int.le_of_lt h]
  · cases r <;> simp [Relation.holds, Relation.relates]
  · have hne : x ≠ y := by omega
    have hlt : ¬x < y := by omega
    have hle : ¬x ≤ y := by omega
    cases r <;> simp [Relation.holds, Relation.relates, h, hne, hlt, hle, Int.le_of_lt h]

theorem toInt_negate (a : Word) : (a * -1).toInt = wrapped (-a.toInt) := by
  rw [Int32.toInt_mul, wrapped, Int.neg_eq_neg_one_mul, Int.mul_comm]
  rfl

theorem toInt_truth (b : Bool) : (if b then (1 : Word) else 0).toInt = truth b := by
  cases b <;> rfl

theorem deciding_relates (op : LogicOp) (a : Int) :
    (Emit.deciding op).relates a 0 = op.decidedBy a := by
  cases op <;> rfl

theorem toInt_decidedValue {op : LogicOp} (h : op.decidedBy a = true) :
    (Emit.decidedValue op).toInt = truth (decide (a ≠ 0)) := by
  cases op <;> simp only [LogicOp.decidedBy, decide_eq_true_eq] at h
  · simp [h, Emit.decidedValue, truth]
  · simp [h, Emit.decidedValue, truth]

theorem toInt_undecidedValue {op : LogicOp} (h : op.decidedBy a = false) :
    (Emit.undecidedValue op).toInt = truth (decide (a ≠ 0)) := by
  cases op <;> simp only [LogicOp.decidedBy, decide_eq_false_iff_not, not_not] at h
  · simp [h, Emit.undecidedValue, truth]
  · simp [h, Emit.undecidedValue, truth]

/-! ### Addresses and values -/

namespace Env

/-- How many variables were declared before the latest one of this name. -/
def address? : Env → String → Option Nat
  | [], _ => none
  | (name', _) :: rest, name => if name' = name then some rest.length else address? rest name

theorem address?_lt {env : Env} (h : env.address? name = some i) : i < env.length := by
  induction env with
  | nil => cases h
  | cons b rest ih =>
    rw [address?] at h
    split at h
    · obtain rfl := Option.some.inj h
      exact Nat.lt_succ_self _
    · exact Nat.lt_succ_of_lt (ih h)

theorem address?_congr {env env' : Env} (names : env'.map Prod.fst = env.map Prod.fst)
    (name : String) : env'.address? name = env.address? name := by
  induction env generalizing env' with
  | nil =>
    obtain rfl := List.map_eq_nil_iff.mp names
    rfl
  | cons b rest ih =>
    obtain ⟨⟨name', value'⟩, tail, rfl, rfl, htail⟩ := List.map_eq_cons_iff.mp names
    have hlength : tail.length = rest.length := by
      simpa only [List.length_map] using congrArg List.length htail
    rw [address?, address?, ih htail, hlength]

theorem map_fst_set (env : Env) (name : String) (value : Int) :
    (env.set name value).map Prod.fst = env.map Prod.fst := by
  induction env with
  | nil => rfl
  | cons b rest ih =>
    rw [set]
    split
    · rfl
    · rw [List.map_cons, List.map_cons, ih]

end Env

/-- Memory holds the value of each variable at its address. -/
def Stacked (memory : Int → Word) : Env → Prop
  | [] => True
  | (_, value) :: rest => (memory rest.length).toInt = value ∧ Stacked memory rest

namespace Stacked

variable {memory memory' : Int → Word} {env : Env}

theorem congr (h : Stacked memory env) (same : ∀ i : Nat, i < env.length → memory' i = memory i) :
    Stacked memory' env := by
  induction env with
  | nil => trivial
  | cons b rest ih =>
    refine ⟨?_, ih h.2 fun i hi => same i (Nat.lt_succ_of_lt hi)⟩
    rw [same rest.length (Nat.lt_succ_self _)]
    exact h.1

theorem read (h : Stacked memory env) (ha : env.address? name = some i) :
    env.read name = .ok (memory i).toInt := by
  induction env with
  | nil => cases ha
  | cons b rest ih =>
    obtain ⟨name', value⟩ := b
    rw [Env.address?] at ha
    by_cases hname : name' = name
    · subst hname
      obtain rfl : rest.length = i := by simpa using ha
      simp only [Env.read, List.lookup_cons_self, h.1]
    · have hne : (name == name') = false := by simpa using Ne.symm hname
      rw [if_neg hname] at ha
      have hrest := ih h.2 ha
      simpa only [Env.read, List.lookup_cons, hne] using hrest

theorem set (h : Stacked memory env) (ha : env.address? name = some i)
    (hi : (memory' i).toInt = value)
    (same : ∀ j : Nat, j < env.length → j ≠ i → memory' j = memory j) :
    Stacked memory' (env.set name value) := by
  induction env with
  | nil => trivial
  | cons b rest ih =>
    obtain ⟨name', old⟩ := b
    rw [Env.address?] at ha
    rw [Env.set]
    by_cases hname : name' = name
    · rw [if_pos hname] at ha ⊢
      obtain rfl := Option.some.inj ha
      refine ⟨hi, h.2.congr fun j hj => same j (Nat.lt_succ_of_lt hj) (Nat.ne_of_lt hj)⟩
    · rw [if_neg hname] at ha ⊢
      have hlt := Env.address?_lt ha
      have hlength : (Env.set rest name value).length = rest.length := by
        simpa only [List.length_map] using congrArg List.length (Env.map_fst_set rest name value)
      refine ⟨?_, ih h.2 ha fun j hj hne => same j (Nat.lt_succ_of_lt hj) hne⟩
      rw [hlength, same rest.length (Nat.lt_succ_self _) (Nat.ne_of_gt hlt)]
      exact h.1

theorem drop (h : Stacked memory env) (n : Nat) : Stacked memory (env.drop n) := by
  induction n generalizing env with
  | zero => exact h
  | succ n ih =>
    cases env with
    | nil => trivial
    | cons b rest => exact ih h.2

end Stacked

/-! ### Frames -/

def Variable.At (img : Image) (base : Nat) (v : Variable) (i : Nat) : Prop :=
  v.type = .int ∧ (v.storage = .frame (i - base) ∨
    ∃ l, v.storage = .static l ∧ img.value l = .ofNat i)

/-- A frame's variables are those of the interpreter, and each is at its address. -/
inductive Mirrors (img : Image) (base : Nat) : List (String × Variable) → Env → Prop
  | nil : Mirrors img base [] []
  | cons {name : String} {v : Variable} {value : Int} (here : v.At img base env.length)
      (rest : Mirrors img base vs env) :
      Mirrors img base ((name, v) :: vs) ((name, value) :: env)

namespace Mirrors

variable {img : Image} {vs : List (String × Variable)} {env env' : Env}

theorem found (h : Mirrors img base vs env) (hv : vs.lookup name = some v) :
    ∃ i, env.address? name = some i ∧ v.At img base i := by
  induction h with
  | nil => cases hv
  | @cons vs env name' v' value here rest ih =>
    rw [Env.address?]
    by_cases hname : name' = name
    · subst hname
      obtain rfl : v' = v := by simpa using hv
      exact ⟨env.length, if_pos rfl, here⟩
    · have hne : (name == name') = false := by simpa using Ne.symm hname
      rw [if_neg hname]
      exact ih (by simpa only [List.lookup_cons, hne] using hv)

theorem congr (h : Mirrors img base vs env) (names : env'.map Prod.fst = env.map Prod.fst) :
    Mirrors img base vs env' := by
  induction h generalizing env' with
  | nil =>
    obtain rfl := List.map_eq_nil_iff.mp names
    exact .nil
  | @cons vs env name v value here rest ih =>
    obtain ⟨⟨name', value'⟩, tail, rfl, rfl, htail⟩ := List.map_eq_cons_iff.mp names
    have hlength : tail.length = env.length := by simpa using congrArg List.length htail
    exact .cons (hlength ▸ here) (ih htail)

theorem lookup {frame : Frame} (h : Mirrors img base frame.variables env)
    (hl : frame.lookup name = some (type, location)) :
    ∃ i, env.address? name = some i ∧ type = .int ∧
      (location = .stack (i - (base + frame.depth)) ∨
        ∃ l, location = .static l ∧ img.value l = .ofNat i) := by
  obtain ⟨v, hv, rfl, hplace⟩ := Frame.lookup_eq_some hl
  obtain ⟨i, hi, htype, hat⟩ := h.found (frame.find?_eq_lookup name ▸ hv)
  refine ⟨i, hi, htype, ?_⟩
  rcases hplace with ⟨position, hstorage, rfl⟩ | ⟨l, hstorage, rfl⟩
  · rcases hat with hat | ⟨l, hat, -⟩
    · obtain rfl : (i : Int) - base = position := by simpa [hstorage] using hat.symm
      exact .inl (congrArg Location.stack (by omega))
    · simp [hstorage] at hat
  · rcases hat with hat | ⟨l', hat, hvalue⟩
    · simp [hstorage] at hat
    · obtain rfl : l = l' := by simpa [hstorage] using hat
      exact .inr ⟨l, rfl, hvalue⟩

end Mirrors

end WordScript
