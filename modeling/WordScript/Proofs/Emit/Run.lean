import Mathlib.Algebra.Ring.Nat
import WordScript.Emit.Statement
import WordScript.Proofs.Registers.Pool
import WordScript.Proofs.Success

/-!
# Successful emission

What the steps of the generator do when they succeed: the code they return and the state they leave.
Each lemma reads the success of one step as equations, so that nothing after this module opens the
generator's monad again.
-/

namespace WordScript

/-! ### Frames -/

namespace Frame

@[simp] theorem push_zero (f : Frame) : f.push 0 = f := by simp [push]

@[simp] theorem push_push (f : Frame) (a b : Nat) : (f.push a).push b = f.push (a + b) := by
  simp [push, Int.add_assoc]

theorem pop_push (f : Frame) (h : b ≤ a) : (f.push a).pop b = f.push (a - b) := by
  simp only [push, pop, Frame.mk.injEq, true_and, and_true]
  omega

@[simp] theorem pop_push_self (f : Frame) (a : Nat) : (f.push a).pop a = f := by
  simp [pop_push]

@[simp] theorem pop_pop (f : Frame) (a b : Nat) : (f.pop a).pop b = f.pop (a + b) := by
  simp only [pop, Frame.mk.injEq, true_and, and_true]
  omega

@[simp] theorem pop_zero (f : Frame) : f.pop 0 = f := by simp [pop]

@[simp] theorem scopes_push (f : Frame) (n : Nat) : (f.push n).scopes = f.scopes := rfl

@[simp] theorem depth_push (f : Frame) (n : Nat) : (f.push n).depth = f.depth + n := rfl

@[simp] theorem returnSlot_push (f : Frame) (n : Nat) : (f.push n).returnSlot = f.returnSlot := rfl

theorem lookup_eq_some {f : Frame} (h : f.lookup name = some (type, location)) :
    ∃ v, f.find? name = some v ∧ v.type = type ∧
      ((∃ position, v.storage = .frame position ∧ location = .stack (position - f.depth)) ∨
        ∃ l, v.storage = .static l ∧ location = .static l) := by
  simp only [lookup, Option.map_eq_some_iff, Prod.mk.injEq] at h
  obtain ⟨v, hv, rfl, rfl⟩ := h
  refine ⟨v, hv, rfl, ?_⟩
  cases v.storage with
  | frame position => exact .inl ⟨position, rfl, rfl⟩
  | static l => exact .inr ⟨l, rfl, rfl⟩

end Frame

def Frame.variables (f : Frame) : List (String × Variable) := f.scopes.flatMap Scope.entries

theorem Frame.find?_eq_lookup (f : Frame) (name : String) :
    f.find? name = f.variables.lookup name := by
  rw [find?, Frame.variables]
  induction f.scopes with
  | nil => rfl
  | cons scope scopes ih =>
    rw [List.findSome?_cons, List.flatMap_cons, List.lookup_append, ← ih]
    cases scope.entries.lookup name <;> rfl

theorem Frame.mem_variables {f : Frame} (h : f.lookup name = some found) :
    ∃ v, (name, v) ∈ f.variables := by
  obtain ⟨type, location⟩ := found
  obtain ⟨v, hv, -⟩ := lookup_eq_some h
  rw [find?_eq_lookup, List.lookup_eq_some_iff] at hv
  obtain ⟨before, after, hsplit, -⟩ := hv
  exact ⟨v, by simp [hsplit]⟩

def EmitContext.at (c : EmitContext) (frame : Frame) : TypeContext :=
  ⟨c.structs, c.functions, frame⟩

@[simp] theorem EmitContext.at_structs (c : EmitContext) (frame : Frame) :
    (c.at frame).structs = c.structs := rfl

@[simp] theorem EmitContext.at_frame (c : EmitContext) (frame : Frame) :
    (c.at frame).frame = frame := rfl

namespace Emit

/-! ### The generator's monad -/

variable {α β : Type} {s s' : EmitState}

@[simp] theorem fault_ok : (fault cause span : Emit α) s = .ok a s' ↔ False :=
  ⟨fun h => (by cases h), fun h => h.elim⟩

theorem ofCheck_ok {x : Typing.Check α} : ofCheck x s = .ok a s' ↔ x = .ok a ∧ s' = s := by
  cases x with
  | ok b => simp [ofCheck, pure_ok, eq_comm]
  | error e => exact ⟨fun h => (by cases h), fun h => (by cases h.1)⟩

theorem typing_ok : typing c s = .ok t s' ↔ t = c.at s.frame ∧ s' = s := by
  simp only [typing, bind_ok, get_ok, pure_ok, EmitContext.at]
  grind

theorem typeHere_ok :
    typeHere c e s = .ok type s' ↔ Typing.typeOf (c.at s.frame) e = .ok type ∧ s' = s := by
  simp only [typeHere, bind_ok, typing_ok, ofCheck_ok]
  grind

theorem modifyFrame_ok {f : Frame → Frame} :
    modifyFrame f s = .ok u s' ↔ s' = { s with frame := f s.frame } := modify_ok

theorem freshLabel_ok : freshLabel s = .ok l s' ↔
    l = .code s.labels.next ∧ s' = { s with labels := ⟨s.labels.next + 1⟩ } := by
  constructor
  · intro h
    cases h
    exact ⟨rfl, rfl⟩
  · rintro ⟨rfl, rfl⟩
    rfl

theorem acquire_ok : acquire span s = .ok r s' ↔ ∃ k, s.registers.lowestFree? = some k ∧
    r = .general k ∧ s' = { s with registers := s.registers.take k } := by
  cases h : s.registers.lowestFree? with
  | none => simp [acquire_of_none h]
  | some k => simp [acquire_of_free h, eq_comm]

theorem holding_ok {body : Emit α} : holding r body s = .ok a s' ↔
    ∃ t, body s = .ok a t ∧ s' = { t with registers := t.registers.release r } := by
  simp only [holding]
  cases body s <;> simp
  grind

theorem withRegister_ok {body : Register → Emit α} : withRegister span body s = .ok a s' ↔
    ∃ k t, s.registers.lowestFree? = some k ∧
      body (.general k) { s with registers := s.registers.take k } = .ok a t ∧
      s' = { t with registers := t.registers.release (.general k) } := by
  simp only [withRegister, bind_ok, acquire_ok, holding_ok]
  grind

/-! ### Moving the stack pointer -/

def raiseSp (words : Nat) : Assembly :=
  if words = 0 then [] else [line (increase .sp (count words))]

def lowerSp (words : Nat) : Assembly :=
  if words = 0 then [] else [line (decrease .sp (count words))]

def pushCode (value : Arg) : Assembly := [line (.memWrite .sp value), line (increase .sp (count 1))]

def pushCopyCode (source : Register) (words : Nat) : Assembly :=
  (List.replicate words [line (.memCopy .sp source), line (increase source (word 1)),
    line (increase .sp (word 1))]).flatten

def popCode (r : Register) : Assembly := [line (decrease .sp (count 1)), line (.memRead r .sp)]

def relationCode (relation : Relation) (yes done : Label) : Assembly :=
  [line (.branch relation (.label yes)), line (.memWrite .sp (word 0)), line (.jmp (labelled done)),
    .label yes, line (.memWrite .sp (word 1)), .label done, line (increase .sp (count 1))]

theorem pushWords_ok : pushWords words s = .ok code s' ↔
    code = raiseSp words ∧ s' = { s with frame := s.frame.push words } := by
  by_cases h : words = 0
  · subst h
    obtain ⟨frame, registers, labels⟩ := s
    simp only [pushWords, raiseSp, ↓reduceIte, pure_ok, Frame.push_zero]
    grind
  · simp only [pushWords, h, ↓reduceIte, bind_ok, modifyFrame_ok, pure_ok, raiseSp]
    grind

theorem popWords_ok : popWords words s = .ok code s' ↔
    code = lowerSp words ∧ s' = { s with frame := s.frame.pop words } := by
  by_cases h : words = 0
  · subst h
    obtain ⟨frame, registers, labels⟩ := s
    simp only [popWords, lowerSp, ↓reduceIte, pure_ok, Frame.pop_zero]
    grind
  · simp only [popWords, h, ↓reduceIte, bind_ok, modifyFrame_ok, pure_ok, lowerSp]
    grind

theorem pushValue_ok : pushValue value s = .ok code s' ↔
    code = pushCode value ∧ s' = { s with frame := s.frame.push 1 } := by
  simp only [pushValue, bind_ok, pushWords_ok, pure_ok, pushCode, raiseSp]
  grind

theorem pushCopy_ok : pushCopy source words s = .ok code s' ↔
    code = pushCopyCode source words ∧ s' = { s with frame := s.frame.push words } := by
  simp only [pushCopy, bind_ok, modifyFrame_ok, pure_ok, pushCopyCode]
  grind

theorem popHeld_ok : popHeld span s = .ok (code, r) s' ↔ ∃ k, s.registers.lowestFree? = some k ∧
    r = .general k ∧ code = popCode r ∧
    s' = { s with frame := s.frame.pop 1, registers := s.registers.take k } := by
  simp only [popHeld, bind_ok, popWords_ok, acquire_ok, pure_ok, popCode, lowerSp, Prod.mk.injEq]
  grind

theorem withPopped_ok {body : Register → Emit Assembly} : withPopped span body s = .ok code s' ↔
    ∃ k rest t, s.registers.lowestFree? = some k ∧
      body (.general k) { s with frame := s.frame.pop 1, registers := s.registers.take k } =
        .ok rest t ∧ code = popCode (.general k) ++ rest ∧
      s' = { t with registers := t.registers.release (.general k) } := by
  simp only [withPopped, bind_ok, Prod.exists, popHeld_ok, holding_ok, pure_ok]
  grind

theorem withOperands_ok {body : Register → Register → Emit Assembly} :
    withOperands left right body s = .ok code s' ↔
      ∃ l r rest t, s.registers.lowestFree? = some l ∧ (s.registers.take l).lowestFree? = some r ∧
        body (.general l) (.general r)
          { s with frame := (s.frame.pop 1).pop 1, registers := (s.registers.take l).take r }
          = .ok rest t ∧
        code = popCode (.general r) ++ popCode (.general l) ++ rest ∧
        s' = { t with registers := (t.registers.release (.general r)).release (.general l) } := by
  simp only [withOperands, withRegister_ok, bind_ok, popWords_ok, pure_ok]
  constructor
  · rintro ⟨l, _, hl, ⟨r, _, hr, ⟨_, _, ⟨rfl, rfl⟩, _, _, ⟨rfl, rfl⟩, rest, t, hb, rfl, rfl⟩, rfl⟩,
      rfl⟩
    exact ⟨l, r, rest, t, hl, hr, hb, by simp [popCode, lowerSp], rfl⟩
  · rintro ⟨l, r, rest, t, hl, hr, hb, rfl, rfl⟩
    exact ⟨l, _, hl, ⟨r, _, hr, ⟨_, _, ⟨rfl, rfl⟩, _, _, ⟨rfl, rfl⟩, rest, t, hb,
      by simp [popCode, lowerSp], rfl⟩, rfl⟩, rfl⟩

theorem pushRelation_ok : pushRelation relation s = .ok code s' ↔
    code = relationCode relation (.code s.labels.next) (.code (s.labels.next + 1)) ∧
      s' = { s with frame := s.frame.push 1, labels := ⟨s.labels.next + 2⟩ } := by
  simp only [pushRelation, bind_ok, freshLabel_ok, pushWords_ok, pure_ok]
  constructor
  · rintro ⟨_, _, ⟨rfl, rfl⟩, _, _, ⟨rfl, rfl⟩, _, _, ⟨rfl, rfl⟩, rfl, rfl⟩
    exact ⟨rfl, rfl⟩
  · rintro ⟨rfl, rfl⟩
    exact ⟨_, _, ⟨rfl, rfl⟩, _, _, ⟨rfl, rfl⟩, _, _, ⟨rfl, rfl⟩, rfl, rfl⟩

end Emit

end WordScript
