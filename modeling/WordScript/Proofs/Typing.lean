import WordScript.Typing
import WordScript.Proofs.Success

/-!
# Typing laws

Types depend on the scopes of a frame and on nothing else of it, and each form of expression that
has a type says what its parts have.
-/

namespace WordScript

namespace Typing

@[simp] theorem fail_eq_ok : (fail cause span : Check α) = .ok a ↔ False :=
  ⟨fun h => (by cases h), fun h => h.elim⟩

@[simp] theorem fail_bind {f : α → Check β} : (fail cause span >>= f) = fail cause span := rfl

theorem fieldOf_eq_ok {structs : Structs} (h : fieldOf structs whole name = .ok field) :
    ∃ id t, whole = .struct id ∧ structs.get? id = some t ∧ t.field? name.text = some field := by
  cases whole with
  | struct id =>
    simp only [fieldOf] at h
    cases hf : (structs.get? id).bind (·.field? name.text) with
    | none => simp [hf] at h
    | some f =>
      obtain rfl : f = field := by simpa [hf] using h
      obtain ⟨t, ht, hfield⟩ := Option.bind_eq_some_iff.mp hf
      exact ⟨id, t, rfl, ht, hfield⟩
  | _ => simp [fieldOf] at h

theorem singleWord_eq_ok : singleWord structs type span = .ok u ↔ structs.words type = 1 := by
  by_cases h : structs.words type = 1 <;> simp [singleWord, h]

/-! ### Frames with the same scopes -/

theorem lookup_type_congr {f g : Frame} (h : f.scopes = g.scopes) (name : String) :
    (f.lookup name).map Prod.fst = (g.lookup name).map Prod.fst := by
  simp only [Frame.lookup, Frame.find?, h, Option.map_map]
  rfl

section
variable {f g : Frame} {structs : Structs} {functions : Functions}

mutual

theorem typeOf_congr (h : f.scopes = g.scopes) :
    ∀ e, typeOf ⟨structs, functions, f⟩ e = typeOf ⟨structs, functions, g⟩ e
  | .integer .. | .float .. | .string .. => rfl
  | .var span name => by
    have hl := lookup_type_congr h name
    simp only [typeOf]
    cases hf : f.lookup name <;> cases hg : g.lookup name <;> simp_all
  | .call span target args => by
    simp only [typeOf, callTarget_congr h target, checkArgs_congr h args]
  | .binary _ _ lhs rhs => by simp only [typeOf, typeOf_congr h lhs, typeOf_congr h rhs]
  | .unary _ _ operand => by simp only [typeOf, typeOf_congr h operand]
  | .assign _ _ target value => by simp only [typeOf, typeOf_congr h target, typeOf_congr h value]
  | .field _ base _ => by simp only [typeOf, typeOf_congr h base]
  | .addressOf _ inner | .dereference _ inner | .sizeOf _ inner => by
    simp only [typeOf, typeOf_congr h inner]

theorem callTarget_congr (h : f.scopes = g.scopes) :
    ∀ e, callTarget ⟨structs, functions, f⟩ e = callTarget ⟨structs, functions, g⟩ e
  | .var .. => rfl
  | .field _ base _ => by
    simp only [callTarget, typeOf_congr h base]
    rfl
  | .integer .. | .float .. | .string .. | .call .. | .binary .. | .unary .. | .assign ..
  | .addressOf .. | .dereference .. | .sizeOf .. => rfl

theorem checkArgs_congr (h : f.scopes = g.scopes) :
    ∀ es params, checkArgs ⟨structs, functions, f⟩ es params =
      checkArgs ⟨structs, functions, g⟩ es params
  | [], _ => rfl
  | _ :: _, [] => rfl
  | e :: es, (name, type) :: params => by
    simp only [checkArgs, typeOf_congr h e, checkArgs_congr h es]

end

end

/-! ### What the parts of a typed expression have -/

section
variable {c : TypeContext}

theorem typeOf_var (h : typeOf c (.var span name) = .ok type) :
    ∃ location, c.frame.lookup name = some (type, location) := by
  simp only [typeOf] at h
  split at h
  · next location hl => exact ⟨location, by simpa using hl.trans (by simp_all)⟩
  · simp at h

theorem lookUp_eq_ok (h : lookUp c function receiver span = .ok target) :
    c.functions.get? function = some target.signature ∧ target.function = function ∧
      target.receiver = receiver := by
  simp only [lookUp] at h
  split at h
  · next signature hs =>
    simp only [Except.ok.injEq] at h
    subst h
    exact ⟨hs, rfl, rfl⟩
  · simp at h

theorem callTarget_field (h : callTarget c (.field span base name) = .ok target) :
    ∃ id, typeOf c base = .ok (.struct id) ∧
      c.functions.get? (.method (c.structs.nameOf id) name.text) = some target.signature ∧
      target.function = .method (c.structs.nameOf id) name.text ∧ target.receiver = some base := by
  simp only [callTarget, bind_eq_ok] at h
  obtain ⟨type, hb, h⟩ := h
  cases type with
  | struct id =>
    obtain ⟨hs, hf, hr⟩ := lookUp_eq_ok h
    exact ⟨id, hb, hs, hf, hr⟩
  | _ => simp at h

theorem callTarget_other (hf : ∀ span base name, callee ≠ .field span base name)
    (h : callTarget c callee = .ok target) :
    ∃ name, c.functions.get? (.free name) = some target.signature ∧ target.function = .free name ∧
      target.receiver = none := by
  cases callee with
  | var span name =>
    obtain ⟨hs, hf, hr⟩ := lookUp_eq_ok h
    exact ⟨name, hs, hf, hr⟩
  | field span base name => exact absurd rfl (hf span base name)
  | _ => simp [callTarget] at h

theorem typeOf_call (h : typeOf c (.call span callee args) = .ok type) :
    ∃ target, callTarget c callee = .ok target ∧
      (∀ receiver, target.receiver = some receiver → receiver.addressable = true) ∧
      args.length = target.signature.params.length ∧
      checkArgs c args target.signature.params = .ok () ∧ type = target.signature.returns := by
  simp only [typeOf, bind_eq_ok] at h
  obtain ⟨target, ht, h⟩ := h
  by_cases hl : args.length = target.signature.params.length
  · simp only [hl, ne_eq, not_true_eq_false, ↓reduceIte, fail_bind] at h
    refine ⟨target, ht, ?_⟩
    split at h
    · next receiver hr =>
      split at h
      · next ha =>
        obtain ⟨_, hc, rfl⟩ := by simpa only [bind_eq_ok, pure_eq_ok] using h
        exact ⟨by simp_all, hl, hc, rfl⟩
      · simp at h
    · next hr =>
      obtain ⟨_, hc, rfl⟩ := by simpa only [bind_eq_ok, pure_eq_ok] using h
      exact ⟨fun receiver h => absurd h (hr receiver), hl, hc, rfl⟩
  · simp only [hl, ne_eq, not_false_eq_true, ↓reduceIte, fail_bind] at h
    split at h
    · split at h <;> simp at h
    · simp at h

theorem typeOf_binary (h : typeOf c (.binary span op lhs rhs) = .ok type) :
    ∃ left right, typeOf c lhs = .ok left ∧ typeOf c rhs = .ok right ∧
      c.structs.words left = 1 ∧ c.structs.words right = 1 ∧
      binary c.structs op left right span = .ok type := by
  simp only [typeOf, bind_eq_ok, singleWord_eq_ok] at h
  obtain ⟨left, hl, right, hr, _, hlw, _, hrw, h⟩ := h
  exact ⟨left, right, hl, hr, hlw, hrw, h⟩

theorem typeOf_unary (h : typeOf c (.unary span op operand) = .ok type) :
    ∃ inner, typeOf c operand = .ok inner ∧
      unary c.structs op inner operand.span span = .ok type := by
  simpa only [typeOf, bind_eq_ok] using h

theorem typeOf_field (h : typeOf c (.field span base name) = .ok type) :
    ∃ inner field, typeOf c base = .ok inner ∧ fieldOf c.structs inner name = .ok field ∧
      type = field.type := by
  simp only [typeOf, bind_eq_ok, pure_eq_ok] at h
  obtain ⟨inner, hb, field, hf, rfl⟩ := h
  exact ⟨inner, field, hb, hf, rfl⟩

theorem typeOf_addressOf (h : typeOf c (.addressOf span e) = .ok type) :
    e.addressable = true ∧ ∃ place, typeOf c e = .ok place ∧ type = .reference place := by
  simp only [typeOf] at h
  split at h
  · next ha =>
    obtain ⟨place, hp, rfl⟩ := by simpa only [bind_eq_ok, pure_eq_ok] using h
    exact ⟨ha, place, hp, rfl⟩
  · simp at h

theorem typeOf_dereference (h : typeOf c (.dereference span e) = .ok type) :
    typeOf c e = .ok (.reference type) := by
  simp only [typeOf, bind_eq_ok] at h
  obtain ⟨pointer, hi, h⟩ := h
  cases pointer with
  | reference pointee =>
    simp only [pure_eq_ok] at h
    rw [hi, h]
  | _ => simp at h

theorem typeOf_assign (h : typeOf c (.assign span none target value) = .ok type) :
    target.addressable = true ∧ ∃ found, typeOf c target = .ok type ∧ typeOf c value = .ok found ∧
      c.structs.accepts type found = true := by
  simp only [typeOf, fail_bind] at h
  split at h
  · next ha =>
    simp only [bind_eq_ok] at h
    obtain ⟨place, hp, found, hv, h⟩ := h
    split at h
    · next hac =>
      rw [pure_eq_ok] at h
      subst h
      exact ⟨ha, found, hp, hv, hac⟩
    · simp at h
  · simp at h

theorem typeOf_update (h : typeOf c (.assign span (some op) target value) = .ok type) :
    target.addressable = true ∧ ∃ place found, typeOf c target = .ok place ∧
      typeOf c value = .ok found ∧ c.structs.words place = 1 ∧ c.structs.words found = 1 ∧
      arithmetic c.structs op place found span = .ok type := by
  simp only [typeOf, fail_bind] at h
  split at h
  · next ha =>
    simp only [bind_eq_ok, singleWord_eq_ok] at h
    obtain ⟨place, hp, found, hv, _, hpw, _, hvw, h⟩ := h
    exact ⟨ha, place, found, hp, hv, hpw, hvw, h⟩
  · simp at h

theorem typeOf_sizeOf (h : typeOf c (.sizeOf span e) = .ok type) : type = .int := by
  simp only [typeOf] at h
  split at h
  · simp only [bind_eq_ok, pure_eq_ok] at h
    obtain ⟨_, _, rfl⟩ := h
    rfl
  · exact (pure_eq_ok.mp h).symm

theorem checkArgs_cons (h : checkArgs c (arg :: args) (param :: params) = .ok u) :
    ∃ found, typeOf c arg = .ok found ∧ c.structs.accepts param.2 found = true ∧
      checkArgs c args params = .ok () := by
  obtain ⟨name, expected⟩ := param
  simp only [checkArgs, bind_eq_ok] at h
  obtain ⟨found, ha, h⟩ := h
  split at h
  · next hac => exact ⟨found, ha, hac, h⟩
  · simp at h

theorem arithmetic_type (h : arithmetic structs op lhs rhs span = .ok type) : type = lhs := by
  simp only [arithmetic] at h
  split at h
  · simpa using h.symm
  · split at h <;> simp at h

end

end Typing

end WordScript
