/-!
# Success of checks and actions

What it means that a computation that can fail succeeded: each part of it did, in order.
-/

namespace WordScript

/-! ### Checks -/

theorem bind_eq_ok {x : Except ε α} {f : α → Except ε β} :
    (x >>= f) = .ok b ↔ ∃ a, x = .ok a ∧ f a = .ok b := by
  cases x <;> simp [bind, Except.bind]

theorem bind_eq_error {x : Except ε α} {f : α → Except ε β} :
    (x >>= f) = .error e ↔ x = .error e ∨ ∃ a, x = .ok a ∧ f a = .error e := by
  cases x <;> simp [bind, Except.bind]

theorem pure_eq_ok : (pure a : Except ε α) = .ok b ↔ a = b := by
  simp [pure, Except.pure]

theorem mapError_eq_ok {x : Except ε α} {f : ε → ε'} : x.mapError f = .ok a ↔ x = .ok a := by
  cases x with
  | ok b =>
    constructor <;> intro h <;> cases h <;> rfl
  | error e =>
    constructor <;> intro h <;> cases h

theorem toOption_eq_some {x : Except ε α} : x.toOption = some a ↔ x = .ok a := by
  cases x <;> simp [Except.toOption]

theorem of_toOption_bind {x : Except ε α} {f : α → Option β} (h : (x.toOption >>= f) = some b) :
    ∃ a, x = .ok a ∧ f a = some b := by
  obtain ⟨a, ha, hf⟩ := Option.bind_eq_some_iff.mp h
  exact ⟨a, toOption_eq_some.mp ha, hf⟩

theorem throw_ne_ok {e : ε} {a : α} : (throw e : Except ε α) ≠ .ok a := by
  simp [throw, throwThe, MonadExceptOf.throw]

theorem refuse_eq_ok {p : Prop} [Decidable p] {e : ε} {f : PUnit → Except ε α} {x : Except ε α} :
    (if p then throw e >>= f else x) = .ok a ↔ ¬p ∧ x = .ok a := by
  by_cases h : p <;> simp [h, throw, throwThe, MonadExceptOf.throw, bind, Except.bind]

theorem foldlM_keeps {f : β → α → Except ε β} {P : β → Prop} {l : List α} {b b' : β}
    (hstep : ∀ a ∈ l, ∀ b b', P b → f b a = .ok b' → P b') (hb : P b) (h : l.foldlM f b = .ok b') :
    P b' := by
  induction l generalizing b with
  | nil => exact pure_eq_ok.mp h ▸ hb
  | cons a l ih =>
    rw [List.foldlM_cons, bind_eq_ok] at h
    obtain ⟨t, ht, h⟩ := h
    exact ih (fun a ha => hstep a (by simp [ha])) (hstep a (by simp) b t hb ht) h

/-! ### Actions on a state -/

section
variable {ε σ α β : Type} {s s' : σ}

theorem bind_ok {x : EStateM ε σ α} {f : α → EStateM ε σ β} :
    (x >>= f) s = .ok b s' ↔ ∃ a t, x s = .ok a t ∧ f a t = .ok b s' := by
  simp only [bind, EStateM.bind]
  cases x s <;> grind

theorem pure_ok : (pure a : EStateM ε σ α) s = .ok b s' ↔ a = b ∧ s = s' := by
  simp [pure, EStateM.pure]

theorem get_ok : (get : EStateM ε σ σ) s = .ok t s' ↔ t = s ∧ s' = s := by
  constructor
  · intro h
    cases h
    exact ⟨rfl, rfl⟩
  · rintro ⟨rfl, rfl⟩
    rfl

theorem modify_ok {f : σ → σ} : (modify f : EStateM ε σ PUnit) s = .ok u s' ↔ s' = f s := by
  constructor
  · intro h
    cases h
    rfl
  · rintro rfl
    rfl

theorem run'_eq_some {x : EStateM ε σ α} : x.run' s = some a ↔ ∃ s', x s = .ok a s' := by
  delta EStateM.run' EStateM.run
  cases x s <;> simp

end

end WordScript
