import WordScript.Proofs.Machine.Image

/-!
# Reasoning backwards through code

Claims about runs have one shape: whatever happens from here on is as it should be. Such a claim `G`
is `Image.Closed` if it holds wherever a step leads to a state of which it holds, and wherever a
tolerated trap occurs. The rules here take any closed `G` back through code: `Closed.run` through
code without jumps, by `Image.wp`, and the others through jumps and branches.
-/

namespace WordScript

def Addressable (z : Int) : Prop := 0 ≤ z ∧ z < 2 ^ 31

theorem Addressable.toInt (h : Addressable z) : (Int32.ofInt z).toInt = z :=
  Int32.toInt_ofInt_of_le (by have := h.1; omega) h.2

namespace Image

variable {img : Image} {ok : Trap → Prop} {G : State → Prop} {Q : Store → Prop}
  {s : Store} {pc : Nat}

theorem holds_ofInt (hz : Addressable z) : img.Holds (.ofInt z) ↔ z < img.memoryWords := by
  rw [Holds, hz.toInt, Int32.le_iff_toInt_le, hz.toInt]
  exact ⟨fun h => h.2, fun h => ⟨hz.1, h⟩⟩

/-- A claim about states that can be shown backwards. -/
structure Closed (img : Image) (ok : Trap → Prop) (G : State → Prop) : Prop where
  step : ∀ x y, img.Step x y → G y → G x
  trap : ∀ x t, img.Traps x t → ok t → G x

/-! ### Code without jumps -/

def Allows (ok : Trap → Prop) (Q : Store → Prop) : Except Trap Store → Prop
  | .ok s => Q s
  | .error t => ok t

/-- What must hold of a store so that code without jumps leads to `Q` or to a tolerated trap. -/
def wp (img : Image) (ok : Trap → Prop) : Assembly → (Store → Prop) → Store → Prop
  | [], Q, s => Q s
  | .instruction i _ :: rest, Q, s => i.straight = true ∧
      Allows ok (wp img ok rest Q) (img.exec s i)
  | .label _ :: rest, Q, s => wp img ok rest Q s
  | .static .. :: rest, Q, s => wp img ok rest Q s
  | .comment _ :: rest, Q, s => wp img ok rest Q s

/-- Back through code without jumps. -/
theorem Closed.run (hG : img.Closed ok G) (here : img.code.At pc a)
    (h : img.wp ok a (fun s' => G ⟨pc + a.size, s'⟩) s) : G ⟨pc, s⟩ := by
  induction a generalizing pc s with
  | nil => exact h
  | cons item a ih =>
    cases item with
    | instruction i comment =>
      obtain ⟨goes, h⟩ := h
      cases hexec : img.exec s i with
      | ok s' =>
        rw [hexec] at h
        refine hG.step _ _ (.straight here.head goes hexec) (ih here.tail ?_)
        simp only [Assembly.size_cons, Item.size, ← Nat.add_assoc] at h ⊢
        exact h
      | error t =>
        rw [hexec] at h
        exact hG.trap _ t (.straight here.head hexec) h
    | label | static | comment =>
      refine ih here.tail ?_
      simp only [Assembly.size_cons, Item.size, Nat.zero_add] at h ⊢
      exact h

theorem wp_mono {P : Store → Prop} (hPQ : ∀ s', P s' → Q s') (h : img.wp ok a P s) :
    img.wp ok a Q s := by
  induction a generalizing s with
  | nil => exact hPQ s h
  | cons item a ih =>
    cases item with
    | instruction i comment =>
      refine ⟨h.1, ?_⟩
      have := h.2
      cases hexec : img.exec s i with
      | ok s' =>
        rw [hexec] at this
        exact ih this
      | error t =>
        rw [hexec] at this
        exact this
    | label | static | comment => exact ih h

theorem wp_append : img.wp ok (a ++ b) Q s ↔ img.wp ok a (img.wp ok b Q) s := by
  induction a generalizing s with
  | nil => exact .rfl
  | cons item a ih =>
    cases item with
    | instruction i comment =>
      simp only [List.cons_append, wp]
      refine and_congr_right fun _ => ?_
      cases img.exec s i with
      | ok s' => exact ih
      | error t => exact .rfl
    | label | static | comment => exact ih

section
variable {comment : Option String} {rest : Assembly}

@[simp] theorem wp_nil : img.wp ok [] Q s ↔ Q s := .rfl

@[simp] theorem wp_label : img.wp ok (.label l :: rest) Q s ↔ img.wp ok rest Q s := .rfl

@[simp] theorem wp_mov : img.wp ok (.instruction (.mov r source) comment :: rest) Q s ↔
    img.wp ok rest Q (s.set r (img.operand s source)) := and_iff_right rfl

@[simp] theorem wp_add : img.wp ok (.instruction (.arith .integer .add r rhs) comment :: rest) Q s ↔
    img.wp ok rest Q (s.set r (s.registers r + img.operand s rhs)) := and_iff_right rfl

@[simp] theorem wp_sub : img.wp ok (.instruction (.arith .integer .sub r rhs) comment :: rest) Q s ↔
    img.wp ok rest Q (s.set r (s.registers r - img.operand s rhs)) := and_iff_right rfl

@[simp] theorem wp_cmp : img.wp ok (.instruction (.cmp kind r rhs) comment :: rest) Q s ↔
    img.wp ok rest Q (s.compared (Word.compare kind (s.registers r) (img.operand s rhs))) :=
  and_iff_right rfl

theorem wp_arith (h : ∀ w, Word.arithmetic? kind op (s.registers r) (img.operand s rhs) = some w →
      img.wp ok rest Q (s.set r w))
    (hno : Word.arithmetic? kind op (s.registers r) (img.operand s rhs) = none → ok .division) :
    img.wp ok (.instruction (.arith kind op r rhs) comment :: rest) Q s := by
  refine ⟨rfl, ?_⟩
  simp only [exec]
  cases hw : Word.arithmetic? kind op (s.registers r) (img.operand s rhs) with
  | some w => exact h w hw
  | none => exact hno hw

theorem wp_memRead (ha : s.registers a = .ofInt z) (hz : Addressable z)
    (h : z < img.memoryWords → img.wp ok rest Q (s.set r (s.memory z)))
    (hno : img.memoryWords ≤ z → ok .address) :
    img.wp ok (.instruction (.memRead r a) comment :: rest) Q s := by
  refine ⟨rfl, ?_⟩
  simp only [exec, ha, holds_ofInt hz, hz.toInt]
  by_cases hlt : z < img.memoryWords
  · rw [if_pos hlt]
    exact h hlt
  · rw [if_neg hlt]
    exact hno (Int.not_lt.mp hlt)

theorem wp_memWrite (ha : s.registers a = .ofInt z) (hz : Addressable z)
    (h : z < img.memoryWords → img.wp ok rest Q (s.write z (img.operand s source)))
    (hno : img.memoryWords ≤ z → ok .address) :
    img.wp ok (.instruction (.memWrite a source) comment :: rest) Q s := by
  refine ⟨rfl, ?_⟩
  simp only [exec, ha, holds_ofInt hz, hz.toInt]
  by_cases hlt : z < img.memoryWords
  · rw [if_pos hlt]
    exact h hlt
  · rw [if_neg hlt]
    exact hno (Int.not_lt.mp hlt)

theorem wp_memCopy (ht : s.registers r = .ofInt z) (hz : Addressable z)
    (hr : s.registers r' = .ofInt z') (hz' : Addressable z')
    (h : z < img.memoryWords → z' < img.memoryWords → img.wp ok rest Q (s.write z (s.memory z')))
    (hno : img.memoryWords ≤ z ∨ img.memoryWords ≤ z' → ok .address) :
    img.wp ok (.instruction (.memCopy r r') comment :: rest) Q s := by
  refine ⟨rfl, ?_⟩
  simp only [exec, ht, hr, holds_ofInt hz, holds_ofInt hz', hz.toInt, hz'.toInt]
  by_cases hlt : z' < img.memoryWords ∧ z < img.memoryWords
  · rw [if_pos hlt]
    exact h hlt.2 hlt.1
  · rw [if_neg hlt]
    exact hno (by omega)

end

/-! ### Code with jumps -/

/-- Wherever it stands, the code takes the store to one as wanted behind it, as far as `G` can tell.
-/
def Leads (img : Image) (G : State → Prop) (a : Assembly) (Q : Store → Prop) (s : Store) : Prop :=
  ∀ pc, img.code.At pc a → (∀ s', Q s' → G ⟨pc + a.size, s'⟩) → G ⟨pc, s⟩

theorem Closed.leads (hG : img.Closed ok G) (h : img.wp ok a Q s) : img.Leads G a Q s :=
  fun _ here hQ => hG.run here (wp_mono hQ h)

namespace Leads

theorem nil (h : Q s) : img.Leads G [] Q s := fun _ _ hQ => hQ s h

theorem append {P : Store → Prop} (ha : img.Leads G a P s) (hb : ∀ s', P s' → img.Leads G b Q s') :
    img.Leads G (a ++ b) Q s := by
  intro pc here hQ
  refine ha pc here.left fun s' hs' => hb s' hs' _ here.right fun s'' hs'' => ?_
  rw [Nat.add_assoc, ← Assembly.size_append]
  exact hQ s'' hs''

theorem imp {P : Store → Prop} (h : img.Leads G a P s) (hPQ : ∀ s', P s' → Q s') :
    img.Leads G a Q s :=
  fun pc here hQ => h pc here fun s' hs' => hQ s' (hPQ s' hs')

end Leads

/-! ### Jumps and branches -/

namespace Closed

theorem jump (hG : img.Closed ok G) (hp : img.Proper)
    (here : img.code.At pc [.instruction (.jmp (.value (.label l))) comment])
    (target : img.code.At pc' [.label l]) (h : G ⟨pc', s⟩) : G ⟨pc, s⟩ := by
  refine hG.step _ _ (.jump here (hp.labels pc' l target) ?_) h
  have := target.size_le
  omega

/-- Back through a branch on both ways out of it. -/
theorem branch (hG : img.Closed ok G) (hp : img.Proper)
    (here : img.code.At pc [.instruction (.branch relation (.label l)) comment])
    (target : img.code.At pc' [.label l]) (compared : s.flags = some c)
    (taken : relation.holds c = true → G ⟨pc', s⟩)
    (passed : relation.holds c = false → G ⟨pc + 2, s⟩) : G ⟨pc, s⟩ := by
  cases hc : relation.holds c with
  | true =>
    refine hG.step _ _ (.taken here compared hc (hp.labels pc' l target) ?_) (taken hc)
    have := target.size_le
    omega
  | false => exact hG.step _ _ (.passed here compared hc) (passed hc)

end Closed

/-! ### What happens in the end -/

/-- A machine in this state comes to where `P` holds, unless it has a budget and spends it. -/
def Eventually (img : Image) (P : Machine ⊕ Ending → Prop) (x : State) : Prop :=
  ∀ m : Machine, m.Shows img x → ∃ n, P (m.runFor n) ∨
    ∃ pc budget, m.budget = some budget ∧
    m.runFor n = .inr (.error (.stepBudgetExhausted pc budget))

namespace Eventually

variable {P : Machine ⊕ Ending → Prop}

theorem now (h : ∀ m : Machine, m.Shows img x → P (.inl m)) : img.Eventually P x :=
  fun m hm => ⟨0, .inl (h m hm)⟩

theorem budget_of_spent {m : Machine} (h : m.spentBudget? = some budget) : m.budget = some budget :=
  (Option.filter_eq_some_iff.mp h).1

theorem step (hp : img.Proper) (hs : img.Step x y) (h : img.Eventually P y) :
    img.Eventually P x := by
  intro m hm
  rcases hm.step hp hs with ⟨budget, hspent, hstep⟩ | ⟨m', hstep, hm', hbudget⟩
  · exact ⟨1, .inr ⟨m.pc, budget, budget_of_spent hspent, by simp only [Machine.runFor, hstep]⟩⟩
  · obtain ⟨n, hn⟩ := h m' hm'
    have hrun : m.runFor (n + 1) = m'.runFor n := by rw [Machine.runFor, hstep]
    exact ⟨n + 1, by rwa [hrun, ← hbudget]⟩

theorem trap (hp : img.Proper) (ht : img.Traps x t) (h : ∀ e, t.Explains e → P (.inr (.error e))) :
    img.Eventually P x := by
  intro m hm
  rcases hm.trap hp ht with ⟨budget, hspent, hstep⟩ | ⟨e, m', hstep, hexplains⟩
  · exact ⟨1, .inr ⟨m.pc, budget, budget_of_spent hspent, by simp only [Machine.runFor, hstep]⟩⟩
  · have hrun : m.runFor 1 = .inr (.error e) := by simp only [Machine.runFor, hstep]
    exact ⟨1, .inl (hrun ▸ h e hexplains)⟩

end Eventually

theorem Proper.eventually {P : Machine ⊕ Ending → Prop} (hp : img.Proper)
    (hP : ∀ t e, ok t → t.Explains e → P (.inr (.error e))) : img.Closed ok (img.Eventually P) where
  step _ _ hs h := h.step hp hs
  trap _ t ht hok := .trap hp ht fun e he => hP t e hok he

end Image

def Machine.Comes (m : Machine) (P : Machine ⊕ Ending → Prop) : Prop :=
  ∃ n, P (m.runFor n) ∨
    ∃ pc budget, m.budget = some budget ∧
    m.runFor n = .inr (.error (.stepBudgetExhausted pc budget))

def Machine.Arrives (m : Machine) (P : Machine → Prop) : Prop :=
  m.Comes fun r => ∃ m', r = .inl m' ∧ P m'

theorem Image.Leads.comes {img : Image} {m : Machine} {s : Store} {Q : Store → Prop}
    (leads : img.Leads (img.Eventually P) a Q s) (here : img.code.At pc a)
    (hm : m.Shows img ⟨pc, s⟩)
    (h : ∀ s' m', Q s' → m'.Shows img ⟨pc + a.size, s'⟩ → P (.inl m')) : m.Comes P :=
  leads pc here (fun s' hs' => .now fun m' hm' => h s' m' hs' hm') m hm

end WordScript
