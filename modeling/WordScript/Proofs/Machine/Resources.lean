import WordScript.Proofs.Machine.Steps

/-!
# Budgets and memory sizes

Runs of one code on machines that differ in their step budget or in the size of their memory. Such
machines take the same steps until the one with less runs out of it: a budget only cuts a run short
(`budget_only_cuts`), and more memory changes nothing but the end of memory, unless an address was
missing (`memory_only_extends`).
-/

namespace WordScript

def Termination.enlarged (t : Termination) (k : Nat) : Termination :=
  { t with memory := t.memory ++ Array.replicate k 0 }

namespace Machine

variable {m m' : Machine} {i : Instr Slot Word} {pc k : Nat} {e : Failure}
  {b b' : Option Nat} {r : Ending} {t : Termination} {code : Bytecode}

/-! ### Steps with other resources -/

/-- The machine with another budget and with `k` more words of memory, all zero. -/
def given (m : Machine) (b : Option Nat) (k : Nat) : Machine :=
  { m with budget := b, memory := m.memory ++ Array.replicate k 0 }

def onMachine (f : Machine → Machine) : EStateM.Result Failure Machine Status →
    EStateM.Result Failure Machine Status
  | .ok status m => .ok status (f m)
  | .error e m => .error e (f m)

theorem load_given (code : Bytecode) (words k : Nat) :
    load code ⟨words + k, b'⟩ = (load code ⟨words, b⟩).given b' k := by
  simp [load, given, Array.replicate_append_replicate]

@[simp] theorem register_given (r : Slot) : (m.given b k).register r = m.register r := rfl

@[simp] theorem operand_given (o : Operand Slot Word) : (m.given b k).operand o = m.operand o := by
  cases o <;> rfl

theorem jump_given (target : Word) :
    (m.given b k).jump pc target = onMachine (·.given b k) (m.jump pc target) := by
  have hcode : (m.given b k).code = m.code := rfl
  simp only [jump, hcode]
  split <;> rfl

/-- An address that is in memory stays where it is, and only more memory can bring one in. -/
theorem cell?_given (m : Machine) (b : Option Nat) (k : Nat) (a : Word) :
    (∃ (cell : Fin m.memory.size) (inside : cell.val < (m.given b k).memory.size),
      m.cell? a = some cell ∧
      (m.given b k).cell? a = some ⟨cell.val, inside⟩) ∨
    m.cell? a = none ∧ (0 < k ∨ (m.given b k).cell? a = none) := by
  have hsize : (m.given b k).memory.size = m.memory.size + k := by simp [given]
  unfold cell?
  by_cases h : 0 ≤ a ∧ a.toNatClampNeg < m.memory.size
  · rw [dif_pos h, dif_pos ⟨h.1, by omega⟩]
    exact .inl ⟨_, _, rfl, rfl⟩
  · rw [dif_neg h]
    refine .inr ⟨rfl, (Nat.eq_zero_or_pos k).symm.imp_right fun hk => ?_⟩
    rw [dif_neg (by rwa [hsize, hk])]

theorem read_given (cell : Fin m.memory.size) (inside : cell.val < (m.given b k).memory.size) :
    (m.given b k).memory[cell.val] = m.memory[cell] := Array.getElem_append_left cell.isLt

theorem write_given (cell : Fin m.memory.size) (inside : cell.val < (m.given b k).memory.size)
    (w : Word) : { m.given b k with memory := (m.given b k).memory.set cell.val w } =
      { m with memory := m.memory.set cell w }.given b k := by
  simp only [given, Array.set_append_left cell.isLt]

/-- An instruction does the same with other resources, unless it has more memory and needed that. -/
theorem exec_given (m : Machine) (b : Option Nat) (k pc : Nat) (i : Instr Slot Word) :
    (0 < k ∧ ∃ a, exec pc i m = .error (.invalidAddress pc a) m) ∨
      exec pc i (m.given b k) = onMachine (·.given b k) (exec pc i m) := by
  cases i with
  | halt => exact .inr rfl
  | mov | cmp =>
    right
    simp only [exec, operand_given]
    rfl
  | arith =>
    right
    simp only [exec, register_given, operand_given]
    split <;> rfl
  | jmp target => exact .inr (by simp only [exec, operand_given, jump_given])
  | branch relation target =>
    right
    have hflags : (m.given b k).flags = m.flags := rfl
    simp only [exec, hflags, jump_given]
    split
    · rfl
    · split <;> rfl
  | memRead target address =>
    rcases m.cell?_given b k (m.register address) with ⟨cell, inside, hcell, hcell'⟩ |
      ⟨hnone, hmore | hnone'⟩
    · right
      simp only [exec, register_given, hcell, hcell', Fin.getElem_fin, read_given]
      rfl
    · exact .inl ⟨hmore, m.register address, by simp only [exec, hnone]⟩
    · exact .inr (by simp only [exec, register_given, hnone, hnone', onMachine])
  | memWrite address source =>
    rcases m.cell?_given b k (m.register address) with ⟨cell, inside, hcell, hcell'⟩ |
      ⟨hnone, hmore | hnone'⟩
    · right
      simp only [exec, register_given, hcell, hcell', operand_given, write_given, onMachine]
    · exact .inl ⟨hmore, m.register address, by simp only [exec, hnone]⟩
    · exact .inr (by simp only [exec, register_given, hnone, hnone', onMachine])
  | memCopy target source =>
    rcases m.cell?_given b k (m.register source) with ⟨read, _, hread, hread'⟩ |
      ⟨hnone, hmore | hnone'⟩
    · rcases m.cell?_given b k (m.register target) with ⟨written, _, hwritten, hwritten'⟩ |
        ⟨hnone, hmore | hnone'⟩
      · right
        simp only [exec, register_given, hread, hread', hwritten, hwritten', Fin.getElem_fin,
          read_given, write_given, onMachine]
      · exact .inl ⟨hmore, m.register target, by simp only [exec, hread, hnone]⟩
      · exact .inr (by simp only [exec, register_given, hread, hread', hnone, hnone', onMachine])
    · exact .inl ⟨hmore, m.register source, by simp only [exec, hnone]⟩
    · exact .inr (by simp only [exec, register_given, hnone, hnone', onMachine])

/-- A step does the same with other resources, if the budgets agree on whether an instruction may be
run. -/
theorem step_given (hspent : ∀ i, m.fetch = .ok (some i) →
      (m.given b k).spentBudget? = m.spentBudget?) :
    (0 < k ∧ ∃ pc a m', step m = .error (.invalidAddress pc a) m') ∨
      step (m.given b k) = onMachine (·.given b k) (step m) := by
  have hfetch' : (m.given b k).fetch = m.fetch := rfl
  cases hfetch : m.fetch with
  | error e =>
    right
    simp only [step, hfetch', hfetch]
    rfl
  | ok found =>
    cases found with
    | none =>
      right
      simp only [step, hfetch', hfetch]
      rfl
    | some i =>
      cases hleft : m.spentBudget? with
      | some budget =>
        right
        simp only [step, hfetch', hfetch, hspent i hfetch, hleft]
        rfl
      | none =>
        have hstep : step m = exec m.pc i (m.advance i.width) := by
          simp only [step, hfetch, hleft, advance]
        have hstep' : step (m.given b k) = exec m.pc i ((m.advance i.width).given b k) := by
          simp only [step, hfetch', hfetch, hspent i hfetch, hleft]
          rfl
        rw [hstep, hstep']
        rcases (m.advance i.width).exec_given b k m.pc i with ⟨hk, a, hfails⟩ | halike
        · exact .inl ⟨hk, _, a, _, hfails⟩
        · exact .inr halike

/-- If no step notices the other resources, except one that fails and is excused, then no run does.
-/
theorem runFor_given {P : Machine → Prop} {Q : Failure → Prop}
    (hstep : ∀ m, P m →
      (∃ e m', step m = .error e m' ∧ Q e) ∨ step (m.given b k) = onMachine (·.given b k) (step m))
    (hkeeps : ∀ m m', P m → step m = .ok .running m' → P m')
    (hm : P m) (h : m.runFor n = .inr r) (hr : ∀ e, r = .error e → ¬Q e) :
    (m.given b k).runFor n = .inr (r.map (·.enlarged k)) := by
  induction n generalizing m with
  | zero => cases h
  | succ n ih =>
    rcases hstep m hm with ⟨e, m', hfails, hexcused⟩ | halike
    · simp only [runFor, hfails] at h
      cases h
      exact absurd hexcused (hr e rfl)
    · rw [runFor] at h ⊢
      rw [halike]
      cases hdone : step m with
      | error e m' =>
        simp only [hdone] at h
        cases h
        rfl
      | ok status m' =>
        simp only [hdone] at h
        cases status with
        | running => exact ih (hkeeps m m' hm hdone) h
        | halted =>
          cases h
          rfl

/-! ### More memory -/

/-- Whatever halts with some memory halts with more, with the same registers and steps, and with
zeros behind the same memory. Whatever fails, but for want of an address, fails in the same way. -/
theorem memory_only_extends (code : Bytecode) (budget : Option Nat)
    (hsize : small ≤ large) (n : Nat) : (∀ t, (load code ⟨small, budget⟩).runFor n = .inr (.ok t) →
      (load code ⟨large, budget⟩).runFor n =
        .inr (.ok ⟨t.registers, t.memory ++ Array.replicate (large - small) 0, t.steps⟩)) ∧
    ∀ e, (load code ⟨small, budget⟩).runFor n = .inr (.error e) →
    (∀ pc a, e ≠ .invalidAddress pc a) →
      (load code ⟨large, budget⟩).runFor n = .inr (.error e) := by
  obtain ⟨k, rfl⟩ := Nat.le.dest hsize
  have hrun : ∀ r, (load code ⟨small, budget⟩).runFor n = .inr r →
    (∀ pc a, r ≠ .error (.invalidAddress pc a)) →
      (load code ⟨small + k, budget⟩).runFor n = .inr (r.map (·.enlarged k)) := by
    intro r h hr
    rw [load_given code small k]
    refine runFor_given (P := Bounded code ⟨small, budget⟩) (Q := fun e =>
      ∃ pc a, e = .invalidAddress pc a)
      (fun m hm => ?_) (fun m m' hm hstep => hm.step.1 _ _ hstep) (.load code _) h ?_
    · have hsame : (m.given budget k).spentBudget? = m.spentBudget? := by
        rw [spentBudget?, spentBudget?, hm.budget]; rfl
      rcases step_given fun _ _ => hsame with ⟨-, pc, a, m', hfails⟩ | halike
      · exact .inl ⟨_, m', hfails, pc, a, rfl⟩
      · exact .inr halike
    · rintro _ rfl ⟨pc, a, rfl⟩
      exact hr pc a rfl
  rw [Nat.add_sub_cancel_left]
  exact ⟨fun t h => hrun _ h (by simp), fun e h he => hrun _ h (by simpa using he)⟩

def lastStore : Bytecode := ⟨#[2, 0, 1, 33, 0, 7, 0]⟩

theorem memory_only_extends_lastStore :
    (∃ t, (load lastStore ⟨2, some 3⟩).runFor 3 = .inr (.ok t) ∧ t.memory = #[0, 7] ∧
      (load lastStore ⟨4, some 3⟩).runFor 3 =
      .inr (.ok ⟨t.registers, t.memory ++ #[0, 0], t.steps⟩)) ∧
    (load lastStore ⟨2, some 2⟩).runFor 3 = .inr (.error (.stepBudgetExhausted 6 2)) ∧
    (load lastStore ⟨4, some 2⟩).runFor 3 = .inr (.error (.stepBudgetExhausted 6 2)) := by
  have hspent : (load lastStore ⟨2, some 2⟩).runFor 3 = .inr (.error (.stepBudgetExhausted 6 2)) :=
    rfl
  refine ⟨⟨_, rfl, rfl, ?_⟩, hspent, ?_⟩
  · exact (memory_only_extends lastStore (some 3) (show 2 ≤ 4 by decide) 3).1 _ rfl
  · exact (memory_only_extends lastStore (some 2) (show 2 ≤ 4 by decide) 3).2 _ hspent (by simp)

/-! ### Other budgets -/

/-- The first budget is not smaller than the second; no budget is the largest. -/
def Covers (b' b : Option Nat) : Prop := ∀ k' ∈ b', ∃ k ∈ b, k ≤ k'

theorem spentBudget?_eq_none : m.spentBudget? = none ↔ ∀ k ∈ m.budget, m.steps < k := by
  simp [spentBudget?, Option.filter_eq_none_iff]

/-- A run that is not cut short is the same with another budget, if that is never spent where the
first is not. -/
theorem runFor_budget {P : Machine → Prop}
    (hleft : ∀ m i, P m → m.fetch = .ok (some i) → m.spentBudget? = none → ∀ k ∈ b', m.steps < k)
    (hkeeps : ∀ m m', P m → step m = .ok .running m' → P m') (hm : P m) (h : m.runFor n = .inr r)
    (hr : ∀ pc k, r ≠ .error (.stepBudgetExhausted pc k)) : (m.given b' 0).runFor n = .inr r := by
  have hsame : r.map (·.enlarged 0) = r := by
    cases r <;> simp [Except.map, Termination.enlarged]
  rw [← hsame]
  refine runFor_given (P := P) (Q := fun e => ∃ pc k, e = .stepBudgetExhausted pc k)
    (fun m hm => ?_) hkeeps hm h ?_
  · have halike (hspent : ∀ i, m.fetch = .ok (some i) →
      (m.given b' 0).spentBudget? = m.spentBudget?) :
        step (m.given b' 0) = onMachine (·.given b' 0) (step m) :=
      (step_given hspent).resolve_left fun hmore => Nat.lt_irrefl 0 hmore.1
    cases hspent : m.spentBudget? with
    | none =>
      exact .inr (halike fun i hi =>
        (spentBudget?_eq_none.mpr (hleft m i hm hi hspent)).trans hspent.symm)
    | some budget =>
      by_cases hfetch : ∃ i, m.fetch = .ok (some i)
      · obtain ⟨i, hi⟩ := hfetch
        exact .inl ⟨_, m, by simp only [step, hi, hspent], m.pc, budget, rfl⟩
      · exact .inr (halike fun i hi => absurd ⟨i, hi⟩ hfetch)
  · rintro _ rfl ⟨pc, k, rfl⟩
    exact hr pc k rfl

theorem runFor_ok_keeps {P : Machine → Prop} (hstep : ∀ m status m', P m → step m = .ok status m' →
      P m') (hm : P m)
    (h : m.runFor n = .inr (.ok t)) : ∃ m', P m' ∧ t = m'.termination := by
  induction n generalizing m with
  | zero => cases h
  | succ n ih =>
    rw [runFor] at h
    split at h
    · next m' hdone => exact ih (hstep _ _ _ hm hdone) h
    · next m' hdone =>
      cases h
      exact ⟨m', hstep _ _ _ hm hdone, rfl⟩
    · cases h

theorem step_counts (h : step m = .ok status m') :
    (m.fetch = .ok none ∧ status = .halted ∧ m' = m) ∨ (∃ i, m.fetch = .ok (some i)) ∧
    m.spentBudget? = none ∧ m'.steps = m.steps + 1 := by
  rcases step_cases m with ⟨hend, hstep⟩ | ⟨e, hstep⟩ | ⟨i, hfetch, hleft, hstep⟩
  · cases hstep.symm.trans h
    exact .inl ⟨hend, rfl, rfl⟩
  · cases hstep.symm.trans h
  · exact .inr ⟨⟨i, hfetch⟩, hleft, (exec_ok (hstep.symm.trans h)).1.steps⟩

theorem steps_le (h : m.runFor n = .inr (.ok t)) : m.steps ≤ t.steps := by
  obtain ⟨m', hle, rfl⟩ :=
    runFor_ok_keeps (P := fun m' => m.steps ≤ m'.steps) (fun m₁ status m₂ hle hstep => by
    rcases step_counts hstep with ⟨-, -, rfl⟩ | ⟨-, -, hsteps⟩ <;> omega) (Nat.le_refl _) h
  exact hle

theorem runFor_ok_cases (h : m.runFor n = .inr (.ok t)) :
    (m.fetch = .ok none ∧ t.steps = m.steps) ∨ ∃ i status m', m.fetch = .ok (some i) ∧
    m.spentBudget? = none ∧ step m = .ok status m' ∧
      m'.steps = m.steps + 1 ∧ (t.steps = m.steps + 1 ∨
        status = .running ∧ ∃ n', m'.runFor n' = .inr (.ok t)) := by
  cases n with
  | zero => cases h
  | succ n =>
    rw [runFor] at h
    split at h
    · next m' hdone =>
      rcases step_counts hdone with ⟨-, hhalted, -⟩ | ⟨⟨i, hfetch⟩, hleft, hsteps⟩
      · cases hhalted
      · exact .inr ⟨i, _, m', hfetch, hleft, hdone, hsteps, .inr ⟨rfl, n, h⟩⟩
    · next m' hdone =>
      cases h
      rcases step_counts hdone with ⟨hend, -, rfl⟩ | ⟨⟨i, hfetch⟩, hleft, hsteps⟩
      · exact .inl ⟨hend, rfl⟩
      · exact .inr ⟨i, _, m', hfetch, hleft, hdone, hsteps, .inl hsteps⟩
    · cases h

theorem steps_lt (hfetch : m.fetch = .ok (some i)) (h : m.runFor n = .inr (.ok t)) :
    m.steps < t.steps := by
  rcases runFor_ok_cases h with ⟨hend, -⟩ | ⟨-, -, m', -, -, -, hsteps, hlast | ⟨-, n', hrest⟩⟩
  · cases hend.symm.trans hfetch
  · omega
  · have := steps_le hrest
    omega

/-- With a budget of less than the steps it takes, a run that halts is cut short where that is
spent. -/
theorem runFor_cut (h : m.runFor n = .inr (.ok t)) (hlt : m.steps + j < t.steps) :
    ∃ m' o, m.runFor j = .inl m' ∧ m'.steps = m.steps + j ∧ m'.nextObservation? = some o ∧
      (m.given (some (m.steps + j)) 0).runFor (j + 1) =
        .inr (.error (.stepBudgetExhausted o.pc (m.steps + j))) := by
  induction j generalizing m n with
  | zero =>
    rcases runFor_ok_cases h with ⟨-, hlast⟩ | ⟨i, status, m₁, hfetch, hleft, -⟩
    · omega
    · have hfetch' : (m.given (some m.steps) 0).fetch = .ok (some i) := hfetch
      have hspent : (m.given (some m.steps) 0).spentBudget? = some m.steps := by
        simp [spentBudget?, given]
      refine ⟨m, ⟨m.pc, i.opcode, (i.words Fin.val).tail, m.registers⟩, rfl, rfl, ?_, ?_⟩
      · simp only [nextObservation?, hfetch, hleft]
      · simp only [runFor, step, Nat.add_zero, hfetch', hspent]
        rfl
  | succ j ih =>
    rcases runFor_ok_cases h with ⟨-, hlast⟩ |
      ⟨i, status, m₁, hfetch, hleft, hstep, hsteps, hlast | ⟨rfl, n', hrest⟩⟩
    · omega
    · omega
    · obtain ⟨m', o, hrun, hcount, hnext, hcut⟩ := ih hrest (by omega)
      have htotal : m₁.steps + j = m.steps + (j + 1) := by omega
      rw [htotal] at hcut hcount
      have hleft' : (m.given (some (m.steps + (j + 1))) 0).spentBudget? = none := by
        simp [spentBudget?, given]
      have hstep' := (step_given fun _ _ => hleft'.trans hleft.symm).resolve_left fun hmore =>
        Nat.lt_irrefl 0 hmore.1
      rw [hstep, onMachine] at hstep'
      exact ⟨m', o, by rw [runFor, hstep]; exact hrun, hcount, hnext,
        by rw [runFor, hstep']; exact hcut⟩

/-- A step budget only cuts runs short. A run that it does not cut short is the same with every
larger budget and with none. One that halts has taken no more steps than the budget allows, is the
same with every budget that allows them, and with a smaller one fails at the first instruction that
this does not allow. -/
theorem budget_only_cuts (code : Bytecode) (words n : Nat) (b : Option Nat) :
    (∀ r, (load code ⟨words, b⟩).runFor n = .inr r →
      (∀ pc k, r ≠ .error (.stepBudgetExhausted pc k)) →
      ∀ b', Covers b' b → (load code ⟨words, b'⟩).runFor n = .inr r) ∧
    ∀ t, (load code ⟨words, b⟩).runFor n = .inr (.ok t) →
      (∀ k ∈ b, t.steps ≤ k) ∧
      (∀ b', (∀ k ∈ b', t.steps ≤ k) → (load code ⟨words, b'⟩).runFor n = .inr (.ok t)) ∧
      ∀ k < t.steps, ∃ m o, (load code ⟨words, b⟩).runFor k = .inl m ∧ m.steps = k ∧
      m.nextObservation? = some o ∧
        (load code ⟨words, some k⟩).runFor (k + 1) =
          .inr (.error (.stepBudgetExhausted o.pc k)) := by
  have hgiven : ∀ b', load code ⟨words, b'⟩ = (load code ⟨words, b⟩).given b' 0 :=
    fun _ => load_given code words 0
  refine ⟨fun r h hr b' hb => ?_, fun t h => ⟨?_, fun b' hb => ?_, fun k hk => ?_⟩⟩
  · rw [hgiven]
    refine runFor_budget (P := Bounded code ⟨words, b⟩) (fun m i hm _ hleft k' hk' => ?_)
      (fun m m' hm hstep => hm.step.1 _ _ hstep) (.load code _) h hr
    obtain ⟨k, hk, hle⟩ := hb k' hk'
    exact Nat.lt_of_lt_of_le (hm.steps_lt hleft k hk) hle
  · obtain ⟨m, hm, rfl⟩ :=
      runFor_ok_keeps (fun _ _ _ hm hstep => Bounded.step hm |>.1 _ _ hstep) (.load code _) h
    exact hm.steps
  · rw [hgiven]
    refine runFor_budget (P := fun m => ∃ n, m.runFor n = .inr (.ok t))
      (fun m i hm hfetch _ k hk => ?_) (fun m m' hm hstep => ?_) ⟨n, h⟩ h (by simp)
    · obtain ⟨n', hn⟩ := hm
      exact Nat.lt_of_lt_of_le (steps_lt hfetch hn) (hb k hk)
    · obtain ⟨n', hn⟩ := hm
      cases n' with
      | zero => cases hn
      | succ n' =>
        rw [runFor, hstep] at hn
        exact ⟨n', hn⟩
  · have hzero : (load code ⟨words, b⟩).steps + k = k := Nat.zero_add k
    have hcut := runFor_cut h (by rwa [hzero])
    rwa [hzero, ← hgiven] at hcut

def twoRounds : Bytecode := ⟨#[2, 1, 2, 6, 1, 1, 20, 1, 0, 26, 3, 0]⟩

theorem budget_only_cuts_twoRounds : ∃ t, t.steps = 8 ∧
    (load twoRounds ⟨0, some 9⟩).runFor 9 = .inr (.ok t) ∧ (load twoRounds ⟨0, none⟩).runFor 9 =
      .inr (.ok t) ∧ (load twoRounds ⟨0, some 8⟩).runFor 9 = .inr (.ok t) ∧
    (load twoRounds ⟨0, some 4⟩).runFor 5 = .inr (.error (.stepBudgetExhausted 3 4)) := by
  have hall := budget_only_cuts twoRounds 0 9 (some 9)
  obtain ⟨-, hwithin, hcut⟩ := hall.2 _ rfl
  refine ⟨_, rfl, rfl, hall.1 _ rfl (by simp) none (by simp [Covers]),
    hwithin (some 8) (by decide), ?_⟩
  obtain ⟨m, o, hm, -, ho, hcut⟩ := hcut 4 (by decide)
  obtain rfl := Sum.inl.inj hm
  obtain rfl := Option.some.inj ho
  exact hcut

end Machine

end WordScript
