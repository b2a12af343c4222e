import WordScript.Proofs.Assembly.Boundaries

/-!
# Steps of any code

What holds of a machine whatever words it is given to run, and however often it is stepped on after
it halted or failed. `step_cases` says all that a step can do, `Bounded.of_reaches` what follows for
the states of a machine, and `machine_invariants` adds what the steps touch and how long a run
takes. `step_error_unharmed` says what a step that fails has done.
-/

namespace WordScript

/-! ### Instructions in the code -/

theorem Slot.eq_ofNat {r : Slot} (h : Slot.ofWord w = .ok r) : w = .ofNat r.val := by
  unfold Slot.ofWord at h
  split at h
  · next hw =>
    cases h
    exact (Int32.ofNat_toNatClampNeg w hw.1).symm
  · cases h

namespace Opcode

theorem number_table : ∀ n (h : n < table.size), table[n].number = n := by
  decide

theorem eq_word (h : ofWord? w = some o) : w = o.word := by
  unfold ofWord? at h
  split at h
  · next hw =>
    obtain ⟨hn, rfl⟩ := Array.getElem?_eq_some_iff.mp h
    rw [word, number_table, Int32.ofNat_toNatClampNeg w hw]
  · cases h

end Opcode

namespace Instr

theorem decodeOperand_ok (h : decodeOperand form w = .ok o) :
    o.kind = form ∧ w = o.encoded Fin.val := by
  cases form with
  | register =>
    cases hr : Slot.ofWord w with
    | ok r =>
      simp only [decodeOperand, hr] at h
      cases h
      exact ⟨rfl, Slot.eq_ofNat hr⟩
    | error e =>
      simp only [decodeOperand, hr] at h
      cases h
  | immediate =>
    cases h
    exact ⟨rfl, rfl⟩

theorem decode_ok {o : Opcode} (h : decode o a b = .ok i) :
    i.opcode = o ∧ i.words Fin.val = o.word :: [a, b].take o.arity := by
  cases o with
  | halt =>
    cases h
    exact ⟨rfl, rfl⟩
  | branch relation =>
    cases h
    exact ⟨rfl, rfl⟩
  | jmp form =>
    obtain ⟨target, htarget, h⟩ := bind_eq_ok.mp h
    cases h
    obtain ⟨rfl, rfl⟩ := decodeOperand_ok htarget
    exact ⟨rfl, rfl⟩
  | mov form | arith kind op form | cmp kind form | memWrite form =>
    obtain ⟨r, hr, h⟩ := bind_eq_ok.mp h
    obtain ⟨source, hsource, h⟩ := bind_eq_ok.mp h
    cases h
    obtain rfl := Slot.eq_ofNat hr
    obtain ⟨rfl, rfl⟩ := decodeOperand_ok hsource
    exact ⟨rfl, rfl⟩
  | memRead | memCopy =>
    obtain ⟨r, hr, h⟩ := bind_eq_ok.mp h
    obtain ⟨r', hr', h⟩ := bind_eq_ok.mp h
    cases h
    obtain rfl := Slot.eq_ofNat hr
    obtain rfl := Slot.eq_ofNat hr'
    exact ⟨rfl, rfl⟩

end Instr

/-- Whether the failure keeps an instruction from being begun: it cannot be decoded, or the budget
is spent. -/
def Failure.refuses : Failure → Bool
  | unknownOpcode .. | truncatedInstruction _ | invalidRegister .. | stepBudgetExhausted .. => true
  | invalidAddress .. | invalidJump .. | divisionByZero _ | noComparison _ => false

def Machine.addresses (m : Machine) : Instr Slot Word → List Word
  | .memRead _ address | .memWrite address _ => [m.register address]
  | .memCopy target source => [m.register source, m.register target]
  | .halt | .mov .. | .arith .. | .cmp .. | .jmp _ | .branch .. => []

namespace Machine

variable {m m' : Machine} {i : Instr Slot Word} {pc : Nat} {e : Failure} {status : Status}
  {code : Bytecode} {config : MachineConfig}

theorem fetch_end (h : m.pc = m.code.size) : m.fetch = .ok none := by
  have hnone : m.code.words[m.pc]? = none := Array.getElem?_eq_none (Nat.le_of_eq h.symm)
  simp only [fetch, hnone]

theorem fetch_decodes (h : m.fetch = .ok (some i)) :
    ∃ o, m.code.words[m.pc]? = some (Opcode.word o) ∧ m.pc + o.width ≤ m.code.size ∧
      Instr.decode o (m.code.words.getD (m.pc + 1) 0) (m.code.words.getD (m.pc + 2) 0) = .ok i := by
  unfold fetch at h
  split at h
  · cases h
  next word hword =>
  split at h
  · cases h
  next o ho =>
  split at h
  · cases h
  next hfits =>
  split at h
  · next hdecode =>
    cases h
    exact ⟨o, Opcode.eq_word ho ▸ hword, Nat.le_of_not_lt hfits, hdecode⟩
  · cases h

theorem fetch_some (h : m.fetch = .ok (some i)) :
    m.pc + i.width ≤ m.code.size ∧
      ∀ k w, (i.words Fin.val)[k]? = some w → m.code.words[m.pc + k]? = some w := by
  obtain ⟨o, hfirst, hfits, hdecode⟩ := fetch_decodes h
  obtain ⟨rfl, hwords⟩ := Instr.decode_ok hdecode
  refine ⟨hfits, fun k w hk => ?_⟩
  -- Words after the first are read with a default, which none of them needs: they are all in the
  -- code.
  have hlen := (List.getElem?_eq_some_iff.mp hk).1
  rw [Instr.length_words] at hlen
  have hin : m.pc + k < m.code.words.size := Nat.lt_of_lt_of_le (Nat.add_lt_add_left hlen _) hfits
  have hat : m.code.words[m.pc + k]? = some (m.code.words.getD (m.pc + k) 0) := by
    rw [Array.getD_eq_getD_getElem?, Array.getElem?_eq_getElem hin, Option.getD_some]
  rw [hwords] at hk
  rcases k with _ | k
  · exact hfirst.trans hk
  rw [List.getElem?_cons_succ, List.getElem?_take] at hk
  split at hk
  · rcases k with _ | _ | k
    · exact hat.trans hk
    · exact hat.trans hk
    · cases hk
  · cases hk

theorem fetch_register (h : m.fetch = .ok (some i)) (hk : i.opcode.operands[k]? = some .register) :
    ∃ w, m.code.words[m.pc + 1 + k]? = some w ∧ 0 ≤ w.toInt ∧ w.toInt < registerCount := by
  rw [← i.kind_operands, List.getElem?_map, Option.map_eq_some_iff] at hk
  obtain ⟨o, ho, hkind⟩ := hk
  cases o with
  | value v => cases hkind
  | register r =>
    have hword : (i.words Fin.val)[k + 1]? = some (.ofNat r.val) := by
      rw [Instr.words_eq, List.getElem?_cons_succ, List.getElem?_map, ho]
      rfl
    have hint : (Int32.ofNat r.val).toInt = r.val :=
      Int32.toInt_ofNat_of_lt (Nat.lt_trans r.isLt (by decide))
    refine ⟨.ofNat r.val, ?_, ?_, ?_⟩
    · rw [Nat.add_assoc, Nat.add_comm 1 k]
      exact (fetch_some h).2 _ _ hword
    · rw [hint]
      exact Int.natCast_nonneg _
    · rw [hint]
      exact Int.ofNat_lt.mpr r.isLt

/-! ### What a step can do -/

def InMemory (size : Nat) (address : Word) : Prop := 0 ≤ address.toInt ∧ address.toInt < size

theorem cell?_eq_some {cell : Fin m.memory.size} (h : m.cell? address = some cell) :
    InMemory m.memory.size address := by
  unfold cell? at h
  split at h
  · next hin =>
    have hnonneg : 0 ≤ address.toInt := Int32.le_iff_toInt_le.mp hin.1
    have hlt := hin.2
    rw [← Int32.toNat_toInt] at hlt
    exact ⟨hnonneg, (Int.toNat_lt hnonneg).mp hlt⟩
  · cases h

/-- What carrying out an instruction leaves as it is; the program counter stays or goes to a place
in the code. -/
structure Retains (m m' : Machine) : Prop where
  code : m'.code = m.code
  budget : m'.budget = m.budget
  memory : m'.memory.size = m.memory.size
  steps : m'.steps = m.steps
  pc : m'.pc = m.pc ∨ m'.pc ≤ m.code.size

theorem Retains.refl (m : Machine) : Retains m m := ⟨rfl, rfl, rfl, rfl, .inl rfl⟩

theorem jump_ok (h : m.jump pc target = .ok status m') : Retains m m' := by
  unfold jump at h
  split at h
  · next hin =>
    cases h
    exact ⟨rfl, rfl, rfl, rfl, .inr hin.2⟩
  · cases h

theorem jump_error (h : m.jump pc target = .error e m') :
    m' = m ∧ e.pc = pc ∧ e.refuses = false := by
  unfold jump at h
  split at h <;> cases h
  exact ⟨rfl, rfl, rfl⟩

theorem exec_ok (h : exec pc i m = .ok status m') :
    Retains m m' ∧ ∀ a ∈ m.addresses i, InMemory m.memory.size a := by
  cases i with
  | halt | mov | cmp =>
    cases h
    exact ⟨⟨rfl, rfl, rfl, rfl, .inl rfl⟩, List.forall_mem_nil _⟩
  | arith kind op target rhs =>
    simp only [exec] at h
    split at h <;> cases h
    exact ⟨⟨rfl, rfl, rfl, rfl, .inl rfl⟩, List.forall_mem_nil _⟩
  | jmp target => exact ⟨jump_ok h, List.forall_mem_nil _⟩
  | branch relation target =>
    refine ⟨?_, List.forall_mem_nil _⟩
    simp only [exec] at h
    split at h
    · cases h
    · split at h
      · exact jump_ok h
      · cases h
        exact .refl _
  | memRead target address =>
    simp only [exec] at h
    split at h
    · next cell hcell =>
      cases h
      exact ⟨⟨rfl, rfl, rfl, rfl, .inl rfl⟩, List.forall_mem_singleton.mpr (cell?_eq_some hcell)⟩
    · cases h
  | memWrite address source =>
    simp only [exec] at h
    split at h
    · next cell hcell =>
      cases h
      exact ⟨⟨rfl, rfl, Array.size_set cell.isLt, rfl, .inl rfl⟩,
        List.forall_mem_singleton.mpr (cell?_eq_some hcell)⟩
    · cases h
  | memCopy target source =>
    simp only [exec] at h
    split at h
    · cases h
    · next read hread =>
      split at h
      · cases h
      · next written hwritten =>
        cases h
        exact ⟨⟨rfl, rfl, Array.size_set written.isLt, rfl, .inl rfl⟩, List.forall_mem_cons.mpr
          ⟨cell?_eq_some hread, List.forall_mem_singleton.mpr (cell?_eq_some hwritten)⟩⟩

/-- An instruction that fails has changed nothing, and the failure is at the place that it stood at.
-/
theorem exec_error (h : exec pc i m = .error e m') : m' = m ∧ e.pc = pc ∧ e.refuses = false := by
  cases i with
  | halt | mov | cmp => cases h
  | arith | memRead | memWrite =>
    simp only [exec] at h
    split at h <;> cases h
    exact ⟨rfl, rfl, rfl⟩
  | jmp target => exact jump_error h
  | branch relation target =>
    simp only [exec] at h
    split at h
    · cases h
      exact ⟨rfl, rfl, rfl⟩
    · split at h
      · exact jump_error h
      · cases h
  | memCopy target source =>
    simp only [exec] at h
    split at h
    · cases h
      exact ⟨rfl, rfl, rfl⟩
    · split at h <;> cases h
      exact ⟨rfl, rfl, rfl⟩

theorem fetch_error (h : m.fetch = .error e) : e.pc = m.pc ∧ e.refuses = true := by
  unfold fetch at h
  split at h
  · cases h
  split at h
  · cases h
    exact ⟨rfl, rfl⟩
  split at h
  · cases h
    exact ⟨rfl, rfl⟩
  split at h <;> cases h
  exact ⟨rfl, rfl⟩

/-- All that a step can do: halt at the end of the code, refuse what stands at the program counter
or a spent budget, or carry out the instruction there. -/
theorem step_cases (m : Machine) :
    (m.fetch = .ok none ∧ step m = .ok .halted m) ∨
    (∃ e, step m = .error e m) ∨
    ∃ i, m.fetch = .ok (some i) ∧ m.spentBudget? = none ∧
    step m = exec m.pc i (m.advance i.width) := by
  cases hfetch : m.fetch with
  | error e => exact .inr (.inl ⟨e, by simp only [step, hfetch]⟩)
  | ok found =>
    cases found with
    | none => exact .inl ⟨rfl, by simp only [step, hfetch]⟩
    | some i =>
      cases hspent : m.spentBudget? with
      | some b => exact .inr (.inl ⟨_, by simp only [step, hfetch, hspent]; rfl⟩)
      | none => exact .inr (.inr ⟨i, rfl, rfl, by simp only [step, hfetch, hspent, advance]⟩)

/-- A step that fails has begun an instruction or not, and only then has it gone past it. -/
theorem step_error (h : step m = .error e m') :
    e.pc = m.pc ∧
      ((e.refuses = true ∧ m' = m ∧ m.nextObservation? = none) ∨
        e.refuses = false ∧ ∃ i, m.fetch = .ok (some i) ∧ m' = m.advance i.width ∧
          m.nextObservation? = some ⟨m.pc, i.opcode, (i.words Fin.val).tail, m.registers⟩) := by
  cases hfetch : m.fetch with
  | error e' =>
    simp only [step, hfetch] at h
    cases h
    obtain ⟨hpc, hrefuses⟩ := fetch_error hfetch
    exact ⟨hpc, .inl ⟨hrefuses, rfl, by simp only [nextObservation?, hfetch]⟩⟩
  | ok found =>
    cases found with
    | none =>
      simp only [step, hfetch] at h
      cases h
    | some i =>
      cases hspent : m.spentBudget? with
      | some b =>
        simp only [step, hfetch, hspent] at h
        cases h
        exact ⟨rfl, .inl ⟨rfl, rfl, by simp only [nextObservation?, hfetch, hspent]⟩⟩
      | none =>
        simp only [step, hfetch, hspent] at h
        obtain ⟨hm, hpc, hrefuses⟩ := exec_error h
        exact ⟨hpc, .inr ⟨hrefuses, i, rfl, hm, by simp only [nextObservation?, hfetch, hspent]⟩⟩

/-! ### States of a machine -/

/-- What no step changes, and where the program counter and the step count stay. -/
structure Bounded (code : Bytecode) (config : MachineConfig) (m : Machine) : Prop where
  pc : m.pc ≤ code.size
  code : m.code = code
  budget : m.budget = config.budget
  memory : m.memory.size = config.memoryWords
  steps : ∀ b ∈ config.budget, m.steps ≤ b

namespace Bounded

theorem load (code : Bytecode) (config : MachineConfig) : Bounded code config (.load code config) :=
  ⟨Nat.zero_le _, rfl, rfl, Array.size_replicate, fun _ _ => Nat.zero_le _⟩

theorem steps_lt (h : Bounded code config m) (hleft : m.spentBudget? = none) :
    ∀ b ∈ config.budget, m.steps < b := by
  intro b hb
  rw [← h.budget] at hb
  have hnot := Option.filter_eq_none_iff.mp hleft b hb
  simpa using hnot

theorem advance (h : Bounded code config m) (hfetch : m.fetch = .ok (some i))
    (hleft : m.spentBudget? = none) : Bounded code config (m.advance i.width) where
  code := h.code
  budget := h.budget
  memory := h.memory
  pc := h.code ▸ (fetch_some hfetch).1
  steps := h.steps_lt hleft

theorem retains (h : Bounded code config m) (hretains : Retains m m') : Bounded code config m' where
  code := hretains.code.trans h.code
  budget := hretains.budget.trans h.budget
  memory := hretains.memory.trans h.memory
  pc := by
    rcases hretains.pc with hpc | hpc
    · exact hpc ▸ h.pc
    · exact h.code ▸ hpc
  steps := hretains.steps ▸ h.steps

theorem step (h : Bounded code config m) :
    (∀ status m', Machine.step m = .ok status m' → Bounded code config m') ∧
      ∀ e m', Machine.step m = .error e m' → Bounded code config m' := by
  rcases step_cases m with ⟨-, hstep⟩ | ⟨e, hstep⟩ | ⟨i, hfetch, hleft, hstep⟩
  · refine ⟨fun status m' hok => ?_, fun e m' herror => ?_⟩
    · cases hstep.symm.trans hok
      exact h
    · cases hstep.symm.trans herror
  · refine ⟨fun status m' hok => ?_, fun e m' herror => ?_⟩
    · cases hstep.symm.trans hok
    · cases hstep.symm.trans herror
      exact h
  · have hadvance := h.advance hfetch hleft
    refine ⟨fun status m' hok => ?_, fun e m' herror => ?_⟩
    · exact hadvance.retains (exec_ok (hstep.symm.trans hok)).1
    · exact (exec_error (hstep.symm.trans herror)).1 ▸ hadvance

theorem of_reaches (h : (Machine.load code config).Reaches m) : Bounded code config m := by
  induction h with
  | start => exact .load code config
  | step _ done ih => exact ih.step.1 _ _ done
  | failure _ failed ih => exact ih.step.2 _ _ failed

theorem step_end (h : Bounded code config m) (hend : m.pc = code.size) :
    Machine.step m = .ok .halted m := by
  have hfetch : m.fetch = .ok none := fetch_end (h.code ▸ hend)
  simp only [Machine.step, hfetch]

theorem steps_running (hstep : Machine.step m = .ok .running m') : m'.steps = m.steps + 1 := by
  rcases step_cases m with ⟨-, h⟩ | ⟨e, h⟩ | ⟨i, -, -, h⟩
  · cases h.symm.trans hstep
  · cases h.symm.trans hstep
  · exact (exec_ok (h.symm.trans hstep)).1.steps

/-- A machine ends once it has had one step more than its budget has left. -/
theorem runFor_ends (h : Bounded code config m) (hb : b ∈ config.budget) (hn : b < m.steps + n) :
    ∃ ending, m.runFor n = .inr ending := by
  -- Every step that goes on leaves one less, and none goes on when the budget is spent.
  induction n generalizing m with
  | zero => exact absurd hn (Nat.not_lt.mpr (h.steps b hb))
  | succ n ih =>
    cases hstep : Machine.step m with
    | error e m' => exact ⟨.error e, by simp only [runFor, hstep]⟩
    | ok status m' =>
      cases status with
      | halted => exact ⟨.ok m'.termination, by simp only [runFor, hstep]⟩
      | running =>
        have hsteps := steps_running hstep
        obtain ⟨ending, hending⟩ := ih (h.step.1 _ _ hstep) (by omega)
        exact ⟨ending, by simp only [runFor, hstep, hending]⟩

theorem runFor (h : Bounded code config m) (hrun : m.runFor n = .inl m') :
    Bounded code config m' := by
  induction n generalizing m with
  | zero =>
    cases hrun
    exact h
  | succ n ih =>
    rw [Machine.runFor] at hrun
    split at hrun
    · next m₁ hstep => exact ih (h.step.1 _ _ hstep) hrun
    · cases hrun
    · cases hrun

end Bounded

/-- Whatever words a machine runs, and however it is stepped on: it stays in its code, keeps code
and memory size and stays within its budget, its registers and memory are read and written in range
only, it rests at the end of its code, and with a budget it ends within one step more than that. -/
theorem machine_invariants (code : Bytecode) (config : MachineConfig) :
    (∀ m, (load code config).Reaches m →
      Bounded code config m ∧
      (m.pc = code.size → step m = .ok .halted m) ∧
      ∀ i, m.fetch = .ok (some i) →
        (∀ k, i.opcode.operands[k]? = some .register →
          ∃ w, code.words[m.pc + 1 + k]? = some w ∧ 0 ≤ w.toInt ∧ w.toInt < registerCount) ∧
        ∀ status m', step m = .ok status m' →
          ∀ address ∈ m.addresses i, InMemory config.memoryWords address) ∧
    ∀ b ∈ config.budget, ∃ ending, (load code config).runFor (b + 1) = .inr ending := by
  refine ⟨fun m hm => ?_, fun b hb => ?_⟩
  · have hbounded := Bounded.of_reaches hm
    refine ⟨hbounded, hbounded.step_end, fun i hfetch =>
      ⟨fun k hk => ?_, fun status m' hstep => ?_⟩⟩
    · exact hbounded.code ▸ fetch_register hfetch hk
    · rcases step_cases m with ⟨hnone, -⟩ | ⟨e, h⟩ | ⟨i', hfetch', -, h⟩
      · cases hfetch.symm.trans hnone
      · cases h.symm.trans hstep
      · cases hfetch.symm.trans hfetch'
        exact hbounded.memory ▸ (exec_ok (h.symm.trans hstep)).2
  · exact (Bounded.load code config).runFor_ends hb
      (Nat.lt_of_lt_of_le (Nat.lt_succ_self b) (Nat.le_add_left _ _))

/-- A store at `sp`, then a load from the address −1, which fails with the program counter at the
end of the code. -/
def strayLoad : Bytecode := ⟨#[33, 0, 7, 2, 1, -1, 31, 0, 1]⟩

theorem machine_invariants_strayLoad :
    (∃ m, (load strayLoad ⟨4, some 3⟩).Reaches m ∧ Bounded strayLoad ⟨4, some 3⟩ m ∧
      m.pc = strayLoad.size ∧
      m.steps = 3 ∧ step m = .ok .halted m) ∧
    (∃ w : Word, strayLoad.words[1]? = some w ∧ 0 ≤ w.toInt ∧ w.toInt < registerCount) ∧
    InMemory 4 0 ∧
    ∃ ending, (load strayLoad ⟨4, some 3⟩).runFor 4 = .inr ending := by
  have hall := machine_invariants strayLoad ⟨4, some 3⟩
  have hfailed := hall.1 _ (.failure (.step (.step .start rfl) rfl) rfl)
  have hstore := (hall.1 _ .start).2.2 (.memWrite 0 (.value 7)) rfl
  refine ⟨⟨_, .failure (.step (.step .start rfl) rfl) rfl, hfailed.1, rfl, rfl, hfailed.2.1 rfl⟩,
    ?_, ?_, ?_⟩
  · exact hstore.1 0 rfl
  · exact hstore.2 _ _ rfl 0 (by decide)
  · exact hall.2 3 rfl

/-! ### Steps that fail -/

/-- A step that fails, in whatever state, leaves registers, memory, flags and code alone and blames
the place it started at. Either it refused to begin, and nothing has changed or been seen, or it has
decoded and shown one instruction and stands behind it. -/
theorem step_error_unharmed (h : step m = .error e m') :
    m'.registers = m.registers ∧ m'.memory = m.memory ∧ m'.flags = m.flags ∧ m'.code = m.code ∧
    m'.budget = m.budget ∧ e.pc = m.pc ∧
    ((e.refuses = true ∧ m'.pc = m.pc ∧ m'.steps = m.steps ∧
        ∀ n seen, m.traceFor (n + 1) seen = (seen, .inr (.error e))) ∨
      e.refuses = false ∧ ∃ i, m.fetch = .ok (some i) ∧ m'.pc = m.pc + i.width ∧
        m'.steps = m.steps + 1 ∧ ∀ n seen, m.traceFor (n + 1) seen =
          (⟨m.pc, i.opcode, (i.words Fin.val).tail, m.registers⟩ :: seen, .inr (.error e))) := by
  obtain ⟨hpc, ⟨hrefuses, rfl, hunseen⟩ | ⟨hbegun, i, hfetch, rfl, hseen⟩⟩ := step_error h
  · refine ⟨rfl, rfl, rfl, rfl, rfl, hpc, .inl ⟨hrefuses, rfl, rfl, fun n seen => ?_⟩⟩
    simp only [traceFor, h, hunseen, Option.toList, List.nil_append]
  · refine ⟨rfl, rfl, rfl, rfl, rfl, hpc, .inr ⟨hbegun, i, hfetch, rfl, rfl, fun n seen => ?_⟩⟩
    simp only [traceFor, h, hseen, Option.toList, List.cons_append, List.nil_append]

def strayed (budget : Nat) : Machine :=
  { load strayLoad ⟨4, some budget⟩ with
    registers := (Vector.replicate registerCount 0).set 1 (-1), pc := 6, steps := 2 }

theorem step_error_unharmed_strayLoad :
    (step (strayed 3) = .error (.invalidAddress 6 (-1)) ((strayed 3).advance 3) ∧
      ∀ n seen, (strayed 3).traceFor (n + 1) seen =
        (⟨6, .memRead, [0, 1], (strayed 3).registers⟩ :: seen,
          .inr (.error (.invalidAddress 6 (-1))))) ∧
    step (strayed 2) = .error (.stepBudgetExhausted 6 2) (strayed 2) ∧
      ∀ n seen, (strayed 2).traceFor (n + 1) seen =
        (seen, .inr (.error (.stepBudgetExhausted 6 2))) := by
  have hload : step (strayed 3) = .error (.invalidAddress 6 (-1)) ((strayed 3).advance 3) := rfl
  have hspent : step (strayed 2) = .error (.stepBudgetExhausted 6 2) (strayed 2) := rfl
  refine ⟨⟨hload, ?_⟩, hspent, ?_⟩
  · obtain ⟨-, -, -, -, -, -, ⟨hrefuses, -⟩ | ⟨-, i, hfetch, -, -, htrace⟩⟩ :=
      step_error_unharmed hload
    · cases hrefuses
    · have hread : (strayed 3).fetch = .ok (some (.memRead 0 1)) := rfl
      rw [hread] at hfetch
      cases hfetch
      exact htrace
  · obtain ⟨-, -, -, -, -, -, ⟨-, -, -, htrace⟩ | ⟨hbegun, -⟩⟩ := step_error_unharmed hspent
    · exact htrace
    · cases hbegun

end Machine

end WordScript
