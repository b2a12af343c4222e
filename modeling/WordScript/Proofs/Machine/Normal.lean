import WordScript.Proofs.Machine.Logic
import WordScript.Proofs.StackDiscipline

/-!
# Normal runs

Code runs normally while control stays in it and the functions that it calls come back: to behind
the call, with the return address popped. Whatever else such functions do, `sp` moves as `Flows`
says (`Course.normally`), and code without jumps does what `Image.wp` says
(`Machine.Runs.straight`).
-/

namespace WordScript

/-- Whether control goes on in the code that the instruction stands in. -/
def Instruction.Stays : Instruction → Prop
  | .jmp (.value (.label l)) => ∀ f : FunctionName, l ≠ f.label
  | .jmp (.value (.immediate _)) | .jmp (.register _) | .halt => False
  | .mov .. | .arith .. | .cmp .. | .branch .. | .memRead .. | .memWrite .. | .memCopy .. => True

namespace Machine

def sp (m : Machine) : Word := m.register Register.sp.toSlot

def word? (m : Machine) (address : Word) : Option Word :=
  (m.cell? address).bind fun cell => m.memory[cell.val]?

/-- What happens next in a normal run: one step, or all that a function does which then comes back.
-/
inductive Proceeds (a : Assembly) : Machine → Machine → Prop
  | step (here : a.At m.pc [.instruction i note]) (stays : i.Stays)
      (done : Machine.step m = .ok .running m') :
      Proceeds a m m'
  | call {f : FunctionName} (here : a.At m.pc [.instruction (.jmp (.value (.label f.label))) note])
      (code : m'.code = m.code) (memory : m'.memory.size = m.memory.size) (back : m'.pc = m.pc + 2)
      (popped : m'.sp = m.sp - 1) : Proceeds a m m'

/-- The machines that a normal run gets to before it leaves the offsets from `lo` to `hi`. -/
inductive Normally (a : Assembly) (lo hi : Nat) : Machine → Machine → Prop
  | refl : Normally a lo hi m m
  | step (inside : lo ≤ m.pc ∧ m.pc < hi) (first : Proceeds a m m₁)
      (rest : Normally a lo hi m₁ m') :
      Normally a lo hi m m'

/-- The code runs normally from its start to its end. -/
structure Runs (a code : Assembly) (m m' : Machine) : Prop where
  here : a.At m.pc code
  run : Normally a m.pc (m.pc + code.size) m m'
  done : m'.pc = m.pc + code.size

end Machine

/-! ### Lines and offsets -/

namespace Assembly

def offset (code : Assembly) (i : Nat) : Nat := size (code.take i)

theorem offset_succ {code : Assembly} (h : code[i]? = some item) :
    code.offset (i + 1) = code.offset i + item.size := by
  obtain ⟨hlt, rfl⟩ := List.getElem?_eq_some_iff.mp h
  rw [offset, List.take_succ_eq_append_getElem hlt, size_append, size_cons, size_nil,
    Nat.add_zero, offset]

theorem offset_length (code : Assembly) : code.offset code.length = code.size := by
  rw [offset, List.take_length]

theorem offset_append (front back : Assembly) :
    offset (front ++ back) front.length = front.size := by
  rw [offset, List.take_left]

namespace At

variable {a code : Assembly}

theorem line (h : a.At pc code) (hi : code[i]? = some item) : a.At (pc + code.offset i) [item] := by
  obtain ⟨hlt, rfl⟩ := List.getElem?_eq_some_iff.mp hi
  have hsplit : code = code.take i ++ (code[i] :: code.drop (i + 1)) := by
    rw [List.getElem_cons_drop, List.take_append_drop]
  rw [hsplit] at h
  exact h.right.head

/-- There is one instruction at an offset. -/
theorem instruction_unique (h : a.At pc [.instruction i note])
    (h' : a.At pc [.instruction i' note']) : i = i' := by
  obtain ⟨before, after, rfl, rfl⟩ := h
  obtain ⟨before', after', he, hsize⟩ := h'
  simp only [List.append_assoc, List.singleton_append] at he
  rcases List.append_eq_append_iff.mp he with ⟨t, rfl, ht⟩ | ⟨t, rfl, ht⟩ <;> cases t with
  | nil => simp_all
  | cons item t =>
    obtain ⟨rfl, -⟩ := List.cons.inj ht
    simp only [size_append, size_cons, Item.size, Instr.width, Opcode.width] at hsize
    omega

end At

theorem offset_mono {code : Assembly} (h : i ≤ j) : code.offset i ≤ code.offset j := by
  have hsplit := List.take_append_drop i (code.take j)
  rw [List.take_take, Nat.min_eq_left h] at hsplit
  rw [offset, offset, ← hsplit, size_append]
  omega

/-- Only lines that take no words lie between two lines with the same offset. -/
theorem instruction?_of_offset {code : Assembly} (hj : j ≤ code.length)
    (same : code.offset i = code.offset j) (hik : i ≤ k)
    (hkj : k < j) : ∃ item, code[k]? = some item ∧ item.instruction? = none := by
  have hitem : code[k]? = some code[k] := List.getElem?_eq_getElem (by omega)
  refine ⟨code[k], hitem, ?_⟩
  have hnext := offset_succ hitem
  have hlow : code.offset i ≤ code.offset k := offset_mono hik
  have hhigh : code.offset (k + 1) ≤ code.offset j := offset_mono hkj
  cases hkind : code[k] with
  | instruction instr note =>
    simp only [hkind, Item.size, Instr.width, Opcode.width] at hnext
    omega
  | label | static | comment => rfl

theorem exists_instruction {code : Assembly} (h : code.offset i < code.size) :
    ∃ j instr note, code[j]? = some (.instruction instr note) ∧
    code.offset i = code.offset j ∧ i ≤ j := by
  have hlt : i < code.length := by
    refine Nat.lt_of_not_le fun hle => ?_
    rw [offset, List.take_of_length_le hle] at h
    omega
  induction hn : code.length - i generalizing i with
  | zero => omega
  | succ n ih =>
    have hitem : code[i]? = some code[i] := List.getElem?_eq_getElem hlt
    cases hkind : code[i] with
    | instruction instr note => exact ⟨i, instr, note, hkind ▸ hitem, rfl, Nat.le_refl i⟩
    | label l | static l n | comment text =>
      rw [hkind] at hitem
      have hoffset : code.offset (i + 1) = code.offset i := offset_succ hitem
      have hlt' : i + 1 < code.length := by
        refine Nat.lt_of_not_le fun hle => ?_
        rw [← hoffset, offset, List.take_of_length_le hle] at h
        omega
      obtain ⟨j, instr, note, hj, hsame, hle⟩ := ih (hoffset ▸ h) hlt' (by omega)
      exact ⟨j, instr, note, hj, hoffset.symm.trans hsame, by omega⟩

end Assembly

/-! ### Machines as states -/

namespace Machine

variable {m m' : Machine} {img : Image} {x : State} {s : Store} {pc : Nat}

def store (m : Machine) : Store where
  registers r := m.register r.toSlot
  memory z := m.memory.getD z.toNat 0
  flags := m.flags

theorem shows_store (code : m.code.words.toList = img.code.words img.value)
    (memory : m.memory.size = img.memoryWords) : m.Shows img ⟨m.pc, m.store⟩ where
  code := code
  size := memory
  pc := rfl
  registers r h := by simp only [store, Register.toSlot, dif_pos h]
  memory n h := by simp [store, Array.getD, h]
  flags := rfl

theorem Shows.sp (h : m.Shows img x) : m.sp = x.store.registers .sp := h.register (by decide)

theorem Shows.word? (h : m.Shows img x) (address : Word) :
    m.word? address = if img.Holds address then some (x.store.memory address.toInt) else none := by
  rw [Machine.word?]
  by_cases hholds : img.Holds address
  · obtain ⟨cell, hcell, hz⟩ := h.cell?_of_holds hholds
    have hread : m.memory[cell.val]? = some (x.store.memory address.toInt) := by
      rw [Array.getElem?_eq_getElem cell.isLt, ← hz, h.memory cell cell.isLt]
    rw [if_pos hholds, hcell, Option.bind_some, hread]
  · rw [if_neg hholds, h.cell?_of_not_holds hholds, Option.bind_none]

theorem Shows.jump_inv (h : m.Shows img ⟨pc, s⟩) (done : m.jump fault w = .ok .running m') :
    ∃ pc', w = .ofNat pc' ∧ pc' ≤ img.code.size ∧ m'.Shows img ⟨pc', s⟩ ∧ m'.code = m.code := by
  simp only [Machine.jump] at done
  split at done
  · next hvalid =>
    obtain ⟨-, rfl⟩ := EStateM.Result.ok.inj done
    have hword : w = .ofNat w.toNatClampNeg := by
      have hzero : 0 ≤ w.toInt := by simpa using Int32.le_iff_toInt_le.mp hvalid.1
      rw [← Int32.toNat_toInt, ← Int32.ofInt_eq_ofNat, Int.toNat_of_nonneg hzero, Int32.ofInt_toInt]
    refine ⟨w.toNatClampNeg, hword, ?_, ⟨h.code, h.size, rfl, h.registers, h.memory, h.flags⟩, rfl⟩
    rw [← size_code h.code]
    exact hvalid.2
  · cases done

theorem Shows.step_running (hp : img.Proper) (h : m.Shows img ⟨pc, s⟩)
    (here : img.code.At pc [.instruction i note]) (done : Machine.step m = .ok .running m') :
    Machine.exec m.pc (i.lower img.value) (m.advance i.width) = .ok .running m' := by
  cases hspent : m.spentBudget? with
  | some budget =>
    rw [h.step_spent hp here hspent] at done
    cases done
  | none => rwa [h.step_exec hp here hspent] at done

theorem Shows.step_straight (hp : img.Proper) (h : m.Shows img ⟨pc, s⟩)
    (here : img.code.At pc [.instruction i note])
    (goes : i.straight = true) (done : Machine.step m = .ok .running m') :
    ∃ s', img.exec s i = .ok s' ∧ m'.Shows img ⟨pc + i.width, s'⟩ := by
  have hexec := h.step_running hp here done
  rcases (h.advance i.width).exec (hp.valid here) goes m.pc with ⟨s', m₁, hs', hrun, hm₁, -⟩ |
    ⟨_, _, -, hrun, -⟩
  · obtain ⟨-, rfl⟩ := EStateM.Result.ok.inj (hrun.symm.trans hexec)
    exact ⟨s', hs', hm₁⟩
  · cases hrun.symm.trans hexec

theorem Shows.step_jmp (hp : img.Proper) (h : m.Shows img ⟨pc, s⟩)
    (here : img.code.At pc [.instruction (.jmp (.value v)) note])
    (done : Machine.step m = .ok .running m') :
    ∃ pc', v.word img.value = .ofNat pc' ∧ pc' ≤ img.code.size ∧ m'.Shows img ⟨pc', s⟩ := by
  obtain ⟨pc', hv, hle, hm', -⟩ := (h.advance 2).jump_inv (h.step_running hp here done)
  exact ⟨pc', hv, hle, hm'⟩

theorem Shows.step_branch (hp : img.Proper) (h : m.Shows img ⟨pc, s⟩)
    (here : img.code.At pc [.instruction (.branch relation v) note])
    (done : Machine.step m = .ok .running m') : m'.Shows img ⟨pc + 2, s⟩ ∨
      ∃ pc', v.word img.value = .ofNat pc' ∧ pc' ≤ img.code.size ∧ m'.Shows img ⟨pc', s⟩ := by
  have hexec : Machine.exec m.pc (.branch relation (v.word img.value)) (m.advance 2) =
      .ok .running m' :=
    h.step_running hp here done
  cases hf : (m.advance 2).flags with
  | none =>
    simp only [Machine.exec, hf] at hexec
    cases hexec
  | some c =>
    cases hc : relation.holds c with
    | true =>
      rw [exec_taken hf hc] at hexec
      obtain ⟨pc', hv, hle, hm', -⟩ := (h.advance 2).jump_inv hexec
      exact .inr ⟨pc', hv, hle, hm'⟩
    | false =>
      rw [exec_passed hf hc] at hexec
      obtain ⟨-, rfl⟩ := EStateM.Result.ok.inj hexec
      exact .inl (h.advance 2)

end Machine

/-! ### Displacements line by line -/

/-- `level i` says by how much `sp` has moved in front of line `i`. -/
def Course (lo hi : Nat) (depth : Nat → Word) (code : Assembly) (level : Nat → Word) : Prop :=
  ∀ i item, code[i]? = some item → Passes lo hi depth (level i) item (level (i + 1))

section
variable {lo hi : Nat} {depth : Nat → Word} {code front back : Assembly} {level : Nat → Word}

theorem Flows.of_append (h : Flows lo hi depth d (front ++ back) d') :
    ∃ e, Flows lo hi depth d front e ∧ Flows lo hi depth e back d' := by
  induction front generalizing d with
  | nil => exact ⟨d, .nil, h⟩
  | cons item front ih =>
    cases h with
    | cons first rest =>
      obtain ⟨e, hfront, hback⟩ := ih rest
      exact ⟨e, .cons first hfront, hback⟩

theorem Flows.course (h : Flows lo hi depth d code d') :
    ∃ level, Course lo hi depth code level ∧ level 0 = d ∧ level code.length = d' := by
  induction h with
  | nil => exact ⟨fun _ => _, by simp [Course], rfl, rfl⟩
  | @cons d item d₁ code d₂ first rest ih =>
    obtain ⟨level, hcourse, hstart, hstop⟩ := ih
    refine ⟨fun i => if i = 0 then d else level (i - 1), fun i item' hi => ?_, rfl, hstop⟩
    cases i with
    | zero =>
      obtain rfl : item = item' := by simpa using hi
      simpa [hstart] using first
    | succ i => simpa using hcourse i item' (by simpa using hi)

theorem Flows.course_append (hf : Flows lo hi depth d front e) (hb : Flows lo hi depth e back d') :
    ∃ level, Course lo hi depth (front ++ back) level ∧ level 0 = d ∧ level front.length = e := by
  obtain ⟨levelF, hF, hstart, hmid⟩ := hf.course
  obtain ⟨levelB, hB, hmid', -⟩ := hb.course
  refine ⟨fun i => if i ≤ front.length then levelF i else levelB (i - front.length),
    fun i item hi => ?_, by simpa using hstart, by simpa using hmid⟩
  by_cases hlt : i < front.length
  · rw [List.getElem?_append_left hlt] at hi
    have hlt' : i + 1 ≤ front.length := hlt
    simpa [Nat.le_of_lt hlt, hlt'] using hF i item hi
  · rw [List.getElem?_append_right (by omega)] at hi
    have hpass := hB _ item hi
    have hsucc : i + 1 - front.length = i - front.length + 1 := by omega
    rcases Nat.eq_or_lt_of_le (Nat.le_of_not_lt hlt) with rfl | hlt
    · have hno : ¬front.length + 1 ≤ front.length := by omega
      simpa [hno, hmid, ← hmid'] using hpass
    · have hno : ¬i ≤ front.length := by omega
      have hno' : ¬i + 1 ≤ front.length := by omega
      simpa [hno, hno', hsucc] using hpass

namespace Course

/-- Between lines with the same offset, `sp` does not move. -/
theorem level_eq (h : Course lo hi depth code level) (hij : i ≤ j) (hj : j ≤ code.length)
    (same : code.offset i = code.offset j) : level j = level i := by
  induction hij with
  | refl => rfl
  | @step j hij ih =>
    obtain ⟨item, hitem, hnone⟩ := Assembly.instruction?_of_offset hj same hij (Nat.lt_succ_self j)
    have hsame : code.offset i = code.offset j := by
      have hnext : code.offset i = code.offset (j + 1) := same
      have hlow : code.offset i ≤ code.offset j := Assembly.offset_mono hij
      have hhigh : code.offset j ≤ code.offset (j + 1) := Assembly.offset_mono (Nat.le_succ j)
      omega
    exact ((h j item hitem).of_other hnone).trans (ih (by omega) hsame)

theorem label (h : Course lo hi depth code level) (hj : code[j]? = some (.label (.code k))) :
    level j = depth k := by
  have hpass := h j _ hj
  generalize hl : Label.code k = l at hpass
  generalize level j = d at hpass ⊢
  generalize level (j + 1) = d' at hpass
  cases hpass with
  | straight hshift => simp [Item.shift?] at hshift
  | label => rw [Label.code_inj hl]

end Course

end

namespace Image

variable {img : Image} {s s' : Store}

theorem exec_spares (h : i.target? ≠ some r) (he : img.exec s i = .ok s') :
    s'.registers r = s.registers r := by
  cases i with
  | mov | arith | memRead =>
    have hne : r ≠ _ := fun he => h (congrArg some he.symm)
    simp only [exec] at he
    first
      | obtain rfl := Except.ok.inj he
        simp [hne]
      | split at he
        · obtain rfl := Except.ok.inj he
          simp [hne]
        · cases he
  | halt | cmp | jmp | branch => obtain rfl := Except.ok.inj he; rfl
  | memWrite | memCopy =>
    simp only [exec] at he
    split at he
    · obtain rfl := Except.ok.inj he
      rfl
    · cases he

/-- Instructions move `sp` by their displacement. -/
theorem exec_sp (h : Instruction.displacement? i = some w) (done : img.exec s i = .ok s') :
    s'.registers .sp = s.registers .sp + w := by
  rw [Instruction.displacement?] at h
  split at h
  · next htarget =>
    cases i with
    | arith kind op r rhs =>
      obtain rfl : r = .sp := by simpa [Instruction.target?] using htarget
      cases kind with
      | float => cases h
      | integer =>
      cases rhs with
      | register => cases h
      | value v =>
      cases v with
      | label => cases h
      | immediate w' =>
        cases op with
        | mul | div => cases h
        | add | sub =>
          obtain rfl := Option.some.inj h
          obtain rfl := Except.ok.inj done
          simp [Int32.sub_eq_add_neg]
    | mov | memRead => cases h
    | _ => cases htarget
  · next htarget =>
    obtain rfl := Option.some.inj h
    rw [exec_spares htarget done, Int32.add_zero]

end Image

/-! ### Normal runs follow the course -/

theorem Passes.branch_bounds {lo hi : Nat} {depth : Nat → Word}
    (h : Passes lo hi depth d (.instruction (.branch relation (.label (.code k))) note) d') :
    lo ≤ k ∧ k < hi := by
  generalize hl : Label.code k = l at h
  cases h with
  | straight h => simp [Item.shift?, Instruction.straight] at h
  | branch lower upper => exact Label.code_inj hl ▸ ⟨lower, upper⟩

theorem Passes.jump_bounds {lo hi : Nat} {depth : Nat → Word}
    (h : Passes lo hi depth d (.instruction (.jmp (.value (.label (.code k)))) note) d') :
    lo ≤ k ∧ k < hi := by
  generalize hl : Label.code k = l at h
  cases h with
  | straight h => simp [Item.shift?, Instruction.straight] at h
  | jump lower upper => exact Label.code_inj hl ▸ ⟨lower, upper⟩
  | call => exact absurd hl (Label.code_ne_function k _)

theorem Image.Proper.offset_eq {img : Image} (hp : img.Proper) (here : img.code.At pc [.label l])
    (word : img.value l = .ofNat pc') (inside : pc' ≤ img.code.size) : pc' = pc := by
  have hsmall := hp.small
  have hle := here.size_le
  have hword : (Int32.ofNat pc').toInt = (Int32.ofNat pc).toInt := by
    rw [← word, hp.labels _ _ here]
  rw [Int32.toInt_ofNat_of_lt (by omega), Int32.toInt_ofNat_of_lt (by omega)] at hword
  omega

namespace Course

variable {img : Image} {n n' lo : Nat} {depth : Nat → Word} {code : Assembly} {level : Nat → Word}
  {m m' : Machine} {s : Store}

theorem label_at (hp : img.Proper) (here : img.code.At lo code)
    (course : Course n n' depth code level)
    (hl : .label (.code k) ∈ code) (word : img.value (.code k) = .ofNat pc)
    (inside : pc ≤ img.code.size) :
    ∃ j ≤ code.length, pc = lo + code.offset j ∧ level j = depth k := by
  obtain ⟨j, hj⟩ := List.mem_iff_getElem?.mp hl
  have hline := here.line hj
  have hlt := (List.getElem?_eq_some_iff.mp hj).1
  exact ⟨j, by omega, hp.offset_eq hline word inside, course.label hj⟩

/-- One step of a normal run. -/
theorem proceeds (hp : img.Proper) (here : img.code.At lo code)
    (course : Course n n' depth code level)
    (defines : ∀ k, n ≤ k → k < n' → .label (.code k) ∈ code)
    (hm : m.Shows img ⟨lo + code.offset i, s⟩)
    (inside : code.offset i < code.size) (next : m.Proceeds img.code m') :
    ∃ j ≤ code.length, ∃ s', m'.Shows img ⟨lo + code.offset j, s'⟩ ∧
      s'.registers .sp - level j = s.registers .sp - level i := by
  obtain ⟨j, instr, note, hj, hoffset, hij⟩ := Assembly.exists_instruction inside
  have hlt := (List.getElem?_eq_some_iff.mp hj).1
  rw [← course.level_eq hij (Nat.le_of_lt hlt) hoffset]
  have hline := here.line hj
  rw [hoffset] at hm
  have hpass := course j _ hj
  have hnext : code.offset (j + 1) = code.offset j + instr.width := Assembly.offset_succ hj
  cases next with
  | @step _ i' note' _ hat stays done =>
    rw [hm.pc] at hat
    obtain rfl := hline.instruction_unique hat
    by_cases goes : instr.straight = true
    · obtain ⟨s', hexec, hm'⟩ := hm.step_straight hp hline goes done
      obtain ⟨w, hw, hmoves⟩ := hpass.of_instruction
      refine ⟨j + 1, hlt, s', by rwa [hnext, ← Nat.add_assoc], ?_⟩
      rw [Image.exec_sp hw hexec, hmoves goes]
      grind
    · cases instr with
      | halt => exact stays.elim
      | mov | arith | cmp | memRead | memWrite | memCopy => exact absurd rfl goes
      | branch relation target =>
        obtain ⟨hstay, k, rfl, hk⟩ := hpass.of_branch
        rcases hm.step_branch hp hline done with hm' | ⟨pc', hword, hle, hm'⟩
        · exact ⟨j + 1, hlt, s, by rwa [hnext, ← Nat.add_assoc], by rw [hstay]⟩
        · obtain ⟨hlo, hhi⟩ := hpass.branch_bounds
          obtain ⟨j', hj', rfl, hlevel⟩ := course.label_at hp here (defines k hlo hhi) hword hle
          exact ⟨j', hj', s, hm', by rw [hlevel, hk]⟩
      | jmp target =>
        cases target with
        | register r => exact stays.elim
        | value v =>
        cases v with
        | immediate w => exact stays.elim
        | label l =>
        obtain ⟨pc', hword, hle, hm'⟩ := hm.step_jmp hp hline done
        rcases hpass.of_jump with ⟨k, rfl, hk⟩ | ⟨f, rfl, -⟩
        · obtain ⟨hlo, hhi⟩ := hpass.jump_bounds
          obtain ⟨j', hj', rfl, hlevel⟩ := course.label_at hp here (defines k hlo hhi) hword hle
          exact ⟨j', hj', s, hm', by rw [hlevel, hk]⟩
        · exact absurd rfl (stays f)
  | call hat same memory behind popped =>
    rw [hm.pc] at hat behind
    obtain rfl := hline.instruction_unique hat
    have hm' : m'.Shows img ⟨m'.pc, m'.store⟩ :=
      Machine.shows_store (same ▸ hm.code) (memory.trans hm.size)
    rcases hpass.of_jump with ⟨k, hk, -⟩ | ⟨f, -, hlevel⟩
    · exact absurd hk.symm (Label.code_ne_function k _)
    · refine ⟨j + 1, hlt, m'.store, ?_, ?_⟩
      · have hpc : lo + code.offset (j + 1) = m'.pc := by
          rw [behind, hnext]
          rfl
        rwa [hpc]
      · rw [← hm'.sp, popped, hm.sp, hlevel]
        grind

/-- While code runs normally, `sp` is where the course says. -/
theorem normally (hp : img.Proper) (here : img.code.At lo code)
    (course : Course n n' depth code level)
    (defines : ∀ k, n ≤ k → k < n' → .label (.code k) ∈ code) (hi : i ≤ code.length)
    (hm : m.Shows img ⟨lo + code.offset i, s⟩) (run : m.Normally img.code lo (lo + code.size) m') :
    ∃ j ≤ code.length, ∃ s', m'.Shows img ⟨lo + code.offset j, s'⟩ ∧
      s'.registers .sp - level j = s.registers .sp - level i := by
  induction run generalizing i s with
  | refl => exact ⟨i, hi, s, hm, rfl⟩
  | step inside first rest ih =>
    rw [hm.pc] at inside
    obtain ⟨j, hj, s₁, hm₁, h₁⟩ :=
      course.proceeds hp here defines hm (by simpa using inside.2) first
    obtain ⟨j', hj', s', hm', h'⟩ := ih hj hm₁
    exact ⟨j', hj', s', hm', h'.trans h₁⟩

theorem sp_at (hp : img.Proper) (here : img.code.At lo code) (course : Course n n' depth code level)
    (defines : ∀ k, n ≤ k → k < n' → .label (.code k) ∈ code) (hm : m.Shows img ⟨lo, s⟩)
    (run : m.Normally img.code lo (lo + code.size) m')
    (line : code[i]? = some (.instruction instr note)) (arrived : m'.pc = lo + code.offset i) :
    ∃ s', m'.Shows img ⟨lo + code.offset i, s'⟩ ∧
    s'.registers .sp = s.registers .sp - level 0 + level i := by
  obtain ⟨j, hj, s', hm', hsp⟩ := course.normally hp here defines (Nat.zero_le _) (i := 0) hm run
  have hsame : code.offset j = code.offset i := by
    have := hm'.pc
    simp only at this
    omega
  have hle : j ≤ i := by
    refine Nat.le_of_not_lt fun hlt => ?_
    have hmono : code.offset (i + 1) ≤ code.offset j := Assembly.offset_mono hlt
    rw [Assembly.offset_succ line] at hmono
    simp only [Item.size, Instr.width, Opcode.width] at hmono
    omega
  have hlevel := course.level_eq hle (Nat.le_of_lt (List.getElem?_eq_some_iff.mp line).1) hsame
  refine ⟨s', hsame ▸ hm', ?_⟩
  rw [hlevel]
  grind

end Course

namespace Machine.Runs

variable {img : Image} {m m' : Machine} {code : Assembly} {s : Store}

/-- Code that runs normally moves `sp` by what its lines say. -/
theorem moves (hp : img.Proper) (h : m.Runs img.code code m') (hm : m.Shows img ⟨m.pc, s⟩)
    (moves : Moves n n' code w) (defines : ∀ k, n ≤ k → k < n' → .label (.code k) ∈ code) :
    ∃ s', m'.Shows img ⟨m'.pc, s'⟩ ∧ s'.registers .sp = s.registers .sp + w := by
  obtain ⟨depth, hflow⟩ := moves.2 0
  obtain ⟨level, course, hstart, hstop⟩ := hflow.course
  obtain ⟨j, hj, s', hm', hsp⟩ :=
    course.normally hp h.here defines (Nat.zero_le _) (i := 0) hm h.run
  have hsame : code.offset j = code.offset code.length := by
    have hpc := hm'.pc
    have hdone := h.done
    rw [Assembly.offset_length]
    simp only at hpc
    omega
  refine ⟨s', by rwa [hm'.pc], ?_⟩
  rw [← course.level_eq hj (Nat.le_refl _) hsame, hstart, hstop] at hsp
  grind

theorem straight (hp : img.Proper) (h : m.Runs img.code code m') (hm : m.Shows img ⟨m.pc, s⟩)
    (hwp : img.wp ok code Q s) : ∃ s', m'.Shows img ⟨m'.pc, s'⟩ ∧ Q s' := by
  have key : ∀ {code : Assembly} {lo pc stop : Nat} {m : Machine} {s : Store}, img.code.At pc code →
    pc + code.size = stop →
      m.Shows img ⟨pc, s⟩ → m.Normally img.code lo stop m' → m'.pc = stop → img.wp ok code Q s →
      ∃ s', m'.Shows img ⟨m'.pc, s'⟩ ∧ Q s' := by
    intro code
    induction code with
    | nil =>
      intro lo pc stop m s here hstop hm run done hwp
      cases run with
      | refl => exact ⟨s, by rwa [hm.pc], hwp⟩
      | step inside =>
        rw [hm.pc] at inside
        simp only [Assembly.size_nil] at hstop inside
        omega
    | cons item code ih =>
      intro lo pc stop m s here hstop hm run done hwp
      simp only [Assembly.size_cons] at hstop
      cases item with
      | label | static | comment =>
        exact ih here.tail (by simpa [Item.size] using hstop) hm run done hwp
      | instruction i note =>
        obtain ⟨goes, hwp⟩ := hwp
        simp only [Item.size, Instr.width, Opcode.width] at hstop
        cases run with
        | refl =>
          rw [hm.pc] at done
          simp only at done
          omega
        | step inside first rest =>
          cases first with
          | step hat stays hstep =>
            rw [hm.pc] at hat
            obtain rfl := here.head.instruction_unique hat
            obtain ⟨s₁, hexec, hm₁⟩ := hm.step_straight hp here.head goes hstep
            rw [hexec] at hwp
            exact ih here.tail (by simp only [Item.size, Instr.width, Opcode.width]; omega)
              hm₁ rest done hwp
          | call hat =>
            rw [hm.pc] at hat
            obtain rfl := here.head.instruction_unique hat
            cases goes
  exact key h.here rfl hm h.run h.done hwp

end Machine.Runs

/-! ### Runs of given length -/

namespace Machine

variable {img : Image} {m m' : Machine} {code : Assembly} {s : Store}

theorem runFor_succ_eq_inl (h : m.runFor (n + 1) = .inl m') :
    ∃ m₁, step m = .ok .running m₁ ∧ m₁.runFor n = .inl m' := by
  rw [runFor] at h
  split at h
  · next m₁ hstep => exact ⟨m₁, hstep, h⟩
  · cases h
  · cases h

theorem Normally.mono {a : Assembly} (h : m.Normally a lo hi m') (hlo : lo' ≤ lo) (hhi : hi ≤ hi') :
    m.Normally a lo' hi' m' := by
  induction h with
  | refl => exact .refl
  | step inside first rest ih => exact .step ⟨by omega, by omega⟩ first ih

/-- A machine that has taken as many steps as code without jumps has instructions has run it. -/
theorem Runs.of_runFor (hp : img.Proper) (hm : m.Shows img ⟨m.pc, s⟩) (here : img.code.At m.pc code)
    (straight : code.shift? = some w) (done : m.runFor code.instructions.length = .inl m') :
    m.Runs img.code code m' := by
  induction code generalizing m s w with
  | nil =>
    obtain rfl := Sum.inl.inj done
    exact ⟨here, .refl, rfl⟩
  | cons item code ih =>
    simp only [Assembly.shift?_cons, Option.bind_eq_some_iff, Option.map_eq_some_iff] at straight
    obtain ⟨w₁, hfirst, w₂, hrest, -⟩ := straight
    cases item with
    | label => cases hfirst
    | static | comment =>
      obtain ⟨-, hrun, hdone⟩ := ih hm here.tail hrest done
      exact ⟨here, by simpa [Item.size] using hrun, by simpa [Item.size] using hdone⟩
    | instruction i note =>
      obtain ⟨m₁, hstep, done⟩ := runFor_succ_eq_inl done
      have goes : i.straight = true := by
        by_contra hno
        simp [Item.shift?, hno] at hfirst
      have stays : i.Stays := by
        cases i <;> first | exact trivial | cases goes
      obtain ⟨s₁, -, hm₁⟩ := hm.step_straight hp here.head goes hstep
      have hpc : m₁.pc = m.pc + i.width := hm₁.pc
      obtain ⟨-, hrun, hdone⟩ := ih (hpc ▸ hm₁) (hpc ▸ here.tail) hrest done
      rw [hpc] at hrun hdone
      have hwidth : 0 < i.width := by
        simp only [Instr.width, Opcode.width]
        omega
      have hsize : Assembly.size (.instruction i note :: code) = i.width + Assembly.size code := rfl
      exact ⟨here, .step (by omega) (.step here.head stays hstep) (hrun.mono (by omega) (by omega)),
        by omega⟩

end Machine

end WordScript
