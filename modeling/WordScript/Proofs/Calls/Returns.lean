import WordScript.Proofs.Emit.Program
import WordScript.Proofs.Machine.Normal
import WordScript.Proofs.Safety.Activation

/-!
# Returns

What the machine does when the code of a function jumps to an address in a register (`Returning`):
the result is in the return slot, and control is back behind the call.
-/

namespace WordScript

/-! ### Code of functions -/

namespace Emit

variable {slot : Int}

theorem EmitsFunction.returns (h : EmitsFunction c statics n name decl code n')
    (known : c.functions.get? name = some signature)
    (position : (Frame.ofSignature c.structs statics signature).returnSlot = some slot) :
    ∃ rest w, code = .label name.label :: rest ∧ Returns slot (c.structs.words signature.returns) 0
      n n' rest w := by
  have hdepth : (Frame.ofSignature c.structs statics signature).depth = 0 := by
    rw [Frame.ofSignature]
    split <;> rfl
  have hwords : ∀ type, (c.inside signature).returns = some type →
      c.structs.words signature.returns = c.structs.words type :=
    fun _ htype => congrArg c.structs.words (Option.some.inj htype)
  have hslot : ∀ slot', (Frame.ofSignature c.structs statics signature).returnSlot = some slot' →
      slot = slot' :=
    fun _ hslot => Option.some.inj (position.symm.trans hslot)
  cases h with
  | returning known' block returns =>
    obtain rfl := Option.some.inj (known.symm.trans known')
    exact ⟨_, _, rfl, hdepth ▸ block.returns hwords hslot⟩
  | ending known' void block returns leave =>
    obtain rfl := Option.some.inj (known.symm.trans known')
    have hreturns :=
      (block.returns hwords hslot).append (leave.returns hwords (block.returnSlot ▸ hslot))
    exact ⟨_, _, rfl, hdepth ▸ hreturns⟩

end Emit

/-! ### What a return does -/

/-- `m'` has returned to `back` from a function entered with `sp` at `base`, which `m` is about to
do: the words below `top` are now in the return slot, and nothing else in memory has changed. -/
structure Machine.Unwound (m m' : Machine) (base slot top : Int) (words back : Nat) : Prop where
  pc : m'.pc = back
  sp : m'.sp = .ofInt (base - 1)
  result : ∀ i < words, m'.word? (.ofInt (base + slot + i)) = m.word? (.ofInt (top - words + i))
  rest : ∀ address, (∀ i < words, address ≠ .ofInt (base + slot + i)) →
    m'.word? address = m.word? address

theorem Machine.Shows.unwound {img : Image} {m m' : Machine} {s s' : Store} {pc words back : Nat}
    {base slot top : Int} (hm : m.Shows img ⟨pc, s⟩) (hm' : m'.Shows img ⟨back, s'⟩)
    (hsp : s'.registers .sp = .ofInt (base - 1))
    (memory : s'.memory = copied s.memory (base + slot) (top - words) words)
    (hslot : 0 ≤ base + slot) (below : slot + words ≤ -1) (above : base + words ≤ top)
    (fits : top ≤ img.memoryWords ∧ top ≤ 2 ^ 31) : m.Unwound m' base slot top words back := by
  refine ⟨hm'.pc, hm'.sp.trans hsp, fun i hi => ?_, fun address hout => ?_⟩
  · have htarget : Addressable (base + slot + i) := ⟨by omega, by omega⟩
    have hsource : Addressable (top - words + i) := ⟨by omega, by omega⟩
    rw [hm'.word?, hm.word?, if_pos ((Image.holds_ofInt htarget).mpr (by omega)),
      if_pos ((Image.holds_ofInt hsource).mpr (by omega)), htarget.toInt, hsource.toInt, memory,
      copied_inside hi (.inl (by omega))]
  · rw [hm'.word?, hm.word?, memory]
    have houtside : address.toInt < base + slot ∨ base + slot + words ≤ address.toInt := by
      by_contra hin
      refine hout (address.toInt - (base + slot)).toNat (by omega) ?_
      rw [Int.toNat_of_nonneg (by omega),
        show base + slot + (address.toInt - (base + slot)) = address.toInt by omega,
        Int32.ofInt_toInt]
    rw [copied_outside houtside]

theorem Emit.length_resultCode (slot : Int) (words : Nat) (target source : Register) :
    (resultCode slot words target source).length = if words = 0 then 0 else 4 + words * 3 := by
  by_cases h : words = 0
  · simp [resultCode, h]
  · simp [resultCode, h, copyWords]
    omega

theorem Emit.returnCode_eq_cons (slot depth : Int) (words k source : Nat) :
    ∃ instr note rest, returnCode slot depth words k source = .instruction instr note :: rest := by
  by_cases h : words = 0
  · exact ⟨_, _, _, by rw [returnCode, resultCode, if_pos h, List.nil_append, unwindCode, line]⟩
  · exact ⟨_, _, _, by rw [returnCode, resultCode, if_neg h, List.cons_append, noted]⟩

/-- Only the word of the depth matters. -/
theorem Emit.returnCode_congr (slot : Int) (words k source : Nat)
    (h : Int32.ofInt depth = .ofInt depth') :
    returnCode slot depth words k source = returnCode slot depth' words k source := by
  simp only [returnCode, resultCode, unwindCode, Int32.ofInt_add, Int32.ofInt_sub, h]

namespace Returns

variable {slot : Int} {words : Nat} {code front after : Assembly} {img : Image}
  {m m₀ : Machine} {s₀ : Store}

/-- What is known in front of the last lines of a `return`, wherever it is. -/
theorem site (h : Returns slot words 0 n n' code w)
    (here : code = front ++ (Emit.resultCode x words (.general k) (.general source) ++
      Emit.unwindCode y (.general k)) ++
      Emit.line (.jmp (.register (.general k))) :: after) :
    ∃ (depth : Int) (k source : Nat) (level : Nat → Word) (labels : Nat → Word),
      Course n n' labels code level ∧
      level 0 = 0 ∧ level front.length = .ofInt depth ∧ (words ≠ 0 → k ≠ source) ∧
      code = front ++ Emit.returnCode slot depth words k source ++
        Emit.line (.jmp (.register (.general k))) :: after := by
  obtain ⟨labels, hreturning⟩ := h.returning 0
  generalize hfront : front ++ (Emit.resultCode x words (.general k) (.general source) ++
    Emit.unwindCode y (.general k)) = all at here
  generalize hr : Register.general k = r at here
  cases hreturning.leaves all r none after here with
  | @mk before k source depth pushed apart =>
    obtain rfl : front = before := by
      refine (List.append_inj' hfront ?_).1
      simp [Emit.returnCode, Emit.length_resultCode, Emit.unwindCode]
    have hflows := here ▸ hreturning.flows
    obtain ⟨_, -, hjump⟩ := hflows.of_append
    cases hjump with
    | cons first rest =>
      have hreturn : Flows n n' labels (.ofInt depth)
          (Emit.returnCode slot depth words k source) _ :=
        Assembly.flows_of_shift? (Emit.shift?_returnCode slot depth words k source) _
      obtain ⟨level, hcourse, hstart, hmid⟩ := Flows.course_append (by simpa using pushed)
        (hreturn.append (.cons .leave rest))
      exact ⟨depth, k, source, level, labels, by rw [here, List.append_assoc]; exact hcourse,
        hstart, hmid, apart, here⟩

/-- A `return` goes back, once its value has been pushed, unless the budget is spent. -/
theorem unwinds {base top : Int} {back : Nat} (hp : img.Proper)
    (h : Returns slot words 0 n n' code w) (here : img.code.At pc code)
    (site : code = front ++ (Emit.resultCode x words (.general k) (.general source) ++
      Emit.unwindCode y (.general k)) ++
      Emit.line (.jmp (.register (.general k))) :: after)
    (hm₀ : m₀.Shows img ⟨pc, s₀⟩) (entry : s₀.registers .sp = .ofInt base)
    (run : m₀.Normally img.code pc (pc + code.size) m) (arrived : m.pc = pc + front.size)
    (pushed : m.sp = .ofInt top)
    (hslot : 0 ≤ base + slot) (below : slot + words ≤ -1) (above : base + words ≤ top)
    (fits : top ≤ m.memory.size ∧ top ≤ 2 ^ 31)
    (hback : m.word? (.ofInt (base - 1)) = some (.ofNat back)) (inside : back ≤ img.code.size) :
    ∃ j, (∃ m', m.runFor j = .inl m' ∧ m.Unwound m' base slot top words back) ∨
      ∃ pc budget, m.budget = some budget ∧ m.runFor j = .inr
      (.error (.stepBudgetExhausted pc budget)) := by
  obtain ⟨depth, k, source, level, labels, hcourse, hstart, hmid, apart, hcode⟩ := h.site site
  have hline : ∃ instr note, code[front.length]? = some (.instruction instr note) := by
    obtain ⟨instr, note, rest, hfirst⟩ := Emit.returnCode_eq_cons slot depth words k source
    exact ⟨instr, note, by simp [hcode, hfirst]⟩
  have hoffset : code.offset front.length = front.size := by
    rw [hcode, List.append_assoc, Assembly.offset_append]
  obtain ⟨instr, note, hline⟩ := hline
  obtain ⟨s, hm, hsp⟩ := hcourse.sp_at hp here h.labels hm₀ run hline (by rw [hoffset, arrived])
  rw [hstart, hmid, entry, Int32.sub_zero, ← hm.sp, pushed] at hsp
  rw [hm.size] at fits
  have hdepth : Int32.ofInt depth = .ofInt (top - base) := by
    rw [Int32.ofInt_sub, hsp]
    grind
  rw [Emit.returnCode_congr slot words k source hdepth] at hcode
  have hleave : img.code.At (pc + code.offset front.length)
    (Emit.resultCode (slot - (top - base)) words (.general k)
      (.general source) ++ Emit.leaveCode (top - base) (.general k)) := by
    rw [hcode, Emit.returnCode, List.append_assoc] at here
    rw [hoffset]
    exact Assembly.At.left (y := after) (by simpa [Emit.leaveCode_eq] using here.right)
  let P : Machine ⊕ Ending → Prop :=
    fun x => ∃ m', x = .inl m' ∧ m.Unwound m' base slot top words back
  have hP : img.Closed (fun _ => False) (img.Eventually P) := hp.eventually fun _ _ h => h.elim
  have hgoal : img.Eventually P ⟨pc + code.offset front.length, s⟩ := by
    refine hP.run hleave.left (Image.wp_resultCode (z := top) (fun hw => ?_)
      (hm.sp.symm.trans pushed) ⟨by omega, by omega⟩
      (fun _ => ⟨by omega, by omega⟩) (fun _ => .inl ⟨by omega, by omega⟩) fun s₁ hsp₁ hmemory₁ =>
        ?_)
    · simpa using apart hw
    · have hback₁ : s₁.memory (base - 1) = .ofNat back := by
        have hat : Addressable (base - 1) := ⟨by omega, by omega⟩
        rw [hm.word?, if_pos ((Image.holds_ofInt hat).mpr (by omega)), hat.toInt] at hback
        rw [hmemory₁, copied_outside (.inr (by omega))]
        exact Option.some.inj hback
      refine hP.leave hleave.right (b := base) (by rw [hsp₁]; congr 1; omega)
        ⟨by omega, by omega⟩ hback₁ inside
        (fun s₂ hsp₂ _ hmemory₂ => .now fun m' hm' =>
          ⟨m', rfl, hm.unwound hm' hsp₂ ?_ hslot below above fits⟩)
        (fun hno => by omega)
      rw [hmemory₂, hmemory₁]
      congr 1
      omega
  exact hgoal m hm

end Returns

end WordScript
