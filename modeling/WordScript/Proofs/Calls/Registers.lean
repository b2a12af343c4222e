import WordScript.Proofs.Calls.Convention
import WordScript.Proofs.Machine.Steps
import WordScript.Proofs.Safety.Expressions

/-!
# Registers across calls

A call saves the registers in use below the room for its result. Behind the return, they are
restored from there and the result is moved down onto their place, word by word and possibly onto
itself. Whatever the function has done, this ends with the registers as they were, the result where
the stack ended and nothing else changed (`registers_survive_calls`).
-/

namespace WordScript

/-! ### Words next to each other -/

/-- Addresses of words next to each other do not wrap around. -/
theorem Image.holds_range {img : Image} {a : Word} {n : Nat} (h : ∀ i < n, img.Holds (a + .ofNat i))
    (hn : n ≠ 0) : 0 ≤ a.toInt ∧ a.toInt + n ≤ 2 ^ 31 ∧ a.toInt + n ≤ img.memoryWords := by
  induction n with
  | zero => exact absurd rfl hn
  | succ n ih =>
    obtain ⟨hlow, hhigh⟩ := h n (by omega)
    rw [Int32.le_iff_toInt_le, add_ofNat_eq] at hlow
    rw [add_ofNat_eq] at hhigh
    have hfirst : 0 ≤ a.toInt ∧ a.toInt + n < 2 ^ 31 := by
      by_cases hzero : n = 0
      · subst hzero
        have := a.toInt_lt
        simp only [Int.natCast_zero, Int.add_zero, Int32.ofInt_toInt] at hlow ⊢
        exact ⟨hlow, this⟩
      · obtain ⟨hnonneg, hsmall, -⟩ := ih (fun i hi => h i (by omega)) hzero
        have hne : a.toInt + n ≠ 2 ^ 31 := by
          intro heq
          rw [heq] at hlow
          exact absurd hlow (by decide)
        omega
    rw [Addressable.toInt ⟨by omega, hfirst.2⟩] at hhigh
    omega

/-! ### The way back -/

namespace CallCode

def front (x : CallCode) : Assembly :=
  x.saves ++ x.room ++ (x.place ++ x.this) ++ x.arguments.flatten ++
    Emit.enterCode x.back x.function

end CallCode

def Signature.passedWords (structs : Structs) (s : Signature) : Nat :=
  s.argumentWords structs + if s.receiver.isSome then 1 else 0

/-- A machine in front of a call, after it has saved the registers in use, and where the function
has come back to. What was saved is still there, and the room behind it holds the result. -/
structure CallReturn (img : Image) (x : CallCode) (live : List Register) (words passed : Nat) where
  start : Machine
  saved : Machine
  back : Machine
  result : Nat → Word
  code : start.code.words.toList = img.code.words img.value
  size : start.memory.size = img.memoryWords
  here : img.code.At start.pc x.code
  save : start.Runs img.code x.saves saved
  sameCode : back.code = start.code
  sameSize : back.memory.size = start.memory.size
  label : img.code.At back.pc [.label x.back]
  sp : back.sp = start.sp + .ofNat (live.length + words + passed)
  kept : ∀ i < live.length, ∃ w, saved.word? (start.sp + .ofNat i) = some w ∧
    back.word? (start.sp + .ofNat i) = some w
  slot : ∀ i < words, back.word? (start.sp + .ofNat (live.length + i)) = some (result i)

namespace CallReturn

open Emit (live_ne_sp)

variable {img : Image} {x : CallCode} {live : List Register} {words passed : Nat}
  (run : CallReturn img x live words passed)

/-- The registers are what they were in front of the call, and the result is on top of the stack as
it was there. -/
structure Restored (m : Machine) : Prop where
  done : m.pc = run.start.pc + x.code.size
  sp : m.sp = run.start.sp + .ofNat words
  result : ∀ i < words, m.word? (run.start.sp + .ofNat i) = some (run.result i)
  registers : ∀ r ∈ live, m.register r.toSlot = run.start.register r.toSlot
  below : ∀ address, address < run.start.sp → m.word? address = run.back.word? address

def Finishes : Prop := run.back.Arrives run.Restored

theorem shows_start : run.start.Shows img ⟨run.start.pc, run.start.store⟩ :=
  Machine.shows_store run.code run.size

theorem shows_back : run.back.Shows img ⟨run.back.pc, run.back.store⟩ :=
  Machine.shows_store (run.sameCode ▸ run.code) (run.sameSize.trans run.size)

theorem back_pc (hp : img.Proper) : run.back.pc = run.start.pc + x.front.size := by
  have hlabel := run.here.left.right.tail.tail.tail.head
  have hpc := hp.offset_eq hlabel (hp.labels _ _ run.label) run.label.size_le
  rw [hpc]
  simp only [CallCode.front, Assembly.size_append, Nat.add_assoc]
  rfl

theorem holds (i : Nat) (hi : i < live.length + words) : img.Holds (run.start.sp + .ofNat i) := by
  have hsome : ∃ w, run.back.word? (run.start.sp + .ofNat i) = some w := by
    by_cases hlive : i < live.length
    · obtain ⟨w, -, hw⟩ := run.kept i hlive
      exact ⟨w, hw⟩
    · have hslot := run.slot (i - live.length) (by omega)
      rw [Nat.add_sub_cancel' (by omega)] at hslot
      exact ⟨_, hslot⟩
  obtain ⟨w, hw⟩ := hsome
  by_contra hno
  rw [run.shows_back.word?, if_neg hno] at hw
  cases hw

theorem range (hne : live.length + words ≠ 0) : 0 ≤ run.start.sp.toInt ∧
    run.start.sp.toInt + live.length + words ≤ 2 ^ 31 ∧
      run.start.sp.toInt + live.length + words ≤ img.memoryWords := by
  have := Image.holds_range run.holds hne
  omega

theorem word?_eq {m : Machine} {y : State} (hm : m.Shows img y) (hi : i < live.length + words) :
    m.word? (run.start.sp + .ofNat i) = some (y.store.memory (run.start.sp.toInt + i)) := by
  obtain ⟨hnonneg, hsmall, -⟩ := run.range (by omega)
  rw [hm.word?, if_pos (run.holds i hi), toInt_add_ofNat hnonneg (by omega)]

/-- What the code in front of the call has saved is there when the function comes back. -/
theorem saved_back (hp : img.Proper) (hsaves : x.saves = Emit.saveCode live)
    (hne : ∀ r ∈ live, r ≠ .sp) :
    Saved run.back.store.memory run.start.sp.toInt live run.start.store.registers := by
  intro i r hr
  have hi : i < live.length := (List.getElem?_eq_some_iff.mp hr).1
  obtain ⟨hnonneg, hsmall, -⟩ := run.range (by omega)
  have hsp : run.start.store.registers .sp = .ofInt run.start.sp.toInt := (Int32.ofInt_toInt _).symm
  have hwp : img.wp (fun _ => True) x.saves
      (fun s => Saved s.memory run.start.sp.toInt live run.start.store.registers)
      run.start.store := by
    rw [hsaves]
    exact Image.wp_saveCode hsp (by omega) (.inr trivial) hne fun s _ _ hsaved _ => hsaved
  obtain ⟨s, hm, hsaved⟩ := run.save.straight hp run.shows_start hwp
  obtain ⟨w, hw, hback⟩ := run.kept i hi
  rw [run.word?_eq hm (by omega)] at hw
  rw [run.word?_eq run.shows_back (by omega), ← hw] at hback
  exact (Option.some.inj hback).trans (hsaved i r hr)

/-- The code behind the return, from a machine that has come back. -/
theorem finishes {structs : Structs} {s : Signature} {pool : RegisterPool}
    (run : CallReturn img x pool.live (structs.words s.returns) (s.passedWords structs))
    (hp : img.Proper) (restores : x.Restores structs s pool) : run.Finishes := by
  obtain ⟨hsaves, k, hfree, hrest⟩ := restores
  have hsaved := run.saved_back hp hsaves fun r hr => live_ne_sp hr
  have hG : img.Closed (fun _ => False) (img.Eventually fun r => ∃ m, r = .inl m ∧
    run.Restored m) := hp.eventually (by simp)
  have here : img.code.At run.back.pc x.rest := run.back_pc hp ▸ run.here.right
  refine hG.run here ?_ run.back run.shows_back
  have hsum : (s.params.reverse.map fun p => structs.words p.2).sum = s.argumentWords structs := by
    rw [List.map_reverse, List.sum_reverse, Signature.argumentWords,
      Structs.totalWords_eq, List.map_map]
    rfl
  rw [hrest, Image.wp_append, Image.wp_append]
  refine Image.wp_flatMap_lowerSp
    (z := run.start.sp.toInt + pool.live.length + structs.words s.returns +
    (if s.receiver.isSome then 1 else 0 : Nat)) ?_ ?_
  · show run.back.sp = _
    rw [run.sp, add_ofNat_eq, hsum]
    simp only [Signature.passedWords]
    congr 1
    omega
  refine Image.wp_lowerSp (Store.registers_set.trans (if_pos rfl)) ?_
  refine Image.wp_slideCode (Store.registers_set.trans (if_pos rfl)) (fun h => ?_) (fun h => ?_)
    (fun r hr => live_ne_sp hr) hfree hsaved fun s' hsp hregisters hbelow hresult => ?_
  · have := run.range (by have := List.length_pos_of_ne_nil h; omega)
    omega
  · have := run.range (by have := List.length_pos_of_ne_nil h; omega)
    exact .inl (by omega)
  refine .now fun m hm => ⟨m, rfl, ?_, ?_, fun i hi => ?_, fun r hr => ?_, fun address hlt => ?_⟩
  · rw [hm.pc, run.back_pc hp, ← hrest]
    simp only [CallCode.code, CallCode.front, Assembly.size_append]
    omega
  · rw [hm.sp, hsp, add_ofNat_eq]
  · have hslot := run.slot i hi
    rw [run.word?_eq run.shows_back (by omega)] at hslot
    rw [run.word?_eq hm (by omega), hresult i hi, ← hslot]
    simp [Int.add_assoc]
  · exact (hm.register (RegisterPool.slot_lt_of_live hr)).trans (hregisters r hr)
  · rw [hm.word?, run.shows_back.word?]
    split
    · rw [hbelow _ (Int32.lt_iff_toInt_lt.mp hlt)]
      rfl
    · rfl

end CallReturn

/-! ### All calls -/

open Emit in
/-- However many registers are in use around a call and however long its result is, the code behind
the return restores the registers and moves the result down, and leaves the memory below alone. -/
theorem registers_survive_calls (parsed : Program.ofSource source = .ok p)
    (serves : EmitContext.Serves c p)
    (emitted : expr c (.call span callee args) st = .ok code st') (proper : Image.Proper img) :
    ∃ target x, Typing.callTarget (c.at st.frame) callee = .ok target ∧ CallCode.code x = code ∧
      x.Of c callee target args st ∧
      ∀ run : CallReturn img x st.registers.live (c.structs.words target.signature.returns)
        (target.signature.passedWords c.structs), run.Finishes := by
  have hc := serves.sound (Program.ofSource_wellNamed parsed)
  obtain ⟨frame, pool, ⟨n⟩⟩ := st
  obtain ⟨target, x, resolved, -, hcode, hof, -, restores⟩ := call_sections hc emitted
  exact ⟨target, x, resolved, hcode, hof, fun run => run.finishes proper restores⟩

def SourceText.chainsResult : SourceText := .ofString
  ("struct W \x7b int a; int b; int c; \x7d static W p; static W q; " ++
    "func W make(int n) \x7b W w; return w; \x7d p = q = make(7);")

/-- A machine at `pc` that has lost all registers but `sp`, with the words 5, 6 and 7 in memory from
8 on. -/
def Machine.overrun (m : Machine) (pc : Nat) (sp : Word) : Machine :=
  { m with
    pc
    registers := (Vector.replicate registerCount (-1)).setIfInBounds 0 sp
    memory := ((m.memory.setIfInBounds 8 5).setIfInBounds 9 6).setIfInBounds 10 7 }

open Emit Assembly in
theorem registers_survive_calls_chainsResult : ∃ p c span callee args st code st', ∃ img : Image,
    ∃ target : CallTarget, Program.ofSource .chainsResult = .ok p ∧ EmitContext.Serves c p ∧
    expr c (.call span callee args) st = .ok code st' ∧ img.Proper ∧
    st.registers.live = [.general 0, .general 1] ∧
    ∃ x, ∃ run : CallReturn img x st.registers.live (c.structs.words target.signature.returns)
      (target.signature.passedWords c.structs), run.result 2 = 7 ∧ run.Finishes := by
  have hrun : (do
      let build ← Build.ofSource? .chainsResult
      let c := build.context
      let callee : Expr := .var ⟨0, 0⟩ "make"
      let args : List Expr := [.integer ⟨0, 0⟩ 7]
      let st : EmitState := ⟨.topLevel build.statics, (RegisterPool.empty.take 0).take 1, .start⟩
      let code ← (expr c (.call ⟨0, 0⟩ callee args)).result? st
      let target ← (Typing.callTarget (c.at st.frame) callee).toOption
      let saves ← (saveAll st.registers.live).result? st
      let room ← (reserve (c.structs.words target.signature.returns)
        (c.structs.text target.signature.returns)).result? saves.2
      let this ← (pushReceiver (receiver c callee)).result? room.2
      let args ← (args.mapM (expr c)).result? this.2
      let a := build.code
      let b := Bytecode.ofList (a.words a.value)
      let start ← ((Machine.load b ⟨16, none⟩).runFor 3).getLeft?
      (start.runFor (instructions saves.1).length).getLeft?.filter fun (saved : Machine) =>
        let back := saved.overrun (a.offset 15) 12
        decide (c.structs.words target.signature.returns = 3 ∧
          target.signature.passedWords c.structs = 1 ∧ a.size < 2 ^ 31 ∧
        (a.drop 5).take code.1.length = code.1 ∧ a.offset 5 = start.pc ∧ (shift? saves.1).isSome ∧
        (a.drop 15).take 1 = [Item.label (.code args.2.labels.next)] ∧ a.offset 15 = back.pc ∧
        back.sp = start.sp + 6 ∧
        (∀ i < 2, (saved.word? (start.sp + Int32.ofNat i)).isSome ∧
          back.word? (start.sp + Int32.ofNat i) = saved.word? (start.sp + Int32.ofNat i)) ∧
        (∀ i < 3, (back.word? (start.sp + Int32.ofNat (2 + i))).isSome) ∧
          back.word? (start.sp + 4) = some 7)).isSome = true := by
    decide +kernel
  obtain ⟨saved, hrun⟩ := Option.isSome_iff_exists.mp hrun
  obtain ⟨⟨p, c, statics, a⟩, hbuild, hrun⟩ := Option.bind_eq_some_iff.mp hrun
  dsimp only at hrun
  obtain ⟨code, hcode, hrun⟩ := of_result?_bind hrun
  obtain ⟨target, htarget, hrun⟩ := of_toOption_bind hrun
  obtain ⟨saves, hsaves, hrun⟩ := of_result?_bind hrun
  obtain ⟨room, hroom, hrun⟩ := of_result?_bind hrun
  obtain ⟨this, hthis, hrun⟩ := of_result?_bind hrun
  obtain ⟨args, hargs, hrun⟩ := of_result?_bind hrun
  obtain ⟨start, hstart, hrun⟩ := Option.bind_eq_some_iff.mp hrun
  obtain ⟨hsaved, hrun⟩ := Option.filter_eq_some_iff.mp hrun
  rw [Sum.getLeft?_eq_some_iff] at hstart hsaved
  obtain ⟨hwords, hpassed, hsize, hcall, hpc, hstraight, hlabel, hback, hsp, hkept, hslot,
    hseven⟩ := of_decide_eq_true hrun
  obtain ⟨parsed, serves, -, complete⟩ := Build.of_some hbuild
  have proper : Image.Proper ⟨a, a.value, 16⟩ := complete.proper rfl hsize
  obtain ⟨target', x, htarget', hx, ⟨-, s₁, s₂, s₃, s₄, s₅, e₁, e₂, e₃, e₄, e₅, hnext⟩,
    hfinishes⟩ :=
    registers_survive_calls parsed serves hcode proper
  obtain rfl := Except.ok.inj (htarget.symm.trans htarget')
  obtain ⟨hsaves, rfl⟩ := EStateM.Result.ok.inj (hsaves.symm.trans e₁)
  obtain ⟨-, rfl⟩ := EStateM.Result.ok.inj (hroom.symm.trans e₂)
  obtain ⟨-, rfl⟩ := EStateM.Result.ok.inj (hthis.symm.trans e₄)
  obtain ⟨-, rfl⟩ := EStateM.Result.ok.inj (hargs.symm.trans e₅)
  have hb := (Machine.Bounded.load _ _).runFor hstart
  have hb' := hb.runFor hsaved
  have here : a.At start.pc x.code := hpc ▸ hx ▸ Assembly.At.of_slice hcall
  obtain ⟨w, hw⟩ := Option.isSome_iff_exists.mp hstraight
  rw [hsaves] at hsaved hw
  have save := Machine.Runs.of_runFor proper (Machine.shows_store (by rw [hb.code]; rfl) hb.memory)
    here.left.left.left.left.left hw hsaved
  have hlive : ((RegisterPool.empty.take 0).take 1).live = [.general 0, .general 1] := by decide
  let run : CallReturn ⟨a, a.value, 16⟩ x ((RegisterPool.empty.take 0).take 1).live
    (c.structs.words target.signature.returns) (target.signature.passedWords c.structs) :=
    { start, saved
      back := saved.overrun (a.offset 15) 12
      result := fun i => ((saved.overrun (a.offset 15) 12).word? (start.sp + .ofNat (2 + i))).getD 0
      code := by rw [hb.code]; rfl
      size := hb.memory
      here
      save
      sameCode := hb'.code.trans hb.code.symm
      sameSize := by simpa [Machine.overrun] using hb'.memory.trans hb.memory.symm
      label := hback ▸ hnext ▸ Assembly.At.of_slice hlabel
      sp := by rw [hsp, hlive, hwords, hpassed]; rfl
      kept := fun i hi => by
        rw [hlive] at hi
        obtain ⟨hsome, heq⟩ := hkept i hi
        obtain ⟨w, hw⟩ := Option.isSome_iff_exists.mp hsome
        exact ⟨w, hw, heq.trans hw⟩
      slot := fun i hi => by
        obtain ⟨w, hw⟩ := Option.isSome_iff_exists.mp (hslot i (hwords ▸ hi))
        rw [hlive]
        exact hw.trans (by rw [hw]; rfl) }
  refine ⟨p, _, _, _, _, _, _, _, ⟨a, a.value, 16⟩, target, parsed, serves, hcode, proper, hlive, x,
    run, ?_, hfinishes run⟩
  show ((saved.overrun (a.offset 15) 12).word? (start.sp + 4)).getD 0 = 7
  rw [hseven]
  rfl

end WordScript
