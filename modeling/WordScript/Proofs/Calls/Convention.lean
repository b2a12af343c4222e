import WordScript.Proofs.Calls.Layout

/-!
# The calling convention

A caller and the function that it calls never see each other's code. Whatever the caller's own frame
looks like, the function is entered with everything where its frame looks for it, and wherever it
returns, it goes back to behind the call with nothing changed but the return slot
(`call_convention`).
-/

namespace WordScript

/-! ### Entering a function -/

/-- A call up to where the function is entered: the machines in front of each part. -/
structure CallRun (a : Assembly) (x : CallCode) where
  reserving : Machine
  receiving : Machine
  holding : Machine
  passing : Nat → Machine
  entered : Machine
  reserve : reserving.Runs a x.room receiving
  receive : receiving.Runs a x.place holding
  push : holding.Runs a x.this (passing 0)
  pass : ∀ i part, x.arguments[i]? = some part → (passing i).Runs a part (passing (i + 1))
  there : a.At (passing x.arguments.length).pc (Emit.enterCode x.back x.function)
  enter : (passing x.arguments.length).runFor 3 = .inl entered

/-- The function is entered with everything where the layout says, seen from its `sp`. -/
structure CallRun.Agrees {a : Assembly} {x : CallCode} (run : CallRun a x) (structs : Structs)
    (s : Signature)
    (l : EntryLayout) : Prop where
  entry : a.At run.entered.pc [.label x.function.label]
  slot : run.reserving.sp = run.entered.sp + .ofInt l.slot ∧
    run.receiving.sp = run.entered.sp + .ofInt (l.slot + structs.words s.returns)
  this : Option.Rel (fun z part => (run.passing 0).word? (run.entered.sp + .ofInt z) =
    some (run.holding.register part.2.toSlot)) l.this x.receiver
  count : x.arguments.length = l.params.length
  params : ∀ i z p, l.params[i]? = some z → s.params[i]? = some p →
    (run.passing i).sp = run.entered.sp + .ofInt z ∧
      (run.passing (i + 1)).sp = run.entered.sp + .ofInt (z + structs.words p.2)
  back : ∃ pc, a.At pc [.label x.back] ∧ run.entered.word? (run.entered.sp - 1) = some (.ofNat pc)
  rest : ∀ address, address ≠ run.entered.sp - 1 →
    run.entered.word? address = (run.passing x.arguments.length).word? address

namespace Machine

variable {img : Image} {m m' : Machine} {s : Store} {pc : Nat}

/-- Entering a function pushes the return address and changes nothing else in memory. -/
theorem Shows.enter (hp : img.Proper) (hm : m.Shows img ⟨m.pc, s⟩)
    (there : img.code.At m.pc (Emit.enterCode back f))
    (known : img.code.At pc [.label f.label]) (done : m.runFor 3 = .inl m') :
    ∃ s', m'.Shows img ⟨pc, s'⟩ ∧ img.Holds (s.registers .sp) ∧
    s'.registers .sp = s.registers .sp + 1 ∧
      s'.memory = (s.write (s.registers .sp).toInt (img.value back)).memory := by
  obtain ⟨m₁, h₁, done⟩ := runFor_succ_eq_inl done
  obtain ⟨m₂, h₂, done⟩ := runFor_succ_eq_inl done
  obtain ⟨m₃, h₃, done⟩ := runFor_succ_eq_inl done
  obtain rfl := Sum.inl.inj done
  obtain ⟨s₁, he₁, hm₁⟩ := hm.step_straight hp there.head rfl h₁
  obtain ⟨s₂, he₂, hm₂⟩ := hm₁.step_straight hp there.tail.head rfl h₂
  obtain ⟨pc', hv, hle, hm₃⟩ := hm₂.step_jmp hp there.tail.tail.head h₃
  obtain rfl := hp.offset_eq known hv hle
  simp only [Image.exec] at he₁
  split at he₁
  · next hholds =>
    obtain rfl := Except.ok.inj he₁
    obtain rfl := Except.ok.inj he₂
    exact ⟨_, hm₃, hholds, by simp, rfl⟩
  · cases he₁

theorem Runs.push (hp : img.Proper) (h : m.Runs img.code (Emit.thisCode r) m')
    (hm : m.Shows img ⟨m.pc, s⟩) :
    ∃ s', m'.Shows img ⟨m'.pc, s'⟩ ∧ m'.sp = m.sp + 1 ∧ m'.word? m.sp = some (s.registers r) := by
  have hwp : img.wp (fun _ => True) (Emit.thisCode r) (fun s' => img.Holds (s.registers .sp) ∧
      s'.registers .sp = s.registers .sp + 1 ∧
      s'.memory (s.registers .sp).toInt = s.registers r) s := by
    refine ⟨rfl, ?_⟩
    simp only [Image.exec]
    split
    · next hholds =>
      simp only [Image.Allows, Emit.line, Emit.increase, Image.wp_add, Image.wp_nil]
      exact ⟨hholds, by simp [Emit.count, Emit.word], by simp⟩
    · trivial
  obtain ⟨s', hm', hholds, hsp, hmemory⟩ := h.straight hp hm hwp
  refine ⟨s', hm', by rw [hm'.sp, hsp, hm.sp], ?_⟩
  rw [hm'.word?, hm.sp, if_pos hholds, hmemory]

/-- One argument after the other, each starts where its parameter does. -/
theorem passes {structs : Structs} {params : List (String × ValueType)} {parts : List Assembly}
    {passing : Nat → Machine} (hp : img.Proper) (fits : List.Forall₂ (fun p part =>
      ∃ n n', Moves n n' part (.ofNat (structs.words p.2)) ∧
      Inner n n' part) params parts)
    (runs : ∀ i part, parts[i]? = some part → (passing i).Runs img.code part (passing (i + 1)))
    (hm : (passing 0).Shows img ⟨(passing 0).pc, s⟩) (end_ : passing parts.length = m) :
    ∃ s', m.Shows img ⟨m.pc, s'⟩ ∧
      (passing 0).sp = m.sp + 1 + .ofInt (-1 - structs.totalWords (params.map Prod.snd)) ∧
      ∀ i z p, (paramOffsets structs params)[i]? = some z → params[i]? = some p →
        (passing i).sp = m.sp + 1 + .ofInt z ∧
        (passing (i + 1)).sp = m.sp + 1 + .ofInt (z + structs.words p.2) := by
  induction fits generalizing passing s with
  | nil =>
    subst end_
    refine ⟨s, hm, ?_, by simp⟩
    simp [Structs.totalWords, Int32.add_assoc, Int32.add_right_neg]
  | @cons p part params parts first rest ih =>
    obtain ⟨n, n', hmoves, hinner⟩ := first
    obtain ⟨s₁, hm₁, hsp⟩ := (runs 0 part rfl).moves hp hm hmoves hinner.labels
    obtain ⟨s', hm', hstart, hparams⟩ := @ih _ (fun i => passing (i + 1))
      (fun i part hi => runs (i + 1) part (by simpa using hi)) hm₁ (by simpa using end_)
    have hsecond : (passing 1).sp = (passing 0).sp + .ofNat (structs.words p.2) := by
      rw [hm₁.sp, hsp, hm.sp]
    have hfirst : (passing 0).sp = m.sp + 1 +
        .ofInt (-1 - structs.totalWords ((p :: params).map Prod.snd)) := by
      rw [List.map_cons, Structs.totalWords]
      rw [hsecond, Int32.ofInt_sub, Int32.ofInt_eq_ofNat] at hstart
      rw [Int32.ofInt_sub, Int32.ofInt_eq_ofNat, Int32.ofNat_add]
      grind
    refine ⟨s', hm', hfirst, fun i z q hz hq => ?_⟩
    cases i with
    | zero =>
      obtain rfl := Option.some.inj hz
      obtain rfl := Option.some.inj hq
      refine ⟨hfirst, ?_⟩
      rw [hsecond, hfirst, Int32.ofInt_add _ (structs.words p.2 : Int), Int32.ofInt_eq_ofNat,
        Int32.add_assoc]
    | succ i => exact hparams i z q (by simpa [paramOffsets] using hz) (by simpa using hq)

end Machine

theorem CallRun.receiver_pushed {img : Image} {x : CallCode} {receiver : Option ValueType}
    (hp : img.Proper)
    (run : CallRun img.code x) (hm : run.holding.Shows img ⟨run.holding.pc, run.holding.store⟩)
    (method : x.receiver.isSome = receiver.isSome) :
    ∃ s', (run.passing 0).Shows img ⟨(run.passing 0).pc, s'⟩ ∧
      (run.passing 0).sp = run.holding.sp + .ofInt (receiver.elim 0 fun _ => 1) ∧
      Option.Rel (fun _ part => (run.passing 0).word? run.holding.sp =
        some (run.holding.register part.2.toSlot)) receiver
        x.receiver := by
  have hpush := run.push
  rw [CallCode.this] at hpush
  cases hx : x.receiver with
  | none =>
    obtain rfl : receiver = none := by simpa [hx] using method.symm
    rw [hx] at hpush
    obtain ⟨s', hm', hsp⟩ := hpush.moves hp hm (Moves.straight (n := 0) rfl) (by omega)
    exact ⟨s', hm', by simpa [hm'.sp, hm.sp] using hsp, .none⟩
  | some part =>
    obtain ⟨type, rfl⟩ : ∃ type, receiver = some type := by
      simpa [hx, Option.isSome_iff_exists] using method.symm
    rw [hx] at hpush
    obtain ⟨s', hm', hsp, hword⟩ := Machine.Runs.push hp hpush hm
    exact ⟨s', hm', by simpa using hsp, .some hword⟩

/-- The caller follows the layout of the signature. -/
theorem CallRun.agrees {img : Image} {x : CallCode} {structs : Structs} {s : Signature}
    (hp : img.Proper) (fits : x.Fits structs s) (known : img.code.At pc [.label x.function.label])
    (run : CallRun img.code x) (hm : run.reserving.Shows img ⟨run.reserving.pc, store⟩) :
    run.Agrees structs s (s.layout structs) := by
  have hroom : Moves 0 0 x.room (.ofNat (structs.words s.returns)) :=
    fits.room ▸ .straight (Emit.shift?_roomCode _ _)
  obtain ⟨n, n', hplace, hinner⟩ := fits.place
  obtain ⟨s₁, hm₁, hsp₁⟩ := run.reserve.moves hp hm hroom (by omega)
  obtain ⟨s₂, hm₂, hsp₂⟩ := run.receive.moves hp hm₁ hplace hinner.labels
  rw [← hm₁.sp, ← hm.sp] at hsp₁
  rw [← hm₂.sp, ← hm₁.sp, Int32.add_zero] at hsp₂
  have hm₂ : run.holding.Shows img ⟨run.holding.pc, run.holding.store⟩ :=
    Machine.shows_store hm₂.code hm₂.size
  obtain ⟨s₃, hm₃, hsp₃, hthis⟩ := run.receiver_pushed hp hm₂ fits.method
  obtain ⟨s₄, hm₄, hstart, hparams⟩ := Machine.passes hp fits.arguments run.pass hm₃ rfl
  obtain ⟨s₅, hm₅, hholds, hsp₅, hmemory⟩ := hm₄.enter hp run.there known run.enter
  have hbase : run.entered.sp = (run.passing x.arguments.length).sp + 1 := by
    rw [hm₅.sp, hsp₅, hm₄.sp]
  have hlast : run.entered.sp - 1 = s₄.registers .sp := by
    rw [hbase, hm₄.sp]
    grind
  rw [← hbase] at hstart hparams
  have hholding : run.holding.sp = run.entered.sp +
      .ofInt (-1 - s.argumentWords structs - s.receiver.elim 0 fun _ => 1) := by
    rw [Int32.ofInt_sub, Signature.argumentWords]
    grind
  refine ⟨?_, ⟨?_, ?_⟩, ?_, ?_, hparams, ⟨_, run.there.tail.tail.tail, ?_⟩, fun address hne => ?_⟩
  · rw [hm₅.pc]
    exact known
  · rw [Signature.layout, Int32.ofInt_sub _ (structs.words s.returns : Int), Int32.ofInt_eq_ofNat]
    grind
  · rw [← hsp₂, hholding]
    congr 2
    simp only [Signature.layout]
    omega
  · rw [Signature.layout]
    generalize x.receiver = receiver at hthis
    cases hr : s.receiver with
    | none =>
      rw [hr] at hthis
      cases hthis
      exact .none
    | some type =>
      rw [hr] at hthis hholding
      cases hthis with
      | some hword => exact .some (by rw [← hword, hholding]; rfl)
  · rw [← fits.arguments.length_eq]
    exact (length_paramOffsets structs s.params).symm
  · rw [hm₅.word?, hlast, if_pos hholds, hmemory, Store.memory_write, if_pos rfl,
      hp.labels _ _ run.there.tail.tail.tail]
  · rw [hm₅.word?, hm₄.word?, hmemory, Store.memory_write]
    by_cases haddress : img.Holds address
    · have hother : address.toInt ≠ (s₄.registers .sp).toInt :=
        fun he => hne (hlast ▸ Int32.toInt_inj.mp he)
      rw [if_pos haddress, if_pos haddress, if_neg hother]
    · rw [if_neg haddress, if_neg haddress]

/-! ### Leaving a function -/

/-- `s` stands in `t`, in any block, branch or loop of it. -/
inductive Statement.Within (s : Statement) : Statement → Prop
  | here : Within s s
  | block {span : Span} (member : t ∈ body) (deeper : Within s t) : Within s (.block span body)
  | ifThen {span : Span} (deeper : Within s yes) : Within s (.ifThen span test yes)
  | yes {span : Span} (deeper : Within s yes) : Within s (.ifThenElse span test yes no)
  | no {span : Span} (deeper : Within s no) : Within s (.ifThenElse span test yes no)
  | loop {span : Span} (deeper : Within s body) : Within s (.loop span test body)

namespace Assembly.At

variable {a b : Assembly}

theorem whole (a : Assembly) : a.At 0 a := ⟨[], [], by simp, rfl⟩

theorem trans (h : a.At i b) (h' : b.At j code) : a.At (i + j) code := by
  obtain ⟨before, after, rfl, rfl⟩ := h
  obtain ⟨before', after', rfl, rfl⟩ := h'
  exact ⟨before ++ before', after' ++ after, by simp, by simp⟩

theorem of_label (h : Assembly.At (.label l :: rest) i code)
    (hne : ∀ tail, code ≠ .label l :: tail) : Assembly.At rest i code := by
  obtain ⟨before, after, he, rfl⟩ := h
  cases before with
  | nil =>
    cases code with
    | nil => exact ⟨[], rest, rfl, rfl⟩
    | cons item code =>
      obtain ⟨rfl, -⟩ := List.cons.inj he
      exact absurd rfl (hne code)
  | cons item before =>
    obtain ⟨rfl, rfl⟩ := List.cons.inj he
    exact ⟨before, after, rfl, by simp [Item.size]⟩

end Assembly.At

/-- Code for statements does not start with the label of a function. -/
theorem Moves.ne_label (h : Moves n n' code w) (f : FunctionName) (tail : Assembly) :
    code ≠ .label f.label :: tail := by
  rintro rfl
  obtain ⟨depth, hflow⟩ := h.2 0
  generalize hl : f.label = l at hflow
  generalize (0 : Word) = d at hflow
  cases hflow with
  | cons first rest =>
    cases first with
    | straight h => simp [Item.shift?] at h
    | label => exact Label.code_ne_function _ f hl.symm

namespace Emit

open Assembly.At (whole)

variable {c : EmitContext} {u u' : EmitState}

def Includes (c : EmitContext) (code : Assembly) (s : Statement) : Prop :=
  ∃ v part v' i, statement c s v = .ok part v' ∧ code.At i part

theorem Includes.of_at (here : Assembly.At code i part) (h : Includes c part s) :
    Includes c code s := by
  obtain ⟨v, one, v', j, hone, hat⟩ := h
  exact ⟨v, one, v', _, hone, here.trans hat⟩

theorem inScope_part {emit : Emit Assembly} (run : inScope comment emit u = .ok code u') :
    ∃ v part v', emit v = .ok part v' ∧ Assembly.At code 0 part := by
  simp only [inScope, bind_ok, modifyFrame_ok, get_ok, modify_ok] at run
  obtain ⟨_, _, rfl, part, _, hpart, _, _, ⟨rfl, rfl⟩, _, _, rfl, run⟩ := run
  refine ⟨_, part, _, hpart, ?_⟩
  split at run
  · obtain ⟨rfl, rfl⟩ := pure_ok.mp run
    exact whole _
  · obtain ⟨rfl, rfl⟩ := pure_ok.mp run
    exact (whole _).left

theorem asBody_part {emit : Emit Assembly} (run : asBody st emit u = .ok code u') :
    ∃ v part v', emit v = .ok part v' ∧ Assembly.At code 0 part := by
  cases st with
  | block => exact ⟨u, code, u', run, whole _⟩
  | _ => exact inScope_part run

theorem statements_includes {ss : List Statement} (hmem : t ∈ ss)
    (run : statements c ss u = .ok code u') : Includes c code t := by
  induction ss generalizing u code u' with
  | nil => cases hmem
  | cons s ss ih =>
    simp only [statements, bind_ok, pure_ok] at run
    obtain ⟨first, _, hfirst, rest, _, hrest, rfl, rfl⟩ := run
    rcases List.mem_cons.mp hmem with rfl | hmem
    · exact ⟨_, first, _, _, hfirst, (whole _).left⟩
    · exact (ih hmem hrest).of_at (whole _).right

theorem asBody_includes (ih : ∀ {u u' code}, statement c t u = .ok code u' → Includes c code s)
    (run : asBody t (statement c t) u = .ok code u') : Includes c code s := by
  obtain ⟨_, part, _, hpart, here⟩ := asBody_part run
  exact (ih hpart).of_at here

/-- Code for a statement includes code for all statements in it. -/
theorem statement_includes {s t : Statement} (h : s.Within t)
    (run : statement c t u = .ok code u') : Includes c code s := by
  induction h generalizing u code u' with
  | here => exact ⟨u, code, u', 0, run, whole _⟩
  | block member deeper ih =>
    obtain ⟨_, _, _, hbody, here⟩ := inScope_part run
    obtain ⟨_, _, _, _, hone, here'⟩ := statements_includes member hbody
    exact (ih hone).of_at (here.trans here')
  | ifThen deeper ih =>
    simp only [statement, bind_ok, freshLabel_ok, pure_ok] at run
    obtain ⟨_, _, ⟨rfl, rfl⟩, test, _, htest, yes, _, hyes, rfl, rfl⟩ := run
    exact (asBody_includes ih hyes).of_at (whole _).left.right
  | yes deeper ih =>
    simp only [statement, bind_ok, freshLabel_ok, pure_ok] at run
    obtain ⟨_, _, ⟨rfl, rfl⟩, test, _, htest, yes, _, hyes, _, _, ⟨rfl, rfl⟩, no, _, hno,
      rfl, rfl⟩ := run
    exact (asBody_includes ih hyes).of_at (whole _).left.left.right
  | no deeper ih =>
    simp only [statement, bind_ok, freshLabel_ok, pure_ok] at run
    obtain ⟨_, _, ⟨rfl, rfl⟩, test, _, htest, yes, _, hyes, _, _, ⟨rfl, rfl⟩, no, _, hno,
      rfl, rfl⟩ := run
    exact (asBody_includes ih hno).of_at (whole _).left.right.tail.tail
  | loop deeper ih =>
    simp only [statement, bind_ok, freshLabel_ok, pure_ok] at run
    obtain ⟨_, _, ⟨rfl, rfl⟩, _, _, ⟨rfl, rfl⟩, test, _, htest, looped, _, hlooped, rfl, rfl⟩ := run
    exact (asBody_includes ih hlooped).of_at (whole _).left.right

theorem function_includes {statics : List StaticVariable} {signature : Signature}
    (known : c.functions.get? name = some signature)
    (run : function c statics name decl u = .ok code u')
    (hmem : t ∈ decl.body) (h : s.Within t) : Includes (c.inside signature) code s := by
  simp only [function, known] at run
  split at run
  · simp only [bind_ok, fault_ok, false_and, exists_false] at run
  · simp only [enterFrame, bind_ok, modify_ok] at run
    obtain ⟨_, _, rfl, block, _, hblock, run⟩ := run
    have hincludes : Includes (c.inside signature) block s :=
      statement_includes (.block hmem h) hblock
    split at run
    · simp only [bind_ok, pure_ok] at run
      obtain ⟨_, _, _, rfl, rfl⟩ := run
      exact hincludes.of_at (whole _).left.tail
    · simp only [bind_ok, pure_ok] at run
      obtain ⟨_, _, _, rfl, rfl⟩ := run
      exact hincludes.of_at (whole _).left.tail

/-- The code of a `return` inside a function: its value, and what is left to do then. -/
theorem return_parts {signature : Signature}
    (run : statement (c.inside signature) (.ret span value) u = .ok code u') :
    ∃ pushed x y k source, code = pushed ++
        (resultCode x (c.structs.words signature.returns) (.general k) (.general source) ++
          unwindCode y (.general k)) ++
        [line (.jmp (.register (.general k)))] ∧
      value.elim (pushed = []) fun e => ∃ v, expr (c.inside signature) e u = .ok pushed v := by
  simp only [statement, returnStatement, bind_ok] at run
  obtain ⟨type, v, ht, pushed, w, hv, run⟩ := run
  have hvalue : value.elim (pushed = []) fun e => ∃ v, expr (c.inside signature) e u =
      .ok pushed v := by
    cases value with
    | none => exact (pure_ok.mp hv).1.symm
    | some e =>
      obtain ⟨-, rfl⟩ := typeHere_ok.mp ht
      exact ⟨w, hv⟩
  have hr : (c.inside signature).returns = some signature.returns := rfl
  cases hac : (c.inside signature).structs.accepts signature.returns type with
  | false => simp [hr, hac, bind_ok] at run
  | true =>
    simp only [hr, hac, ↓reduceIte, bind_ok, modifyFrame_ok, pure_ok] at run
    obtain ⟨result, w₁, hresult, leave, w₂, hleave, _, _, rfl, rfl, rfl⟩ := run
    obtain ⟨slot, k, source, hslot, hfree, rfl, rfl⟩ := copyResult_ok hresult
    obtain ⟨k', hk, rfl, rfl⟩ := leaveFunction_ok hleave
    by_cases hw : c.structs.words signature.returns = 0
    · refine ⟨pushed, 0, w₂.frame.depth, k', 0, ?_, hvalue⟩
      simp [hw, resultCode, leaveCode_eq, EmitContext.inside]
    · obtain rfl : k = k' := Option.some.inj ((hfree hw).1.symm.trans hk)
      refine ⟨pushed, slot - w₂.frame.depth, w₂.frame.depth, k, source, ?_, hvalue⟩
      simp [leaveCode_eq, EmitContext.inside]

end Emit

/-- A run of a function from its entry, with `sp` at `base`, to behind the value of a `return` that
stands `site` words into its code. The value and all that the caller left are in memory still, below
`top`. -/
structure ReturnRun (a all : Assembly) (site : Nat) (slot : Int) (words : Nat) where
  start : Machine
  pushed : Machine
  base : Int
  top : Int
  back : Nat
  there : a.At start.pc all
  entry : start.sp = .ofInt base
  run : start.Normally a start.pc (start.pc + all.size) pushed
  arrived : pushed.pc = start.pc + site
  value : pushed.sp = .ofInt top
  room : 0 ≤ base + slot
  above : base + words ≤ top
  fits : top ≤ pushed.memory.size ∧ top ≤ 2 ^ 31
  address : pushed.word? (.ofInt (base - 1)) = some (.ofNat back)
  inside : back ≤ a.size

/-- The machine goes back to the caller with the result in the return slot, unless its budget is
spent. -/
def ReturnRun.GoesBack (run : ReturnRun a all site slot words) : Prop :=
  ∃ n, (∃ m, run.pushed.runFor n = .inl m ∧
    run.pushed.Unwound m run.base slot run.top words run.back) ∨
    ∃ pc budget, run.pushed.budget = some budget ∧
      run.pushed.runFor n = .inr (.error (.stepBudgetExhausted pc budget))

/-! ### A call without jumps -/

theorem Assembly.isSome_shift?_append {a b : Assembly} :
    (shift? (a ++ b)).isSome ↔ (shift? a).isSome ∧ (shift? b).isSome := by
  induction a with
  | nil => simp
  | cons item a ih => cases h : item.shift? <;> simp_all

namespace Machine

variable {img : Image} {m m' : Machine} {front part back : Assembly} {s : Store}

def after (m : Machine) (n : Nat) : Machine := (m.runFor n).getLeft?.getD m

theorem runFor_add (h : m.runFor (n + k) = .inl m') :
    m.runFor n = .inl (m.after n) ∧ (m.after n).runFor k = .inl m' := by
  induction n generalizing m with
  | zero => exact ⟨rfl, by simpa [after, runFor] using h⟩
  | succ n ih =>
    rw [Nat.succ_add_eq_add_succ, Nat.add_succ] at h
    obtain ⟨m₁, hstep, h⟩ := runFor_succ_eq_inl h
    obtain ⟨hn, hk⟩ := ih h
    have hsucc : m.runFor (n + 1) = m₁.runFor n := by rw [runFor, hstep]
    rw [after, hsucc, hn]
    exact ⟨rfl, hk⟩

/-- Each part of code without jumps runs when its turn comes. -/
theorem Runs.of_part (hp : img.Proper) (hm : m.Shows img ⟨m.pc, s⟩)
    (here : img.code.At m.pc (front ++ part ++ back))
    (straight : (front ++ part ++ back).shift?.isSome)
    (done : m.runFor (front ++ part ++ back).instructions.length = .inl m') :
    (m.after front.instructions.length).Runs img.code part
      (m.after (front ++ part).instructions.length) := by
  have hlength (a b : Assembly) : (a ++ b).instructions.length = a.instructions.length +
      b.instructions.length := by
    simp [Assembly.instructions]
  rw [Assembly.isSome_shift?_append, Assembly.isSome_shift?_append] at straight
  obtain ⟨w, hfront⟩ := Option.isSome_iff_exists.mp straight.1.1
  obtain ⟨w', hpart⟩ := Option.isSome_iff_exists.mp straight.1.2
  rw [hlength] at done
  obtain ⟨hboth, -⟩ := runFor_add done
  rw [hlength] at hboth ⊢
  obtain ⟨hfirst, hsecond⟩ := runFor_add hboth
  have hruns := Runs.of_runFor hp hm here.left.left hfront hfirst
  obtain ⟨s₁, hm₁, -⟩ := hruns.moves hp hm (.straight (n := 0) hfront) (by omega)
  exact Runs.of_runFor hp hm₁ (hruns.done ▸ here.left.right) hpart hsecond

end Machine

def CallCode.lead (x : CallCode) : Assembly := x.room ++ (x.place ++ x.this) ++ x.arguments.flatten

/-- Where nothing in front of the entry jumps, the call runs by itself. -/
theorem CallRun.of_straight {img : Image} {x : CallCode} {m m' : Machine} {s : Store}
    (hp : img.Proper) (hm : m.Shows img ⟨m.pc, s⟩)
    (here : img.code.At m.pc (x.lead ++ Emit.enterCode x.back x.function))
    (straight : x.lead.shift?.isSome) (done : m.runFor (x.lead.instructions.length + 3) = .inl m') :
    ∃ run : CallRun img.code x, run.reserving = m ∧ run.entered = m' := by
  obtain ⟨hlead, henter⟩ := Machine.runFor_add done
  have key (front part back : Assembly) (split : front ++ part ++ back = x.lead) :
      (m.after front.instructions.length).Runs img.code part
      (m.after (front ++ part).instructions.length) :=
    Machine.Runs.of_part hp hm (split ▸ here.left) (split ▸ straight) (split ▸ hlead)
  have hall : x.room ++ x.place ++ x.this ++ x.arguments.flatten = x.lead := by simp [CallCode.lead]
  refine ⟨⟨m, m.after x.room.instructions.length, m.after (x.room ++ x.place).instructions.length,
    fun i => m.after (x.room ++ x.place ++ x.this ++
      (x.arguments.take i).flatten).instructions.length, m',
    key [] x.room (x.place ++ x.this ++ x.arguments.flatten) (by simp [CallCode.lead]),
    key x.room x.place (x.this ++ x.arguments.flatten) (by simp [CallCode.lead]),
    by simpa using key (x.room ++
      x.place) x.this x.arguments.flatten hall, fun i part hi => ?_, ?_, ?_⟩, rfl, rfl⟩
  · obtain ⟨hlt, rfl⟩ := List.getElem?_eq_some_iff.mp hi
    have hnext : (x.arguments.take (i + 1)).flatten = (x.arguments.take i).flatten ++
        x.arguments[i] := by
      rw [List.take_add_one, hi, List.flatten_append, Option.toList_some, List.flatten_singleton]
    have hsplit := congrArg List.flatten (List.take_append_drop (i + 1) x.arguments)
    rw [hnext, ← List.append_assoc]
    refine key _ _ (x.arguments.drop (i + 1)).flatten ?_
    rw [← hall, ← hsplit, List.flatten_append, hnext]
    simp
  · have hwhole := key [] x.lead [] (by simp)
    simp only [List.take_length, hall]
    exact hwhole.done ▸ here.right
  · simpa only [List.take_length, hall] using henter

/-! ### The convention -/

open Emit in
/-- Caller and callee agree on the words below `sp` at entry, for every call that is emitted, and
every `return` in the callee undoes the call. -/
theorem call_convention (parsed : Program.ofSource source = .ok p)
    (compiled : Assembly.ofSource source = .ok a)
    (assembled : Bytecode.ofScript source file = .ok b) (size : a.size < 2 ^ 31)
    (serves : EmitContext.Serves c p) (statics : List StaticVariable) :
    (∀ span callee args st code st', expr c (.call span callee args) st = .ok code st' →
      ∃ target x l, Typing.callTarget (c.at st.frame) callee = .ok target ∧ CallCode.code x = code ∧
        x.Of c callee target args st ∧
        (Frame.ofSignature c.structs statics target.signature).LaysOut target.signature l ∧
        l.Contiguous c.structs target.signature ∧
        ∀ run : CallRun a x, run.reserving.code = b → run.Agrees c.structs target.signature l) ∧
    (∀ name decl signature st all st', c.functions.get? name = some signature →
      function c statics name decl st = .ok all st' →
      (∀ span value, (∃ t ∈ decl.body, (Statement.ret span value).Within t) →
        Includes (c.inside signature) all (.ret span value)) ∧
      ∀ span value u code u' i, statement (c.inside signature) (.ret span value) u = .ok code u' →
        all.At i code → ∃ (pushed : Assembly) (slot : Int), pushed <+: code ∧
          (value.elim (pushed = []) fun e => ∃ v, expr (c.inside signature) e u = .ok pushed v) ∧
          (Frame.ofSignature c.structs statics signature).returnSlotOffset? = some slot ∧
          ∀ run : ReturnRun a all (i + pushed.size) slot (c.structs.words signature.returns),
            run.start.code = b → run.GoesBack) := by
  have hp := Program.ofSource_wellNamed parsed
  have hc := serves.sound hp
  have hprogram := Assembly.ofProgram_of_source parsed compiled
  have complete := Assembly.ofProgram_complete hp hprogram
  obtain rfl := Except.ok.inj ((Bytecode.ofScript_words parsed compiled file).symm.trans assembled)
  have hproper : ∀ memoryWords, Image.Proper ⟨a, a.value, memoryWords⟩ :=
    fun _ => complete.proper rfl size
  refine ⟨?_, ?_⟩
  · rintro span callee args ⟨frame, pool, ⟨n⟩⟩ code st' hrun
    obtain ⟨target, x, resolved, known, hcode, hof, hfits⟩ := call_parts hc hrun
    have hdistinct := Functions.ofProgram_distinct serves.functions known
    refine ⟨target, x, target.signature.layout c.structs, resolved, hcode, hof,
      Frame.ofSignature_laysOut hdistinct, EntryLayout.contiguous_layout _ _, fun run hb => ?_⟩
    have hm : run.reserving.Shows ⟨a, a.value, _⟩ ⟨run.reserving.pc, _⟩ :=
      Machine.shows_store (by simp [hb, Bytecode.ofList]) rfl
    obtain ⟨structs, functions, vars, hs, hf, -, emitted⟩ := ofProgram_emits hp hprogram
    obtain rfl := Except.ok.inj (serves.structs.symm.trans hs)
    obtain rfl := Except.ok.inj (serves.functions.symm.trans hf)
    obtain ⟨_, -, pc, _, _, _, hfunction, here⟩ :=
      emitted.function_at (Functions.ofProgram_holds hf) known
    obtain ⟨rest, rfl⟩ := hfunction.label
    exact run.agrees (hproper _) hfits (hof.function ▸ here.head) hm
  · intro name decl signature st all st' known hfunction
    refine ⟨fun span value ⟨t, hmem, hwithin⟩ => function_includes known hfunction hmem hwithin, ?_⟩
    intro span value u code u' i hreturn here
    obtain ⟨pushed, x, y, k, source, hcode, hvalue⟩ := return_parts hreturn
    have hposition := Frame.returnSlot_ofSignature c.structs statics signature
    refine ⟨pushed, (signature.layout c.structs).slot,
      ⟨_, by rw [hcode, List.append_assoc]⟩, hvalue,
      (Frame.ofSignature_laysOut (Functions.ofProgram_distinct serves.functions known)).slot,
      fun run hb => ?_⟩
    obtain ⟨frame, pool, ⟨n⟩⟩ := st
    obtain ⟨_, n', -, hemits⟩ := function_emits hc hfunction
    obtain ⟨rest, w, rfl, hreturns⟩ := hemits.returns known hposition
    obtain ⟨frame, pool, ⟨j⟩⟩ := u
    obtain ⟨_, _, -, -, hemitted⟩ := statement_emits (hc.inside signature) _ _ _ _ _ _ hreturn
    obtain ⟨before, after, hsplit, hbefore⟩ := here.of_label (hemitted.moves.ne_label name)
    have hm : run.start.Shows ⟨a, a.value, _⟩ ⟨run.start.pc, _⟩ :=
      Machine.shows_store (by simp [hb, Bytecode.ofList]) rfl
    have hsite : rest = (before ++ pushed) ++
      (resultCode x (c.structs.words signature.returns) (.general k)
        (.general source) ++ unwindCode y (.general k)) ++
        line (.jmp (.register (.general k))) :: after := by
      simp [hsplit, hcode]
    refine hreturns.unwinds (hproper _) run.there.tail hsite hm (hm.sp.symm.trans run.entry) ?_ ?_
      run.value run.room (EntryLayout.slot_below _ _) run.above run.fits run.address run.inside
    · simpa [Item.size] using run.run
    · simpa [Item.size, hbefore] using run.arrived

def SourceText.picksLast : SourceText := .ofString
  "struct P \x7b int x; int y; func int last(P q, int n) \x7b return n; \x7d \x7d static P p; p.last(p, 3);"

def Emit.result? {α : Type} (emit : Emit α) (s : EmitState) : Option (α × EmitState) :=
  match emit s with
  | .ok a s' => some (a, s')
  | .error _ _ => none

theorem Emit.result?_eq_some {emit : Emit α} : emit.result? s = some x ↔ emit s = .ok x.1 x.2 := by
  obtain ⟨a, s'⟩ := x
  rw [result?]
  cases emit s <;> simp

theorem Emit.of_result?_bind {emit : Emit α} {f : α × EmitState → Option β}
    (h : (emit.result? s >>= f) = some b) : ∃ x, emit s = .ok x.1 x.2 ∧ f x = some b := by
  obtain ⟨x, hx, hf⟩ := Option.bind_eq_some_iff.mp h
  exact ⟨x, result?_eq_some.mp hx, hf⟩

theorem Assembly.At.of_slice {a : Assembly} (h : (a.drop k).take code.length = code) :
    a.At (a.offset k) code := by
  refine ⟨a.take k, a.drop (k + code.length), ?_, rfl⟩
  have hsplit := List.take_append_drop code.length (a.drop k)
  rw [h, List.drop_drop] at hsplit
  rw [List.append_assoc, hsplit, List.take_append_drop]

structure Build where
  program : Program
  context : EmitContext
  statics : List StaticVariable
  code : Assembly

def Build.ofSource? (source : SourceText) : Option Build := do
  let p ← (Program.ofSource source).toOption
  let structs ← (Structs.ofDecls p.structs).toOption
  let functions ← (Functions.ofProgram structs p).toOption
  let statics ← (StaticVariable.declare structs [] p.statics).toOption
  let code ← (Assembly.ofProgram p).toOption
  return ⟨p, ⟨structs, functions, .collect p, none⟩, statics, code⟩

theorem Build.of_some {build : Build} (h : ofSource? source = some build) :
    Program.ofSource source = .ok build.program ∧ build.context.Serves build.program ∧
      Assembly.ofSource source = .ok build.code ∧ Assembly.Complete build.program build.code := by
  obtain ⟨p, parsed, h⟩ := of_toOption_bind h
  obtain ⟨structs, hs, h⟩ := of_toOption_bind h
  obtain ⟨functions, hf, h⟩ := of_toOption_bind h
  obtain ⟨statics, -, h⟩ := of_toOption_bind h
  obtain ⟨code, hcode, h⟩ := of_toOption_bind h
  obtain rfl := Option.some.inj h
  have compiled : Assembly.ofSource source = .ok code := by
    simp [Assembly.ofSource, parsed, bind_eq_ok, mapError_eq_ok, hcode]
  exact ⟨parsed, ⟨hs, hf⟩, compiled,
    Assembly.ofProgram_complete (Program.ofSource_wellNamed parsed) hcode⟩

open Emit Assembly in
theorem call_convention_picksLast : ∃ p a b c statics, Program.ofSource .picksLast = .ok p ∧
    Assembly.ofSource .picksLast = .ok a ∧ Bytecode.ofScript .picksLast none = .ok b ∧
    a.size < 2 ^ 31 ∧ EmitContext.Serves c p ∧
    (∃ span callee args st code st' x l, ∃ target : CallTarget, expr c (.call span callee args) st =
      .ok code st' ∧
      CallCode.code x = code ∧ (Frame.ofSignature c.structs statics target.signature).LaysOut
      target.signature l ∧
      ∃ run : CallRun a x, run.reserving.code = b ∧ run.Agrees c.structs target.signature l) ∧
    ∃ name decl signature st all st' site slot, c.functions.get? name = some signature ∧
      function c statics name decl st = .ok all st' ∧
      ∃ run : ReturnRun a all site slot (c.structs.words signature.returns), run.start.code = b ∧
      run.GoesBack := by
  have hrun : (do
      let build ← Build.ofSource? .picksLast
      let c := build.context
      let callee : Expr := .field ⟨0, 0⟩ (.var ⟨0, 0⟩ "p") ⟨"last", ⟨0, 0⟩, ⟨0, 0⟩⟩
      let args : List Expr := [.var ⟨0, 0⟩ "p", .integer ⟨0, 0⟩ 3]
      let st : EmitState := ⟨.topLevel build.statics, .empty, .start⟩
      let code ← (expr c (.call ⟨0, 0⟩ callee args)).result? st
      let target ← (Typing.callTarget (c.at st.frame) callee).toOption
      let saves ← (saveAll st.registers.live).result? st
      let room ← (reserve (c.structs.words target.signature.returns)
        (c.structs.text target.signature.returns)).result? saves.2
      let this ← (pushReceiver (receiver c callee)).result? room.2
      let args ← (args.mapM (expr c)).result? this.2
      let entry ← build.program.definitions.head?
      let signature ← c.functions.get? entry.1
      let all ← (function c build.statics entry.1 entry.2).result? st
      let u : EmitState :=
        ⟨(Frame.ofSignature c.structs build.statics signature).enter, .empty, .start⟩
      let value ← (expr (c.inside signature) (.var ⟨0, 0⟩ "n")).result? u
      let ret ← (statement (c.inside signature) (.ret ⟨0, 0⟩ (some (.var ⟨0, 0⟩ "n")))).result? u
      let a := build.code
      let b := Bytecode.ofList (a.words a.value)
      let m ← ((Machine.load b ⟨16, none⟩).runFor 1).getLeft?
      let lead := room.1 ++ this.1 ++ args.1.flatten
      let m₁ ← (m.runFor (instructions lead).length.succ.succ.succ).getLeft?
      (m₁.runFor (instructions value.1).length).getLeft?.filter fun (m₂ : Machine) =>
        decide (saves.1 = [] ∧
        (a.drop 2).take code.1.length = code.1 ∧ a.offset 2 = m.pc ∧ (shift? lead).isSome ∧
        (a.drop 24).take all.1.length = all.1 ∧ a.offset 24 = m₁.pc ∧ (shift? value.1).isSome ∧
        (all.1.drop 1).take ret.1.length = ret.1 ∧ m₁.sp = 8 ∧ m₂.sp = 9 ∧ m₂.memory.size = 16 ∧
        m.code = b ∧ m₁.code = b ∧ c.structs.words signature.returns = 1 ∧
        m₂.word? 7 = some 50 ∧ all.1.offset 1 = 0 ∧ a.size = 113 ∧
        (Frame.ofSignature c.structs build.statics signature).returnSlotOffset? =
        some (-6))).isSome = true := by
    decide +kernel
  obtain ⟨m₂, hrun⟩ := Option.isSome_iff_exists.mp hrun
  obtain ⟨⟨p, c, statics, a⟩, hbuild, hrun⟩ := Option.bind_eq_some_iff.mp hrun
  dsimp only at hrun
  obtain ⟨code, hcode, hrun⟩ := of_result?_bind hrun
  obtain ⟨target, htarget, hrun⟩ := of_toOption_bind hrun
  obtain ⟨saves, hsaves, hrun⟩ := of_result?_bind hrun
  obtain ⟨room, hroom, hrun⟩ := of_result?_bind hrun
  obtain ⟨this, hthis, hrun⟩ := of_result?_bind hrun
  obtain ⟨args, hargs, hrun⟩ := of_result?_bind hrun
  obtain ⟨entry, -, hrun⟩ := Option.bind_eq_some_iff.mp hrun
  obtain ⟨signature, known, hrun⟩ := Option.bind_eq_some_iff.mp hrun
  obtain ⟨all, hall, hrun⟩ := of_result?_bind hrun
  obtain ⟨value, hvalue, hrun⟩ := of_result?_bind hrun
  obtain ⟨ret, hret, hrun⟩ := of_result?_bind hrun
  obtain ⟨m, hm, hrun⟩ := Option.bind_eq_some_iff.mp hrun
  obtain ⟨m₁, hm₁, hrun⟩ := Option.bind_eq_some_iff.mp hrun
  obtain ⟨hm₂, hrun⟩ := Option.filter_eq_some_iff.mp hrun
  rw [Sum.getLeft?_eq_some_iff] at hm hm₁ hm₂
  obtain ⟨hnone, hcall, hpc, hlead, hfunction, hpc₁, hstraight, hreturn,
    hsp₁, hsp₂, hmemory, hb, hb₁, hwords, haddress, hlabel, hsize, hslot⟩ := of_decide_eq_true hrun
  obtain ⟨parsed, serves, compiled, complete⟩ := Build.of_some hbuild
  have assembled := Bytecode.ofScript_words parsed compiled none
  have hlt : a.size < 2 ^ 31 := by omega
  have hproper (m : Machine) : Image.Proper ⟨a, a.value, m.memory.size⟩ := complete.proper rfl hlt
  obtain ⟨calls, returns⟩ := call_convention parsed compiled assembled hlt serves statics
  refine ⟨p, a, _, _, statics, parsed, compiled, assembled, hlt, serves, ?_, ?_⟩
  · obtain ⟨target', x, l, htarget', hx, ⟨-, s₁, s₂, s₃, s₄, s₅, e₁, e₂, e₃, e₄, e₅, -⟩,
      hlays, -, hagrees⟩ :=
      calls _ _ _ _ _ _ hcode
    obtain rfl := Except.ok.inj (htarget.symm.trans htarget')
    obtain ⟨hsaves, rfl⟩ := EStateM.Result.ok.inj (hsaves.symm.trans e₁)
    obtain ⟨hroom, rfl⟩ := EStateM.Result.ok.inj (hroom.symm.trans e₂)
    obtain ⟨hthis, rfl⟩ := EStateM.Result.ok.inj (hthis.symm.trans e₄)
    obtain ⟨hargs, rfl⟩ := EStateM.Result.ok.inj (hargs.symm.trans e₅)
    have here := Assembly.At.of_slice hcall
    rw [hroom, hthis, hargs] at hlead hm₁
    have hsplit : code.1 = x.lead ++ enterCode x.back x.function ++ x.rest := by
      rw [← hx, CallCode.code, ← hsaves, hnone]
      rfl
    rw [hsplit, hpc] at here
    obtain ⟨run, hfrom, -⟩ :=
      CallRun.of_straight (hproper m) (Machine.shows_store (by rw [hb]; rfl) rfl)
      here.left hlead hm₁
    exact ⟨_, _, _, _, _, _, x, l, target, hcode, hx, hlays, run, hfrom ▸ hb,
      hagrees run (hfrom ▸ hb)⟩
  · obtain ⟨-, hgoes⟩ := returns _ _ _ _ _ _ known hall
    obtain ⟨pushed, slot, ⟨rest, hprefix⟩, ⟨v, hpushed⟩, hslot', hback⟩ :=
      hgoes _ _ _ _ _ _ hret (Assembly.At.of_slice hreturn)
    obtain ⟨rfl, -⟩ := EStateM.Result.ok.inj (hvalue.symm.trans hpushed)
    have there := Assembly.At.of_slice hfunction
    have inside := Assembly.At.of_slice hreturn
    rw [hpc₁] at there
    rw [hlabel, ← hprefix] at inside
    obtain ⟨w, hw⟩ := Option.isSome_iff_exists.mp hstraight
    have hruns := Machine.Runs.of_runFor (hproper m₁) (Machine.shows_store (by rw [hb₁]; rfl) rfl)
      (there.trans inside).left hw hm₂
    have hfits := inside.left.size_le
    obtain rfl := Option.some.inj (hslot.symm.trans hslot')
    let run : ReturnRun a all.1 (all.1.offset 1 + value.1.size) (-6)
      (c.structs.words signature.returns) :=
      ⟨m₁, m₂, 8, 9, 50, there, hsp₁, hruns.run.mono (by omega) (by omega),
        by rw [hruns.done]; omega, hsp₂, by omega, by omega, by omega, haddress, by omega⟩
    exact ⟨_, _, _, _, _, _, _, _, known, hall, run, hb₁, hback run hb₁⟩

end WordScript
