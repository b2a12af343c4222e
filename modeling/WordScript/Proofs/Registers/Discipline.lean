import WordScript.Proofs.Calls.Convention
import WordScript.Proofs.Frames.Disjoint
import WordScript.Proofs.Registers.Restores
import WordScript.Proofs.Registers.Supply

/-!
# The discipline of registers

A register that is in use where code for an expression starts is in use where it ends, and has been
set by nothing but calls, which read it back from where they wrote it (`Emit.Respects`). So an
address stays where it is while the value for it is computed. Between statements no register is in
use (`register_discipline`).
-/

namespace WordScript

/-! ### Lines that leave registers alone -/

def Item.target? : Item → Option Register
  | .instruction i _ => i.target?
  | .static .. | .label _ | .comment _ => none

namespace Emit

section
variable {comment : String} {target source : Register} {value : Arg}

@[simp] theorem target?_line : (line i).target? = i.target? := rfl
@[simp] theorem target?_noted : (noted i comment).target? = i.target? := rfl
@[simp] theorem target?_label : (Item.label l).target? = none := rfl
@[simp] theorem target?_mov : Instruction.target? (.mov target value) = some target := rfl
@[simp] theorem target?_arith : Instruction.target? (.arith kind op target value) = some target :=
  rfl
@[simp] theorem target?_increase : (increase target value).target? = some target := rfl
@[simp] theorem target?_decrease : (decrease target value).target? = some target := rfl
@[simp] theorem target?_memRead : Instruction.target? (.memRead target source) = some target := rfl
@[simp] theorem target?_memWrite : Instruction.target? (.memWrite target value) = none := rfl
@[simp] theorem target?_memCopy : Instruction.target? (.memCopy target source) = none := rfl
@[simp] theorem target?_cmp : Instruction.target? (.cmp kind target value) = none := rfl
@[simp] theorem target?_branch : Instruction.target? (.branch relation l) = none := rfl
@[simp] theorem target?_jmp : Instruction.target? (.jmp value) = none := rfl

end

def Spares (live : List Register) (code : Assembly) : Prop :=
  ∀ item ∈ code, ∀ r ∈ item.target?, r ∉ live

section
variable {live : List Register} {a b : Assembly}

@[simp] theorem spares_nil : Spares live [] := by simp [Spares]

@[simp] theorem spares_cons : Spares live (item :: a) ↔ (∀ r ∈ item.target?, r ∉ live) ∧
    Spares live a := by simp [Spares]

@[simp] theorem spares_append : Spares live (a ++ b) ↔ Spares live a ∧ Spares live b := by
  simp only [Spares, List.mem_append]
  grind

theorem spares_replicate {block : Assembly} (h : Spares live block) (n : Nat) :
    Spares live (List.replicate n block).flatten := by
  intro item hitem
  obtain ⟨part, hpart, hitem⟩ := List.mem_flatten.mp hitem
  exact h item ((List.mem_replicate.mp hpart).2 ▸ hitem)

theorem spares_enterCode (back : Label) (f : FunctionName) (hsp : .sp ∉ live) :
    Spares live (enterCode back f) := by
  simp [enterCode, hsp]

variable (hsp : .sp ∉ live)
include hsp

theorem spares_lowerSp (n : Nat) : Spares live (lowerSp n) := by
  by_cases h : n = 0 <;> simp [lowerSp, h, hsp]

theorem spares_pushCode (value : Arg) : Spares live (pushCode value) := by simp [pushCode, hsp]

theorem spares_relationCode (relation : Relation) (yes done : Label) :
    Spares live (relationCode relation yes done) := by
  simp [relationCode, hsp]

theorem spares_logicCode (op : LogicOp) (decided done : Label) :
    Spares live (logicCode op decided done) := by
  simp [logicCode, hsp]

theorem spares_saveCode (saved : List Register) : Spares live (saveCode saved) := by
  induction saved with
  | nil => simp [saveCode]
  | cons r saved ih => simpa [SavingCall.saveCode_cons, hsp] using ih

theorem spares_roomCode (words : Nat) (type : String) : Spares live (roomCode words type) := by
  by_cases h : words = 0 <;> simp [roomCode, h, hsp]

theorem spares_flatMap_lowerSp (sizes : List Nat) : Spares live (sizes.flatMap lowerSp) := by
  induction sizes with
  | nil => simp
  | cons n sizes ih => simpa using ⟨spares_lowerSp hsp n, ih⟩

variable {r : Register} (hr : r ∉ live)
include hr

theorem spares_popCode : Spares live (popCode r) := by simp [popCode, hsp, hr]

theorem spares_pushCopyCode (n : Nat) : Spares live (pushCopyCode r n) :=
  spares_replicate (by simp [hsp, hr]) n

theorem spares_copyWords (n : Nat) :
    Spares live (copyWords r .sp n) ∧ Spares live (copyWords .sp r n) :=
  ⟨spares_replicate (by simp [hsp, hr]) n, spares_replicate (by simp [hsp, hr]) n⟩

theorem spares_store (n : Nat) : Spares live (store n r) := by
  simp [store, hsp, (spares_copyWords hsp hr n).1]

theorem spares_testCode (type : ValueType) (relation : Relation) (l : Label) :
    Spares live (testCode r type relation l) := by
  simp [testCode, zeroTest, spares_popCode hsp hr]

theorem spares_negateCode (type : ValueType) : Spares live (negateCode type r) := by
  simp [negateCode, spares_popCode hsp hr, spares_pushCode hsp, hr]

theorem spares_selectCode (words : Nat) (field : Field) (n : Nat) :
    Spares live (selectCode words field r n) := by
  by_cases h : field.offset = 0 <;>
    simp [selectCode, h, spares_lowerSp hsp, spares_pushCopyCode hsp hr, hr]

omit hsp in
theorem spares_fieldCode (name : String) (offset : Nat) :
    Spares live (fieldCode name offset r) := by
  by_cases h : offset = 0 <;> simp [fieldCode, h, hr]

omit hsp in
theorem spares_pointAt (location : Location) (comment : String) :
    Spares live (pointAt r location comment) := by
  cases location <;> simp [pointAt, hr]

variable {q : Register} (hq : q ∉ live)
include hq

theorem spares_arithmeticCode (kind : NumKind) (op : ArithmeticOp) :
    Spares live (arithmeticCode kind op r q) := by
  simp [arithmeticCode, spares_popCode hsp hr, spares_popCode hsp hq, spares_pushCode hsp, hr]

theorem spares_updateCode (kind : NumKind) (op : ArithmeticOp) (address : Register) :
    Spares live (updateCode kind op address r q) := by
  simp [updateCode, spares_popCode hsp hr, spares_pushCode hsp, hq]

end

/-! ### Registers in use -/

end Emit

def Assembly.Sets (a : Assembly) (i : Nat) (r : Register) : Prop :=
  ∃ item, a[i]? = some item ∧ item.target? = some r

theorem Assembly.Sets.of_append {a b : Assembly} (h : (a ++ b).Sets i r) :
    a.Sets i r ∨ ∃ k, i = a.length + k ∧ b.Sets k r := by
  obtain ⟨item, hi, ht⟩ := h
  rcases Nat.lt_or_ge i a.length with hlt | hge
  · rw [List.getElem?_append_left hlt] at hi
    exact .inl ⟨item, hi, ht⟩
  · rw [List.getElem?_append_right hge] at hi
    exact .inr ⟨i - a.length, by omega, item, hi, ht⟩

/-- This is the code of a call with these registers in use. -/
def SavingCall.Of (x : SavingCall) (c : EmitContext) : Prop :=
  ∃ frame pool n span callee args type n',
  Emit.Emits c frame pool n (.value (.call span callee args) type) x.code n' ∧ x.live = pool.live

namespace Emit

/-- On line `i`, a call in the code reads the register `r` from where it wrote it. -/
def Restores (c : EmitContext) (code : Assembly) (i : Nat) (r : Register) : Prop :=
  ∃ before x after j,
  code = before ++ SavingCall.code x ++ after ∧ x.Of c ∧ x.Mirrored ∧ x.live[j]? = some r ∧
  i = before.length + x.restoreLine j

/-- No line of the code sets a register in `live`, except where a call restores it. -/
def Respects (c : EmitContext) (live : List Register) (code : Assembly) : Prop :=
  ∀ i r, code.Sets i r → r ∈ live → Restores c code i r

section
variable {c : EmitContext} {live : List Register} {a b : Assembly}

theorem Restores.append (h : Restores c a i r) : Restores c (a ++ b) i r := by
  obtain ⟨before, x, after, j, rfl, h⟩ := h
  exact ⟨before, x, after ++ b, j, by simp, h⟩

theorem Restores.behind (h : Restores c b i r) : Restores c (a ++ b) (a.length + i) r := by
  obtain ⟨before, x, after, j, rfl, hof, hmirrored, hr, rfl⟩ := h
  exact ⟨a ++ before, x, after, j, by simp, hof, hmirrored, hr, by simp [Nat.add_assoc]⟩

namespace Respects

theorem append (ha : Respects c live a) (hb : Respects c live b) : Respects c live (a ++ b) := by
  intro i r hi hr
  rcases hi.of_append with hi | ⟨k, rfl, hk⟩
  · exact (ha i r hi hr).append
  · exact (hb k r hk hr).behind

theorem of_spares (h : Spares live a) : Respects c live a := by
  rintro i r ⟨item, hi, ht⟩ hr
  exact absurd hr (h item (List.mem_of_getElem? hi) r ht)

theorem mono {live' : List Register} (h : Respects c live' a) (hsub : live ⊆ live') :
    Respects c live a :=
  fun i r hi hr => h i r hi (hsub hr)

end Respects

theorem restoreCode_sets {saved : List Register} (h : (restoreCode saved).Sets i r) (hr : r ≠ .sp) :
    ∃ front back, saved = front ++ r :: back ∧ i = 2 * front.length + 1 := by
  induction saved generalizing i with
  | nil =>
    obtain ⟨item, hi, -⟩ := h
    cases hi
  | cons q saved ih =>
    rw [SavingCall.restoreCode_cons] at h
    obtain ⟨item, hi, ht⟩ := h
    rcases i with _ | _ | i
    · cases hi
      exact absurd (Option.some.inj ht).symm hr
    · cases hi
      obtain rfl := Option.some.inj ht
      exact ⟨[], saved, rfl, rfl⟩
    · obtain ⟨front, back, rfl, rfl⟩ := ih ⟨item, hi, ht⟩
      exact ⟨q :: front, back, rfl, by simp; omega⟩

/-- The only lines of a call that set a register it saved are in the code that it passes arguments
with, and its restores. -/
theorem respects_call {x : SavingCall} (of : x.Of c) (mirrored : x.Mirrored) (hsp : .sp ∉ x.live)
    (passing : Respects c x.live x.passing) (dropping : Spares x.live x.dropping)
    (sliding : Spares x.live x.sliding) : Respects c x.live x.code := by
  have hfront : Respects c x.live x.front :=
    (((Respects.of_spares (spares_saveCode hsp _)).append passing).append
      (.of_spares (spares_enterCode _ _ hsp))).append
      (.of_spares dropping)
  intro i r hi hr
  rcases hi.of_append with hi | ⟨k, rfl, hk⟩
  · rcases hi.of_append with hi | ⟨k, rfl, hk⟩
    · exact (hfront i r hi hr).append.append
    · obtain ⟨above, below, hlive, rfl⟩ := restoreCode_sets hk fun h => hsp (h ▸ hr)
      rw [List.reverse_eq_iff, List.reverse_append, List.reverse_cons, List.append_assoc,
        List.singleton_append] at hlive
      refine ⟨[], x, [], below.length, by simp, of, mirrored, by simp [hlive], ?_⟩
      simp only [SavingCall.restoreLine, hlive, List.length_append, List.length_reverse,
        List.length_cons, List.length_nil]
      omega
  · exact ((Respects.of_spares sliding) k r hk hr).behind

def savingCall (saved : List Register) (words : Nat) (passing : Assembly) (back : Label)
    (function : FunctionName) (dropping : Assembly) (cursor : Register) : SavingCall where
  live := saved
  passing := passing
  back := back
  function := function
  dropping := dropping ++ if saved = [] then [] else lowerSp words
  sliding := if saved = [] ∨ words = 0 then []
    else line (.mov cursor (.register .sp)) :: line (increase cursor (count saved.length)) ::
      copyWords .sp cursor words

theorem code_savingCall (saved : List Register) (words : Nat) (passing : Assembly) (back : Label)
    (function : FunctionName) (dropping : Assembly) (cursor : Register) :
    (savingCall saved words passing back function dropping cursor).code =
      saveCode saved ++ passing ++ enterCode back function ++ dropping ++
        slideCode saved words cursor := by
  by_cases hs : saved = []
  · subst hs
    simp [savingCall, SavingCall.code, SavingCall.front, slideCode, restoreCode]
  · by_cases hw : words = 0 <;> simp [savingCall, SavingCall.code, SavingCall.front,
      slideCode, hs, hw]

theorem live_savingCall : (savingCall saved words passing back f dropping r).live = saved := rfl

theorem spares_dropping (hsp : .sp ∉ live) (h : Spares live dropping) :
    Spares live (savingCall saved words passing back f (dropping ++ lowerSp n) r).dropping := by
  by_cases hs : saved = [] <;> simp [savingCall, hs, h, spares_lowerSp hsp]

theorem shift?_sliding (hs : saved ≠ []) :
    Assembly.shift? (savingCall saved words passing back f dropping (.general k)).sliding =
      some (.ofNat words) := by
  by_cases hw : words = 0
  · simp [savingCall, hw]
  · simp [savingCall, hs, hw, line, increase, shift?_copyWords_sp]

theorem spares_sliding (hsp : .sp ∉ live) (hr : saved ≠ [] → words ≠ 0 → r ∉ live) :
    Spares live (savingCall saved words passing back f dropping r).sliding := by
  by_cases h : saved = [] ∨ words = 0
  · simp [savingCall, h]
  · obtain ⟨hs, hw⟩ := not_or.mp h
    simp [savingCall, hs, hw, hr hs hw, (spares_copyWords hsp (hr hs hw) words).2]

theorem sp_not_live (pool : RegisterPool) : .sp ∉ pool.live := fun h => live_ne_sp h rfl

theorem live_subset_take (pool : RegisterPool) (k : Nat) : pool.live ⊆ (pool.take k).live :=
  fun _ => RegisterPool.live_take

/-- A call reads the registers in use from where it wrote them. -/
theorem mirrored_call (span : Span) {room this args drops : Assembly}
    (h : Emits c frame pool n (.value (.call span callee es) type)
      (saveCode pool.live ++ room ++ this ++ args ++ enterCode back f ++ drops ++ lowerSp m ++
        slideCode pool.live (c.structs.words type) (.general k)) n')
    (hroom : Assembly.shift? room = some v) (hthis : this.Passable) (hargs : args.Passable)
    (hdrops : Assembly.shift? drops = some v') :
    (savingCall pool.live (c.structs.words type) (room ++ this ++ args) back f (drops ++ lowerSp m)
      (.general k)).Of c ∧
    (savingCall pool.live (c.structs.words type) (room ++ this ++ args) back f (drops ++ lowerSp m)
      (.general k)).Mirrored := by
  have hcode := code_savingCall pool.live (c.structs.words type) (room ++ this ++ args) back f
    (drops ++ lowerSp m) (.general k)
  simp only [← List.append_assoc] at hcode
  rw [← hcode] at h
  obtain ⟨v'', hdropping⟩ : ∃ v,
    Assembly.shift? (if pool.live = [] then [] else lowerSp (c.structs.words type)) = some v := by
    split
    · exact ⟨_, rfl⟩
    · exact ⟨_, shift?_lowerSp _⟩
  refine ⟨⟨_, _, _, _, _, _, _, _, h, rfl⟩,
    SavingCall.mirrored (RegisterPool.nodup_live pool) (fun _ => live_ne_sp) ?_
    (Assembly.shift?_append (Assembly.shift?_append hdrops (shift?_lowerSp m)) hdropping)
    shift?_sliding h.moves⟩
  exact ((Assembly.Passable.straight hroom).append hthis).append hargs

theorem Emits.saves (h : Emits c frame pool n (.value (.call span callee es) type) code n') :
    ∃ x : SavingCall, x.code = code ∧ x.live = pool.live ∧ x.Mirrored := by
  cases h with
  | constant h => cases h
  | call resolved signature live result this args fits method free =>
    subst live result
    have hmirrored :=
      (mirrored_call span (.call resolved signature rfl rfl this args fits method free)
        (shift?_roomCode _ _)
      this.composed.passable args.composed.passable (shift?_flatMap_lowerSp _)).2
    refine ⟨_, ?_, rfl, hmirrored⟩
    rw [code_savingCall]
    simp only [List.append_assoc]

/-- Code for a piece respects the registers in use. -/
theorem Emits.respects (h : Emits c frame pool n piece code n') : Respects c pool.live code := by
  induction h with
  | constant => exact .of_spares (spares_pushCode (sp_not_live _) _)
  | var found free =>
    have hk := RegisterPool.not_live_of_free free
    exact .of_spares (spares_append.mpr
      ⟨spares_pointAt hk _ _, spares_pushCopyCode (sp_not_live _) hk _⟩)
  | arithmetic _ _ _ _ _ freeLeft freeRight ihl ihr =>
    have hl := RegisterPool.not_live_of_free freeLeft
    have hr := RegisterPool.not_live_of_free_take freeRight
    exact (ihl.append ihr).append (.of_spares (spares_arithmeticCode (sp_not_live _) hl hr _ _))
  | relation _ _ _ _ _ freeLeft freeRight ihl ihr =>
    have hl := spares_popCode (sp_not_live _) (RegisterPool.not_live_of_free freeLeft)
    have hr := spares_popCode (sp_not_live _) (RegisterPool.not_live_of_free_take freeRight)
    exact ((ihl.append ihr).append (.of_spares (by simp [hl, hr]))).append
      (.of_spares (spares_relationCode (sp_not_live _) _ _ _))
  | logic _ _ _ _ free ihl ihr =>
    have htest := spares_testCode (sp_not_live _) (RegisterPool.not_live_of_free free)
    exact ((ihl.append (.of_spares (htest _ _ _))).append
      (ihr.append (.of_spares (htest _ _ _)))).append
      (.of_spares (spares_logicCode (sp_not_live _) _ _ _))
  | negate _ _ free ih =>
    exact ih.append (.of_spares
      (spares_negateCode (sp_not_live _) (RegisterPool.not_live_of_free free) _))
  | not _ _ free ih =>
    have hpop := spares_popCode (sp_not_live _) (RegisterPool.not_live_of_free free)
    exact (ih.append (.of_spares (by simp [zeroTest, hpop]))).append
      (.of_spares (spares_relationCode (sp_not_live _) _ _ _))
  | assign place _ _ _ ihp ihv =>
    have hk := RegisterPool.not_live_of_free place.free_of_address
    exact (ihp.append (ihv.mono (live_subset_take _ _))).append
      (.of_spares (spares_store (sp_not_live _) hk _))
  | update place _ _ _ _ freeOperand freeResult ihp ihv =>
    have hoperand := RegisterPool.not_live_of_free_take freeOperand
    -- The result is taken on top of two more registers, the operand and the address.
    have hresult := fun h => RegisterPool.not_live_of_free_take freeResult (live_subset_take _ _ h)
    exact (ihp.append (ihv.mono (live_subset_take _ _))).append
      (.of_spares (spares_updateCode (sp_not_live _) hoperand hresult _ _ _))
  | field _ _ free ih =>
    exact ih.append (.of_spares
      (spares_selectCode (sp_not_live _) (RegisterPool.not_live_of_free free) _ _ _))
  | addressOf _ ih => exact ih.append (.of_spares (spares_pushCode (sp_not_live _) _))
  | dereference _ free ih =>
    have hk := RegisterPool.not_live_of_free free
    exact ih.append (.of_spares (spares_append.mpr
      ⟨spares_popCode (sp_not_live _) hk, spares_pushCopyCode (sp_not_live _) hk _⟩))
  | call resolved signature live result this args fits method free iht iha =>
    subst live result
    -- The lines of a call that set registers in use are its own restores or those of its arguments.
    obtain ⟨of, mirrored⟩ :=
      mirrored_call ⟨0, 0⟩ (.call resolved signature rfl rfl this args fits method free)
      (shift?_roomCode _ _) this.composed.passable args.composed.passable (shift?_flatMap_lowerSp _)
    have hrespects := respects_call of mirrored (sp_not_live _)
      (((Respects.of_spares (spares_roomCode (sp_not_live _) _ _)).append iht).append iha)
      (spares_dropping (sp_not_live _) (spares_flatMap_lowerSp (sp_not_live _) _))
      (spares_sliding (sp_not_live _) fun hs hw => RegisterPool.not_live_of_free (free hs hw))
    rw [code_savingCall, live_savingCall] at hrespects
    simpa only [List.append_assoc] using hrespects
  | addressVar found free =>
    exact .of_spares (spares_pointAt (RegisterPool.not_live_of_free free) _ _)
  | addressField base _ ih =>
    exact ih.append (.of_spares
      (spares_fieldCode (RegisterPool.not_live_of_free base.free_of_address) _ _))
  | addressDereference _ free ih =>
    exact ih.append (.of_spares
      (spares_popCode (sp_not_live _) (RegisterPool.not_live_of_free free)))
  | noReceiver | noArguments => exact .of_spares spares_nil
  | receiver _ ih => exact ih.append (.of_spares (by simp [thisCode, sp_not_live]))
  | argument _ _ ihf ihr => exact ihf.append ihr

end

/-! ### Between statements -/

/-- `Pauses c ks s t`: while the tasks are run from `s`, the generator gets to `t` in front of a
statement or behind one. -/
def Pauses (c : EmitContext) (ks : List Task) (s t : EmitState) : Prop := ∃ path st u,
  subrun? c path ks s = some (.statement st, u) ∧ (t = u ∨ ∃ code, statement c st u = .ok code t)

/-- If no register is in use at first, none is at any time between statements. -/
theorem Pauses.idle (hc : c.Sound) (first : Along c (Sits c others kept) ks s)
    (h : Pauses c ks s t) : t.registers = .empty := by
  obtain ⟨path, st, u, hsubrun, ht⟩ := h
  have hrests : Rests c others kept u := (subrun?_keeps first (parts_along hc) hsubrun).rests rfl
  rcases ht with rfl | ⟨code, run⟩
  · exact hrests.idle
  · exact (statement_rests hc hrests run).2.idle

end Emit

/-- `p.Pauses c statics t`: while code for the program is emitted, the generator gets to `t` between
two statements, outside of functions or in a definition. -/
inductive Program.Pauses (p : Program) (c : EmitContext) (statics : List StaticVariable) :
    EmitState → Prop
  | outside (pause : Emit.Pauses c (Emit.bodyTasks p) ⟨.topLevel statics, .empty, supply⟩ t) :
      Pauses p c statics t
  | inside (defined : (name, decl) ∈ p.definitions) (known : c.functions.get? name = some signature)
      (pause : Emit.Pauses (c.inside signature) (Emit.functionTasks decl)
        ⟨.ofSignature c.structs statics signature, .empty, supply⟩ t) : Pauses p c statics t

theorem Emit.pauses_live {p : Program} (hc : c.Sound) (h : p.Pauses c statics t) :
    t.registers.live = [] := by
  have hempty : t.registers = .empty := by
    cases h with
    | outside pause => exact pause.idle hc (body_along hc p (body_rests c statics _))
    | @inside _ _ signature _ _ _ known pause =>
      have hinside := hc.inside signature
      have hreceiver := hc.functions.receiver_words known c.structs
      exact pause.idle hinside (function_along hinside _ (function_rests hreceiver statics _))
  rw [hempty]
  decide

open Emit in
/-- Code for an expression leaves the registers in use as they were, and code for a place takes one
more, also if it cannot be finished. On the way nothing sets the registers in use but the restores
of calls. Each of these reads the word that the call wrote the register to. Between statements no
register is in use. -/
theorem register_discipline (parsed : Program.ofSource source = .ok p)
    (serves : EmitContext.Serves c p) : (∀ e s,
      (∀ code t, expr c e s = .ok code t →
        t.registers.live = s.registers.live ∧ Respects c s.registers.live code) ∧
      ∀ f t, expr c e s = .error f t → t.registers.live = s.registers.live) ∧
    (∀ e s,
      (∀ code r t, place c e s = .ok (code, r) t →
        r ∉ s.registers.live ∧ t.registers.live.Perm (r :: s.registers.live) ∧
        Respects c s.registers.live code) ∧
      ∀ f t, place c e s = .error f t → t.registers.live = s.registers.live) ∧
    (∀ span callee args s code t, expr c (.call span callee args) s = .ok code t →
      ∃ x : SavingCall, x.code = code ∧ x.live = s.registers.live ∧ x.Mirrored) ∧
    ∀ statics t, p.Pauses c statics t → t.registers.live = [] := by
  have hc := serves.sound (Program.ofSource_wellNamed parsed)
  refine ⟨fun e s => ⟨?_, ?_⟩, fun e s => ⟨?_, ?_⟩, ?_, fun _ _ => pauses_live hc⟩
  · intro code t run
    obtain ⟨type, n, -, rfl, he⟩ := expr_emits hc e _ _ _ _ _ run
    exact ⟨rfl, he.respects⟩
  -- Where spans do not matter, all of them may be blamed.
  · exact fun f t run =>
      congrArg RegisterPool.live
        ((expr_goes c e _ e.placed_true (Nat.le_refl _) s rfl).error f t run).1
  · intro code r t run
    obtain ⟨type, typed⟩ := place_typed run
    obtain ⟨k, n, rfl, free, rfl, he⟩ := place_emits hc e _ _ _ _ _ _ _ typed run
    obtain ⟨hnot, hperm⟩ := RegisterPool.live_take_perm free
    exact ⟨hnot, hperm, he.respects⟩
  · exact fun f t run =>
      congrArg RegisterPool.live
        ((place_goes c e _ e.placed_true (Nat.le_refl _) s rfl).error f t run).1
  · intro span callee args s code t run
    obtain ⟨type, n, -, -, he⟩ := expr_emits hc _ _ _ _ _ _ run
    exact he.saves

def SourceText.oneFunction : SourceText := .ofString "func int f(int a) \x7b return a; \x7d"

def Expr.nestedCall : Expr :=
  .call ⟨0, 0⟩ (.var ⟨0, 0⟩ "f") [.call ⟨0, 0⟩ (.var ⟨0, 0⟩ "f") [.integer ⟨0, 0⟩ 1]]

/-- With two registers in use, the inner call restores the first one on line 21. -/
theorem register_discipline_nestedCall :
    ∃ p c code t, Program.ofSource .oneFunction = .ok p ∧ EmitContext.Serves c p ∧
    Emit.expr c .nestedCall ⟨.topLevel [], (RegisterPool.empty.take 0).take 1, .start⟩ =
      .ok code t ∧
    t.registers.live = [.general 0, .general 1] ∧ code.Sets 21 (.general 0) ∧
    Emit.Restores c code 21 (.general 0) ∧
    ∃ x : SavingCall, x.code = code ∧ x.live = [.general 0, .general 1] ∧ x.Mirrored := by
  have hrun : (do
      let p ← (Program.ofSource .oneFunction).toOption
      let structs ← (Structs.ofDecls p.structs).toOption
      let functions ← (Functions.ofProgram structs p).toOption
      ((Emit.expr ⟨structs, functions, .collect p, none⟩ .nestedCall).run'
        ⟨.topLevel [], (RegisterPool.empty.take 0).take 1, .start⟩).filter fun code =>
          decide (code[21]?.bind Item.target? = some (Register.general 0))).isSome = true := by
    decide +kernel
  obtain ⟨code, hrun⟩ := Option.isSome_iff_exists.mp hrun
  obtain ⟨p, parsed, hrun⟩ := of_toOption_bind hrun
  obtain ⟨structs, hs, hrun⟩ := of_toOption_bind hrun
  obtain ⟨functions, hf, hrun⟩ := of_toOption_bind hrun
  obtain ⟨hcode, hset⟩ := Option.filter_eq_some_iff.mp hrun
  obtain ⟨t, hcode⟩ := run'_eq_some.mp hcode
  have serves : EmitContext.Serves ⟨structs, functions, .collect p, none⟩ p := ⟨hs, hf⟩
  have hlive : ((RegisterPool.empty.take 0).take 1).live = [.general 0, .general 1] := by decide
  obtain ⟨hexpr, -, hcall, -⟩ := register_discipline parsed serves
  obtain ⟨hsame, hrespects⟩ := (hexpr _ _).1 _ _ hcode
  obtain ⟨x, hx, hxlive, hmirrored⟩ := hcall _ _ _ _ _ _ hcode
  have hsets : code.Sets 21 (.general 0) := Option.bind_eq_some_iff.mp (of_decide_eq_true hset)
  refine ⟨p, _, code, t, parsed, serves, hcode, hsame.trans hlive, hsets, ?_, x, hx,
    hxlive.trans hlive, hmirrored⟩
  exact hrespects 21 (.general 0) hsets (hlive ▸ List.mem_cons_self)

end WordScript
