import WordScript.Proofs.Emit.Program
import WordScript.Proofs.Faults.Tables
import WordScript.Proofs.Emit.Tasks

/-!
# The course of code generation

The generator runs a task by running its parts one after the other (`Task.divides`). On the way it
gives back every register that it takes, also if it fails. Only an assignment keeps one while other
expressions are evaluated: the address of its target, until its value is there. So what an
expression takes at a time is bounded by how deep assignments are nested in the values of
assignments (`Expr.nest`). Whatever it cannot compile it blames on a span of the tree that it is
given.
-/

namespace WordScript

mutual

/-- How deep assignments are nested in the values of assignments. -/
def Expr.nest : Expr → Nat
  | .integer .. | .float .. | .string .. | .var .. => 0
  | .call _ callee args => max callee.nest (Expr.allNest args)
  | .binary _ _ lhs rhs => max lhs.nest rhs.nest
  | .assign _ _ target value => max target.nest (1 + value.nest)
  | .field _ inner _ | .unary _ _ inner | .addressOf _ inner | .dereference _ inner
  | .sizeOf _ inner => inner.nest

def Expr.allNest : List Expr → Nat
  | [] => 0
  | e :: rest => max e.nest (Expr.allNest rest)

end

namespace Emit

variable {α β : Type} {s t : EmitState}

theorem bind_error {x : Emit α} {f : α → Emit β} (h : (x >>= f) s = .error e t) :
    x s = .error e t ∨ ∃ a u, x s = .ok a u ∧ f a u = .error e t := by
  simp only [bind, EStateM.bind] at h
  cases hx : x s with
  | ok a u => exact .inr ⟨a, u, rfl, by simpa only [hx] using h⟩
  | error e' u =>
    simp only [hx, EStateM.Result.error.injEq] at h
    obtain ⟨rfl, rfl⟩ := h
    exact .inl rfl

def Kept (pool : RegisterPool) (_ : α) (pool' : RegisterPool) : Prop := pool' = pool

def Taken (register : α → Register) (pool : RegisterPool) (a : α) (pool' : RegisterPool) : Prop :=
  ∃ k, pool.lowestFree? = some k ∧ register a = .general k ∧ pool' = pool.take k

namespace Taken

variable {register : α → Register} {pool pool' : RegisterPool} {a : α}
  (h : Taken register pool a pool')
include h

theorem release : pool'.release (register a) = pool := by
  obtain ⟨k, free, hr, rfl⟩ := h
  rw [hr, RegisterPool.release_take free]

theorem lowest : register a = pool.lowest := by
  obtain ⟨k, free, hr, -⟩ := h
  rw [hr, RegisterPool.lowest, free, Option.getD_some]

theorem next : pool' = pool.next := by
  obtain ⟨k, free, -, rfl⟩ := h
  rw [RegisterPool.next, free, Option.getD_some]

theorem inUse : pool'.inUse = pool.inUse + 1 := by
  obtain ⟨k, free, -, rfl⟩ := h
  exact RegisterPool.inUse_take free

end Taken

/-- The fault is at a span as `P` says, and a lack of registers is not to blame if there are `n` of
them. -/
def Blamed (P : Span → Prop) (n : Nat) (f : Fault TypeError) : Prop :=
  P f.span ∧ (n ≤ generalRegisters → f.cause.lacksRegisters = false)

section
variable {c : EmitContext} {P : Span → Prop} {n held : Nat} {base : RegisterPool}

theorem blamed_of_due {f : Fault TypeError} (h : f.Due P) : Blamed P n f := ⟨h.1, fun _ => h.2⟩

theorem holding_error {x : Emit α} (h : holding r x s = .error f t) :
    ∃ u, x s = .error f u ∧ t = { u with registers := u.registers.release r } := by
  simp only [holding] at h
  cases hx : x s with
  | ok a u => simp [hx] at h
  | error f' u =>
    simp only [hx, EStateM.Result.error.injEq] at h
    obtain ⟨rfl, rfl⟩ := h
    exact ⟨u, rfl, rfl⟩

theorem only_ok {x : Emit α} (h : x s = .ok a t) : only x s = .ok () t := by
  simp only [only, bind, EStateM.bind, h]
  rfl

theorem only_error {x : Emit α} (h : x s = .error f t) : only x s = .error f t := by
  simp only [only, bind, EStateM.bind, h]

theorem of_only {x : Emit α} (h : only x s = .ok () t) : ∃ a, x s = .ok a t := by
  obtain ⟨a, u, hx, hrest⟩ := bind_ok.mp h
  cases hrest
  exact ⟨a, hx⟩

theorem runAll_cons_ok {k : Task} (h : k.run c s = .ok () t) :
    runAll c (k :: ks) s = runAll c ks t := by
  simp only [runAll, bind, EStateM.bind, h]

theorem runAll_cons_error {k : Task} (h : k.run c s = .error f t) :
    runAll c (k :: ks) s = .error f t := by
  simp only [runAll, bind, EStateM.bind, h]

theorem runAll_append (ks ks' : List Task) : runAll c (ks ++ ks') = runAll c ks >>= fun _ =>
    runAll c ks' := by
  induction ks with
  | nil => rfl
  | cons k ks ih => rw [List.cons_append, runAll, runAll, ih, bind_assoc]

theorem runAll_append_ok (h : runAll c ks s = .ok () t) :
    runAll c (ks ++ ks') s = runAll c ks' t := by
  simp only [runAll_append, bind, EStateM.bind, h]

theorem runAll_append_error (h : runAll c ks s = .error f t) :
    runAll c (ks ++ ks') s = .error f t := by
  simp only [runAll_append, bind, EStateM.bind, h]

theorem runAll_singleton_ok {k : Task} (h : k.run c s = .ok () t) : runAll c [k] s = .ok () t :=
  runAll_cons_ok h

/-- From `s`, `x` runs as the tasks do. If it succeeds, the registers are as `Q` says. If it fails,
they are those of `base`, and the fault is at a span as `P` says, or due to a lack of registers
where there are less than `n`. -/
structure Goes (c : EmitContext) (P : Span → Prop) (n : Nat) (base : RegisterPool)
    (Q : α → RegisterPool → Prop) (x : Emit α)
    (ks : List Task) (s : EmitState) : Prop where
  divides : Divides c x ks s
  ok : ∀ a t, x s = .ok a t → Q a t.registers
  error : ∀ f t, x s = .error f t → t.registers = base ∧ Blamed P n f

namespace Goes

variable {Q : α → RegisterPool → Prop} {R : β → RegisterPool → Prop} {x : Emit α} {f : α → Emit β}
  {ks ks' : List Task}

theorem done (run : x s = .ok a t) (tasks : runAll c ks s = .ok () t)
    (registers : Q a t.registers) : Goes c P n base Q x ks s where
  divides.ok _ _ run' := by
    cases run.symm.trans run'
    exact tasks
  divides.error _ _ run' := by cases run.symm.trans run'
  ok _ _ run' := by
    cases run.symm.trans run'
    exact registers
  error _ _ run' := by cases run.symm.trans run'

theorem failed (run : x s = .error e s) (tasks : runAll c ks s = .error e s)
    (same : s.registers = base) (blamed : Blamed P n e) : Goes c P n base Q x ks s where
  divides.ok _ _ run' := by cases run.symm.trans run'
  divides.error _ _ run' := by
    cases run.symm.trans run'
    exact ⟨s, tasks, rfl⟩
  ok _ _ run' := by cases run.symm.trans run'
  error _ _ run' := by
    cases run.symm.trans run'
    exact ⟨same, blamed⟩

theorem bind (hx : Goes c P n base Q x ks s)
    (hf : ∀ a t, x s = .ok a t → Q a t.registers → Goes c P n base R (f a) ks' t) :
    Goes c P n base R (x >>= f) (ks ++ ks') s where
  divides.ok b u run := by
    obtain ⟨a, t, hok, hrest⟩ := bind_ok.mp run
    rw [runAll_append_ok (hx.divides.ok a t hok)]
    exact (hf a t hok (hx.ok a t hok)).divides.ok b u hrest
  divides.error e u run := by
    rcases bind_error run with herror | ⟨a, t, hok, herror⟩
    · obtain ⟨v, hv, hframe⟩ := hx.divides.error e u herror
      exact ⟨v, runAll_append_error hv, hframe⟩
    · rw [runAll_append_ok (hx.divides.ok a t hok)]
      exact (hf a t hok (hx.ok a t hok)).divides.error e u herror
  ok b u run := by
    obtain ⟨a, t, hok, hrest⟩ := bind_ok.mp run
    exact (hf a t hok (hx.ok a t hok)).ok b u hrest
  error e u run := by
    rcases bind_error run with herror | ⟨a, t, hok, herror⟩
    · exact hx.error e u herror
    · exact (hf a t hok (hx.ok a t hok)).error e u herror

theorem fault (h : P span) (supplied : cause.lacksRegisters = false) (same : s.registers = base) :
    Goes c P n base Q (fault cause span) [failing cause span] s :=
  .failed rfl rfl same ⟨h, fun _ => supplied⟩

theorem fault_bind (h : P span) (supplied : cause.lacksRegisters = false)
    (same : s.registers = base) :
    Goes c P n base R (Emit.fault cause span >>= f) (failing cause span :: ks) s :=
  .failed rfl rfl same ⟨h, fun _ => supplied⟩

theorem of_eq (h : Goes c P n base Q x ks s) (same : x' s = x s) : Goes c P n base Q x' ks s :=
  ⟨⟨fun a t run => h.divides.ok a t (same ▸ run), fun f t run => h.divides.error f t (same ▸ run)⟩,
    fun a t run => h.ok a t (same ▸ run), fun f t run => h.error f t (same ▸ run)⟩

theorem get {f : EmitState → Emit β} (h : Goes c P n base R (f s) ks s) :
    Goes c P n base R (get >>= f) ks s := of_eq h rfl

theorem asTask (h : Goes c P n base Q x ks s) (hk : k.run c = only x) :
    Goes c P n base Q x [k] s where
  divides.ok _ _ run := runAll_singleton_ok (hk ▸ only_ok run)
  divides.error _ t run := ⟨t, runAll_cons_error (hk ▸ only_error run), rfl⟩
  ok := h.ok
  error := h.error

theorem check {y : Typing.Check α} {rest : α → List Task} (hy : FailsAs (Fault.Due P) y)
    (same : s.registers = base) (hf : ∀ a, y = .ok a → Goes c P n base R (f a) (rest a) s) :
    Goes c P n base R (ofCheck y >>= f) (checked y rest) s := by
  cases y with
  | ok a =>
    have h := hf a rfl
    exact ⟨⟨h.divides.ok, h.divides.error⟩, h.ok, h.error⟩
  | error e => exact .failed rfl rfl same (blamed_of_due (hy e rfl))

theorem holding (hx : Goes c P n pool (Kept pool) x ks s) (hr : pool.release r = base) :
    Goes c P n base (Kept base) (holding r x) (ks ++ [.release r]) s where
  divides.ok a t run := by
    obtain ⟨u, hok, rfl⟩ := holding_ok.mp run
    rw [runAll_append_ok (hx.divides.ok a u hok)]
    rfl
  divides.error e t run := by
    obtain ⟨u, herror, rfl⟩ := holding_error run
    obtain ⟨v, hv, hframe⟩ := hx.divides.error e u herror
    exact ⟨v, runAll_append_error hv, hframe⟩
  ok a t run := by
    obtain ⟨u, hok, rfl⟩ := holding_ok.mp run
    -- Behind the body `r` is in use as before it, and giving it back makes the pool what it was.
    have hsame : u.registers = pool := hx.ok a u hok
    exact (congrArg (RegisterPool.release · r) hsame).trans hr
  error e t run := by
    obtain ⟨u, herror, rfl⟩ := holding_error run
    obtain ⟨hregisters, hblamed⟩ := hx.error e u herror
    exact ⟨(congrArg (RegisterPool.release · r) hregisters).trans hr, hblamed⟩

end Goes

/-- Wherever `x` starts with `held` registers in use, it runs as the tasks do and changes the
registers as `Q` says. -/
def Follows (c : EmitContext) (P : Span → Prop) (n held : Nat)
    (Q : RegisterPool → α → RegisterPool → Prop) (x : Emit α)
    (ks : RegisterPool → List Task) : Prop :=
  ∀ s, s.registers.inUse = held → Goes c P n s.registers (Q s.registers) x (ks s.registers) s

variable {Q : RegisterPool → α → RegisterPool → Prop} {R : RegisterPool → β → RegisterPool → Prop}
  {x : Emit α} {f : α → Emit β} {ks ks' : RegisterPool → List Task}

theorem Goes.of_follows (h : Follows c P n held Q x ks) (hs : base.inUse = held)
    (hbase : s.registers = base) (hks : ks base = tasks) : Goes c P n base (Q base) x tasks s := by
  subst hbase hks
  exact h s hs

namespace Follows

theorem bind (hx : Follows c P n held Kept x ks) (hf : ∀ a, Follows c P n held R (f a) ks') :
    Follows c P n held R (x >>= f) fun pool => ks pool ++ ks' pool := fun s hs =>
  (hx s hs).bind fun a t _ hkept => by
    have hsame : t.registers = s.registers := hkept
    exact hsame ▸ hf a t (hsame ▸ hs)

theorem pure (a : α) : Follows c P n held Kept (Pure.pure a) fun _ => [] :=
  fun _ _ => .done rfl rfl rfl

theorem map (h : Follows c P n held Kept x ks) (g : α → β) :
    Follows c P n held Kept (x >>= fun a => Pure.pure (g a)) ks := by
  have h := h.bind fun a => pure (g a)
  simpa only [List.append_nil] using h

theorem get {f : EmitState → Emit β} (h : ∀ s, s.registers.inUse = held →
      Goes c P n s.registers (R s.registers) (f s) (ks s.registers) s) :
    Follows c P n held R (get >>= f) ks := fun s hs => .of_eq (h s hs) rfl

theorem ofCheck {y : Typing.Check Unit} (hy : FailsAs (Fault.Due P) y) :
    Follows c P n held Kept (ofCheck y) fun _ => [.check y] := by
  cases y with
  | ok => exact fun _ _ => .done rfl rfl rfl
  | error e => exact fun _ _ => .failed rfl rfl rfl (blamed_of_due (hy e rfl))

theorem asTask (h : ∀ s, s.registers.inUse = held →
      ∃ ks, Goes c P n s.registers (Q s.registers) x ks s)
    (hk : k.run c = only x) : Follows c P n held Q x fun _ => [k] := fun s hs => by
  obtain ⟨ks, hks⟩ := h s hs
  exact hks.asTask hk

theorem freshLabel : Follows c P n held Kept freshLabel fun _ => [.label] :=
  fun _ _ => .done rfl rfl rfl

/-! ### Holding registers -/

theorem acquire (h : P span) (hn : held < n) :
    Follows c P n held (Taken fun r => r) (acquire span) fun _ => [.acquire span] := by
  intro s hs
  cases free : s.registers.lowestFree? with
  | some k => exact .done (acquire_of_free free) (runAll_singleton_ok
      (only_ok (acquire_of_free free))) ⟨k, free, rfl, rfl⟩
  | none =>
    have hfull := RegisterPool.inUse_of_none free
    exact .failed (acquire_of_none free) (runAll_cons_error (only_error (acquire_of_none free))) rfl
      ⟨h, fun henough => by omega⟩

variable {register : α → Register} {register' : β → Register}

theorem mapTaken {g : α → β} (hx : Follows c P n held (Taken register) x ks)
    (hg : ∀ a, register' (g a) = register a) :
    Follows c P n held (Taken register') (x >>= fun a => Pure.pure (g a)) ks := by
  intro s hs
  have h : Goes c P n s.registers (Taken register' s.registers) (x >>= fun a => Pure.pure (g a))
      (ks s.registers ++ []) s :=
    (hx s hs).bind fun a t _ htaken => by
      obtain ⟨k, free, hr, ht⟩ := htaken
      exact .done rfl rfl ⟨k, free, (hg a).trans hr, ht⟩
  rwa [List.append_nil] at h

/-- A register is given back after its use. Meanwhile one more is in use. -/
theorem holding (hx : Follows c P n held (Taken register) x ks)
    (hf : ∀ a, Follows c P n (held + 1) Kept (f a) ks') :
    Follows c P n held Kept (x >>= fun a => holding (register a) (f a))
      fun pool => ks pool ++ (ks' pool.next ++ [.release pool.lowest]) := fun s hs =>
  (hx s hs).bind fun a t _ htaken => by
    rw [← htaken.next, ← htaken.lowest]
    exact (hf a t (by rw [htaken.inUse, hs])).holding htaken.release

theorem withRegister {x : Register → Emit α} (h : P span) (hn : held < n)
    (hx : ∀ r, Follows c P n (held + 1) Kept (x r) ks) :
    Follows c P n held Kept (withRegister span x) fun pool =>
      .acquire span :: (ks pool.next ++ [.release pool.lowest]) :=
  holding (acquire h hn) hx

theorem push : Follows c P n held Kept (modifyFrame (·.push words)) fun _ => [.push words] :=
  fun _ _ => .done rfl rfl rfl

theorem pop : Follows c P n held Kept (modifyFrame (·.pop words)) fun _ => [.pop words] :=
  fun _ _ => .done rfl rfl rfl

theorem pushWords : Follows c P n held Kept (pushWords words) fun _ => [.push words] := fun _ _ =>
  .done (pushWords_ok.mpr ⟨rfl, rfl⟩) rfl rfl

theorem popWords : Follows c P n held Kept (popWords words) fun _ => [.pop words] := fun _ _ =>
  .done (popWords_ok.mpr ⟨rfl, rfl⟩) rfl rfl

theorem pushValue : Follows c P n held Kept (pushValue value) fun _ => [.push 1] := pushWords.map _

theorem pushCopy : Follows c P n held Kept (pushCopy source words) fun _ => [.push words] :=
  push.map _

theorem popHeld (h : P span) (hn : held < n) :
    Follows c P n held (Taken Prod.snd) (popHeld span) fun _ => [.pop 1, .acquire span] :=
  popWords.bind fun _ => .mapTaken (acquire h hn) fun _ => rfl

theorem withPopped {x : Register → Emit Assembly} (h : P span) (hn : held < n)
    (hx : ∀ r, Follows c P n (held + 1) Kept (x r) ks) : Follows c P n held Kept (withPopped span x)
      fun pool => .pop 1 :: .acquire span :: (ks pool.next ++ [.release pool.lowest]) :=
  holding (popHeld h hn) fun popped => (hx popped.2).map _

theorem withOperands {x : Register → Register → Emit Assembly} (hl : P left) (hr : P right)
    (hn : held + 2 ≤ n) (hx : ∀ l r, Follows c P n (held + 2) Kept (x l r) ks) :
    Follows c P n held Kept (withOperands left right x)
      fun pool => .acquire left :: .acquire right :: .pop 1 :: .pop 1 :: (ks pool.next.next ++
        [.release pool.next.lowest] ++ [.release pool.lowest]) :=
  withRegister hl (by omega) fun l => withRegister hr (by omega) fun r =>
    popWords.bind fun _ => popWords.bind fun _ => (hx l r).map _

theorem pushRelation : Follows c P n held Kept (pushRelation relation) fun _ =>
    [.label, .label, .push 1] :=
  freshLabel.bind fun _ => freshLabel.bind fun _ => pushWords.map _

/-! ### Calls and operators -/

theorem saveAll (saved : List Register) : Follows c P n held Kept (saveAll saved) fun _ =>
    saved.map fun _ => .push 1 := by
  induction saved with
  | nil => exact .pure _
  | cons r rest ih => exact pushWords.bind fun _ => ih.map _

theorem restoreAll (saved : List Register) :
    Follows c P n held Kept (restoreAll saved) fun _ => saved.map fun _ => .pop 1 := by
  induction saved with
  | nil => exact .pure _
  | cons r rest ih => exact popWords.bind fun _ => ih.map _

theorem popEach (params : List (String × ValueType)) :
    Follows c P n held Kept (popEach (params.map fun p => c.structs.words p.2))
      fun _ => params.map fun p => .pop (c.structs.words p.2) := by
  induction params with
  | nil => exact .pure _
  | cons p rest ih => exact popWords.bind fun _ => ih.map _

theorem reserve : Follows c P n held Kept (reserve words text) fun _ => [.push words] := by
  by_cases h : words = 0
  · -- Pushing nothing is no step of the generator.
    subst h
    exact fun s _ => .done (t := s) rfl (by simp [runAll, Task.run, modifyFrame]; rfl) rfl
  · simp only [Emit.reserve, h, if_false]
    exact push.map _

theorem slideResult (h : P span) (hn : held < n) :
    Follows c P n held Kept (slideResult span saved words) fun pool =>
      slideTasks pool span saved words := by
  simp only [Emit.slideResult, slideTasks]
  split
  · exact .pure _
  · refine (restoreAll _).bind fun _ => ?_
    split
    · exact .pure _
    · exact withRegister h hn fun _ => .pure _

/-- The registers that a call saves are those in use. -/
theorem call {x : Emit (Option (Assembly × Register))} {args : Emit Assembly}
    {receiver arguments : RegisterPool → List Task}
    (h : P span) (hn : held < n) (hx : Follows c P n held Kept (pushReceiver x) receiver)
    (ha : Follows c P n held Kept args arguments) :
    Follows c P n held Kept (call c span target x args)
      fun pool => callTasks c pool span target (receiver pool) (arguments pool) := by
  refine .get fun s hs => ?_
  exact ((saveAll _).bind fun _ => reserve.bind fun _ => hx.bind fun _ => ha.bind fun _ =>
    freshLabel.bind fun _ =>
    (popEach _).bind fun _ => popWords.bind fun _ => (slideResult h hn).map _) s hs

end Follows

variable {lhs rhs operand target value : Expr}

theorem findVariable_follows (h : P span) :
    Follows c P n held Kept (findVariable name span) fun _ => [.find name span] := by
  refine .asTask (fun s hs => ?_) rfl
  cases hlookup : s.frame.lookup name with
  | some found =>
    exact ⟨_, .of_eq (Follows.pure found.2 s hs) (by simp only [findVariable, get_bind, hlookup])⟩
  | none =>
    have h : Goes c P n s.registers (Kept s.registers)
        (fault (.unknownIdentifier name) span : Emit Location) _ s := .fault h rfl rfl
    exact ⟨_, .of_eq h (by simp only [findVariable, get_bind, hlookup])⟩

theorem typeHere_follows (h : e.Placed P) : Follows c P n held Kept (typeHere c e) fun _ =>
    [.typed e] := by
  refine .asTask (fun s _ => ?_) rfl
  cases htype : Typing.typeOf (c.at s.frame) e with
  | ok type => exact ⟨[], .done (typeHere_ok.mpr ⟨htype, rfl⟩) rfl rfl⟩
  | error f =>
    refine ⟨[.check (.error f)],
      .failed ?_ rfl rfl (blamed_of_due (Typing.typeOf_due _ e h f htype))⟩
    exact congrFun (congrArg ofCheck htype) s

theorem sizeWords_follows (h : e.Placed P) : Follows c P n held Kept (sizeWords c span e) fun _ =>
    [.size span e] := by
  refine .asTask (fun s hs => ?_) rfl
  simp only [sizeWords]
  split
  · exact ⟨_, Follows.pure _ s hs⟩
  · exact ⟨_, (typeHere_follows h).map _ s hs⟩

theorem Goes.typeHere {f : ValueType → Emit β} {R : β → RegisterPool → Prop}
    {rest : ValueType → List Task} (h : e.Placed P)
    (same : s.registers = base) (hf : ∀ type, Goes c P n base R (f type) (rest type) s) :
    Goes c P n base R (typeHere c e >>= f) (checked (Typing.typeOf (c.at s.frame) e) rest) s :=
  .of_eq (.check (Typing.typeOf_due _ e h) same fun type _ => hf type) rfl

/-! ### Expressions -/

theorem operandTest_follows {code : Emit Assembly} (h : operand.Placed P) (hn : held < n)
    (hcode : Follows c P n held Kept code ks) :
    Follows c P n held Kept (operandTest c operand code relation label) fun pool =>
      .typed operand :: (ks pool ++ [.pop 1, .acquire operand.span, .release pool.lowest]) :=
  (typeHere_follows h).bind fun _ => hcode.bind fun _ =>
    .map (.withPopped h.span hn fun _ => .pure _) _

theorem unary_follows {code : Emit Assembly} (h : operand.Placed P) (hn : held < n)
    (hcode : Follows c P n held Kept code fun _ => [.value operand]) :
    Follows c P n held Kept (unary c op type operand code) fun pool =>
      unaryTasks pool operand op := by
  cases op with
  | negate => exact hcode.bind fun _ => (Follows.withPopped h.span hn fun _ =>
      Follows.pushValue.map _).map _
  | not =>
    exact hcode.bind fun _ => (typeHere_follows h).bind fun _ =>
      (Follows.withPopped h.span hn fun _ => .pure _).bind fun _ => Follows.pushRelation.map _

theorem binary_follows {left right : Emit Assembly} (hl : lhs.Placed P) (hr : rhs.Placed P)
    (hn : held + 2 ≤ n) (hleft : Follows c P n held Kept left fun _ => [.value lhs])
    (hright : Follows c P n held Kept right fun _ => [.value rhs]) :
    Follows c P n held Kept (binary c op type lhs rhs left right) fun pool =>
      binaryTasks pool lhs rhs op := by
  cases op with
  | arithmetic op =>
    exact hleft.bind fun _ => hright.bind fun _ =>
      .map (.withOperands hl.span hr.span hn fun _ _ => Follows.pushValue.map _) _
  | relation relation =>
    exact (typeHere_follows hl).bind fun _ => hleft.bind fun _ => hright.bind fun _ =>
      (Follows.withOperands hl.span hr.span hn fun _ _ => .pure _).bind fun _ =>
        Follows.pushRelation.map _
  | logic op =>
    exact Follows.freshLabel.bind fun _ => Follows.freshLabel.bind fun _ =>
      (operandTest_follows hl (by omega) hleft).bind fun _ =>
        (operandTest_follows hr (by omega) hright).bind fun _ => Follows.pushWords.map _

/-- The address of the target is held while the value is computed. An update takes two more
registers after that. -/
theorem assign_follows {place : Emit (Assembly × Register)} {code : Emit Assembly}
    (ht : target.Placed P) (hv : value.Placed P)
    (hn : held + 3 ≤ n) (hplace : Follows c P n held (Taken Prod.snd) place fun _ =>
      [.place target]) (hcode : Follows c P n (held + 1) Kept code fun _ => [.value value]) :
    Follows c P n held Kept (assign c op type target value place code) fun pool =>
      assignTasks pool target value op := by
  cases op with
  | none => exact .holding hplace fun _ => hcode.map _
  | some op =>
    exact .holding hplace fun _ => hcode.bind fun _ => .map (.withPopped hv.span (by omega) fun _ =>
      .withRegister ht.span (by omega) fun _ => Follows.pushValue.map _) _

theorem selectField_follows (h : P span) (hn : held < n) :
    Follows c P n held Kept (selectField c span words field)
    fun pool => [.pop words, .acquire span, .push (c.structs.words field.type),
      .release pool.lowest] :=
  Follows.popWords.bind fun _ => .withRegister h hn fun _ => Follows.pushCopy.map _

mutual

theorem expr_goes (c : EmitContext) (e : Expr) (held : Nat) (placed : e.Placed P)
    (h : e.nest + held + 2 ≤ n) (s : EmitState) (hs : s.registers.inUse = held) :
    Goes c P n s.registers (Kept s.registers) (expr c e) ((Task.value e).parts c s) s := by
  cases e with
  | integer | float => exact .of_follows .pushValue hs rfl rfl
  | string span content =>
    simp only [expr, Task.parts, valueTasks]
    cases c.strings.label? content with
    | some l => exact .of_follows .pushValue hs rfl rfl
    | none => exact .fault placed rfl rfl
  | var span name =>
    exact .typeHere placed rfl fun _ => .of_follows ((findVariable_follows placed).bind fun _ =>
      .withRegister placed (by omega) fun _ => Follows.pushCopy.map _) hs rfl rfl
  | call span callee args =>
    rw [Expr.nest] at h
    have ⟨hspan, hcallee, hargs⟩ := placed
    refine .typeHere placed rfl fun _ =>
      .of_eq (.check (Typing.callTarget_due _ callee hcallee) rfl fun _ _ => ?_) rfl
    exact .of_follows (.call hspan (by omega) (receiver_follows c callee held hcallee (by omega))
      (arguments_follows c args held hargs (by omega))) hs rfl rfl
  | binary span op lhs rhs =>
    rw [Expr.nest] at h
    have ⟨_, hl, hr⟩ := placed
    exact .typeHere placed rfl fun _ =>
      .of_follows (binary_follows hl hr (by omega) (expr_follows c lhs held hl (by omega))
      (expr_follows c rhs held hr (by omega))) hs rfl rfl
  | unary span op operand =>
    rw [Expr.nest] at h
    exact .typeHere placed rfl fun _ =>
      .of_follows (unary_follows placed.2 (by omega) (expr_follows c operand held placed.2 h)) hs
      rfl rfl
  | assign span op target value =>
    rw [Expr.nest] at h
    have ⟨_, ht, hv⟩ := placed
    -- The value is found while the address of the target is held, so it counts one deeper.
    exact .typeHere placed rfl fun _ =>
      .of_follows (assign_follows ht hv (by omega) (place_follows c target held ht (by omega))
      (expr_follows c value (held + 1) hv (by omega))) hs rfl rfl
  | field span whole name =>
    rw [Expr.nest] at h
    have ⟨hspan, hwhole, hname⟩ := placed
    exact .typeHere placed rfl fun _ => .typeHere hwhole rfl fun _ =>
      .check (Typing.fieldOf_failsAs (Typing.plainAt_due hname)) rfl fun _ _ =>
        .of_follows ((expr_follows c whole held hwhole h).bind fun _ =>
          (selectField_follows hspan (by omega)).map _) hs rfl rfl
  | addressOf span inner =>
    rw [Expr.nest] at h
    exact .typeHere placed rfl fun _ =>
      .of_follows (.holding (place_follows c inner held placed.2 h) fun _ =>
        Follows.pushValue.map _) hs rfl rfl
  | dereference span inner =>
    rw [Expr.nest] at h
    exact .typeHere placed rfl fun _ =>
      .of_follows ((expr_follows c inner held placed.2 h).bind fun _ =>
      .map (.withPopped placed.2.span (by omega) fun _ => .pushCopy) _) hs rfl rfl
  | sizeOf span inner =>
    exact .typeHere placed rfl fun _ =>
      .of_follows ((sizeWords_follows placed.2).bind fun _ => .pushValue) hs rfl rfl

theorem expr_follows (c : EmitContext) (e : Expr) (held : Nat) (placed : e.Placed P)
    (h : e.nest + held + 2 ≤ n) : Follows c P n held Kept (expr c e) fun _ => [.value e] :=
  .asTask (fun s hs => ⟨_, expr_goes c e held placed h s hs⟩) rfl

theorem place_goes (c : EmitContext) (e : Expr) (held : Nat) (placed : e.Placed P)
    (h : e.nest + held + 2 ≤ n) (s : EmitState) (hs : s.registers.inUse = held) :
    Goes c P n s.registers (Taken Prod.snd s.registers) (place c e)
    ((Task.place e).parts c s) s := by
  cases e with
  | var span name =>
    exact .of_follows ((findVariable_follows placed).bind fun _ =>
      .mapTaken (.acquire placed (by omega)) fun _ => rfl) hs rfl rfl
  | field span whole name =>
    rw [Expr.nest] at h
    have ⟨hspan, hwhole, hname⟩ := placed
    simp only [place, Task.parts, placeTasks]
    cases whole.addressable with
    | true =>
      exact .typeHere hwhole rfl fun _ => .check (Typing.fieldOf_failsAs (Typing.plainAt_due hname))
        rfl fun _ _ =>
        .of_follows (.mapTaken (place_follows c whole held hwhole h) fun _ => rfl) hs rfl rfl
    | false => exact .fault_bind hspan rfl rfl
  | dereference span inner =>
    rw [Expr.nest] at h
    refine .typeHere placed.2 rfl fun type => ?_
    cases type with
    | reference pointee =>
      exact .of_follows ((expr_follows c inner held placed.2 h).bind fun _ =>
        .mapTaken (.popHeld placed.2.span (by omega)) fun _ => rfl) hs rfl rfl
    | int | float | ptr | void | struct => exact .fault placed.1 rfl rfl
  | integer | float | string | call | binary | unary | assign | addressOf | sizeOf =>
    exact .fault placed.span rfl rfl

theorem place_follows (c : EmitContext) (e : Expr) (held : Nat) (placed : e.Placed P)
    (h : e.nest + held + 2 ≤ n) :
    Follows c P n held (Taken Prod.snd) (place c e) fun _ => [.place e] :=
  .asTask (fun s hs => ⟨_, place_goes c e held placed h s hs⟩) rfl

theorem receiver_follows (c : EmitContext) (e : Expr) (held : Nat) (placed : e.Placed P)
    (h : e.nest + held + 2 ≤ n) :
    Follows c P n held Kept (pushReceiver (receiver c e)) fun pool => receiverTasks pool e := by
  cases e with
  | field span whole name =>
    rw [Expr.nest] at h
    simp only [pushReceiver, receiver, bind_assoc, pure_bind]
    exact .holding (place_follows c whole held placed.2.1 h) fun _ => Follows.pushWords.map _
  | integer | float | string | var | call | binary | unary | assign | addressOf | dereference
  | sizeOf => exact .pure []

theorem arguments_follows (c : EmitContext) (es : List Expr) (held : Nat)
    (placed : Expr.AllPlaced P es)
    (h : Expr.allNest es + held + 2 ≤ n) : Follows c P n held Kept (arguments c es) fun _ =>
      es.map .value := by
  cases es with
  | nil => exact .pure _
  | cons e es =>
    rw [Expr.allNest] at h
    exact (expr_follows c e held placed.1 (by omega)).bind fun _ =>
      (arguments_follows c es held placed.2 (by omega)).map _

end

/-! ### Statements -/

def Afford (n : Nat) (es : List Expr) : Prop := ∀ e ∈ es, e.nest + 2 ≤ n

theorem Afford.whole {e : Expr} (h : Afford n e.parts) : e.nest + 2 ≤ n := h e e.mem_parts_self

theorem Afford.left (h : Afford n (es ++ es')) : Afford n es :=
  fun e he => h e (List.mem_append_left _ he)

theorem Afford.right (h : Afford n (es ++ es')) : Afford n es' :=
  fun e he => h e (List.mem_append_right _ he)

theorem Afford.inits {ds : List StaticDecl}
    (h : Afford n (ds.flatMap fun d => d.init.elim [] Expr.parts)) :
    ∀ d ∈ ds, ∀ e ∈ d.init, Afford n e.parts := fun d hd e he x hx =>
  h x (List.mem_flatMap.mpr ⟨d, hd, by rw [Option.mem_def.mp he]; exact hx⟩)

theorem exists_afford (es : List Expr) : ∃ n, 2 ≤ n ∧ Afford n es := by
  induction es with
  | nil => exact ⟨2, Nat.le_refl 2, fun _ he => by cases he⟩
  | cons e es ih =>
    obtain ⟨n, hn, h⟩ := ih
    refine ⟨max n (e.nest + 2), by omega,
      List.forall_mem_cons.mpr ⟨Nat.le_max_right .., fun e he => ?_⟩⟩
    exact Nat.le_trans (h e he) (Nat.le_max_left ..)

theorem condition_goes {e : Expr} (placed : e.Placed P) (h : Afford n e.parts)
    (hs : s.registers.inUse = held) :
    Goes c P (n + held) s.registers (Kept s.registers) (condition c e l)
      ((Task.condition e l).parts c s) s := by
  have hn := h.whole
  exact .typeHere placed rfl fun _ => .of_follows
    ((Follows.ofCheck (Typing.singleWord_failsAs (Typing.plainAt_due placed.span))).bind fun _ =>
      (expr_follows c e held placed (by omega)).bind fun _ =>
        .map (.withPopped placed.span (by omega) fun _ => .pure _) _) hs rfl rfl

theorem condition_follows {e : Expr} (placed : e.Placed P) (h : Afford n e.parts) :
    Follows c P (n + held) held Kept (condition c e l) fun _ => [.condition e l] :=
  .asTask (fun _ hs => ⟨_, condition_goes placed h hs⟩) rfl

theorem Follows.accepted {x : Emit α} (h : P span) (hx : Follows c P n held Kept x ks) :
    Follows c P n held Kept (do
        unless c.structs.accepts type found do
          Emit.fault (Typing.mismatch c.structs type found) span
        x) fun pool => .check (acceptance c type found span) :: ks pool := by
  intro s hs
  simp only [acceptance]
  cases c.structs.accepts type found with
  | false => exact .fault_bind h rfl rfl
  | true => exact .of_follows (.bind (.ofCheck .ok) fun _ => hx) hs rfl rfl

theorem exprFor_goes {e : Expr} (placed : e.Placed P) (h : Afford n e.parts)
    (hs : s.registers.inUse = held) :
    Goes c P (n + held) s.registers (Kept s.registers) (exprFor c type e)
      (valueForTasks c s type e) s := by
  have hn := h.whole
  exact .typeHere placed rfl fun _ =>
    .of_follows (.accepted placed.span (expr_follows c e held placed (by omega))) hs rfl rfl

theorem declare_supplied {f : Frame} :
    FailsAs (·.lacksRegisters = false) (f.declare structs name type) := by
  simp only [Frame.declare]
  split
  · exact .error rfl
  · exact .ite (fun _ => .error rfl) fun _ => .ok

theorem declareTop_follows {name : Name} (h : P name.span) :
    Follows c P n held Kept (declareTop c.structs name type) fun _ => [.declare name type] := by
  intro s _
  cases hdeclare : s.frame.declare c.structs name.text type with
  | ok frame =>
    have hrun : declareTop c.structs name type s = .ok () { s with frame } := by
      simp only [declareTop, get_bind, hdeclare]
      rfl
    exact .done hrun (runAll_singleton_ok hrun) rfl
  | error e =>
    have hrun : declareTop c.structs name type s = .error (.raise e name.span) s := by
      simp only [declareTop, get_bind, hdeclare]
      rfl
    exact .failed hrun (runAll_cons_error hrun) rfl ⟨h, fun _ => declare_supplied e hdeclare⟩

theorem copyResult_follows (h : P span) (hn : held + 2 ≤ n) :
    Follows c P n held Kept (copyResult words span) fun _ => [.copyResult words span] := by
  refine .asTask (fun s hs => ?_) rfl
  simp only [copyResult]
  split
  · exact ⟨_, Follows.pure _ s hs⟩
  · cases hslot : s.frame.returnSlotOffset? with
    | none =>
      refine ⟨[failing (.missingReturn "") span], .get ?_⟩
      rw [hslot]
      exact .fault h rfl rfl
    | some slot =>
      refine ⟨[.acquire span, .acquire span, .release s.registers.next.lowest,
        .release s.registers.lowest], .get ?_⟩
      rw [hslot]
      exact .of_follows (.withRegister h (by omega) fun _ => .withRegister h (by omega) fun _ =>
        .pure _) hs rfl rfl

theorem leaveFunction_follows (h : P span) (hn : held < n) :
    Follows c P n held Kept (leaveFunction span) fun _ => [.leaveFunction span] :=
  .asTask (fun s hs => ⟨_, .of_eq (Follows.withRegister h hn (fun _ => .pure _) s hs) rfl⟩) rfl

theorem returnStatement_goes {value : Option Expr} (hspan : P span) (hn : 2 ≤ n)
    (placed : ∀ e ∈ value, e.Placed P)
    (h : ∀ e ∈ value, Afford n e.parts) (hs : s.registers.inUse = held) :
    Goes c P (n + held) s.registers (Kept s.registers) (returnStatement c value span)
      (statementTasks c s (.ret span value)) s := by
  have hend : ∀ expected type code at', P at' → Follows c P (n + held) held Kept (do
      unless c.structs.accepts expected type do fault (Typing.mismatch c.structs expected type) at'
      let words := c.structs.words expected
      let result ← copyResult words span
      let leave ← leaveFunction span
      modifyFrame (·.pop words)
      return code ++ result ++ leave) fun _ => [.check (acceptance c expected type at'),
        .copyResult (c.structs.words expected) span, .leaveFunction span,
        .pop (c.structs.words expected)] :=
    fun expected type code at' hat =>
      .accepted hat ((copyResult_follows hspan (by omega)).bind fun _ =>
      (leaveFunction_follows hspan (by omega)).bind fun _ => Follows.pop.map _)
  cases value with
  | none =>
    simp only [returnStatement, Option.elim_none, pure_bind, statementTasks, returnTasks]
    cases c.returns with
    | none => exact .of_follows (Follows.pop.map _) hs rfl rfl
    | some expected => exact .of_follows (hend expected .void [] span hspan) hs rfl rfl
  | some e =>
    have he := placed e rfl
    have hn := (h e rfl).whole
    have hvalue := expr_follows c e held he (by omega : _ ≤ n + held)
    refine .typeHere he rfl fun type => ?_
    simp only [returnTasks]
    cases c.returns with
    | none => exact .of_follows (hvalue.bind fun _ => Follows.pop.map _) hs rfl rfl
    | some expected =>
      exact .of_follows (hvalue.bind fun code => hend expected type code e.span he.span) hs rfl rfl

theorem inScope_follows {x : Emit Assembly} (h : Follows c P n held Kept x ks) :
    Follows c P n held Kept (inScope comment x) fun pool => .enter :: (ks pool ++ [.leave]) := by
  have henter : Follows c P n held Kept (modifyFrame (·.enter)) fun _ => [.enter] :=
    fun _ _ => .done rfl rfl rfl
  refine henter.bind fun _ => h.bind fun code s _ => ?_
  refine .done (a := if s.frame.leave.1 = 0 then code else
    code ++ [.instruction (decrease .sp (count s.frame.leave.1)) comment])
    (t := { s with frame := s.frame.leave.2 }) ?_ rfl rfl
  show (ite (s.frame.leave.1 = 0) (pure code) (pure _) : Emit Assembly) _ = _
  by_cases hwords : s.frame.leave.1 = 0 <;> simp only [hwords, if_true, if_false] <;> rfl

theorem branch_goes {x : Emit Assembly} (h : Follows c P n held Kept x fun _ => [.statement st])
    (hs : s.registers.inUse = held) :
    Goes c P n s.registers (Kept s.registers) (asBody st x) ((Task.branch st).parts c s) s := by
  cases st with
  | block => exact h s hs
  | ret | expression | declare | ifThen | ifThenElse | loop => exact inScope_follows h s hs

theorem label_goes {f : Label → Emit β} {R : β → RegisterPool → Prop}
    (h : Goes c P n base R (f s.labels.fresh.1) tasks { s with labels := s.labels.fresh.2 }) :
    Goes c P n base R (freshLabel >>= f) (.label :: tasks) s :=
  ⟨⟨h.divides.ok, h.divides.error⟩, h.ok, h.error⟩

mutual

theorem statement_goes (st : Statement) (placed : st.Placed P) (hn : 2 ≤ n) (h : Afford n st.parts)
    (s : EmitState) (hs : s.registers.inUse = held) :
    Goes c P (n + held) s.registers (Kept s.registers) (statement c st)
    ((Task.statement st).parts c s) s := by
  cases st with
  | ret span value =>
    refine returnStatement_goes placed.1 hn placed.2 (fun e he => ?_) hs
    cases he
    exact h
  | expression span e =>
    have hn := Afford.whole (e := e) h
    exact .typeHere placed.2 rfl fun _ =>
      .of_follows ((expr_follows c e held placed.2 (by omega)).bind fun _ =>
        Follows.popWords.map _) hs rfl rfl
  | declare span type name init =>
    have ⟨_, htype, hname, hinit⟩ := placed
    refine .check ((Structs.resolveStored_failsAs htype False.elim).mono fun _ h => h.due) rfl
      fun resolved _ => ?_
    cases init with
    | some e =>
      refine (exprFor_goes (hinit e rfl) h hs).bind fun _ t _ hkept => ?_
      have hsame : t.registers = s.registers := hkept
      exact hsame ▸ (declareTop_follows hname).map _ t (hsame ▸ hs)
    | none => exact .of_follows (.bind (.map .push _) fun _ =>
        .map (declareTop_follows hname) _) hs rfl rfl
  | block span inner =>
    exact .of_follows (inScope_follows (statements_follows inner placed.2 hn h)) hs rfl rfl
  | ifThen span test yes =>
    have ⟨_, htest, hyes⟩ := placed
    have hbranch := branch_follows yes hyes hn h.right
    exact label_goes (.of_follows ((condition_follows htest h.left).bind fun _ =>
      hbranch.map _) hs rfl rfl)
  | ifThenElse span test yes no =>
    have ⟨_, htest, hyes, hno⟩ := placed
    have hbranch := branch_follows yes hyes hn h.right.left
    have hother := branch_follows no hno hn h.right.right
    exact label_goes (.of_follows ((condition_follows htest h.left).bind fun _ =>
      hbranch.bind fun _ =>
      Follows.freshLabel.bind fun _ => hother.map _) hs rfl rfl)
  | loop span test repeated =>
    have ⟨_, htest, hrepeated⟩ := placed
    have hbranch := branch_follows repeated hrepeated hn h.right
    exact label_goes (label_goes
      (.of_follows ((condition_follows htest h.left).bind fun _ => hbranch.map _) hs rfl rfl))

theorem statement_follows (st : Statement) (placed : st.Placed P) (hn : 2 ≤ n)
    (h : Afford n st.parts) :
    Follows c P (n + held) held Kept (statement c st) fun _ => [.statement st] :=
  .asTask (fun s hs => ⟨_, statement_goes st placed hn h s hs⟩) rfl

theorem branch_follows (st : Statement) (placed : st.Placed P) (hn : 2 ≤ n)
    (h : Afford n st.parts) :
    Follows c P (n + held) held Kept (asBody st (statement c st)) fun _ => [.branch st] :=
  .asTask (fun _ hs =>
    ⟨_, branch_goes (.asTask (fun s hs => ⟨_, statement_goes st placed hn h s hs⟩) rfl) hs⟩) rfl

theorem statements_follows (ss : List Statement) (placed : Statement.AllPlaced P ss) (hn : 2 ≤ n)
    (h : Afford n (Statement.allParts ss)) :
    Follows c P (n + held) held Kept (statements c ss) fun _ => ss.map .statement := by
  cases ss with
  | nil => exact .pure _
  | cons st ss =>
    have hfirst : Follows c P (n + held) held Kept (statement c st) fun _ => [.statement st] :=
      .asTask (fun s hs => ⟨_, statement_goes st placed.1 hn h.left s hs⟩) rfl
    exact hfirst.bind fun _ => (statements_follows ss placed.2 hn h.right).map _

end

/-! ### Programs -/

theorem fillStrings_follows (origin : P ⟨0, 0⟩) (hn : held < n) :
    Follows c P n held Kept (fillStrings c.strings) fun _ => [.fillStrings] := by
  refine .asTask (fun s hs => ?_) rfl
  simp only [fillStrings]
  split
  · exact ⟨_, Follows.pure _ s hs⟩
  · exact ⟨_, Follows.withRegister origin hn (fun _ => .pure _) s hs⟩

theorem initialise_goes {e : Expr} (placed : e.Placed P) (h : Afford n e.parts)
    (hs : s.registers.inUse = held) :
    Goes c P (n + held) s.registers (Kept s.registers) (initialise c name e)
      ((Task.initialise name e).parts c s) s := by
  have hn := h.whole
  refine .get ?_
  simp only [Task.parts]
  rcases s.frame.lookup name with _ | ⟨type, _ | l⟩
  · exact .fault placed.span rfl rfl
  · exact .fault placed.span rfl rfl
  · refine (exprFor_goes placed h hs).bind fun _ t _ hkept => ?_
    exact .of_follows (Follows.popWords.bind fun _ => .withRegister placed.span (by omega) fun _ =>
      .withRegister placed.span (by omega) fun _ => .pure _) hs hkept rfl

theorem initialiseAll_follows {ds : List StaticDecl} (placed : ∀ d ∈ ds, d.Placed P)
    (h : ∀ d ∈ ds, ∀ e ∈ d.init, Afford n e.parts) :
    Follows c P (n + held) held Kept (initialiseAll c ds)
      fun _ => ds.flatMap fun d => d.init.elim [] fun e => [.initialise d.name.text e] := by
  induction ds with
  | nil => exact .pure _
  | cons d ds ih =>
    obtain ⟨hplaced, placed⟩ := List.forall_mem_cons.mp placed
    obtain ⟨hd, hds⟩ := List.forall_mem_cons.mp h
    have hfirst : Follows c P (n + held) held Kept
      (d.init.elim (pure []) (initialise c d.name.text))
        fun _ => d.init.elim [] fun e => [.initialise d.name.text e] := by
      cases hinit : d.init with
      | none => exact .pure _
      | some e => exact .asTask (fun _ hs =>
          ⟨_, initialise_goes (hplaced.init e hinit) (hd e hinit) hs⟩) rfl
    exact hfirst.bind fun _ => (ih placed hds).map _

theorem start_goes {x : Emit α} (h : Follows c P n 0 Kept x ks) (hks : ks .empty = tasks)
    (s : EmitState) :
    Goes c P n .empty (Kept .empty) (enterFrame frame >>= fun _ => x)
      (.start frame :: tasks) s := by
  have h : Goes c P n .empty (Kept .empty) x tasks ⟨frame, .empty, s.labels⟩ :=
    .of_follows h RegisterPool.inUse_empty rfl hks
  exact ⟨⟨h.divides.ok, h.divides.error⟩, h.ok, h.error⟩

theorem body_goes {p : Program} (placed : p.Placed P) (origin : P ⟨0, 0⟩) (hn : 2 ≤ n)
    (hinits : ∀ d ∈ p.statics, ∀ e ∈ d.init, Afford n e.parts)
    (hbody : Afford n (Statement.allParts p.body)) (statics : List StaticVariable) (s : EmitState) :
    Goes c P n .empty (Kept .empty) (body c statics p)
    (.start (.topLevel statics) :: bodyTasks p) s :=
  start_goes ((fillStrings_follows origin (by omega)).bind fun _ =>
    (initialiseAll_follows placed.statics hinits).bind fun _ =>
    (statements_follows p.body placed.body hn hbody).map _) rfl s

theorem function_goes {decl : FunctionDecl} (placed : decl.Placed P) (hn : 2 ≤ n)
    (h : Afford n (Statement.allParts decl.body)) (known : c.functions.get? name = some signature)
    (returns : ¬(signature.returns ≠ .void ∧ !Statement.anyReturns decl.body))
    (statics : List StaticVariable) (s : EmitState) :
    Goes (c.inside signature) P n .empty (Kept .empty) (function c statics name decl)
      (.start (.ofSignature c.structs statics signature) :: functionTasks decl) s := by
  have hblock : Follows (c.inside signature) P (n + 0) 0 Kept
      (statement (c.inside signature) (.block decl.name.span decl.body)) _ :=
    statement_follows (.block decl.name.span decl.body) ⟨placed.name, placed.body⟩ hn h
  simp only [function, known, if_neg returns, functionTasks]
  cases Statement.anyReturns decl.body with
  | true => exact start_goes (hblock.bind fun _ => .pure _) rfl s
  | false =>
    have hreturn : Follows (c.inside signature) P (n + 0) 0 Kept
        (statement (c.inside signature) (.ret decl.name.span none)) _ :=
      statement_follows (.ret decl.name.span none) ⟨placed.name, by simp⟩ hn
        (fun _ he => by cases he)
    exact start_goes (hblock.bind fun _ => hreturn.map _) rfl s

/-! ### Tasks and their parts -/

theorem Divides.only {x : Emit α} (h : Divides c x tasks s) : Divides c (only x) tasks s where
  ok _ t run := by
    obtain ⟨a, u, hok, hrest⟩ := bind_ok.mp run
    cases hrest
    exact h.ok a t hok
  error f t run := by
    rcases bind_error run with herror | ⟨_, _, _, herror⟩
    · exact h.error f t herror
    · cases herror

theorem Task.divides_self (k : Task) : Divides c (k.run c) [k] s :=
  ⟨fun _ _ => runAll_singleton_ok, fun _ t run => ⟨t, runAll_cons_error run, rfl⟩⟩

/-- Running a task is running its parts. -/
theorem Task.divides (k : Task) (s : EmitState) : Divides c (k.run c) (k.parts c s) s := by
  cases k with
  | value e => exact (expr_goes c e _ e.placed_true (Nat.le_refl _) s rfl).divides.only
  | place e => exact (place_goes c e _ e.placed_true (Nat.le_refl _) s rfl).divides.only
  | condition e l =>
    obtain ⟨n, -, h⟩ := exists_afford e.parts
    exact (condition_goes e.placed_true h rfl).divides.only
  | initialise name e =>
    obtain ⟨n, -, h⟩ := exists_afford e.parts
    exact (initialise_goes e.placed_true h rfl).divides.only
  | statement st =>
    obtain ⟨n, hn, h⟩ := exists_afford st.parts
    exact (statement_goes st st.placed_true hn h s rfl).divides.only
  | branch st =>
    obtain ⟨n, hn, h⟩ := exists_afford st.parts
    exact (branch_goes (statement_follows st st.placed_true hn h) rfl).divides.only
  | _ => exact divides_self _

theorem body_divides (p : Program) (statics : List StaticVariable) (s : EmitState) :
    Divides c (body c statics p) (.start (.topLevel statics) :: bodyTasks p) s := by
  obtain ⟨n, hn, h⟩ :=
    exists_afford (p.statics.flatMap (fun d => d.init.elim [] Expr.parts) ++
      Statement.allParts p.body)
  exact (body_goes p.placed_true trivial hn h.left.inits h.right statics s).divides

theorem function_divides {decl : FunctionDecl} (known : c.functions.get? name = some signature)
    (returns : ¬(signature.returns ≠ .void ∧ !Statement.anyReturns decl.body))
    (statics : List StaticVariable) (s : EmitState) :
    Divides (c.inside signature) (function c statics name decl)
      (.start (.ofSignature c.structs statics signature) :: functionTasks decl) s := by
  obtain ⟨n, hn, h⟩ := exists_afford (Statement.allParts decl.body)
  exact (function_goes decl.placed_true hn h known returns statics s).divides

end

end Emit

end WordScript
