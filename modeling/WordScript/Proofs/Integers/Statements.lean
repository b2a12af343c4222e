import WordScript.Proofs.Integers.Expressions

/-!
# Code for integer statements

Between two statements memory holds the variables of the interpreter and nothing else, up to the
stack pointer. Each round of a loop takes a step at least, so a script that is still running after
`n` rounds has run for `n` steps.
-/

namespace WordScript

open Emit

/-- Between two statements: the frame's variables are those of the interpreter, and all that is on
the stack. -/
structure Settled (img : Image) (base : Nat) (frame : Frame) (env : Env) (s : Store) : Prop where
  mirrors : Mirrors img base frame.variables env
  length : env.length = base + frame.depth
  stacked : Stacked s.memory env
  sp : s.registers .sp = .ofInt (base + frame.depth)

namespace Emit.Block

def run (rounds : Nat) : Block → Env → Except Stop Env
  | .one s => s.execute rounds
  | .many ss => Statement.executeAll rounds ss
  | .body s => Env.inScope (s.execute rounds)

def integral : Block → Bool
  | .one s | .body s => s.integral
  | .many ss => Statement.allIntegral ss

/-- The code does what the interpreter does with the block. It makes more steps than loops have
rounds, if those do not suffice. -/
def Executes (img : Image) (base : Nat) (may : Stop → Prop) (G : Nat → State → Prop) (rounds : Nat)
    (frame : Frame) (run : Env → Except Stop Env) (code : Assembly) (frame' : Frame) : Prop :=
  ∀ (env : Env) (s : Store) (k : Nat), k ≤ rounds → Settled img base frame env s →
    (∀ stop, run env = .error stop → may stop) →
    img.Leads (G k) code (fun s' => ∃ env', run env = .ok env' ∧ Settled img base frame' env' s') s

end Emit.Block

theorem Goal.mono (goal : Goal img may G) (h : G n x) (hle : k ≤ n) : G k x := by
  induction n with
  | zero => exact Nat.le_zero.mp hle ▸ h
  | succ n ih =>
    rcases Nat.le_succ_iff.mp hle with hle | rfl
    · exact ih (goal.pred n x h) hle
    · exact h

theorem Mirrors.length (h : Mirrors img base vs env) : vs.length = env.length := by
  induction h with
  | nil => rfl
  | cons _ _ ih => rw [List.length_cons, List.length_cons, ih]

theorem Mirrors.drop (h : Mirrors img base (front ++ vs) env) :
    Mirrors img base vs (env.drop front.length) := by
  induction front generalizing env with
  | nil => exact h
  | cons v front ih =>
    cases h with
    | cons here rest => exact ih rest

theorem Structs.resolveStored_int {structs : Structs} {t : TypeName} (h : t.isInt = true) :
    structs.resolveStored t = .ok .int := by
  obtain ⟨hname, hrefs⟩ := Bool.and_eq_true_iff.mp h
  simp only [beq_iff_eq] at hname hrefs
  simp only [resolveStored, resolve, baseType?, hname, hrefs]
  rfl

theorem Frame.variables_leave {f g : Frame} (h : f.leave = (words, g)) :
    ∃ front, f.variables = front ++ g.variables := by
  rw [leave] at h
  cases hscopes : f.scopes with
  | nil =>
    simp only [hscopes, Prod.mk.injEq] at h
    exact ⟨[], by rw [h.2]; rfl⟩
  | cons scope outer =>
    simp only [hscopes, Prod.mk.injEq] at h
    obtain ⟨-, rfl⟩ := h
    exact ⟨scope.entries, by simp only [Frame.variables, hscopes, List.flatMap_cons]⟩

namespace Settled

variable {img : Image} {base : Nat} {frame frame' : Frame} {env env' : Env} {s s' : Store}

theorem changed (h : Settled img base frame env s) (names : env'.map Prod.fst = env.map Prod.fst)
    (stacked : Stacked s'.memory env') (hsp : s'.registers .sp = .ofInt (base + frame.depth)) :
    Settled img base frame env' s' := by
  have hlength : env'.length = env.length := by
    simpa only [List.length_map] using congrArg List.length names
  exact ⟨h.mirrors.congr names, by rw [hlength]; exact h.length, stacked, hsp⟩

theorem popped (h : Settled img base frame env s)
    (h₁ : Valued pool env env₁ (base + frame.depth) a s s₁)
    (hpop : s₁.Pushes s₂ (base + frame.depth) 0 used) : Settled img base frame env₁ s₂ := by
  refine h.changed h₁.names (h₁.stacked.congr fun i hi => hpop.memory i (.inl ?_))
    (by simpa using hpop.sp)
  have := h.length
  have := h₁.length
  omega

theorem enter (h : Settled img base frame env s) : Settled img base frame.enter env s :=
  ⟨h.mirrors, h.length, h.stacked, h.sp⟩

theorem declare {structs : Structs} (mirrors : Mirrors img base frame.variables env)
    (length : env.length = base + frame.depth)
    (stacked : Stacked s.memory env) (value : (s.memory (base + frame.depth)).toInt = a)
    (hsp : s.registers .sp = .ofInt (base + frame.depth + 1))
    (declared : (frame.push 1).declare structs name .int = .ok frame') :
    Settled img base frame' ((name, a) :: env) s := by
  obtain ⟨scope, outer, hscopes, rfl⟩ := Frame.declare_eq_ok declared
  rw [Frame.scopes_push] at hscopes
  have hvars : scope.entries ++ outer.flatMap Scope.entries = frame.variables := by
    rw [Frame.variables, hscopes, List.flatMap_cons]
  have hrest : Mirrors img base (scope.entries ++ outer.flatMap Scope.entries) env := by
    rw [hvars]
    exact mirrors
  refine ⟨.cons ⟨rfl, .inl (congrArg Storage.frame ?_)⟩ hrest, ?_,
    ⟨by rw [length]; exact value, stacked⟩, ?_⟩
  · simp only [Frame.depth_push, Structs.words_int]
    omega
  · simp only [Frame.depth_push, List.length_cons]
    omega
  · simp only [Frame.depth_push]
    rw [hsp, Int.add_assoc]
    rfl

theorem leave {frame₁ : Frame} {env₁ : Env} (h : Settled img base frame env s)
    (h₁ : Settled img base frame₁ env₁ s') (left : frame₁.leave = (words, frame)) :
    Settled img base frame (env₁.drop (env₁.length - env.length))
    (s'.set .sp (.ofInt (base + frame.depth))) := by
  obtain ⟨front, hvars⟩ := Frame.variables_leave left
  have hmirrors := h₁.mirrors
  rw [hvars] at hmirrors
  have hlength := hmirrors.length
  rw [List.length_append, h.mirrors.length] at hlength
  have hdrop : env₁.length - env.length = front.length := by omega
  rw [hdrop]
  have hrest := hmirrors.drop
  refine ⟨hrest, ?_, h₁.stacked.drop _, by simp⟩
  rw [← hrest.length, h.mirrors.length]
  exact h.length

end Settled

theorem Env.inScope_inScope (run : Env → Except Stop Env) :
    inScope (inScope run) = inScope run := by
  funext env
  cases h : run env with
  | error stop => simp only [inScope, h, bind, Except.bind]
  | ok after =>
    simp only [inScope, h, bind, Except.bind, pure, Except.pure, List.length_drop]
    rw [show after.length - (after.length - env.length) - env.length = 0 by omega, List.drop_zero]

/-! ### The rules -/

namespace Emit.Block.Executes

variable {img : Image} {base : Nat} {may : Stop → Prop} {G : Nat → State → Prop} {rounds : Nat}
  {frame frame' : Frame}
  {pool : RegisterPool} {e : Expr} {code : Assembly} {run : Env → Except Stop Env}

theorem stop (goal : Goal img may G) (value : Computes img base may G frame pool e code)
    (fits : img.Fits (base + frame.depth) 1) :
    Executes img base may G rounds frame ((Statement.ret span (some e)).execute rounds)
      (code ++ [line .halt]) frame := by
  intro env s k _ h hstop pc here _
  refine value env s k h.mirrors h.stacked h.sp (Int.le_of_eq h.length) (fun stop hs =>
    hstop stop ?_) pc here.left ?_
  · simp only [Statement.execute, hs, bind, Except.bind]
  rintro s₁ ⟨a, env₁, ha, h₁⟩
  have hlength : (env₁.length : Int) = base + frame.depth := by rw [h₁.length, h.length]
  refine goal.returned a env₁ (hstop _ ?_) k _ (.halt here.right) (by rw [hlength]; exact fits)
    (by rw [hlength]; exact h₁.sp) h₁.stacked (by rw [hlength]; exact h₁.value)
  simp only [Statement.execute, ha, bind, Except.bind]

theorem expression (goal : Goal img may G) (value : Computes img base may G frame pool e code) :
    Executes img base may G rounds frame ((Statement.expression span e).execute rounds)
      (code ++ lowerSp 1) frame := by
  intro env s k _ h hstop
  refine (value env s k h.mirrors h.stacked h.sp (Int.le_of_eq h.length) fun stop hs =>
    hstop stop ?_).append ?_
  · simp only [Statement.execute, hs, bind, Except.bind]
  rintro s₁ ⟨a, env₁, ha, h₁⟩
  refine (goal.closed k).leads
    (Image.wp_lowerSp h₁.sp ⟨env₁, ?_, h.changed h₁.names h₁.stacked (by simp)⟩)
  simp only [Statement.execute, ha, bind, Except.bind]
  rfl

theorem declare {structs : Structs} {name : Name}
    (value : Computes img base may G frame pool e code)
    (declared : (frame.push 1).declare structs name.text .int = .ok frame') :
    Executes img base may G rounds frame
      ((Statement.declare span written name (some e)).execute rounds) code frame' := by
  intro env s k _ h hstop
  refine (value env s k h.mirrors h.stacked h.sp (Int.le_of_eq h.length) fun stop hs =>
    hstop stop ?_).imp ?_
  · simp only [Statement.execute, hs, bind, Except.bind]
  rintro s₁ ⟨a, env₁, ha, h₁⟩
  refine ⟨(name.text, a) :: env₁, ?_,
    .declare (h.mirrors.congr h₁.names) (by rw [h₁.length]; exact h.length) h₁.stacked
    h₁.value h₁.sp declared⟩
  simp only [Statement.execute, ha, bind, Except.bind]
  rfl

theorem declareZero {structs : Structs} {name : Name} (goal : Goal img may G)
    (fits : img.Fits (base + frame.depth) 1)
    (declared : (frame.push 1).declare structs name.text .int = .ok frame') :
    Executes img base may G rounds frame ((Statement.declare span written name none).execute rounds)
      (zerosCode 1) frame' := by
  intro env s k _ h _
  refine (goal.closed k).leads (Image.wp_zerosCode h.sp ⟨fits.nonneg, Int.le_of_lt fits.small⟩
    (.inl fits.inside) fun s' hsp hzero hmem =>
    ⟨(name.text, 0) :: env, rfl, .declare h.mirrors h.length ?_ ?_ hsp declared⟩)
  · exact h.stacked.congr fun i hi => hmem i (.inl (by have := h.length; omega))
  · rw [hzero _ (Int.le_refl _) (by omega)]
    rfl

theorem inScope (goal : Goal img may G)
    (inner : Executes img base may G rounds frame.enter run code frame₁)
    (left : frame₁.leave = (words, frame)) :
    Executes img base may G rounds frame (Env.inScope run)
      (code ++ dropCode comment words) frame := by
  intro env s k hk h hstop
  refine (inner env s k hk h.enter fun stop hs => hstop stop ?_).append ?_
  · simp only [Env.inScope, hs, bind, Except.bind]
  rintro s₁ ⟨env₁, hrun, h₁⟩
  have hdepth : frame₁.depth = frame.depth + words := by
    have := depth_leave left
    simp only [Frame.enter] at this
    omega
  have hsp := h₁.sp
  rw [hdepth, ← Int.add_assoc] at hsp
  refine (goal.closed k).leads (Image.wp_dropCode hsp ⟨_, ?_, h.leave h₁ left⟩)
  simp only [Env.inScope, hrun, bind, Except.bind]
  rfl

theorem cons {st : Statement}
    (first : Executes img base may G rounds frame (st.execute rounds) code frame₁)
    (rest : Executes img base may G rounds frame₁ (Statement.executeAll rounds ss)
      restCode frame₂) :
    Executes img base may G rounds frame (Statement.executeAll rounds (st :: ss))
      (code ++ restCode) frame₂ := by
  intro env s k hk h hstop
  refine (first env s k hk h fun stop hs => hstop stop ?_).append ?_
  · simp only [Statement.executeAll, hs, bind, Except.bind]
  rintro s₁ ⟨env₁, hrun, h₁⟩
  have hnext : Statement.executeAll rounds (st :: ss) env =
      Statement.executeAll rounds ss env₁ := by
    simp only [Statement.executeAll, hrun, bind, Except.bind]
  rw [hnext] at hstop ⊢
  exact rest env₁ s₁ k hk h₁ hstop

theorem block (h : Executes img base may G rounds frame ((Statement.block span ss).execute rounds)
      code frame') :
    Executes img base may G rounds frame (Env.inScope ((Statement.block span ss).execute rounds))
      code frame' := by
  have hblock : (Statement.block span ss).execute rounds =
      Env.inScope (Statement.executeAll rounds ss) := by
    funext env
    rw [Statement.execute]
  rw [hblock, Env.inScope_inScope, ← hblock]
  exact h

theorem zeroTest_int (w : Word) :
    Relation.equal.holds (Word.compare (numKind .int) w 0) = decide (w.toInt = 0) :=
  holds_compare .equal w 0

section
variable {test : Expr} {testing yesCode noCode : Assembly} {yes no : Statement}

theorem ifThen (goal : Goal img may G) (hp : img.Proper) (fits : img.Fits (base + frame.depth) 1)
    (htest : Computes img base may G frame pool test testing)
    (hyes : Executes img base may G rounds frame (Env.inScope (yes.execute rounds)) yesCode frame) :
    Executes img base may G rounds frame ((Statement.ifThen span test yes).execute rounds)
      (testing ++ testCode (.general r) .int .equal l ++ yesCode ++ [.label l]) frame := by
  intro env s k hk h hstop
  refine (goal.closed k).ifThen hp (htest env s k h.mirrors h.stacked h.sp (Int.le_of_eq h.length)
    fun stop hs => hstop stop ?_)
    ?_ (fits.addressable (Nat.le_refl 1)) (.inl (fits.lt (Nat.le_refl 1))) ?_ ?_
  · simp only [Statement.execute, hs, bind, Except.bind]
  · rintro s₁ ⟨a, env₁, -, h₁⟩
    exact h₁.sp
  · rintro s₁ s₂ ⟨a, env₁, ha, h₁⟩ hpop hzero
    have hne : a ≠ 0 := by simpa [zeroTest_int, h₁.value] using hzero
    have hrun : (Statement.ifThen span test yes).execute rounds env =
        env₁.inScope (yes.execute rounds) := by
      simp only [Statement.execute, ha, bind, Except.bind, hne, ↓reduceIte]
    rw [hrun] at hstop ⊢
    exact hyes env₁ s₂ k hk (h.popped h₁ hpop) hstop
  · rintro s₁ s₂ ⟨a, env₁, ha, h₁⟩ hpop hzero
    have heq : a = 0 := by simpa [zeroTest_int, h₁.value] using hzero
    refine ⟨env₁, ?_, h.popped h₁ hpop⟩
    simp only [Statement.execute, ha, bind, Except.bind, heq, ↓reduceIte]
    rfl

theorem ifThenElse (goal : Goal img may G) (hp : img.Proper)
    (fits : img.Fits (base + frame.depth) 1)
    (htest : Computes img base may G frame pool test testing)
    (hyes : Executes img base may G rounds frame (Env.inScope (yes.execute rounds)) yesCode frame)
    (hno : Executes img base may G rounds frame (Env.inScope (no.execute rounds)) noCode frame) :
    Executes img base may G rounds frame ((Statement.ifThenElse span test yes no).execute rounds)
      (testing ++ testCode (.general r) .int .equal l ++ yesCode ++ line (.jmp (labelled done)) ::
        .label l :: noCode ++
        [.label done]) frame := by
  intro env s k hk h hstop
  refine (goal.closed k).ifThenElse hp
    (htest env s k h.mirrors h.stacked h.sp (Int.le_of_eq h.length) fun stop hs => hstop stop ?_)
    ?_ (fits.addressable (Nat.le_refl 1)) (.inl (fits.lt (Nat.le_refl 1))) ?_ ?_
  · simp only [Statement.execute, hs, bind, Except.bind]
  · rintro s₁ ⟨a, env₁, -, h₁⟩
    exact h₁.sp
  · rintro s₁ s₂ ⟨a, env₁, ha, h₁⟩ hpop hzero
    have hne : a ≠ 0 := by simpa [zeroTest_int, h₁.value] using hzero
    have hrun : (Statement.ifThenElse span test yes no).execute rounds env =
        env₁.inScope (yes.execute rounds) := by
      simp only [Statement.execute, ha, bind, Except.bind, hne, ↓reduceIte]
    rw [hrun] at hstop ⊢
    exact hyes env₁ s₂ k hk (h.popped h₁ hpop) hstop
  · rintro s₁ s₂ ⟨a, env₁, ha, h₁⟩ hpop hzero
    have heq : a = 0 := by simpa [zeroTest_int, h₁.value] using hzero
    have hrun : (Statement.ifThenElse span test yes no).execute rounds env =
        env₁.inScope (no.execute rounds) := by
      simp only [Statement.execute, ha, bind, Except.bind, heq, ↓reduceIte]
    rw [hrun] at hstop ⊢
    exact hno env₁ s₂ k hk (h.popped h₁ hpop) hstop

/-- A loop that makes its test so many times at most. -/
theorem repeatWhile (goal : Goal img may G) (hp : img.Proper)
    (fits : img.Fits (base + frame.depth) 1)
    (htest : Computes img base may G frame pool test testing)
    (hround : Executes img base may G rounds frame run code frame) {m : Nat} (hm : m ≤ rounds)
    (env : Env) (s : Store) (k : Nat) (hk : k ≤ m) (h : Settled img base frame env s)
    (hstop : ∀ stop, env.repeatWhile test.evaluate run m = .error stop → may stop) :
    img.Leads (G k) (.label start :: (testing ++ testCode (.general r) .int .equal done ++ code ++
      [line (.jmp (labelled start)), .label done]))
      (fun s' => ∃ env', env.repeatWhile test.evaluate run m = .ok env' ∧
        Settled img base frame env' s') s := by
  induction m generalizing env s k with
  | zero =>
    intro pc _ _
    obtain rfl := Nat.le_zero.mp hk
    exact goal.exhausted (hstop .exhausted rfl) _
  | succ m ih =>
    intro pc here hpast
    refine (goal.closed k).loop hp here
      (htest env s k h.mirrors h.stacked h.sp (Int.le_of_eq h.length) fun stop hs => hstop stop ?_)
      (R := fun s₃ => ∃ a env₁ env₂, test.evaluate env = .ok (a, env₁) ∧ a ≠ 0 ∧
        run env₁ = .ok env₂ ∧
        Settled img base frame env₂ s₃)
      ?_ (fits.addressable (Nat.le_refl 1)) (.inl (fits.lt (Nat.le_refl 1))) ?_ ?_ ?_
    · simp only [Env.repeatWhile, hs, bind, Except.bind]
    · rintro s₁ ⟨a, env₁, -, h₁⟩
      exact h₁.sp
    · rintro s₁ s₂ ⟨a, env₁, ha, h₁⟩ hpop hzero
      have hne : a ≠ 0 := by simpa [zeroTest_int, h₁.value] using hzero
      refine (hround env₁ s₂ k (by omega) (h.popped h₁ hpop) fun stop hs => hstop stop ?_).imp ?_
      · simp only [Env.repeatWhile, ha, hs, bind, Except.bind, hne, ↓reduceIte]
      · rintro s₃ ⟨env₂, hrun, h₃⟩
        exact ⟨a, env₁, env₂, ha, hne, hrun, h₃⟩
    · rintro s₃ ⟨a, env₁, env₂, ha, hne, hrun, h₃⟩ x hstep
      have hnext : env.repeatWhile test.evaluate run (m + 1) =
          env₂.repeatWhile test.evaluate run m := by
        simp only [Env.repeatWhile, ha, hrun, bind, Except.bind, hne, ↓reduceIte]
      rw [hnext] at hstop hpast
      -- The jump back is a step, so one less is to go.
      have hrest := ih (by omega) env₂ s₃ (k - 1) (by omega) h₃ hstop pc here fun s' hs' =>
        goal.mono (hpast s' hs') (by omega)
      exact goal.mono (goal.tick (k - 1) x _ hstep hrest) (by omega)
    · rintro s₁ s₂ ⟨a, env₁, ha, h₁⟩ hpop hzero
      have heq : a = 0 := by simpa [zeroTest_int, h₁.value] using hzero
      refine hpast s₂ ⟨env₁, ?_, h.popped h₁ hpop⟩
      simp only [Env.repeatWhile, ha, bind, Except.bind, heq, ↓reduceIte]
      rfl

end

end Emit.Block.Executes

/-! ### All integer statements -/

namespace Emit

variable {img : Image} {c : EmitContext} {base : Nat} {may : Stop → Prop} {G : Nat → State → Prop}
  {frame frame' : Frame} {pool : RegisterPool}

theorem Emits.computes_alone (goal : Goal img may G) (hp : img.Proper) (sound : c.structs.Sound)
    (live : pool.live = [])
    (h : Emits c frame pool n (.value e type) code n') (integral : e.integral = true)
    (fits : img.Fits (base + frame.depth) (e.height c.structs c.functions frame.scopes 0)) :
    Computes img base may G frame pool e code :=
  h.computes goal hp sound integral (by simpa [live] using fits)

theorem EmitsCode.executes (goal : Goal img may G) (hp : img.Proper) (sound : c.structs.Sound)
    (outside : c.returns = none)
    (live : pool.live = []) (rounds : Nat) (h : EmitsCode c pool frame n b code frame' n')
    (integral : b.integral = true)
    (fits : img.Fits (base + frame.depth) (b.height c.structs c.functions frame)) :
    Block.Executes img base may G rounds frame (b.run rounds) code frame' := by
  induction h with
  | stop result _ =>
    cases result with
    | none => cases integral
    | some value =>
      have hwords := value.words_le sound live (Expr.plain_of_integral _ integral)
      rw [Block.run]
      intro env s k hk hsettled
      obtain rfl := value.type_int integral hsettled.mirrors
      exact Block.Executes.stop goal (value.computes_alone goal hp sound live integral fits)
        (fits.mono hwords) env s k hk hsettled
  -- Outside of functions a return stops the machine, so there is no code that leaves.
  | ret _ inside => simp [outside] at inside
  | expression value =>
    rw [Block.run]
    intro env s k hk hsettled
    obtain rfl := value.type_int integral hsettled.mirrors
    exact Block.Executes.expression goal (value.computes_alone goal hp sound live integral fits) env
      s k hk hsettled
  | declare resolved value accepted same declared =>
    obtain ⟨hint, hinit⟩ := Bool.and_eq_true_iff.mp integral
    obtain rfl := Except.ok.inj ((Structs.resolveStored_int hint).symm.trans resolved)
    rw [Block.run]
    exact .declare (value.computes_alone goal hp sound live hinit fits) declared
  | declareZero resolved declared =>
    obtain ⟨hint, -⟩ := Bool.and_eq_true_iff.mp integral
    obtain rfl := Except.ok.inj ((Structs.resolveStored_int hint).symm.trans resolved)
    simp only [Block.height, Statement.height, resolved] at fits
    rw [Block.run]
    exact .declareZero goal fits declared
  | block body left ih => exact .inScope goal (ih integral fits) left
  | ifThen test single free yes ih =>
    obtain ⟨htest, hyes⟩ := Bool.and_eq_true_iff.mp integral
    have hwords := test.words_le sound live (Expr.plain_of_integral _ htest)
    rw [single] at hwords
    simp only [Block.height, Statement.height] at fits
    rw [Block.run]
    intro env s k hk hsettled
    obtain rfl := test.type_int htest hsettled.mirrors
    exact Block.Executes.ifThen goal hp (fits.mono (by omega))
      (test.computes_alone goal hp sound live htest (fits.mono (by omega)))
      (ih hyes (fits.mono (by simp only [Block.height]; omega)))
      env s k hk hsettled
  | ifThenElse test single free yes no ihy ihn =>
    simp only [Block.integral, Statement.integral, Bool.and_eq_true] at integral
    have hwords := test.words_le sound live (Expr.plain_of_integral _ integral.1.1)
    rw [single] at hwords
    simp only [Block.height, Statement.height] at fits
    rw [Block.run]
    intro env s k hk hsettled
    obtain rfl := test.type_int integral.1.1 hsettled.mirrors
    exact Block.Executes.ifThenElse goal hp (fits.mono (by omega))
      (test.computes_alone goal hp sound live integral.1.1 (fits.mono (by omega)))
      (ihy integral.1.2 (fits.mono (by simp only [Block.height]; omega)))
      (ihn integral.2 (fits.mono (by simp only [Block.height]; omega))) env s k hk hsettled
  | loop test single free body ih =>
    obtain ⟨htest, hbody⟩ := Bool.and_eq_true_iff.mp integral
    have hwords := test.words_le sound live (Expr.plain_of_integral _ htest)
    rw [single] at hwords
    simp only [Block.height, Statement.height] at fits
    rw [Block.run]
    intro env s k hk hsettled
    obtain rfl := test.type_int htest hsettled.mirrors
    exact Block.Executes.repeatWhile goal hp (fits.mono (by omega))
      (test.computes_alone goal hp sound live htest (fits.mono (by omega)))
      (ih hbody (fits.mono (by simp only [Block.height]; omega))) (Nat.le_refl rounds) env
      s k hk hsettled
  | nil => exact fun env s k _ hsettled _ => .nil ⟨env, rfl, hsettled⟩
  | cons first rest ihf ihr =>
    obtain ⟨hfirst, hrest⟩ := Bool.and_eq_true_iff.mp integral
    simp only [Block.height, Statement.allHeight] at fits ihf ihr
    have hdepth := first.depth
    refine .cons (ihf hfirst (fits.mono (by omega))) (ihr hrest ?_)
    -- The statements after a declaration run above the words that it left.
    rw [hdepth, ← Int.add_assoc, first.next]
    exact fits.push (by omega)
  | bodyBlock block ih => exact .block (ih integral fits)
  | bodyScoped single inner left ih =>
    simp only [Block.height, bodyFrame_of_single single] at fits
    exact .inScope goal (ih integral fits) left

end Emit

end WordScript
