import WordScript.Proofs.Integers.Variables

/-!
# Code for integer expressions

Code for an integer expression does what the interpreter does: it leaves the value on the stack and
each variable with its value in memory, or divides by zero where the interpreter stops for that
reason.
-/

namespace WordScript

open Emit

/-! ### What a run comes to -/

/-- Claims about what happens from a state on, one for each number of steps that are still to go.
They can be shown backwards, and hold where the script stops for a reason that it `may` stop for. -/
structure Goal (img : Image) (may : Stop → Prop) (G : Nat → State → Prop) : Prop where
  tick : ∀ n x y, img.Step x y → G n y → G (n + 1) x
  pred : ∀ n x, G (n + 1) x → G n x
  division : may .division → ∀ n x, img.Traps x .division → G n x
  exhausted : may .exhausted → ∀ x, G 0 x
  returned : ∀ value env, may (.returned value env) → ∀ n x, img.Halts x → img.Fits env.length 1 →
    x.store.registers .sp = .ofInt (env.length + 1) → Stacked x.store.memory env →
    (x.store.memory env.length).toInt = value → G n x

namespace Goal

variable {img : Image} {may : Stop → Prop} {G : Nat → State → Prop}

theorem closed (goal : Goal img may G) (n : Nat) :
    img.Closed (fun t => t = .division ∧ may .division) (G n) where
  step x y hstep hy := goal.pred n x (goal.tick n x y hstep hy)
  trap x t ht hok := by
    obtain ⟨rfl, hmay⟩ := hok
    exact goal.division hmay n x ht

end Goal

/-! ### Values on the stack -/

/-- From `s` to `s'` the variables of `env` have become those of `env'`. Registers in use are
unchanged, and so is all that lies between the variables and `z`. -/
structure Kept (pool : RegisterPool) (env env' : Env) (z : Int) (s s' : Store) : Prop where
  live : ∀ r ∈ pool.live, s'.registers r = s.registers r
  stacked : Stacked s'.memory env'
  names : env'.map Prod.fst = env.map Prod.fst
  kept : ∀ a : Int, env.length ≤ a → a < z → s'.memory a = s.memory a

namespace Kept

variable {pool : RegisterPool} {env env' env₁ env₂ : Env} {z z' : Int} {s s' s₁ s₂ : Store}

theorem refl (h : Stacked s.memory env) : Kept pool env env z s s :=
  ⟨fun _ _ => rfl, h, rfl, fun _ _ _ => rfl⟩

theorem length (h : Kept pool env env' z s s') : env'.length = env.length := by
  simpa only [List.length_map] using congrArg List.length h.names

theorem trans (h₁ : Kept pool env env₁ z s s₁) (h₂ : Kept pool env₁ env₂ z' s₁ s₂) (hle : z ≤ z') :
    Kept pool env env₂ z s s₂ where
  live r hr := (h₂.live r hr).trans (h₁.live r hr)
  stacked := h₂.stacked
  names := h₂.names.trans h₁.names
  kept a ha hlt := (h₂.kept a (by rw [h₁.length]; exact ha) (by omega)).trans (h₁.kept a ha hlt)

theorem fewer (h : Kept pool' env env' z s s') (hlive : ∀ r ∈ pool.live, r ∈ pool'.live) :
    Kept pool env env' z s s' :=
  ⟨fun r hr => h.live r (hlive r hr), h.stacked, h.names, h.kept⟩

theorem pushes (h : Kept pool env env' z s s₁) (hpush : s₁.Pushes s₂ z n used)
    (hfree : ∀ r ∈ used, r ∉ pool.live) (hle : env.length ≤ z) : Kept pool env env' z s s₂ where
  live r hr := by rw [hpush.registers r (live_ne_sp hr) fun hused => hfree r hused hr, h.live r hr]
  stacked := h.stacked.congr fun i hi => hpush.memory i (.inl (by have := h.length; omega))
  names := h.names
  kept a ha hlt := by rw [hpush.memory a (.inl hlt), h.kept a ha hlt]

end Kept

structure Valued (pool : RegisterPool) (env env' : Env) (z value : Int) (s s' : Store) : Prop
    extends Kept pool env env' z s s' where
  sp : s'.registers .sp = .ofInt (z + 1)
  value : (s'.memory z).toInt = value

theorem Valued.assigned {s s₁ s₂ : Store} (h : Valued pool env env₁ z a s s₁)
    (ha : env₁.address? name = some i)
    (hle : env.length ≤ z) (hsp : s₂.registers .sp = .ofInt (z + 1))
    (hlive : ∀ q ∈ pool.live, s₂.registers q = s₁.registers q)
    (hvalue : (s₂.memory z).toInt = b) (hi : (s₂.memory i).toInt = b)
    (hmem : ∀ c : Int, c ≠ z → c ≠ i → s₂.memory c = s₁.memory c) :
    Valued pool env (env₁.set name b) z b s s₂ := by
  have hlt := Env.address?_lt ha
  have hlength := h.length
  refine ⟨⟨fun q hq => (hlive q hq).trans (h.live q hq), ?_, ?_, fun c hc hlt' => ?_⟩, hsp, hvalue⟩
  · exact h.stacked.set ha hi fun j hj hne => hmem j (by omega) (by omega)
  · rw [Env.map_fst_set, h.names]
  · rw [hmem c (by omega) (by omega), h.kept c hc hlt']

/-- The code does what the interpreter does with the expression. -/
def Computes (img : Image) (base : Nat) (may : Stop → Prop) (G : Nat → State → Prop) (frame : Frame)
    (pool : RegisterPool) (e : Expr) (code : Assembly) : Prop :=
  ∀ (env : Env) (s : Store) (k : Nat), Mirrors img base frame.variables env → Stacked s.memory env →
    s.registers .sp = .ofInt (base + frame.depth) → env.length ≤ base + frame.depth →
    (∀ stop, e.evaluate env = .error stop → may stop) →
    img.Leads (G k) code
      (fun s' => ∃ value env', e.evaluate env = .ok (value, env') ∧
        Valued pool env env' (base + frame.depth) value s s') s

namespace Computes

variable {img : Image} {base : Nat} {may : Stop → Prop} {G : Nat → State → Prop} {frame : Frame}
  {pool : RegisterPool}
  {e lhs rhs : Expr} {code leftCode rightCode : Assembly} {env : Env} {s : Store} {k : Nat}

theorem integer (goal : Goal img may G) (fits : img.Fits (base + frame.depth) 1) :
    Computes img base may G frame pool (.integer span w) (pushCode (word w)) := by
  intro env s k _ stacked hsp hle _
  have hlt := fits.lt (Nat.le_refl 1)
  refine (goal.closed k).leads (Image.wp_pushCode hsp (fits.addressable (Nat.le_refl 1))
    (fun _ => ?_) fun hno => by omega)
  exact ⟨w.toInt, env, rfl, (Kept.refl stacked).pushes Store.pushes_pushed (by simp) hle,
    by simp, by simp⟩

theorem wp_pointAt {i : Nat} (hlocation : location = .stack (i - z) ∨
      ∃ l, location = .static l ∧ img.value l = .ofNat i)
    (hsp : s.registers .sp = .ofInt z) (h : Q (s.set (.general r) (.ofInt i))) :
    img.wp ok (pointAt (.general r) location comment) Q s := by
  rcases hlocation with rfl | ⟨l, rfl, hl⟩
  · refine Image.wp_pointAt_stack hsp ?_
    rwa [show z + ((i : Int) - z) = i by omega]
  · refine Image.wp_pointAt_static ?_
    rwa [hl, ← Int32.ofInt_eq_ofNat]

theorem var (goal : Goal img may G) (found : frame.lookup name = some (type, location))
    (free : pool.lowestFree? = some r) (fits : img.Fits (base + frame.depth) 1) :
    Computes img base may G frame pool (.var span name)
      (pointAt (.general r) location comment ++ pushCopyCode (.general r) 1) := by
  intro env s k mirrors stacked hsp hle _
  obtain ⟨i, hi, -, hlocation⟩ := mirrors.lookup found
  have hlt := Env.address?_lt hi
  have hsmall := fits.small
  have hinside := fits.inside
  have hfree := RegisterPool.not_live_of_mem_free free
  refine (goal.closed k).leads (Image.wp_append.mpr (wp_pointAt hlocation hsp ?_))
  have hpoints : (s.set (.general r) (.ofInt i)).registers (.general r) = .ofInt i := by simp
  refine Image.wp_pushCopyCode (by simpa using hsp) hpoints ⟨fits.nonneg, Int.le_of_lt hsmall⟩
    (by omega) (.inl (by omega)) ?_
  rw [Store.moved_set (.inr rfl)]
  refine ⟨(s.memory i).toInt, env, ?_, (Kept.refl stacked).pushes Store.pushes_moved hfree hle,
    by simp [Store.moved], ?_⟩
  · simp only [Expr.evaluate_var, stacked.read hi]
    rfl
  · simp [Store.moved_one]

theorem operands (left : Computes img base may G frame pool lhs leftCode)
    (right : Computes img base may G (frame.push 1) pool rhs rightCode)
    (mirrors : Mirrors img base frame.variables env)
    (stacked : Stacked s.memory env) (hsp : s.registers .sp = .ofInt (base + frame.depth))
    (hle : env.length ≤ base + frame.depth)
    (hleft : ∀ stop, lhs.evaluate env = .error stop → may stop)
    (hright : ∀ a env₁ stop, lhs.evaluate env = .ok (a, env₁) →
      rhs.evaluate env₁ = .error stop → may stop) :
    img.Leads (G k) (leftCode ++ rightCode) (fun s₂ => ∃ a env₁ b env₂, lhs.evaluate env =
      .ok (a, env₁) ∧
      rhs.evaluate env₁ = .ok (b, env₂) ∧ Kept pool env env₂ (base + frame.depth) s s₂ ∧
      s₂.registers .sp = .ofInt (base + frame.depth + 2) ∧
      (s₂.memory (base + frame.depth)).toInt = a ∧
      (s₂.memory (base + frame.depth + 1)).toInt = b) s := by
  refine (left env s k mirrors stacked hsp hle hleft).append ?_
  rintro s₁ ⟨a, env₁, ha, h₁⟩
  have hlength := h₁.length
  have hdepth : (base : Int) + (frame.push 1).depth = base + frame.depth + 1 := by
    rw [Frame.depth_push, Int.natCast_one, Int.add_assoc]
  refine (right env₁ s₁ k (mirrors.congr h₁.names) h₁.stacked (by rw [hdepth, h₁.sp]) (by omega)
    fun stop hstop => hright a env₁ stop ha hstop).imp ?_
  rintro s₂ ⟨b, env₂, hb, h₂⟩
  rw [hdepth] at h₂
  refine ⟨a, env₁, b, env₂, ha, hb, h₁.toKept.trans h₂.toKept (by omega), ?_, ?_, h₂.value⟩
  · rw [h₂.sp, Int.add_assoc]
    rfl
  · rw [h₂.kept _ (by omega) (by omega), h₁.value]

theorem arithmetic (goal : Goal img may G) (left : Computes img base may G frame pool lhs leftCode)
    (right : Computes img base may G (frame.push 1) pool rhs rightCode)
    (freeLeft : pool.lowestFree? = some l) (freeRight : (pool.take l).lowestFree? = some r)
    (fits : img.Fits (base + frame.depth) 2) :
    Computes img base may G frame pool (.binary span (.arithmetic op) lhs rhs)
      (leftCode ++ rightCode ++ arithmeticCode .integer op (.general l) (.general r)) := by
  intro env s k mirrors stacked hsp hle hstop
  refine (operands left right mirrors stacked hsp hle (fun stop h => hstop stop ?_)
    fun a env₁ stop h h' => hstop stop ?_).append ?_
  · simp only [Expr.evaluate_arithmetic, h, bind, Except.bind]
  · simp only [Expr.evaluate_arithmetic, h, h', bind, Except.bind]
  rintro s₂ ⟨a, env₁, b, env₂, ha, hb, h₂, hsp₂, rfl, rfl⟩
  have hresult :=
    toInt_arithmetic? op (s₂.memory (base + frame.depth)) (s₂.memory (base + frame.depth + 1))
  have hfree := RegisterPool.not_live_of_mem_pair freeLeft freeRight
  refine (goal.closed k).leads
    (Image.wp_arithmeticCode (RegisterPool.ne_of_free_take freeLeft freeRight) hsp₂
    ⟨fits.nonneg, Int.le_of_lt fits.small⟩ (.inl fits.inside) (fun s₃ w hw hpush hvalue => ?_)
    fun hnone => ⟨rfl, hstop _ ?_⟩)
  · rw [hw, Option.map_some] at hresult
    refine ⟨w.toInt, env₂, ?_, h₂.pushes hpush hfree hle, hpush.sp, by rw [hvalue]⟩
    simp only [Expr.evaluate_arithmetic, ha, hb, bind, Except.bind, ArithmeticOp.apply, ← hresult]
    rfl
  · rw [hnone, Option.map_none] at hresult
    simp only [Expr.evaluate_arithmetic, ha, hb, bind, Except.bind, ArithmeticOp.apply, ← hresult]

theorem relation (goal : Goal img may G) (hp : img.Proper)
    (left : Computes img base may G frame pool lhs leftCode)
    (right : Computes img base may G (frame.push 1) pool rhs rightCode)
    (freeLeft : pool.lowestFree? = some l) (freeRight : (pool.take l).lowestFree? = some r)
    (fits : img.Fits (base + frame.depth) 2) :
    Computes img base may G frame pool (.binary span (.relation rel) lhs rhs)
      (leftCode ++ rightCode ++ (popCode (.general r) ++ popCode (.general l) ++
        [line (.cmp .integer (.general l) (.register (.general r)))]) ++
        relationCode rel yes done) := by
  intro env s k mirrors stacked hsp hle hstop
  have hfree := RegisterPool.not_live_of_mem_pair freeLeft freeRight
  rw [List.append_assoc]
  refine (operands left right mirrors stacked hsp hle (fun stop h => hstop stop ?_)
    fun a env₁ stop h h' => hstop stop ?_).append ?_
  · simp only [Expr.evaluate_relation, h, bind, Except.bind]
  · simp only [Expr.evaluate_relation, h, h', bind, Except.bind]
  rintro s₂ ⟨a, env₁, b, env₂, ha, hb, h₂, hsp₂, rfl, rfl⟩
  refine ((goal.closed k).pushComparison hp (RegisterPool.ne_of_free_take freeLeft freeRight) hsp₂
    ⟨fits.nonneg, Int.le_of_lt fits.small⟩ (.inl fits.inside)).imp ?_
  rintro s₃ ⟨hpush, hvalue⟩
  refine ⟨_, env₂, ?_, h₂.pushes hpush hfree hle, hpush.sp, by rw [hvalue, toInt_truth]⟩
  simp only [Expr.evaluate_relation, ha, hb, bind, Except.bind, holds_compare]
  rfl

theorem logic (goal : Goal img may G) (hp : img.Proper)
    (left : Computes img base may G frame pool lhs leftCode)
    (right : Computes img base may G frame pool rhs rightCode) (free : pool.lowestFree? = some r)
    (fits : img.Fits (base + frame.depth) 1) :
    Computes img base may G frame pool (.binary span (.logic op) lhs rhs)
      (leftCode ++ testCode (.general r) .int (deciding op) l ++
        (rightCode ++ testCode (.general r) .int (deciding op) l) ++ logicCode op l done) := by
  intro env s k mirrors stacked hsp hle hstop
  have hfree := RegisterPool.not_live_of_mem_free free
  have hdecided : ∀ w : Word, (deciding op).holds (Word.compare (numKind .int) w 0) =
      op.decidedBy w.toInt := fun w => (holds_compare _ w 0).trans (deciding_relates op w.toInt)
  have hresult : ∀ {env' : Env} {v : Int} (w : Word) {s₁ s₂ : Store},
    Valued pool env env' (base + frame.depth) v s s₁ →
      s₁.Pushes s₂ (base + frame.depth) 0 [.general r] →
      Valued pool env env' (base + frame.depth) w.toInt s (s₂.pushed (base + frame.depth) w) :=
        fun w s₁ s₂ h₁ hpop =>
    ⟨(h₁.pushes hpop hfree hle).pushes Store.pushes_pushed (by simp) hle, by simp, by simp⟩
  refine (goal.closed k).logic hp (z := base + frame.depth)
    (P := fun s₁ => ∃ a env₁, lhs.evaluate env = .ok (a, env₁) ∧
      Valued pool env env₁ (base + frame.depth) a s s₁)
    (R := fun s₁ => ∃ a env₁ b env₂, lhs.evaluate env = .ok (a, env₁) ∧ op.decidedBy a = false ∧
      rhs.evaluate env₁ = .ok (b, env₂) ∧ Valued pool env env₂ (base + frame.depth) b s s₁)
    (left env s k mirrors stacked hsp hle fun stop h => hstop stop ?_) ?_ ?_ ?_
      (fits.addressable (Nat.le_refl 1))
    (.inl (fits.lt (Nat.le_refl 1))) ?_ ?_ ?_
  -- The left operand stops the run.
  · simp only [Expr.evaluate_logic, h, bind, Except.bind]
  · rintro s₁ ⟨a, env₁, -, h₁⟩
    exact h₁.sp
  -- The left operand leaves it open, and the right one runs in the state it left.
  · rintro s₁ s₂ ⟨a, env₁, ha, h₁⟩ hpop hd
    rw [hdecided, h₁.value] at hd
    have h₂ := h₁.pushes hpop hfree hle
    have hlength := h₂.length
    refine (right env₁ s₂ k (mirrors.congr h₂.names) h₂.stacked (by simpa using hpop.sp)
      (by omega) fun stop h =>
      hstop stop ?_).imp ?_
    · simp only [Expr.evaluate_logic, ha, hd, h, bind, Except.bind, Bool.false_eq_true, ↓reduceIte]
    · rintro s₃ ⟨b, env₂, hb, h₃⟩
      exact ⟨a, env₁, b, env₂, ha, hd, hb, h₂.trans h₃.toKept (Int.le_refl _), h₃.sp, h₃.value⟩
  · rintro s₁ ⟨-, -, b, env₂, -, -, -, h₁⟩
    exact h₁.sp
  -- The left operand decides.
  · rintro s₁ s₂ ⟨a, env₁, ha, h₁⟩ hpop hd
    rw [hdecided, h₁.value] at hd
    refine ⟨_, env₁, ?_, hresult _ h₁ hpop⟩
    simp only [Expr.evaluate_logic, ha, hd, bind, Except.bind, ↓reduceIte, toInt_decidedValue hd]
    rfl
  -- The right operand decides.
  · rintro s₁ s₂ ⟨a, env₁, b, env₂, ha, hd, hb, h₁⟩ hpop hd'
    rw [hdecided, h₁.value] at hd'
    refine ⟨_, env₂, ?_, hresult _ h₁ hpop⟩
    simp only [Expr.evaluate_logic, ha, hd, hb, bind, Except.bind, Bool.false_eq_true, ↓reduceIte,
      toInt_decidedValue hd']
    rfl
  -- Neither does.
  · rintro s₁ s₂ ⟨a, env₁, b, env₂, ha, hd, hb, h₁⟩ hpop hd'
    rw [hdecided, h₁.value] at hd'
    refine ⟨_, env₂, ?_, hresult _ h₁ hpop⟩
    simp only [Expr.evaluate_logic, ha, hd, hb, bind, Except.bind, Bool.false_eq_true, ↓reduceIte,
      toInt_undecidedValue hd']
    rfl

theorem negate (goal : Goal img may G) (operand : Computes img base may G frame pool e code)
    (free : pool.lowestFree? = some r) (fits : img.Fits (base + frame.depth) 1) :
    Computes img base may G frame pool (.unary span .negate e)
      (code ++ negateCode .int (.general r)) := by
  intro env s k mirrors stacked hsp hle hstop
  have hfree := RegisterPool.not_live_of_mem_free free
  refine (operand env s k mirrors stacked hsp hle fun stop h => hstop stop ?_).append ?_
  · simp only [Expr.evaluate_negate, h, bind, Except.bind]
  rintro s₁ ⟨a, env₁, ha, h₁⟩
  refine (goal.closed k).leads (Image.wp_negateCode h₁.sp (fits.addressable (Nat.le_refl 1))
    (.inl (fits.lt (Nat.le_refl 1)))
    fun s₂ w hw hpush hvalue => ?_)
  obtain rfl : s₁.memory (base + frame.depth) * -1 = w := Option.some.inj hw
  refine ⟨wrapped (-a), env₁, ?_, h₁.pushes hpush hfree hle, hpush.sp,
    by rw [hvalue, toInt_negate, h₁.value]⟩
  simp only [Expr.evaluate_negate, ha, bind, Except.bind]
  rfl

theorem not (goal : Goal img may G) (hp : img.Proper)
    (operand : Computes img base may G frame pool e code)
    (free : pool.lowestFree? = some r) (fits : img.Fits (base + frame.depth) 1) :
    Computes img base may G frame pool (.unary span .not e)
      (code ++ (popCode (.general r) ++ [line (zeroTest (.general r) .int)]) ++
        relationCode .equal yes done) := by
  intro env s k mirrors stacked hsp hle hstop
  have hfree := RegisterPool.not_live_of_mem_free free
  rw [List.append_assoc]
  refine (operand env s k mirrors stacked hsp hle fun stop h => hstop stop ?_).append ?_
  · simp only [Expr.evaluate_not, h, bind, Except.bind]
  rintro s₁ ⟨a, env₁, ha, h₁⟩
  refine ((goal.closed k).pushTest hp h₁.sp (fits.addressable (Nat.le_refl 1))
    (.inl (fits.lt (Nat.le_refl 1)))).imp ?_
  rintro s₂ ⟨hpush, hvalue⟩
  have hzero : Relation.equal.holds
      (Word.compare (numKind .int) (s₁.memory (base + frame.depth)) 0) = decide (a = 0) := by
    rw [← h₁.value]
    exact holds_compare .equal _ 0
  refine ⟨_, env₁, ?_, h₁.pushes hpush hfree hle, hpush.sp, by rw [hvalue, toInt_truth]⟩
  simp only [Expr.evaluate_not, ha, bind, Except.bind, hzero]
  rfl

theorem held (goal : Goal img may G) (value : Computes img base may G frame (pool.take r) e code)
    (found : frame.lookup name = some (type, location)) (free : pool.lowestFree? = some r)
    (mirrors : Mirrors img base frame.variables env) (stacked : Stacked s.memory env)
    (hsp : s.registers .sp = .ofInt (base + frame.depth)) (hle : env.length ≤ base + frame.depth)
    (hstop : ∀ stop, e.evaluate env = .error stop → may stop) :
    img.Leads (G k) (pointAt (.general r) location comment ++ code)
      (fun s₁ => ∃ (i : Nat) (a : Int) (env₁ : Env),
      e.evaluate env = .ok (a, env₁) ∧ env₁.address? name = some i ∧
      s₁.registers (.general r) = .ofInt i ∧
      Valued pool env env₁ (base + frame.depth) a s s₁) s := by
  obtain ⟨i, hi, -, hlocation⟩ := mirrors.lookup found
  refine ((goal.closed k).leads (Q := fun s' => s' = s.set (.general r) (.ofInt i))
    (wp_pointAt hlocation hsp rfl)).append ?_
  rintro _ rfl
  refine (value env (s.set (.general r) (.ofInt i)) k mirrors stacked (by simpa using hsp)
    hle hstop).imp ?_
  rintro s₁ ⟨a, env₁, ha, h₁⟩
  refine ⟨i, a, env₁, ha, (Env.address?_congr h₁.names name).trans hi, ?_,
    ⟨?_, h₁.stacked, h₁.names, h₁.kept⟩, h₁.sp, h₁.value⟩
  · rw [h₁.live _ (RegisterPool.taken_live free)]
    simp
  · intro q hq
    have hne : q ≠ .general r := fun he => RegisterPool.not_live_of_free free (he ▸ hq)
    rw [h₁.live q (RegisterPool.live_take hq), Store.registers_set, if_neg hne]

theorem assign (goal : Goal img may G) (value : Computes img base may G frame (pool.take r) e code)
    (found : frame.lookup name = some (type, location)) (free : pool.lowestFree? = some r)
    (fits : img.Fits (base + frame.depth) 1) :
    Computes img base may G frame pool (.assign span none (.var span' name) e)
      (pointAt (.general r) location comment ++ code ++ store 1 (.general r)) := by
  intro env s k mirrors stacked hsp hle hstop
  refine (held goal value found free mirrors stacked hsp hle fun stop h => hstop stop ?_).append ?_
  · simp only [Expr.evaluate_assign, h, bind, Except.bind]
  rintro s₁ ⟨i, a, env₁, ha, hi, hr, h₁⟩
  have hlt := Env.address?_lt hi
  have hlength := h₁.length
  have hsmall := fits.small
  have hinside := fits.inside
  refine (goal.closed k).leads (Image.wp_store h₁.sp hr ⟨fits.nonneg, Int.le_of_lt hsmall⟩
    (by omega) (.inl (by omega)) ?_)
  have hz : (i : Int) ≠ base + frame.depth := by omega
  refine ⟨a, env₁.set name a, ?_, h₁.assigned hi hle (by simp [Store.moved]) (fun q hq => ?_) ?_ ?_
    fun c _ hc => ?_⟩
  · simp only [Expr.evaluate_assign, ha, bind, Except.bind]
    rfl
  · have hne : q ≠ .general r := fun he => RegisterPool.not_live_of_free free (he ▸ hq)
    simp [Store.moved, hne, live_ne_sp hq]
  · simp [Store.moved_one, hz.symm, h₁.value]
  · simp [Store.moved_one, h₁.value]
  · simp [Store.moved_one, hc]

theorem update (goal : Goal img may G) (value : Computes img base may G frame (pool.take r) e code)
    (found : frame.lookup name = some (type, location)) (free : pool.lowestFree? = some r)
    (freeOperand : (pool.take r).lowestFree? = some operand)
    (freeResult : ((pool.take r).take operand).lowestFree? = some result)
    (fits : img.Fits (base + frame.depth) 1) :
    Computes img base may G frame pool (.assign span (some op) (.var span' name) e)
      (pointAt (.general r) location comment ++ code ++
        updateCode .integer op (.general r) (.general operand) (.general result)) := by
  intro env s k mirrors stacked hsp hle hstop
  have hro : r ≠ operand := RegisterPool.ne_of_free_take free freeOperand
  have hor : operand ≠ result := RegisterPool.ne_of_free_take freeOperand freeResult
  have hrr : r ≠ result := by
    rintro rfl
    exact RegisterPool.not_live_of_free_take freeResult (RegisterPool.taken_live free)
  refine (held goal value found free mirrors stacked hsp hle fun stop h => hstop stop ?_).append ?_
  · simp only [Expr.evaluate_update, h, bind, Except.bind]
  rintro s₁ ⟨i, a, env₁, ha, hi, hr, h₁⟩
  have hlt := Env.address?_lt hi
  have hlength := h₁.length
  have hsmall := fits.small
  have hinside := fits.inside
  have hread := h₁.stacked.read hi
  -- The word read and the word pushed give a result just when their integers do.
  have hresult := toInt_arithmetic? op (s₁.memory i) (s₁.memory (base + frame.depth))
  rw [h₁.value] at hresult
  refine (goal.closed k).leads
    (Image.wp_updateCode hro hrr hor h₁.sp (fits.addressable (Nat.le_refl 1)) hr
    ⟨by omega, by omega⟩ (.inl (by omega)) (fun s₂ w hw hsp₂ hregs hz hw' hmem => ?_) fun hnone =>
      ⟨rfl, hstop _ ?_⟩)
  · rw [hw, Option.map_some] at hresult
    refine ⟨w.toInt, env₁.set name w.toInt, ?_,
      h₁.assigned hi hle hsp₂ (fun q hq => hregs q (live_ne_sp hq) ?_ ?_)
      (by rw [hz]) (by rw [hw']) hmem⟩
    · simp only [Expr.evaluate_update, ha, hread, bind, Except.bind, ArithmeticOp.apply, ← hresult]
      rfl
    · rintro rfl
      exact RegisterPool.not_live_of_free_take freeOperand hq
    · rintro rfl
      exact RegisterPool.not_live_of_free_take freeResult (RegisterPool.live_take hq)
  · rw [hnone, Option.map_none] at hresult
    simp only [Expr.evaluate_update, ha, hread, bind, Except.bind, ArithmeticOp.apply, ← hresult]

end Computes

/-! ### All integer expressions -/

theorem Expr.plain_of_integral : (e : Expr) → e.integral = true → e.plain = true
  | .integer .., _ | .var .., _ => rfl
  | .binary _ _ lhs rhs, h => by
    simp only [integral, Bool.and_eq_true] at h
    rw [plain, plain_of_integral lhs h.1, plain_of_integral rhs h.2]
    rfl
  | .unary _ _ operand, h => plain_of_integral operand h
  | .assign _ _ (.var ..) value, h => by
    rw [plain, plain, plain_of_integral value h]
    rfl

namespace Emit

variable {img : Image} {c : EmitContext} {base : Nat} {may : Stop → Prop} {G : Nat → State → Prop}
  {frame : Frame} {pool : RegisterPool}

theorem Emits.type_int (h : Emits c frame pool n (.value e type) code n')
    (integral : e.integral = true)
    (mirrors : Mirrors img base frame.variables env) : type = .int := by
  generalize hpiece : Piece.value e type = piece at h
  induction h generalizing e type with
  | constant h =>
    cases hpiece
    cases h with
    | integer => rfl
    | _ => cases integral
  | var found free =>
    cases hpiece
    obtain ⟨-, -, htype, -⟩ := mirrors.lookup found
    exact htype
  | arithmetic left right leftWords rightWords typed freeLeft freeRight ihl ihr =>
    cases hpiece
    obtain ⟨hl, -⟩ := Bool.and_eq_true_iff.mp integral
    exact (Typing.arithmetic_type typed).trans (ihl hl mirrors rfl)
  | negate operand number free ih =>
    cases hpiece
    refine ih ?_ mirrors rfl
    exact integral
  | assign place value accepted same ihp ihv =>
    cases hpiece
    cases place with
    | addressVar found free =>
      obtain ⟨-, -, htype, -⟩ := mirrors.lookup found
      exact htype
    | _ => cases integral
  | update place value placeWords valueWords typed freeOperand freeResult ihp ihv =>
    cases hpiece
    cases place with
    | addressVar found free =>
      obtain ⟨-, -, htype, -⟩ := mirrors.lookup found
      exact (Typing.arithmetic_type typed).trans htype
    | _ => cases integral
  | relation | logic | not =>
    cases hpiece
    rfl
  | field | addressOf | dereference | call =>
    cases hpiece
    cases integral
  | _ => cases hpiece

/-- The code for an integer expression does what the interpreter does. -/
theorem Emits.computes (goal : Goal img may G) (hp : img.Proper) (sound : c.structs.Sound)
    (h : Emits c frame pool n (.value e type) code n') (integral : e.integral = true)
    (fits : img.Fits (base + frame.depth)
      (e.height c.structs c.functions frame.scopes pool.live.length)) :
    Computes img base may G frame pool e code := by
  generalize hpiece : Piece.value e type = piece at h
  induction h generalizing e type with
  | constant h =>
    cases hpiece
    cases h with
    | integer => exact .integer goal fits
    | _ => cases integral
  | var found free =>
    cases hpiece
    rw [Expr.height, Frame.variableWords_eq found] at fits
    intro env s k mirrors
    obtain ⟨-, -, rfl, -⟩ := mirrors.lookup found
    exact Computes.var goal found free fits env s k mirrors
  | arithmetic left right leftWords rightWords typed freeLeft freeRight ihl ihr =>
    cases hpiece
    obtain ⟨hl, hr⟩ := Bool.and_eq_true_iff.mp integral
    have hwords := right.words_le_height sound (Expr.plain_of_integral _ hr)
    simp only [Piece.words, Piece.height, rightWords, Frame.scopes_push] at hwords
    rw [Expr.height] at fits
    intro env s k mirrors
    obtain rfl := left.type_int hl mirrors
    obtain rfl := Typing.arithmetic_type typed
    -- The right operand runs with the word of the left one below it.
    refine Computes.arithmetic goal (ihl hl (fits.mono (by omega)) rfl) (ihr hr ?_ rfl)
      freeLeft freeRight
      (fits.mono (by omega)) env s k mirrors
    rw [Frame.depth_push, ← Int.add_assoc]
    exact fits.push (by simp only [Frame.scopes_push]; omega)
  | relation left right leftWords rightWords typed freeLeft freeRight ihl ihr =>
    cases hpiece
    obtain ⟨hl, hr⟩ := Bool.and_eq_true_iff.mp integral
    have hwords := right.words_le_height sound (Expr.plain_of_integral _ hr)
    simp only [Piece.words, Piece.height, rightWords, Frame.scopes_push] at hwords
    rw [Expr.height] at fits
    intro env s k mirrors
    obtain rfl := left.type_int hl mirrors
    refine Computes.relation goal hp (ihl hl (fits.mono (by omega)) rfl) (ihr hr ?_ rfl)
      freeLeft freeRight
      (fits.mono (by omega)) env s k mirrors
    rw [Frame.depth_push, ← Int.add_assoc]
    exact fits.push (by simp only [Frame.scopes_push]; omega)
  | logic left right leftWords rightWords free ihl ihr =>
    cases hpiece
    obtain ⟨hl, hr⟩ := Bool.and_eq_true_iff.mp integral
    have hwords := left.words_le_height sound (Expr.plain_of_integral _ hl)
    simp only [Piece.words, Piece.height, leftWords] at hwords
    rw [Expr.height] at fits
    intro env s k mirrors
    obtain rfl := left.type_int hl mirrors
    obtain rfl := right.type_int hr mirrors
    exact Computes.logic goal hp (ihl hl (fits.mono (by omega)) rfl)
      (ihr hr (fits.mono (by omega)) rfl) free
      (fits.mono (by omega)) env s k mirrors
  | @negate frame pool n e type code n₁ r span operand number free ih =>
    cases hpiece
    have he : e.integral = true := integral
    have hwords := operand.words_le_height sound (Expr.plain_of_integral e he)
    intro env s k mirrors
    obtain rfl : type = .int := operand.type_int he mirrors
    exact Computes.negate goal (ih he fits rfl) free (fits.mono hwords) env s k mirrors
  | @not frame pool n e type code n₁ r span operand words free ih =>
    cases hpiece
    have he : e.integral = true := integral
    have hwords := operand.words_le_height sound (Expr.plain_of_integral e he)
    intro env s k mirrors
    obtain rfl : type = .int := operand.type_int he mirrors
    exact Computes.not goal hp (ih he fits rfl) free (fits.mono hwords) env s k mirrors
  | @assign frame pool n target type r placeCode n₁ e found valueCode n₂ span place value accepted
      same ihp ihv =>
    cases hpiece
    cases place with
    -- Only a variable is a target of an integral assignment.
    | addressVar lookup free =>
      have he : e.integral = true := integral
      have hwords := value.words_le_height sound (Expr.plain_of_integral e he)
      simp only [Piece.words, Piece.height, RegisterPool.length_live_take free] at hwords
      rw [Expr.height] at fits
      intro env s k mirrors
      obtain ⟨-, -, rfl, -⟩ := mirrors.lookup lookup
      rw [← same, Structs.words_int] at hwords
      refine Computes.assign goal (ihv he ?_ rfl) lookup free (fits.mono (by omega)) env s k mirrors
      exact fits.mono (by rw [RegisterPool.length_live_take free]; omega)
    | _ => cases integral
  | @update frame pool n target a r placeCode n₁ e b valueCode n₂ op span type operand result place
      value placeWords valueWords typed freeOperand freeResult ihp ihv =>
    cases hpiece
    cases place with
    | addressVar lookup free =>
      have he : e.integral = true := integral
      have hwords := value.words_le_height sound (Expr.plain_of_integral e he)
      simp only [Piece.words, Piece.height, RegisterPool.length_live_take free,
        valueWords] at hwords
      rw [Expr.height] at fits
      intro env s k mirrors
      obtain ⟨-, -, rfl, -⟩ := mirrors.lookup lookup
      obtain rfl := Typing.arithmetic_type typed
      refine Computes.update goal (ihv he ?_ rfl) lookup free freeOperand freeResult
        (fits.mono (by omega)) env s k mirrors
      exact fits.mono (by rw [RegisterPool.length_live_take free]; omega)
    | _ => cases integral
  | field | addressOf | dereference | call =>
    cases hpiece
    cases integral
  | _ => cases hpiece

end Emit

end WordScript
