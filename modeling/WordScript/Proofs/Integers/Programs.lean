import WordScript.Proofs.Integers.Statements
import WordScript.Proofs.StaticMemory

/-!
# Integer scripts compute what they mean

A machine without a budget does with an integer script what the interpreter does
(`integers_compute`): it stops with the same variables and the same result, divides by zero where
the interpreter does, and goes on for as long.
-/

namespace WordScript

open Emit

/-! ### What a run comes to -/

/-- The values are all that is on the stack, from the start of memory on. -/
structure Termination.Leaves (t : Termination) (values : List Int) : Prop where
  sp : t.stackPointer.toInt = values.length
  memory : (t.memory.toList.take values.length).map Int32.toInt = values

/-- What the machine does is what the interpreter came to with loops of so many rounds. -/
def Machine.Meets (m : Machine) (rounds : Nat) : Except Stop Env → Prop
  | .ok env => ∃ n t, m.runFor n = .inr (.ok t) ∧ t.Leaves env.values
  | .error (.returned value env) => ∃ n t, m.runFor n = .inr (.ok t) ∧
      t.Leaves (env.values ++ [value]) ∧
      t.topOfStack?.map Int32.toInt = some value
  | .error .division => ∃ n pc, m.runFor n = .inr (.error (.divisionByZero pc))
  | .error .exhausted => ∃ m', m.runFor rounds = .inl m'
  | .error .stuck => False

theorem Machine.runFor_pred {m m' : Machine} (h : m.runFor (n + 1) = .inl m') :
    ∃ m₁, m.runFor n = .inl m₁ := by
  cases hrun : m.runFor n with
  | inl m₁ => exact ⟨m₁, rfl⟩
  | inr ending =>
    rw [runFor_succ_of_inr hrun] at h
    cases h

namespace Machine.Meets

variable {m m' : Machine} {outcome : Except Stop Env}

theorem step (hstep : Machine.step m = .ok .running m') (h : m'.Meets n outcome) :
    m.Meets (n + 1) outcome := by
  have hrun : ∀ k, m.runFor (k + 1) = m'.runFor k := fun k => by rw [runFor, hstep]
  cases outcome with
  | ok env =>
    obtain ⟨k, t, hk, ht⟩ := h
    exact ⟨k + 1, t, (hrun k).trans hk, ht⟩
  | error stop =>
    cases stop with
    | division =>
      obtain ⟨k, pc, hk⟩ := h
      exact ⟨k + 1, pc, (hrun k).trans hk⟩
    | returned value env =>
      obtain ⟨k, t, hk, ht⟩ := h
      exact ⟨k + 1, t, (hrun k).trans hk, ht⟩
    | exhausted =>
      obtain ⟨m₁, hm₁⟩ := h
      exact ⟨m₁, (hrun n).trans hm₁⟩
    | stuck => exact h

theorem pred (h : m.Meets (n + 1) outcome) : m.Meets n outcome := by
  cases outcome with
  | ok env => exact h
  | error stop =>
    cases stop with
    | exhausted =>
      obtain ⟨m', hm'⟩ := h
      exact runFor_pred hm'
    | division | returned | stuck => exact h

end Machine.Meets

/-! ### Memory in the end -/

theorem Env.length_values (env : Env) : env.values.length = env.length := by
  rw [values, List.length_reverse, List.length_map]

theorem Stacked.values {memory : Int → Word} {words : List Word} {env : Env}
    (h : Stacked memory env)
    (shown : ∀ i < words.length, words[i]? = some (memory i)) (hle : env.length ≤ words.length) :
    (words.take env.length).map Int32.toInt = env.values := by
  induction env with
  | nil => rfl
  | cons b rest ih =>
    obtain ⟨name, value⟩ := b
    have hlast : words[rest.length]? = some (memory rest.length) := shown _ hle
    rw [List.length_cons, List.take_add_one, hlast, List.map_append, ih h.2 (Nat.le_of_succ_le hle)]
    simp [Env.values, h.1]

theorem Machine.Shows.leaves {m : Machine} {x : State} {env : Env} (hm : m.Shows img x)
    (hsp : x.store.registers .sp = .ofInt env.length) (stacked : Stacked x.store.memory env)
    (fits : img.Fits env.length 0) : m.termination.Leaves env.values := by
  have hsmall := fits.small
  have hinside := fits.inside
  have hsize := hm.size
  refine ⟨?_, ?_⟩
  · have hpointer : m.termination.stackPointer = .ofInt env.length := hm.sp.trans hsp
    rw [hpointer, env.length_values]
    exact Addressable.toInt ⟨by omega, by omega⟩
  · rw [env.length_values]
    have hlength : m.memory.toList.length = m.memory.size := Array.length_toList
    change (m.memory.toList.take env.length).map Int32.toInt = env.values
    refine stacked.values (fun i hi => ?_) (by omega)
    have hlt : i < m.memory.size := by omega
    rw [Array.getElem?_toList, Array.getElem?_eq_getElem hlt, hm.memory i hlt]

theorem Termination.Leaves.top {t : Termination} (h : t.Leaves (values ++ [value])) :
    t.topOfStack?.map Int32.toInt = some value := by
  have hsp := h.sp
  simp only [List.length_append, List.length_singleton] at hsp
  have hpositive : 0 < t.stackPointer := by
    rw [Int32.lt_iff_toInt_lt, hsp]
    exact Int.natCast_pos.mpr (Nat.succ_pos _)
  have hnat : t.stackPointer.toNatClampNeg - 1 = values.length := by
    rw [← Int32.toNat_toInt, hsp]
    rfl
  have hlast : ((t.memory.toList.take (values ++ [value]).length).map Int32.toInt)[values.length]? =
      some value := by
    rw [h.memory]
    simp
  rw [List.getElem?_map, List.getElem?_take_of_lt (by simp)] at hlast
  rw [topOfStack?, if_pos hpositive, hnat, ← Array.getElem?_toList]
  exact hlast

/-! ### The goal of the machine -/

theorem Machine.step_halt {m : Machine} {x : State} (hp : img.Proper) (hm : m.Shows img x)
    (hh : img.Halts x) (endless : m.budget = none) :
    ∃ (m' : Machine) (x' : State), m.runFor 1 = .inr (.ok m'.termination) ∧ m'.Shows img x' ∧
    x'.store = x.store := by
  rcases hm.halt hp hh with ⟨budget, hspent, -⟩ | ⟨m', x', hstep, hm', hstore⟩
  · have hbudget := Image.Eventually.budget_of_spent hspent
    rw [endless] at hbudget
    cases hbudget
  · exact ⟨m', x', by simp only [runFor, hstep], hm', hstore⟩

def Image.Meets (img : Image) (outcome : Except Stop Env) (n : Nat) (x : State) : Prop :=
  ∀ m : Machine, m.Shows img x → m.budget = none → m.Meets n outcome

theorem Image.Proper.goal (hp : img.Proper) (outcome : Except Stop Env) :
    Goal img (fun stop => outcome = .error stop) (img.Meets outcome) where
  tick n x y hstep h m hm endless := by
    rcases hm.step hp hstep with ⟨budget, hspent, -⟩ | ⟨m', hrun, hm', hbudget⟩
    · have hbudget := Eventually.budget_of_spent hspent
      rw [endless] at hbudget
      cases hbudget
    · exact (h m' hm' (hbudget.trans endless)).step hrun
  pred n x h m hm endless := (h m hm endless).pred
  division h n x ht m hm endless := by
    subst h
    rcases hm.trap hp ht with ⟨budget, hspent, -⟩ | ⟨e, m', hrun, pc, rfl⟩
    · have hbudget := Eventually.budget_of_spent hspent
      rw [endless] at hbudget
      cases hbudget
    · exact ⟨1, pc, by simp only [Machine.runFor, hrun]⟩
  exhausted h x m hm endless := by
    subst h
    exact ⟨m, rfl⟩
  returned value env h n x hh fits hsp stacked hvalue m hm endless := by
    subst h
    obtain ⟨m', x', hrun, hm', hstore⟩ := m.step_halt hp hm hh endless
    -- The result lies behind the variables, like a variable declared last.
    have hleaves : m'.termination.Leaves (Env.values (("", value) :: env)) := by
      refine hm'.leaves ?_ ?_ ⟨by omega, by simpa using fits.small, by simpa using fits.inside⟩
      · rw [hstore, hsp]
        rfl
      · rw [hstore]
        exact ⟨hvalue, stacked⟩
    have hvalues : Env.values (("", value) :: env) = env.values ++ [value] := by simp [Env.values]
    rw [hvalues] at hleaves
    exact ⟨1, _, hrun, hleaves, hleaves.top⟩

/-! ### Static variables -/

theorem StaticVariable.declare_integral {before statics : List StaticVariable}
    {decls : List StaticDecl}
    (integral : ∀ d ∈ decls, d.integral = true) (h : declare structs before decls = .ok statics) :
    statics = before ++ decls.map fun d => ⟨d.name.text, .int⟩ := by
  induction decls generalizing before with
  | nil =>
    obtain rfl : before = statics := by simpa [declare] using h
    simp
  | cons d decls ih =>
    simp only [declare, refuse_eq_ok, bind_eq_ok] at h
    obtain ⟨-, type, htype, h⟩ := h
    have hint := (Bool.and_eq_true_iff.mp (integral d List.mem_cons_self)).1
    obtain rfl := Except.ok.inj ((Structs.resolveStored_int hint).symm.trans htype)
    rw [ih (fun d hd => integral d (List.mem_cons_of_mem _ hd)) h, List.append_assoc]
    rfl

theorem Mirrors.statics {structs : Structs} {table : SymbolTable}
    {statics : List StaticVariable} {env : Env} (h : Mirrors img base vs env)
    (lays : table.Lays env.length (statics.map fun v => (v.label, structs.words v.type)) stop)
    (values : ∀ v ∈ statics, table.lookup v.label.name = some (img.value v.label))
    (ints : ∀ v ∈ statics, v.type = .int) :
    Mirrors img base ((statics.map fun v =>
      (v.name, (⟨v.type, .static v.label⟩ : Variable))).reverse ++ vs)
      ((statics.map fun v => (v.name, 0)).reverse ++ env) := by
  induction statics generalizing vs env with
  | nil => exact h
  | cons v statics ih =>
    obtain ⟨hfirst, hrest⟩ := lays
    have hint := ints v List.mem_cons_self
    have hvalue : img.value v.label = .ofNat env.length :=
      Option.some.inj ((values v List.mem_cons_self).symm.trans hfirst)
    rw [hint, Structs.words_int] at hrest
    have here : Variable.At img base ⟨v.type, .static v.label⟩ env.length :=
      ⟨hint, .inr ⟨_, rfl, hvalue⟩⟩
    have hmore := ih (@Mirrors.cons img base vs env v.name _ 0 here h) hrest
      (fun w hw => values w (List.mem_cons_of_mem _ hw)) fun w hw =>
        ints w (List.mem_cons_of_mem _ hw)
    simpa using hmore

theorem Stacked.zeros {memory : Int → Word} (zero : ∀ i : Nat, memory i = 0) (names : List String) :
    Stacked memory (names.map fun name => (name, 0)) := by
  induction names with
  | nil => trivial
  | cons name names ih => exact ⟨by rw [zero]; rfl, ih⟩

/-- Initial values are stored as the interpreter says, in the order of the declarations. -/
theorem Emit.EmitsInits.executes {img : Image} {c : EmitContext} {frame : Frame} {base : Nat}
    {G : Nat → State → Prop} {env : Env}
    {s : Store} (goal : Goal img may G) (hp : img.Proper) (sound : c.structs.Sound)
    (live : pool.live = [])
    (h : EmitsInits c frame pool n ds code n') (integral : ∀ d ∈ ds, d.integral = true)
    (fits : ∀ d ∈ ds, ∀ e ∈ d.init,
      img.Fits (base + frame.depth) (e.height c.structs c.functions frame.scopes 0))
    (settled : Settled img base frame env s)
    (hstop : ∀ stop, StaticDecl.initialise ds env = .error stop → may stop) :
    img.Leads (G k) code (fun s' => ∃ env', StaticDecl.initialise ds env = .ok env' ∧
      Settled img base frame env' s') s := by
  induction h generalizing env s with
  | nil => exact .nil ⟨env, rfl, settled⟩
  | zero absent rest ih =>
    simp only [StaticDecl.initialise, absent] at hstop ⊢
    exact ih (fun d hd => integral d (List.mem_cons_of_mem _ hd))
      (fun d hd => fits d (List.mem_cons_of_mem _ hd)) settled hstop
  | @value e type l n a code n₁ r source ds restCode n₂ d present found given accepted same free
      freeSource rest ih =>
    have hinit := (Bool.and_eq_true_iff.mp (integral d List.mem_cons_self)).2
    rw [present, Option.all_some] at hinit
    have hfits := fits d List.mem_cons_self e present
    have hwords := given.words_le sound live (Expr.plain_of_integral e hinit)
    obtain ⟨i, hi, rfl, hlocation⟩ := settled.mirrors.lookup found
    have hl : img.value l = .ofNat i := by
      rcases hlocation with hstack | ⟨l', hl', hvalue⟩
      · cases hstack
      · obtain rfl := Location.static.inj hl'
        exact hvalue
    have hlt := Env.address?_lt hi
    have hlength := settled.length
    rw [← same, Structs.words_int] at hwords
    have hsmall := hfits.small
    have hinside := hfits.inside
    have hnonneg := hfits.nonneg
    simp only [StaticDecl.initialise, present] at hstop ⊢
    have hcomputes := given.computes_alone goal hp sound live hinit hfits env s k settled.mirrors
      settled.stacked settled.sp
      (Int.le_of_eq hlength) fun stop hs => hstop stop (by simp only [hs, bind, Except.bind])
    have hstored : ∀ s₁, (∃ a env₁, e.evaluate env = .ok (a, env₁) ∧
      Valued pool env env₁ (base + frame.depth) a s s₁) →
        img.Leads (G k) (settleCode (c.structs.words .int) (.general r) (.general source) l
          s!"static {d.name.text}")
          (fun s₂ => ∃ a env₁, e.evaluate env = .ok (a, env₁) ∧
            Settled img base frame (env₁.set d.name.text a) s₂) s₁ := by
      rintro s₁ ⟨a, env₁, ha, h₁⟩
      have hlength₁ := h₁.length
      have hi₁ : env₁.address? d.name.text = some i := (Env.address?_congr h₁.names _).trans hi
      rw [Structs.words_int]
      refine (goal.closed k).leads (Image.wp_settleCode (z := base + frame.depth) (a := i)
        (RegisterPool.ne_of_free_take free freeSource) (h₁.sp.trans rfl) ⟨hnonneg, by omega⟩
        (by rw [hl, Int32.ofInt_eq_ofNat]) ⟨by omega, by omega⟩ (.inl ⟨by omega, by omega⟩)
        fun s₂ hsp hmem => ?_)
      refine ⟨a, env₁, ha, settled.changed ?_ (h₁.stacked.set hi₁ ?_ fun j hj hne => ?_) hsp⟩
      · rw [Env.map_fst_set, h₁.names]
      · have hcopied : copied s₁.memory i (base + frame.depth) 1 (i + (0 : Nat)) =
          s₁.memory (base + frame.depth + (0 : Nat)) :=
          copied_inside Nat.one_pos (.inl (by omega))
        rw [Int.natCast_zero, Int.add_zero, Int.add_zero] at hcopied
        rw [hmem, hcopied, h₁.value]
      · rw [hmem, copied_outside (by omega)]
    refine (hcomputes.append hstored).append ?_
    rintro s₂ ⟨a, env₁, ha, h₂⟩
    simp only [ha, bind, Except.bind] at hstop ⊢
    exact ih (fun d hd => integral d (List.mem_cons_of_mem _ hd))
      (fun d hd => fits d (List.mem_cons_of_mem _ hd)) h₂ hstop

/-! ### Programs -/

theorem Statement.allIntegral_eq (ss : List Statement) : allIntegral ss = ss.all integral := by
  induction ss with
  | nil => rfl
  | cons s ss ih => rw [allIntegral, ih, List.all_cons]

theorem Expr.integral_of_mem {e : Expr} (he : e.integral = true) :
    ∀ c ∈ e.children, c.integral = true := by
  cases e with
  | assign span op target => cases target <;> simp_all [integral, children]
  | _ => simp_all [integral, children]

theorem Occurs.integral (h : Occurs x e) (he : e.integral = true) : x.integral = true := by
  induction h with
  | self => exact he
  | inside mem _ ih => exact ih (Expr.integral_of_mem he _ mem)

theorem OccursIn.integral (h : OccursIn x s) (hs : s.integral = true) : x.integral = true := by
  induction h with
  | inside mem _ ih =>
    rw [Statement.integral, Statement.allIntegral_eq, List.all_eq_true] at hs
    exact ih (hs _ mem)
  | _ => grind [Statement.integral, Occurs.integral]

theorem Program.integral_iff {p : Program} : p.integral = true ↔ p.structs = [] ∧ p.functions = [] ∧
    (∀ d ∈ p.statics, d.integral = true) ∧ Statement.allIntegral p.body = true := by
  simp only [integral, Bool.and_eq_true, List.isEmpty_iff, List.all_eq_true, and_assoc]

theorem Program.strings_of_integral {p : Program} (h : p.integral = true) :
    (LiteralPool.collect p).strings = [] := by
  obtain ⟨hstructs, hfunctions, hstatics, hbody⟩ := integral_iff.mp h
  rw [Statement.allIntegral_eq, List.all_eq_true] at hbody
  suffices hnone : ∀ t, t ∉ (LiteralPool.collect p).strings
    from List.eq_nil_iff_forall_not_mem.mpr hnone
  intro t ht
  obtain ⟨span, h⟩ := LiteralPool.mem_collect.mp ht
  suffices hstring : (Expr.string span t).integral = true by cases hstring
  rcases h with ⟨d, hd, e, he, h⟩ | ⟨f, hf, -⟩ | ⟨d, hd, -⟩ | ⟨s, hs, h⟩
  · have hinit := (Bool.and_eq_true_iff.mp (hstatics d hd)).2
    rw [he] at hinit
    exact h.integral hinit
  · simp [hfunctions] at hf
  · simp [hstructs] at hd
  · exact h.integral (hbody s hs)

theorem Emit.EmitsCode.depth_le {ss : List Statement}
    (h : EmitsCode c pool frame n (.many ss) code frame' n') :
    frame'.depth ≤ frame.depth + Statement.allHeight c.structs c.functions frame ss := by
  induction ss generalizing frame n code with
  | nil =>
    cases h
    exact Int.le_add_of_nonneg_right (Int.natCast_nonneg _)
  | cons s ss ih =>
    cases h with
    | cons first rest =>
      have hdepth := first.depth
      have hrest := ih rest
      rw [first.next] at hrest hdepth
      simp only [Statement.allHeight]
      omega

namespace Emit.EmitsProgram

variable {img : Image} {c : EmitContext} {statics : List StaticVariable} {p : Program}
  {may : Stop → Prop} {G : Nat → State → Prop}

def start (p : Program) : Env := (p.statics.map fun d => (d.name.text, 0)).reverse

theorem ints_of_declared (hvars : statics = p.statics.map fun d => ⟨d.name.text, .int⟩) :
    ∀ v ∈ statics, v.type = .int := by
  rw [hvars]
  intro v hv
  obtain ⟨d, -, rfl⟩ := List.mem_map.mp hv
  rfl

theorem areas_without_strings (strings : c.strings.strings = []) :
    areas c.structs c.strings statics = statics.map fun v => (v.label, c.structs.words v.type) := by
  simp [areas, LiteralPool.entries, strings]

theorem staticWords_of_ints (strings : c.strings.strings = [])
    (ints : ∀ v ∈ statics, v.type = .int) : Footprint.staticWords c statics = statics.length := by
  have hones : (statics.map fun v => c.structs.words v.type) = statics.map fun _ => 1 :=
    List.map_congr_left fun v hv => by rw [ints v hv, Structs.words_int]
  rw [Footprint.staticWords, ← sum_areas, areas_without_strings strings, List.map_map]
  exact (congrArg List.sum hones).trans
    (by rw [List.map_const', List.sum_replicate_nat, Nat.mul_one])

/-- In front of the initial values, memory holds a zero for each static variable, and nothing else.
-/
theorem opens (h : EmitsProgram c statics p img.code) (complete : img.code.Complete p)
    (hvalue : img.value = img.code.value) (goal : Goal img may G) (strings : c.strings.strings = [])
    (hvars : statics = p.statics.map fun d => ⟨d.name.text, .int⟩)
    (fits : img.Fits statics.length k) :
    img.Leads (G n) (Emit.prologue c.structs c.strings statics)
      (Settled img statics.length (.topLevel statics) (start p))
      ⟨fun _ => 0, fun _ => 0, none⟩ := by
  have hints := ints_of_declared hvars
  have hareas : areas c.structs c.strings statics = _ := areas_without_strings strings
  have htotal := staticWords_of_ints strings hints
  rw [Footprint.staticWords] at htotal
  have hsmall := fits.small
  have hinside := fits.inside
  obtain ⟨_, table, -, -, hvalues, hlays⟩ := h.lays complete (by
    rw [htotal]
    exact Nat.lt_trans (by omega : statics.length < 2147483648) (by decide))
  rw [htotal] at hlays
  have hdefined : ∀ v ∈ statics, table.lookup v.label.name = some (img.value v.label) := by
    intro v hv
    obtain ⟨code, hreserves⟩ := h.reserves
    rw [hvalue]
    refine hvalues v.label ?_
    rw [hreserves, Assembly.defined_append, defined_reserved]
    exact List.mem_append_left _ (List.mem_append_right _ (List.mem_map_of_mem hv))
  have hmirrors : Mirrors img statics.length (Frame.topLevel statics).variables (start p) := by
    have hzero := (@Mirrors.nil img statics.length).statics (hareas ▸ hlays) hdefined hints
    have hnames : (statics.map fun v => (v.name, (0 : Int))) = p.statics.map fun d =>
        (d.name.text, 0) := by
      rw [hvars, List.map_map]
      rfl
    rw [hnames, List.append_nil, List.append_nil] at hzero
    simpa [Frame.variables, Frame.topLevel, Scope.empty, Frame.staticScope, start] using hzero
  have hempty : ∀ e ∈ c.strings.entries, table.lookup e.1.name = some (img.value e.1) := by
    simp [strings, LiteralPool.entries]
  have hwp : img.wp (fun t => t = .division ∧ may .division)
      (Emit.prologue c.structs c.strings statics) _ ⟨fun _ => 0, fun _ => 0, none⟩ :=
    wp_prologue hlays hempty (by omega) (by omega) fun _ => rfl
  refine ((goal.closed n).leads hwp).imp ?_
  rintro s ⟨hsp, hfilled⟩
  rw [strings] at hfilled
  refine ⟨hmirrors, by simp [start, Frame.topLevel, hvars], ?_, ?_⟩
  · have hzeros := Stacked.zeros hfilled (p.statics.map (·.name.text)).reverse
    rwa [List.map_reverse, List.map_map] at hzeros
  · rw [hsp, ← Int32.ofInt_eq_ofNat]
    simp [Frame.topLevel]

/-- The machine does with the code of an integer script what the interpreter does with the script.
-/
theorem meets (h : EmitsProgram c statics p img.code) (complete : img.code.Complete p)
    (hp : img.Proper)
    (sound : c.structs.Sound) (outside : c.returns = none) (strings : c.strings = .collect p)
    (hvalue : img.value = img.code.value) (integral : p.integral = true)
    (declared : StaticVariable.declare c.structs [] p.statics = .ok statics)
    (fits : ∀ k ∈ (Footprint.ofTables c statics p).heights, img.Fits statics.length k)
    (rounds : Nat) : img.Meets (p.execute rounds) rounds ⟨0, ⟨fun _ => 0, fun _ => 0, none⟩⟩ := by
  obtain ⟨-, -, hstatics, hbody⟩ := Program.integral_iff.mp integral
  have hnone : c.strings.strings = [] := strings ▸ Program.strings_of_integral integral
  have hvars := StaticVariable.declare_integral hstatics declared
  have hlive : RegisterPool.empty.live = [] := by decide
  have hroom := fits _ (List.mem_append_right _ List.mem_cons_self)
  have hroomAt : img.Fits (statics.length + (Frame.topLevel statics).depth)
      (Statement.allHeight c.structs c.functions (.topLevel statics) p.body) := by
    simpa [Frame.topLevel] using hroom
  have goal := hp.goal (p.execute rounds)
  have hopens := h.opens (n := rounds) complete hvalue goal hnone hvars hroom
  generalize hcode : img.code = code at h
  cases h with
  | @mk initsCode n₁ bodyCode frame n₂ functionsCode n₃ inits statements functions =>
    have hinits : ∀ s, Settled img statics.length (.topLevel statics) (start p) s →
        img.Leads (img.Meets (p.execute rounds) rounds) initsCode (fun s' => ∃ env,
          StaticDecl.initialise p.statics (start p) = .ok env ∧
          Settled img statics.length (.topLevel statics) env s') s := by
      intro s hs
      refine inits.executes goal hp sound hlive hstatics (fun d hd e he => ?_) hs fun stop hstop =>
        ?_
      · have hfits :=
          fits _ (List.mem_append_left _
            (List.mem_filterMap.mpr ⟨d, hd, Option.map_eq_some_iff.mpr ⟨e, he, rfl⟩⟩))
        simpa [Frame.topLevel] using hfits
      · rw [start] at hstop
        simp only [Program.execute, hstop, bind, Except.bind]
    have hstatements : ∀ s, (∃ env, StaticDecl.initialise p.statics (start p) = .ok env ∧
          Settled img statics.length (.topLevel statics) env s) →
        img.Leads (img.Meets (p.execute rounds) rounds) bodyCode
          (fun s' => ∃ env', p.execute rounds = .ok env' ∧
          Settled img statics.length frame env' s') s := by
      rintro s ⟨env, henv, hs⟩
      have hrun : p.execute rounds = (Block.many p.body).run rounds env := by
        rw [start] at henv
        simp only [Program.execute, henv, bind, Except.bind, Block.run]
      have hexecutes := statements.executes goal hp sound outside hlive rounds hbody hroomAt env s
        rounds (Nat.le_refl _) hs
      rw [← hrun] at hexecutes
      exact hexecutes fun stop hstop => hstop
    have here : img.code.At 0 (Emit.prologue c.structs c.strings statics ++ initsCode ++ bodyCode ++
      [line .halt]) :=
      ⟨[], functionsCode, by simp [hcode, Emit.prologue], rfl⟩
    refine ((hopens.append hinits).append hstatements) 0 here.left ?_
    rintro s ⟨env, henv, hs⟩ m hm endless
    obtain ⟨m', x', hrun, hm', hstore⟩ := m.step_halt hp hm (.halt here.right) endless
    have hdepth := statements.depth_le
    have hlength := hs.length
    have hsmall := hroomAt.small
    have hinside := hroomAt.inside
    rw [henv]
    refine ⟨1, _, hrun, hm'.leaves ?_ ?_ ⟨by omega, by omega, by omega⟩⟩
    · rw [hstore, hs.sp, hlength]
    · rw [hstore]
      exact hs.stacked

end Emit.EmitsProgram

/-- An integer script computes what it means. On a machine without a budget, with memory for the
static variables and for the stack at its highest in each part of the code, and with code and memory
that words can address, it stops where the interpreter does, with the same variables and the same
result, divides by zero where the interpreter does, and is still running where the interpreter is.
-/
theorem integers_compute {p : Program} {fp : Footprint} (parsed : Program.ofSource source = .ok p)
    (integral : p.integral = true) (compiled : Assembly.ofSource source = .ok a)
    (room : p.footprint = .ok fp) (code : a.size < 2 ^ 31) (memoryWords : Nat)
    (memory : ∀ k ∈ fp.heights, fp.statics + k ≤ memoryWords)
    (small : ∀ k ∈ fp.heights, fp.statics + k < 2 ^ 31) (file : Option String) :
    ∃ b, Bytecode.ofScript source file = .ok b ∧
      ∀ rounds, (Machine.load b ⟨memoryWords, none⟩).Meets rounds (p.execute rounds) := by
  have hp := Program.ofSource_wellNamed parsed
  have hprogram := Assembly.ofProgram_of_source parsed compiled
  have complete := Assembly.ofProgram_complete hp hprogram
  obtain ⟨structs, functions, vars, hs, hf, hv, emitted⟩ := ofProgram_emits hp hprogram
  obtain rfl : Footprint.ofTables ⟨structs, functions, .collect p, none⟩ vars p = fp := by
    simpa [Program.footprint, hs, hf, hv, bind_eq_ok, pure_eq_ok] using room
  let img : Image := ⟨a, a.value, memoryWords⟩
  have sound := Structs.ofDecls_sound (fun d hd => (hp.structs d hd).name.ne_empty) hs
  have hstatics := (Program.integral_iff.mp integral).2.2.1
  have hwords : Footprint.staticWords ⟨structs, functions, .collect p, none⟩ vars = vars.length :=
    EmitsProgram.staticWords_of_ints (Program.strings_of_integral integral)
      (EmitsProgram.ints_of_declared (StaticVariable.declare_integral hstatics hv))
  have fits : ∀ k ∈ (Footprint.ofTables ⟨structs, functions, .collect p, none⟩ vars p).heights,
      img.Fits vars.length k := by
    intro k hk
    have hmemory := memory k hk
    have hsmall := small k hk
    change Footprint.staticWords _ _ + k ≤ _ at hmemory
    change Footprint.staticWords _ _ + k < _ at hsmall
    rw [hwords] at hmemory hsmall
    exact ⟨Int.natCast_nonneg _, by omega, by exact_mod_cast hmemory⟩
  refine ⟨_, Bytecode.ofScript_words parsed compiled file, fun rounds => ?_⟩
  have hmeets : img.Meets (p.execute rounds) rounds ⟨0, ⟨fun _ => 0, fun _ => 0, none⟩⟩ :=
    emitted.meets complete (complete.proper rfl code) sound rfl rfl rfl integral hv fits rounds
  exact hmeets _ (Machine.load_shows a a.value ⟨memoryWords, none⟩) rfl

def SourceText.accumulates : SourceText := .ofString
  ("static int s; static int t = 3 * 7; int i = 0; while (i < 4) \x7b int s = i * t; " ++
    "if (s > 40 and i != 3) t -= 10; else s = s - i; t = t + s; i += 1; \x7d return t / (i - 4 + !s);")

theorem integers_compute_accumulates :
    ∃ p a fp b, Program.ofSource .accumulates = .ok p ∧ p.integral = true ∧
    Assembly.ofSource .accumulates = .ok a ∧ p.footprint = .ok fp ∧ a.size < 2 ^ 31 ∧
    (∀ k ∈ fp.heights, fp.statics + k ≤ 6) ∧ Bytecode.ofScript .accumulates none = .ok b ∧
    p.execute 4 = .error .exhausted ∧
    p.execute 5 = .error (.returned 449 [("i", 4), ("t", 449), ("s", 0)]) ∧
    ∀ rounds, (Machine.load b ⟨6, none⟩).Meets rounds (p.execute rounds) := by
  have hprogram : ((Program.ofSource .accumulates).toOption.filter fun p => p.integral &&
      p.footprint.toOption.any (fun fp => fp.heights.all (fp.statics + · ≤ 6)) && p.execute 4 =
      .error .exhausted &&
        p.execute 5 = .error (.returned 449 [("i", 4), ("t", 449), ("s", 0)])).isSome = true := by
    decide +kernel
  have hassembly : ((Assembly.ofSource .accumulates).toOption.filter (·.size < 10000)).isSome =
      true := by
    decide +kernel
  obtain ⟨p, hp⟩ := Option.isSome_iff_exists.mp hprogram
  obtain ⟨hp, hfits⟩ := Option.filter_eq_some_iff.mp hp
  obtain ⟨a, ha⟩ := Option.isSome_iff_exists.mp hassembly
  obtain ⟨ha, hsize⟩ := Option.filter_eq_some_iff.mp ha
  simp only [Bool.and_eq_true, decide_eq_true_eq] at hfits
  obtain ⟨⟨⟨integral, hfp⟩, hfour⟩, hfive⟩ := hfits
  obtain ⟨fp, hfp, hroom⟩ := (Option.any_eq_true _ _).mp hfp
  simp only [decide_eq_true_eq, List.all_eq_true] at hroom
  have parsed := toOption_eq_some.mp hp
  have compiled := toOption_eq_some.mp ha
  have room := toOption_eq_some.mp hfp
  have code : a.size < 2 ^ 31 := Nat.lt_trans (by simpa using hsize) (by decide)
  obtain ⟨b, hb, hmeets⟩ := integers_compute parsed integral compiled room code 6 hroom
    (fun k hk => Nat.lt_of_le_of_lt (hroom k hk) (by decide)) none
  exact ⟨p, a, fp, b, parsed, integral, compiled, room, code, hroom, hb, hfour, hfive, hmeets⟩

end WordScript
