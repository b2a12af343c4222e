import WordScript.Proofs.Assembles
import WordScript.Proofs.Machine.Normal
import WordScript.Proofs.Safety.Statements

/-!
# Programs are safe

All functions of a program are safe for any number of steps, by induction on that number, so its
code is. What a machine does with a program that dereferences nothing is then no worse than a
tolerable failure (`ofSource_runs_safely`), if memory, static memory and all frames are small enough
for the stack pointer not to wrap.
-/

namespace WordScript

open Emit Activation

/-! ### What is asked of a program -/

def Program.plain (p : Program) : Bool :=
  p.statics.all (·.init.all Expr.plain) && p.definitions.all
    (fun d => Statement.allPlain d.2.body) && Statement.allPlain p.body

/-- The room that a program takes: its static memory, and how high the stack gets in each part of
its code. -/
structure Footprint where
  statics : Nat
  heights : List Nat
  deriving DecidableEq, Repr

namespace Footprint

def staticWords (c : EmitContext) (statics : List StaticVariable) : Nat :=
  c.strings.words + c.structs.totalWords (statics.map StaticVariable.type)

def functionHeight (c : EmitContext) (statics : List StaticVariable) (decl : FunctionDecl)
    (s : Signature) : Nat :=
  Statement.allHeight c.structs c.functions (Frame.ofSignature c.structs statics s).enter decl.body

/-- The footprint, given the tables of the program: initial values, the statements outside of
functions, and functions and methods. -/
def ofTables (c : EmitContext) (statics : List StaticVariable) (p : Program) : Footprint where
  statics := staticWords c statics
  heights :=
    p.statics.filterMap (·.init.map
      (Expr.height c.structs c.functions (Frame.topLevel statics).scopes 0)) ++
      Statement.allHeight c.structs c.functions (.topLevel statics) p.body ::
        p.definitions.filterMap fun d => (c.functions.get? d.1).map (functionHeight c statics d.2)

end Footprint

def Program.footprint (p : Program) : Except (Fault TypeError) Footprint := do
  let structs ← Structs.ofDecls p.structs
  let functions ← Functions.ofProgram structs p
  let statics ← StaticVariable.declare structs [] p.statics
  return .ofTables ⟨structs, functions, .collect p, none⟩ statics p

/-! ### Strings and static variables -/

def Item.Spares (r : Register) : Item → Prop
  | .instruction i _ => i.straight = true ∧ i.target? ≠ some r
  | .static .. | .label _ | .comment _ => True

namespace Image

variable {img : Image} {s s' : Store}

theorem wp_spares (h : ∀ item ∈ a, item.Spares r) :
    img.wp (fun _ => True) a (fun s' => s'.registers r = s.registers r) s := by
  induction a generalizing s with
  | nil => exact rfl
  | cons item a ih =>
    have hrest : ∀ item ∈ a, item.Spares r :=
      fun item hitem => h item (List.mem_cons_of_mem _ hitem)
    cases item with
    | instruction i note =>
      obtain ⟨goes, hsets⟩ := h _ List.mem_cons_self
      refine ⟨goes, ?_⟩
      cases hexec : img.exec s i with
      | ok s' => exact wp_mono (fun s'' hs'' => hs''.trans (exec_spares hsets hexec)) (ih hrest)
      | error t => trivial
    | label | static | comment => exact ih hrest

theorem wp_settleCode {n : Nat} (hne : t ≠ r) (hsp : s.registers .sp = .ofInt (z + n))
    (hz : 0 ≤ z ∧ z + n ≤ 2 ^ 31) (hl : img.value l = .ofInt a) (ha : 0 ≤ a ∧ a + n ≤ 2 ^ 31)
    (hfits : (a + n ≤ img.memoryWords ∧ z + n ≤ img.memoryWords) ∨ ok .address)
    (h : ∀ s', s'.registers .sp = .ofInt z → s'.memory = copied s.memory a z n → Q s') :
    img.wp ok (settleCode n (.general t) (.general r) l comment) Q s := by
  refine wp_append.mpr (wp_lowerSp hsp ?_)
  simp only [noted, line, wp_mov, operand_labelled, operand_register, Store.registers_set,
    reduceCtorEq, ↓reduceIte, hl]
  refine wp_copyWords (by simpa using hne) ?_ (Store.registers_set.trans (if_pos rfl)) ha hz
    hfits (h _ ?_ rfl)
  · simp [hne]
  · simp

end Image

theorem Emit.spares_stringsCode (pool : LiteralPool) :
    ∀ item ∈ stringsCode pool, item.Spares .sp := by
  intro item hitem
  obtain ⟨e, -, hitem⟩ := List.mem_flatMap.mp hitem
  simp only [fillString, List.mem_cons, List.mem_flatMap, List.not_mem_nil, or_false] at hitem
  rcases hitem with rfl | rfl | ⟨ch, -, rfl | rfl⟩ <;>
    simp [Item.Spares, noted, line, increase, Instruction.straight, Instruction.target?]

theorem Emit.EmitsInits.safe {img : Image} {c : EmitContext} {act : Activation}
    {frame : Frame} {s : Store}
    (hs : img.Serves c) (hcalls : ∀ k < m, img.CallsSafe c act.statics k) (live : pool.live = [])
    (within : frame.Within c.structs (img.StaticArea act.statics) act)
    (h : EmitsInits c frame pool n ds code n') (plain : ∀ d ∈ ds, d.init.all Expr.plain = true)
    (room : ∀ d ∈ ds, ∀ e ∈ d.init, frame.depth + e.height c.structs c.functions frame.scopes 0 ≤
      2 ^ 30) (hrun : act.Running memory frame.depth s) :
    img.Leads (img.Safe m) code (act.Running memory frame.depth) s := by
  induction h generalizing s with
  | nil => exact .nil hrun
  | zero absent rest ih =>
    exact ih (fun d hd => plain d (List.mem_cons_of_mem _ hd))
      (fun d hd => room d (List.mem_cons_of_mem _ hd)) hrun
  | value present found given accepted same free freeSource rest ih =>
    have hplain := plain _ List.mem_cons_self
    rw [present, Option.all_some] at hplain
    have hroom := room _ List.mem_cons_self _ present
    have hwords := given.words_le hs.sound.structs live hplain
    obtain ⟨v, hv, rfl, hplace⟩ := Frame.lookup_eq_some found
    have hfits := within.fits.find? hv
    rcases hplace with ⟨_, -, hl⟩ | ⟨l', hstorage, hl⟩
    · cases hl
    obtain rfl := Location.static.inj hl
    simp only [Variable.Fits, hstorage] at hfits
    obtain ⟨z, hz, hle⟩ := hfits
    have := act.above
    have := act.low_nonpos
    have := act.small
    have := within.nonneg
    refine (((given.safe_running hs hcalls live hplain within hroom hrun).append (fun s₁ h₁ =>
      (hs.proper.safe m).leads ?_)).append fun s₂ h₂ =>
        ih (fun d hd => plain d (List.mem_cons_of_mem _ hd))
        (fun d hd => room d (List.mem_cons_of_mem _ hd)) h₂)
    refine Image.wp_settleCode (z := act.base + frame.depth) (a := z)
      (RegisterPool.ne_of_free_take free freeSource) ?_ (by omega)
      (by rw [hz, Int32.ofInt_eq_ofNat]) (by omega) (.inr trivial) fun s₂ hsp hmem =>
        ⟨hsp, fun b hb => ?_⟩
    · rw [h₁.sp, same, Int.add_assoc]
    · rw [hmem, copied_outside ?_, h₁.kept b hb]
      simp only [Guards] at hb
      omega

/-! ### Frames at the start of code -/

namespace Frame

variable {structs : Structs} {statics : List StaticVariable} {static : Label → Nat → Prop}
  {low top position : Int}

theorem staticScope_fits (areas : ∀ v ∈ statics, static v.label (structs.words v.type)) :
    ∀ e ∈ (staticScope statics).entries, e.2.Fits structs static low top := by
  intro e he
  obtain ⟨v, hv, rfl⟩ := List.mem_map.mp (List.mem_reverse.mp he)
  exact areas v hv

theorem topLevel_within (areas : ∀ v ∈ statics, static v.label (structs.words v.type))
    (act : Activation) : (topLevel statics).Within structs static act where
  fits := by
    intro scope hscope
    simp only [topLevel, List.mem_cons, List.not_mem_nil, or_false] at hscope
    rcases hscope with rfl | rfl
    · simp [Scope.empty]
    · exact staticScope_fits areas
  nonneg := Int.le_refl 0
  slot := by simp [topLevel]

theorem placeParams_fits {params : List (String × ValueType)} (hlow : low ≤ position)
    (hend : position + structs.totalWords (params.map Prod.snd) ≤ -1) :
    ∀ e ∈ placeParams structs position params, e.2.Fits structs static low top := by
  induction params generalizing position with
  | nil => simp [placeParams]
  | cons param params ih =>
    simp only [List.map_cons, Structs.totalWords] at hend
    intro e he
    rcases List.mem_cons.mp he with rfl | he
    · simp only [Variable.Fits]
      omega
    · exact ih (by omega) (by omega) e he

theorem ofSignature_within {s : Signature}
    (areas : ∀ v ∈ statics, static v.label (structs.words v.type))
    (hr : ∀ type, s.receiver = some type → structs.words type = 1) (act : Activation)
    (hlow : act.low = s.slot structs) :
    (ofSignature structs statics s).Within structs static act := by
  have hparams : ∀ e ∈ (placeParams structs (-1 - s.argumentWords structs) s.params).reverse,
      e.2.Fits structs static act.low 0 := by
    intro e he
    refine placeParams_fits ?_ ?_ e (List.mem_reverse.mp he)
    · simp only [hlow, Signature.slot]
      split <;> omega
    · simp only [Signature.argumentWords]
      omega
  cases hreceiver : s.receiver with
  | none =>
    refine ⟨fun scope hscope => ?_, ?_, ?_⟩
    · simp only [ofSignature, hreceiver, List.mem_cons, List.not_mem_nil, or_false] at hscope ⊢
      rcases hscope with rfl | rfl
      · exact hparams
      · exact staticScope_fits areas
    · simp [ofSignature, hreceiver]
    · simp [ofSignature, hreceiver, hlow, Signature.slot]
  | some type =>
    have hwords := hr type hreceiver
    refine ⟨fun scope hscope => ?_, ?_, ?_⟩
    · simp only [ofSignature, hreceiver, List.mem_cons, List.not_mem_nil, or_false] at hscope ⊢
      rcases hscope with rfl | rfl
      · intro e he
        rcases List.mem_cons.mp he with rfl | he
        · simp only [Variable.Fits, hwords, hlow, Signature.slot, hreceiver,
            Option.isSome_some, ↓reduceIte]
          omega
        · exact hparams e he
      · exact staticScope_fits areas
    · simp [ofSignature, hreceiver]
    · simp [ofSignature, hreceiver, hlow, Signature.slot]

theorem depth_ofSignature : (ofSignature structs statics s).depth = 0 := by
  simp only [ofSignature]
  split <;> rfl

end Frame

/-! ### Functions -/

/-- An image of a whole program: its labels are defined once, static variables have room in the
first `words` words of memory, and the code of each function dereferences nothing and stays below
2³⁰ words of stack. -/
structure Image.Hosts (img : Image) (c : EmitContext) (statics : List StaticVariable)
    (words : Nat) : Prop extends
    img.Serves c where
  distinct : img.code.defined.Nodup
  areas : ∀ v ∈ statics, img.StaticArea words v.label (c.structs.words v.type)
  bodies : ∀ f signature, c.functions.get? f = some signature → ∃ decl pc n code n',
    EmitsFunction c statics n f decl code n' ∧ img.code.At pc code ∧
    Statement.allPlain decl.body = true ∧ Footprint.functionHeight c statics decl signature ≤ 2 ^ 30

theorem Assembly.At.label_unique {a : Assembly} (h : a.defined.Nodup) (here : a.At pc [.label l])
    (there : a.At pc' [.label l]) : pc = pc' := by
  obtain ⟨before, after, ha, rfl⟩ := here
  obtain ⟨before', after', ha', rfl⟩ := there
  rw [List.append_assoc, List.singleton_append] at ha ha'
  have hoffset : a.symbol? 0 0 l = some (0 + before.size) := by
    rw [ha]
    exact Assembly.symbol?_label (ha ▸ h)
  have hoffset' : a.symbol? 0 0 l = some (0 + before'.size) := by
    rw [ha']
    exact Assembly.symbol?_label (ha' ▸ h)
  simpa using hoffset.symm.trans hoffset'

namespace Image

variable {img : Image} {c : EmitContext} {statics : List StaticVariable} {words : Nat}
  {code : Assembly}

theorem Serves.inside (h : img.Serves c) (signature : Signature) :
    img.Serves (c.inside signature) :=
  ⟨h.proper, h.sound.inside signature, h.small, h.functions⟩

/-- The body of a function safely leads to its return address. -/
theorem Hosts.function_safe (h : img.Hosts c statics words)
    (hf : EmitsFunction c statics n f decl code n')
    (known : c.functions.get? f = some signature) (plain : Statement.allPlain decl.body = true)
    (height : Footprint.functionHeight c statics decl signature ≤ 2 ^ 30) (act : Activation)
    (hstatics : act.statics = words) (hlow : act.low = signature.slot c.structs)
    (hcalls : ∀ k < m, img.CallsSafe c words k)
    (hreturns : img.ReturnsSafe (c.inside signature) act memory m)
    (hrun : act.Running memory 0 s) : img.Leads (img.Safe m) code (fun _ => False) s := by
  subst hstatics
  have hserves := h.toServes.inside signature
  have hlive : RegisterPool.empty.live = [] := by decide
  have hwithin :=
    Frame.ofSignature_within h.areas (h.sound.functions.receiver_words known c.structs) act hlow
  have hdepth : (Frame.ofSignature c.structs statics signature).depth = 0 := Frame.depth_ofSignature
  have hroom : (Frame.ofSignature c.structs statics signature).depth +
      Footprint.functionHeight c statics decl signature ≤ 2 ^ 30 := by
    rw [hdepth]
    omega
  have hlabel : ∀ {rest P}, img.Leads (img.Safe m) rest P s →
      img.Leads (img.Safe m) (.label f.label :: rest) P s := fun hrest =>
    .append (a := [_]) (P := (· = s)) ((h.proper.safe m).leads (Image.wp_label.mpr rfl))
      fun s' hs' => hs' ▸ hrest
  cases hf with
  | returning known' block returns =>
    obtain rfl := Option.some.inj (known.symm.trans known')
    have hblock : Block.Safe img _ act memory _ _ _ _ :=
      block.safe hserves hlive plain hwithin hroom
    refine hlabel ((hblock m s hcalls hreturns (hdepth ▸ hrun)).imp fun s' hs' => ?_)
    exact Bool.false_ne_true (hs'.1.symm.trans returns)
  | ending known' void block returns leave =>
    obtain rfl := Option.some.inj (known.symm.trans known')
    have hblock : Block.Safe img _ act memory _ _ _ _ :=
      block.safe hserves hlive plain hwithin hroom
    obtain rfl := block.next
    have hleave : Block.Safe img _ act memory _ _ _ _ :=
      leave.safe hserves hlive rfl (block.within hwithin)
      (by simp [Statement.next, Block.height, Statement.height, hdepth])
    refine hlabel ((hblock m s hcalls hreturns (hdepth ▸ hrun)).append fun s₁ h₁ => ?_)
    exact (hleave m s₁ hcalls hreturns h₁.2).imp fun s₂ h₂ => Bool.false_ne_true h₂.1.symm

/-- Calls are safe for any number of steps. -/
theorem Hosts.callsSafe (h : img.Hosts c statics words) (n : Nat) : img.CallsSafe c words n := by
  induction n using Nat.strongRecOn with
  | ind n ih =>
    intro f signature pc b s back known here hstatics hb hsp hback hinside hsafe
    obtain ⟨decl, pc', n₁, code, n₂, hf, hcode, plain, height⟩ := h.bodies f signature known
    have hslot := signature.slot_neg c.structs
    let act : Activation := ⟨words, b, signature.slot c.structs, by omega, hstatics, hb⟩
    have hreturns : img.ReturnsSafe (c.inside signature) act s.memory n := by
      intro type htype
      obtain rfl : signature.returns = type := Option.some.inj htype
      refine ⟨?_, back, hback, hinside, hsafe⟩
      simp only [act, Signature.slot, EmitContext.inside]
      split <;> omega
    have hleads :=
        h.function_safe (s := s) hf known plain height act rfl rfl (fun k hk => ih k hk) hreturns
      ⟨by simpa [act] using hsp, fun a _ => rfl⟩
    obtain ⟨rest, rfl⟩ := hf.label
    obtain rfl := here.label_unique h.distinct hcode.head
    exact hleads pc hcode fun s' hs' => hs'.elim

end Image

/-! ### Whole programs -/

namespace Emit

variable {img : Image} {c : EmitContext} {p : Program} {statics : List StaticVariable}
  {code a : Assembly}

theorem staticWords_reserve_le (l : List α) (f : α → Label) (g : α → Nat) :
    Assembly.staticWords (l.map fun e => reserveStatic (f e) (g e)) ≤ (l.map g).sum := by
  induction l with
  | nil => simp [Assembly.staticWords]
  | cons e l ih =>
    have := Nat.mod_le (g e) sizeBound
    simp only [List.map_cons, Assembly.staticWords, reserveStatic, Item.staticWords,
      List.sum_cons] at ih ⊢
    omega

theorem EmitsProgram.reserves (h : EmitsProgram c statics p a) :
    ∃ code, a = reserved c.structs c.strings statics ++ code := by
  cases h with
  | mk inits statements functions =>
    exact ⟨_, by simp only [opening, reserved, List.append_assoc]; rfl⟩

theorem EmitsProgram.staticArea (h : EmitsProgram c statics p a) (distinct : a.defined.Nodup)
    (hv : v ∈ statics) (hvalue : img.value = a.value) :
    img.StaticArea (Footprint.staticWords c statics) v.label (c.structs.words v.type) := by
  obtain ⟨before, after, rfl⟩ := List.append_of_mem hv
  obtain ⟨code, rfl⟩ := h.reserves
  let front : Assembly :=
    c.strings.entries.map (fun e => reserveStatic e.1 (LiteralPool.wordsOf e.2)) ++
    before.map (fun v => reserveStatic v.label (c.structs.words v.type))
  have hfront : front.staticWords ≤ c.strings.words +
      (before.map fun v => c.structs.words v.type).sum := by
    rw [Assembly.staticWords_append, ← LiteralPool.sum_entries]
    exact Nat.add_le_add (staticWords_reserve_le _ _ _) (staticWords_reserve_le _ _ _)
  refine ⟨front.staticWords, ?_, ?_⟩
  · rw [hvalue]
    refine (Assembly.values_value distinct).static front v.label
      (c.structs.words v.type % sizeBound)
      (after.map (fun v => reserveStatic v.label (c.structs.words v.type)) ++ code) ?_
    simp [reserved, reserveStatic, front]
  · have htotal : c.structs.totalWords ((before ++ v :: after).map StaticVariable.type) =
        (before.map fun v => c.structs.words v.type).sum +
          (c.structs.words v.type + (after.map fun v => c.structs.words v.type).sum) := by
      simp [Structs.totalWords_eq, Function.comp_def]
    rw [Footprint.staticWords, htotal]
    omega

theorem EmitsProgram.hosts (h : EmitsProgram c statics p img.code) (complete : img.code.Complete p)
    (hvalue : img.value = img.code.value) (sound : c.Sound) (hf : c.functions.Holds p.definitions)
    (plain : p.plain = true) (size : img.code.size < 2 ^ 31) (memory : img.memoryWords < 2 ^ 30)
    (heights : ∀ k ∈ (Footprint.ofTables c statics p).heights, k < 2 ^ 30) :
    img.Hosts c statics (Footprint.staticWords c statics) := by
  have hbodies : ∀ f signature, c.functions.get? f = some signature → ∃ decl pc n code n',
      EmitsFunction c statics n f decl code n' ∧ img.code.At pc code ∧
      Statement.allPlain decl.body = true ∧
        Footprint.functionHeight c statics decl signature ≤ 2 ^ 30 := by
    intro f signature hget
    obtain ⟨decl, hd, pc, n, code, n', hfunction, here⟩ := h.function_at hf hget
    have hplain : Statement.allPlain decl.body = true := by
      simp only [Program.plain, Bool.and_eq_true, List.all_eq_true] at plain
      exact plain.1.2 (f, decl) hd
    have hheight : Footprint.functionHeight c statics decl signature < 2 ^ 30 := by
      refine heights _ (List.mem_append_right _
        (List.mem_cons_of_mem _ (List.mem_filterMap.mpr ⟨(f, decl), hd, ?_⟩)))
      rw [hget, Option.map_some]
    exact ⟨decl, pc, n, code, n', hfunction, here, hplain, Nat.le_of_lt hheight⟩
  refine ⟨⟨complete.proper hvalue size, sound, memory, ?_⟩, complete.distinct, ?_, hbodies⟩
  · intro f signature hget
    obtain ⟨_, pc, _, _, _, hfunction, hat, -⟩ := hbodies f signature hget
    obtain ⟨rest, rfl⟩ := hfunction.label
    exact ⟨pc, hat.head⟩
  · exact fun v hv => h.staticArea complete.distinct hv hvalue

/-- The stack starts above static memory, whatever is written there. -/
theorem leads_opening (hp : img.Proper) (n : Nat) (s : Store) :
    img.Leads (img.Safe n) (opening c.structs c.strings statics ++ stringsCode c.strings)
      (fun s' => s'.registers .sp = .ofNat (Footprint.staticWords c statics)) s := by
  refine .append (P := fun s' => s'.registers .sp = .ofNat (Footprint.staticWords c statics))
    (.append (P := fun _ => True) ((hp.safe n).leads ?_) fun s₁ _ => (hp.safe n).leads ?_)
    fun s₂ hs₂ => (hp.safe n).leads ?_
  · refine Image.wp_mono (fun _ _ => trivial) (Image.wp_spares (r := .sp) fun item hitem => ?_)
    have hreserved : item ∈ reserved c.structs c.strings statics := hitem
    obtain ⟨l, words, rfl⟩ := mem_reserved hreserved
    trivial
  · exact Image.wp_mov.mpr (Store.registers_set.trans (if_pos rfl))
  · exact Image.wp_mono (fun s₃ hs₃ => hs₃.trans hs₂)
      (Image.wp_spares (spares_stringsCode c.strings))

/-- From the start of the code, nothing worse than a tolerable failure happens. -/
theorem EmitsProgram.safe (h : EmitsProgram c statics p img.code)
    (hosts : img.Hosts c statics (Footprint.staticWords c statics)) (outside : c.returns = none)
    (plain : p.plain = true) (small : Footprint.staticWords c statics < 2 ^ 30)
    (heights : ∀ k ∈ (Footprint.ofTables c statics p).heights, k < 2 ^ 30) (n : Nat) (s : Store) :
    img.Safe n ⟨0, s⟩ := by
  let act : Activation :=
    ⟨Footprint.staticWords c statics, Footprint.staticWords c statics, 0, Int.le_refl 0,
      by omega, by omega⟩
  have hlive : RegisterPool.empty.live = [] := by decide
  have hcalls : ∀ k < n, img.CallsSafe c act.statics k := fun k _ => hosts.callsSafe k
  have hwithin : (Frame.topLevel statics).Within c.structs (img.StaticArea act.statics) act :=
    Frame.topLevel_within hosts.areas act
  have hreturns : img.ReturnsSafe c act s.memory n := by
    intro type htype
    rw [outside] at htype
    cases htype
  -- Nothing lies below the code outside of functions, so nothing is guarded.
  have hrunning : ∀ s' : Store, s'.registers .sp = .ofNat (Footprint.staticWords c statics) →
      act.Running s.memory 0 s' := by
    intro s' hsp
    refine ⟨by simpa [act, Int32.ofInt_eq_ofNat] using hsp, fun a ha => ?_⟩
    simp only [Guards, act] at ha
    omega
  simp only [Program.plain, Bool.and_eq_true, List.all_eq_true] at plain
  generalize hcode : img.code = code at h
  cases h with
  | @mk initsCode n₁ bodyCode frame n₂ functionsCode n₃ inits statements functions =>
    have hinits : ∀ s₁, act.Running s.memory 0 s₁ →
        img.Leads (img.Safe n) initsCode (act.Running s.memory 0) s₁ := by
      intro s₁ h₁
      refine inits.safe hosts.toServes hcalls hlive hwithin plain.1.1 (fun d hd e he => ?_) h₁
      have hheight := heights _ (List.mem_append_left _ (List.mem_filterMap.mpr
        ⟨d, hd, Option.map_eq_some_iff.mpr ⟨e, he, rfl⟩⟩))
      change (0 : Int) + _ ≤ _
      omega
    have hbody : (Block.many p.body).Safe img c act s.memory (Frame.topLevel statics)
        bodyCode frame := by
      refine statements.safe hosts.toServes hlive plain.2 hwithin ?_
      have hheight := heights _ (List.mem_append_right _ List.mem_cons_self)
      change 0 + (Statement.allHeight c.structs c.functions (Frame.topLevel statics) p.body : Int) ≤
        _
      omega
    have hleads := (((leads_opening hosts.proper n s).imp hrunning).append hinits).append
      fun s₁ h₁ => hbody n s₁ hcalls hreturns h₁
    have here : img.code.At 0 (opening c.structs c.strings statics ++ stringsCode c.strings ++
      initsCode ++ bodyCode ++
        [line .halt]) := ⟨[], functionsCode, by simp [hcode], rfl⟩
    exact hleads 0 here.left fun s' _ => .halt hosts.proper (.halt here.right)

end Emit

/-- A script that dereferences nothing compiles to code that assembles and never goes wrong: on a
machine of less than 2³⁰ words, where static memory and each frame stay below that too and code has
offsets that are words, a run that fails has divided by zero, gone past the end of memory, or used
up its budget. -/
theorem ofSource_runs_safely {p : Program} {fp : Footprint}
    (parsed : Program.ofSource source = .ok p)
    (plain : p.plain = true) (compiled : Assembly.ofSource source = .ok a)
    (room : p.footprint = .ok fp)
    (statics : fp.statics < 2 ^ 30) (heights : ∀ k ∈ fp.heights, k < 2 ^ 30)
    (code : a.size < 2 ^ 31)
    (config : MachineConfig) (memory : config.memoryWords < 2 ^ 30) (file : Option String) :
    ∃ b, Bytecode.ofScript source file = .ok b ∧
      ∀ n ending, (Machine.load b config).runFor n = .inr ending →
        (∃ t, ending = .ok t) ∨ ∃ pc, ending = .error (.divisionByZero pc) ∨
          (∃ z, ending = .error (.invalidAddress pc z)) ∨
          ∃ k, ending = .error (.stepBudgetExhausted pc k) := by
  have hp := Program.ofSource_wellNamed parsed
  have hprogram := Assembly.ofProgram_of_source parsed compiled
  have complete := Assembly.ofProgram_complete hp hprogram
  obtain ⟨structs, functions, vars, hs, hf, hv, emitted⟩ := ofProgram_emits hp hprogram
  obtain rfl : Footprint.ofTables ⟨structs, functions, .collect p, none⟩ vars p = fp := by
    simpa [Program.footprint, hs, hf, hv, bind_eq_ok, pure_eq_ok] using room
  let img : Image := ⟨a, a.value, config.memoryWords⟩
  have sound : EmitContext.Sound ⟨structs, functions, .collect p, none⟩ :=
    ⟨Structs.ofDecls_sound (fun d hd => (hp.structs d hd).name.ne_empty) hs,
      Functions.ofProgram_sound hf⟩
  have hosts : img.Hosts _ _ _ :=
    emitted.hosts complete rfl sound (Functions.ofProgram_holds hf) plain code memory heights
  refine ⟨_, Bytecode.ofScript_words parsed compiled file, fun n ending hrun => ?_⟩
  cases ending with
  | ok t => exact .inl ⟨t, rfl⟩
  | error e =>
    have htolerable := EmitsProgram.safe emitted hosts rfl plain statics heights n _ _
      (Machine.load_shows a a.value config) e hrun
    cases e with
    | divisionByZero pc => exact .inr ⟨pc, .inl rfl⟩
    | invalidAddress pc z => exact .inr ⟨pc, .inr (.inl ⟨z, rfl⟩)⟩
    | stepBudgetExhausted pc k => exact .inr ⟨pc, .inr (.inr ⟨k, rfl⟩)⟩
    | _ => exact htolerable.elim

def SourceText.countsDown : SourceText := .ofString
  ("struct P \x7b int x; int& text; func int twice(int n) \x7b return n + n; \x7d \x7d static P p; static int r = 1; " ++
    "func int fact(int n) \x7b if (n < 2) return 1; return n * fact(n - 1); \x7d " ++
    "p.text = \"down\"; p.x = p.twice(3); while (p.x >= 0) \x7b p.x -= 1; r = fact(p.x) / p.x; \x7d return r;")

theorem ofSource_runs_safely_countsDown :
    ∃ p a fp b, Program.ofSource .countsDown = .ok p ∧ p.plain = true ∧
    Assembly.ofSource .countsDown = .ok a ∧ p.footprint = .ok fp ∧ fp.statics = 8 ∧
    (∀ k ∈ fp.heights, k < 2 ^ 30) ∧ a.size < 2 ^ 31 ∧ Bytecode.ofScript .countsDown none = .ok b ∧
    ∀ n ending, (Machine.load b ⟨64, some 1000⟩).runFor n = .inr ending →
      (∃ t, ending = .ok t) ∨ ∃ pc, ending = .error (.divisionByZero pc) ∨
        (∃ z, ending = .error (.invalidAddress pc z)) ∨
        ∃ k, ending = .error (.stepBudgetExhausted pc k) := by
  have hprogram : ((Program.ofSource .countsDown).toOption.filter fun p => p.plain &&
      p.footprint.toOption.any fun fp =>
        fp.statics = 8 && fp.heights.all (· < 100)).isSome = true := by
    decide +kernel
  have hassembly : ((Assembly.ofSource .countsDown).toOption.filter (·.size < 10000)).isSome =
      true := by
    decide +kernel
  obtain ⟨p, hp⟩ := Option.isSome_iff_exists.mp hprogram
  obtain ⟨hp, hfits⟩ := Option.filter_eq_some_iff.mp hp
  obtain ⟨a, ha⟩ := Option.isSome_iff_exists.mp hassembly
  obtain ⟨ha, hsize⟩ := Option.filter_eq_some_iff.mp ha
  obtain ⟨plain, hfp⟩ := Bool.and_eq_true_iff.mp hfits
  obtain ⟨fp, hfp, hsmall⟩ := (Option.any_eq_true _ _).mp hfp
  simp only [Bool.and_eq_true, decide_eq_true_eq, List.all_eq_true] at hsmall
  have parsed := toOption_eq_some.mp hp
  have compiled := toOption_eq_some.mp ha
  have room := toOption_eq_some.mp hfp
  have heights : ∀ k ∈ fp.heights, k < 2 ^ 30 :=
    fun k hk => Nat.lt_trans (hsmall.2 k hk) (by decide)
  have code : a.size < 2 ^ 31 := Nat.lt_trans (by simpa using hsize) (by decide)
  obtain ⟨b, hb, hruns⟩ :=
    ofSource_runs_safely parsed plain compiled room (by omega) heights code ⟨64, some 1000⟩
    (by decide) none
  exact ⟨p, a, fp, b, parsed, plain, compiled, room, hsmall.1, heights, code, hb, hruns⟩

end WordScript
