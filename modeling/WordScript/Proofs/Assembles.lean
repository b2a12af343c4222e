import WordScript.Proofs.Assembly.Counts
import WordScript.Proofs.Emit.Lines
import WordScript.Proofs.Literals
import WordScript.Script

/-!
# Whatever compiles assembles

The assembly of a script defines a label for each string literal, static variable, function and
method, and for each place in its code, all of them once. It uses no other label, none of them is
read as a register or a number, and every branch directly follows a comparison. So its text
assembles (`ofSource_assembles`), with checked sums as long as code words and addresses can be
counted in words.
-/

namespace WordScript

/-! ### Frames -/

theorem mem_of_lookup_eq_some {α β : Type} [BEq α] [LawfulBEq α] {name : α} {b : β}
    {l : List (α × β)} (h : l.lookup name = some b) : (name, b) ∈ l := by
  obtain ⟨l₁, l₂, rfl, -⟩ := List.lookup_eq_some_iff.mp h
  simp

namespace Frame

theorem known_of_scopes {f : Frame} (h : ∀ scope ∈ f.scopes, ∀ e ∈ scope.entries,
    OneLine e.1 ∧ ∀ l, e.2.storage = .static l → ∃ s ∈ statics, l = s.label) : f.Known statics := by
  intro name v hv
  obtain ⟨scope, hscope, hentry⟩ := List.exists_of_findSome?_eq_some hv
  exact h scope hscope _ (mem_of_lookup_eq_some hentry)

theorem staticScope_known {statics : List StaticVariable} (hn : ∀ v ∈ statics, IsName v.name) :
    ∀ e ∈ (staticScope statics).entries, OneLine e.1 ∧ ∀ l, e.2.storage = .static l → ∃ s ∈ statics,
      l = s.label := by
  intro e he
  obtain ⟨v, hv, rfl⟩ := List.mem_map.mp (List.mem_reverse.mp he)
  exact ⟨(hn v hv).oneLine, fun l hl => ⟨v, hv, (Storage.static.inj hl).symm⟩⟩

theorem topLevel_known {statics : List StaticVariable} (hn : ∀ v ∈ statics, IsName v.name) :
    (topLevel statics).Known statics := by
  refine known_of_scopes fun scope hscope => ?_
  simp only [topLevel, List.mem_cons, List.not_mem_nil, or_false] at hscope
  rcases hscope with rfl | rfl
  · simp [Scope.empty]
  · exact staticScope_known hn

theorem mem_placeParams {params : List (String × ValueType)}
    (h : e ∈ placeParams structs position params) :
    e.1 ∈ params.map Prod.fst ∧ ∃ z, e.2.storage = .frame z := by
  induction params generalizing position with
  | nil => cases h
  | cons param params ih =>
    rcases List.mem_cons.mp h with rfl | h
    · exact ⟨by simp, position, rfl⟩
    · obtain ⟨hname, hstorage⟩ := ih h
      exact ⟨List.mem_cons_of_mem _ hname, hstorage⟩

theorem ofSignature_known (structs : Structs) {statics : List StaticVariable} {s : Signature}
    (hn : ∀ v ∈ statics, IsName v.name)
    (hp : ∀ param ∈ s.params, IsName param.1) : (ofSignature structs statics s).Known statics := by
  have hparams : ∀ e ∈ (placeParams structs (-1 - s.argumentWords structs) s.params).reverse,
      OneLine e.1 ∧ ∀ l, e.2.storage = .static l → ∃ s ∈ statics, l = s.label := by
    intro e he
    obtain ⟨hname, z, hz⟩ := mem_placeParams (List.mem_reverse.mp he)
    obtain ⟨param, hparam, hname⟩ := List.mem_map.mp hname
    exact ⟨hname ▸ (hp param hparam).oneLine, fun l hl => by simp [hz] at hl⟩
  cases hr : s.receiver with
  | none =>
    refine known_of_scopes fun scope hscope => ?_
    simp only [ofSignature, hr, List.mem_cons, List.not_mem_nil, or_false] at hscope
    rcases hscope with rfl | rfl
    · exact hparams
    · exact staticScope_known hn
  | some type =>
    refine known_of_scopes fun scope hscope => ?_
    simp only [ofSignature, hr, List.mem_cons, List.not_mem_nil, or_false] at hscope
    rcases hscope with rfl | rfl
    · intro e he
      rcases List.mem_cons.mp he with rfl | he
      · exact ⟨by simp [OneLine], by simp⟩
      · exact hparams e he
    · exact staticScope_known hn

end Frame

/-! ### Strings in comments -/

theorem newline_notMem_toDigits (n : Nat) : '\n' ∉ Nat.toDigits 16 n := by
  induction n using Nat.strongRecOn with
  | ind n ih =>
    rw [Nat.toDigits_eq_if (by decide)]
    split
    · simp
    · next hn => simp [ih (n / 16) (by omega)]

theorem newline_notMem_escapeChar (c : Char) : '\n' ∉ escapeChar '"' c := by
  delta escapeChar
  split
  · decide
  split
  · decide
  split
  · decide
  split
  · decide
  next hc =>
    split
    · simpa using Ne.symm hc
    split
    · simp [escapeCode, newline_notMem_toDigits]
    · simpa using Ne.symm hc

theorem oneLine_quoteText (s : String) : OneLine (quoteText s) := by
  rw [quoteText, oneLine_ofList]
  simp [newline_notMem_escapeChar]

/-! ### Parts of a program -/

namespace Emit

/-- Code that defines `labels`, and labels with the numbers from `n` to `n'`, each once. -/
structure Part (K : Label → Prop) (n n' : Nat) (labels : List Label) (code : Assembly) : Prop where
  mono : n ≤ n'
  lines : ∀ item ∈ code, item.Over (Among K n n')
  defined : code.defined.Perm (labels ++ (List.range' n (n' - n)).map .code)
  compared : code.compared false = true

theorem range'_append {n n₁ n₂ : Nat} (h : n ≤ n₁) (h' : n₁ ≤ n₂) :
    List.range' n (n₂ - n) = List.range' n (n₁ - n) ++ List.range' n₁ (n₂ - n₁) := by
  have hsplit : List.range' n (n₁ - n) ++ List.range' (n + (n₁ - n)) (n₂ - n₁) = _ :=
    List.range'_append_1
  rw [show n + (n₁ - n) = n₁ by omega, show n₁ - n + (n₂ - n₁) = n₂ - n by omega] at hsplit
  exact hsplit.symm

theorem mem_codes : Label.code i ∈ (List.range' n (n' - n)).map Label.code ↔ n ≤ i ∧ i < n' := by
  simp only [List.mem_map, List.mem_range'_1]
  constructor
  · rintro ⟨j, hj, hcode⟩
    obtain rfl := Label.code_inj hcode
    omega
  · exact fun h => ⟨i, by omega, rfl⟩

theorem nodup_codes : ((List.range' n m).map Label.code).Nodup :=
  List.Pairwise.map _ (fun _ _ h he => h (Label.code_inj he)) List.nodup_range'

theorem Lines.part (h : Lines K n n' code) : Part K n n' [] code where
  mono := h.mono
  lines := h.tidy.lines
  defined := by
    rw [List.nil_append, List.perm_iff_count]
    intro l
    by_cases hl : ∃ i, l = .code i
    · obtain ⟨i, rfl⟩ := hl
      rw [h.tidy.count, nodup_codes.count, between]
      simp only [mem_codes]
    · have hdefined : l ∉ code.defined := fun hm => hl (h.tidy.only l hm)
      rw [List.count_eq_zero_of_not_mem hdefined, eq_comm, List.count_eq_zero]
      intro hm
      obtain ⟨i, -, rfl⟩ := List.mem_map.mp hm
      exact hl ⟨i, rfl⟩
  compared := h.tidy.compared

theorem Part.append (ha : Part K n n₁ as a) (hb : Part K n₁ n₂ bs b) :
    Part K n n₂ (as ++ bs) (a ++ b) where
  mono := Nat.le_trans ha.mono hb.mono
  lines := by
    intro item hitem
    rcases List.mem_append.mp hitem with hitem | hitem
    · exact (ha.lines item hitem).mono (Among.mono le_rfl hb.mono)
    · exact (hb.lines item hitem).mono (Among.mono ha.mono le_rfl)
  defined := by
    have h := ha.defined.append hb.defined
    rw [Assembly.defined_append, range'_append ha.mono hb.mono, List.map_append]
    rw [List.perm_iff_count] at h ⊢
    intro l
    have := h l
    simp only [List.count_append] at this ⊢
    omega
  compared := Assembly.compared_append ha.compared hb.compared

theorem oneLine_static (h : OneLine name) : OneLine s!"static {name}" := by
  simpa [toString, OneLine] using h

section
variable {c : EmitContext} {statics : List StaticVariable} (hc : c.Named)
  (hn : ∀ v ∈ statics, IsName v.name)
include hc

theorem EmitsInits.lines (h : EmitsInits c frame pool n ds code n') (hk : frame.Known statics) :
    Lines (c.Labels statics) n n' code := by
  induction h with
  | nil => exact flat_nil.lines
  | zero absent rest ih => exact ih
  | value present found given accepted same free freeSource rest ih =>
    have hlabel := (hk.lookup found).2 _ rfl
    have hcomment := oneLine_static (hk.lookup found).1
    exact ((given.lines hc hk).append (flat_settleCode (real_of_lowestFree? free)
      (real_of_lowestFree? freeSource)
      (.inl (.inr (.inl hlabel))) hcomment).lines).append ih

include hn

theorem EmitsFunction.part (h : EmitsFunction c statics n name decl code n') (hd : decl.WellNamed) :
    Part (c.Labels statics) n n' [name.label] code := by
  have hlabelled : ∀ {signature n' code}, c.functions.get? name = some signature →
      Lines (c.Labels statics) n n' code →
      Part (c.Labels statics) n n' [name.label] (.label name.label :: code) := by
    intro signature n' code known hcode
    have hlabel : Part (c.Labels statics) n n [name.label] [.label name.label] :=
      ⟨le_rfl, by simpa [Item.Over] using .inl (.inl ⟨name, signature, known, rfl⟩), by simp, rfl⟩
    exact hlabel.append hcode.part
  have hinside : ∀ signature, (c.inside signature).Named := fun _ => ⟨hc.structs, hc.functions⟩
  cases h with
  | returning known block returns =>
    have hk := Frame.ofSignature_known c.structs hn (hc.functions _ _ known).2
    exact hlabelled known (block.lines (c := c.inside _) (hinside _) hd.body hk)
  | ending known void block returns leave =>
    have hk := Frame.ofSignature_known c.structs hn (hc.functions _ _ known).2
    exact hlabelled known ((block.lines (c := c.inside _) (hinside _) hd.body hk).append
      (leave.lines (c := c.inside _) (hinside _) trivial (block.known hd.body hk)))

theorem EmitsFunctions.part (h : EmitsFunctions c statics n ds code n')
    (hd : ∀ d ∈ ds, d.2.WellNamed) : Part (c.Labels statics) n n' (ds.map (·.1.label)) code := by
  induction h with
  | nil => exact flat_nil.lines.part
  | cons first rest ih =>
    exact (first.part hc hn (hd _ List.mem_cons_self)).append (ih fun d hd' =>
      hd d (List.mem_cons_of_mem _ hd'))

end

end Emit

/-! ### Labels of a program -/

def Program.labels (p : Program) (n : Nat) : List Label :=
  (List.range (LiteralPool.collect p).strings.length).map .string ++ p.statics.map
    (fun d => .static d.name.text) ++ p.definitions.map (·.1.label) ++ (List.range n).map .code

namespace Program.WellNamed

variable {p : Program}

theorem definitions (hp : p.WellNamed) (hd : d ∈ p.definitions) : d.1.Proper ∧ d.2.WellNamed := by
  simp only [Program.definitions, List.mem_append, List.mem_map, List.mem_flatMap] at hd
  rcases hd with ⟨f, hf, rfl⟩ | ⟨s, hs, m, hm, rfl⟩
  · exact ⟨(hp.functions f hf).name, hp.functions f hf⟩
  · exact ⟨⟨(hp.structs s hs).name, ((hp.structs s hs).methods m hm).name⟩,
      (hp.structs s hs).methods m hm⟩

theorem symbolic (hp : p.WellNamed) (hl : l ∈ p.labels n) : l.Symbolic := by
  simp only [labels, List.mem_append, List.mem_map] at hl
  rcases hl with ((⟨i, -, rfl⟩ | ⟨d, hd, rfl⟩) | ⟨d, hd, rfl⟩) | ⟨i, -, rfl⟩
  · exact Label.symbolic_string i
  · exact Label.symbolic_static (hp.statics d hd)
  · exact Label.symbolic_function (hp.definitions hd).1
  · exact Label.symbolic_code i

theorem nodup_labels (hp : p.WellNamed) (statics : (p.statics.map (·.name.text)).Nodup)
    (functions : (p.definitions.map Prod.fst).Nodup) (n : Nat) : (p.labels n).Nodup := by
  have hstrings : ((List.range (LiteralPool.collect p).strings.length).map Label.string).Nodup :=
    List.Pairwise.map _ (fun _ _ h he => h (Label.string_inj he)) List.nodup_range
  have hstatics : (p.statics.map fun d => Label.static d.name.text).Nodup := by
    rw [List.Nodup, List.pairwise_map] at statics ⊢
    exact statics.imp fun h he => h (Label.static_inj he)
  have hfunctions : (p.definitions.map (·.1.label)).Nodup := by
    rw [List.Nodup, List.pairwise_map] at functions ⊢
    refine List.Pairwise.imp_of_mem (fun ha hb h he => h ?_) functions
    exact Label.function_inj (hp.definitions ha).1 (hp.definitions hb).1 he
  have hcodes : ((List.range n).map Label.code).Nodup :=
    List.Pairwise.map _ (fun _ _ h he => h (Label.code_inj he)) List.nodup_range
  simp only [labels, List.nodup_append, List.mem_append, List.mem_map]
  refine ⟨⟨⟨hstrings, hstatics, ?_⟩, hfunctions, ?_⟩, hcodes, ?_⟩
  · rintro _ ⟨i, -, rfl⟩ _ ⟨d, -, rfl⟩
    exact Label.string_ne_static i _
  · rintro _ (⟨i, -, rfl⟩ | ⟨d, -, rfl⟩) _ ⟨f, -, rfl⟩
    · exact Label.string_ne_function i _
    · exact Label.static_ne_function _ _
  · rintro _ ((⟨i, -, rfl⟩ | ⟨d, -, rfl⟩) | ⟨f, -, rfl⟩) _ ⟨j, -, rfl⟩ h
    · exact Label.code_ne_string j i h.symm
    · exact Label.code_ne_static j _ h.symm
    · exact Label.code_ne_function j _ h.symm

end Program.WellNamed

/-! ### Whole programs -/

structure Assembly.Complete (p : Program) (a : Assembly) : Prop where
  writable : ∀ item ∈ a, item.Writable
  defined : ∃ n, a.defined.Perm (p.labels n)
  distinct : a.defined.Nodup
  closed : ∀ l ∈ a.used, l ∈ a.defined
  compared : a.compared false = true

theorem Assembly.Complete.valid {a : Assembly} (complete : a.Complete p) :
    ∀ i ∈ a.instructions, Instruction.Valid i := by
  intro i hi r hr
  obtain ⟨item, hitem, hinstr⟩ := List.mem_filterMap.mp hi
  cases item with
  | instruction i' note =>
    obtain rfl := Option.some.inj hinstr
    have hreal : r.Real := (complete.writable _ hitem).1 _ hr
    exact hreal.slot_lt
  | _ => cases hinstr

/-- Complete assembly makes a proper image, if offsets are words. -/
theorem Assembly.Complete.proper {img : Image} (complete : img.code.Complete p)
    (value : img.value = img.code.value) (size : img.code.size < 2 ^ 31) : img.Proper where
  labels pc l here := by
    rw [value]
    exact Assembly.value_at complete.distinct here
  registers := complete.valid
  small := size

namespace Emit

variable {c : EmitContext} {statics : List StaticVariable} {p : Program} {a : Assembly}

theorem EmitsFunction.label (h : EmitsFunction c statics n name decl code n') :
    ∃ rest, code = .label name.label :: rest := by
  cases h <;> exact ⟨_, rfl⟩

theorem EmitsFunctions.body_at (h : EmitsFunctions c statics n ds code n') (here : a.At pc code)
    (hd : d ∈ ds) :
    ∃ pc' n₁ code' n₂, EmitsFunction c statics n₁ d.1 d.2 code' n₂ ∧ a.At pc' code' := by
  induction h generalizing pc with
  | nil => cases hd
  | cons first rest ih =>
    rcases List.mem_cons.mp hd with rfl | hd
    · exact ⟨pc, _, _, _, first, here.left⟩
    · exact ih here.right hd

theorem EmitsProgram.function_at (h : EmitsProgram c statics p a)
    (hf : c.functions.Holds p.definitions) (known : c.functions.get? f = some signature) :
    ∃ decl, (f, decl) ∈ p.definitions ∧ ∃ pc n code n', EmitsFunction c statics n f decl code n' ∧
    a.At pc code := by
  have hmem : f ∈ p.definitions.map Prod.fst :=
    hf.names ▸ List.mem_map_of_mem (mem_of_lookup_eq_some known)
  obtain ⟨d, hd, rfl⟩ := List.mem_map.mp hmem
  refine ⟨d.2, hd, ?_⟩
  cases h with
  | mk inits statements functions =>
    obtain ⟨pc, n, code, n', hfunction, here⟩ :=
      functions.body_at ⟨_, [], by rw [List.append_nil], rfl⟩ hd
    exact ⟨pc, n, code, n', hfunction, here⟩

end Emit

theorem EmitContext.named_of_tables {p : Program} {c : EmitContext} (hp : p.WellNamed)
    (hs : Structs.ofDecls p.structs = .ok c.structs) (hf : c.functions.Holds p.definitions) :
    c.Named where
  structs := Structs.ofDecls_named hp.structs hs
  functions := by
    intro f signature hget
    obtain ⟨d, hd, hname, hparams⟩ := hf.declared _ (mem_of_lookup_eq_some hget)
    obtain ⟨hproper, hwell⟩ := hp.definitions hd
    have hfun : f = d.1 := hname
    refine ⟨hfun ▸ hproper, fun param hparam => ?_⟩
    have hmem : param.1 ∈ d.2.params.map (·.2.text) := hparams ▸ List.mem_map_of_mem hparam
    obtain ⟨q, hq, hq'⟩ := List.mem_map.mp hmem
    exact hq' ▸ hwell.params q hq

namespace Emit

section
variable {c : EmitContext} {p : Program} {statics : List StaticVariable}

theorem labels_subset (hf : c.functions.Holds p.definitions) (hc : c.strings = .collect p)
    (hst : statics.map (·.name) = p.statics.map (·.name.text))
    (h : Among (c.Labels statics) 0 n l) : l ∈ p.labels n := by
  simp only [Program.labels, List.mem_append, List.mem_map, List.mem_range]
  rcases h with (⟨f, signature, hget, rfl⟩ | ⟨v, hv, rfl⟩ | ⟨i, hi, rfl⟩) | ⟨i, -, hi, rfl⟩
  · have hmem : f ∈ p.definitions.map Prod.fst :=
      hf.names ▸ List.mem_map_of_mem (mem_of_lookup_eq_some hget)
    obtain ⟨d, hd, rfl⟩ := List.mem_map.mp hmem
    exact .inl (.inr ⟨d, hd, rfl⟩)
  · have hmem : v.name ∈ p.statics.map (·.name.text) := hst ▸ List.mem_map_of_mem hv
    obtain ⟨d, hd, hname⟩ := List.mem_map.mp hmem
    exact .inl (.inl (.inr ⟨d, hd, by rw [hname]; rfl⟩))
  · exact .inl (.inl (.inl ⟨i, hc ▸ hi, rfl⟩))
  · exact .inr ⟨i, hi, rfl⟩

def reserved (structs : Structs) (strings : LiteralPool) (statics : List StaticVariable) :
    Assembly :=
  strings.entries.map (fun e => reserveStatic e.1 (LiteralPool.wordsOf e.2)) ++
    statics.map (fun v => reserveStatic v.label (structs.words v.type))

theorem mem_reserved (h : item ∈ reserved structs strings statics) :
    ∃ l words, item = .static l (words % sizeBound) := by
  simp only [reserved, List.mem_append, List.mem_map] at h
  rcases h with ⟨e, -, rfl⟩ | ⟨v, -, rfl⟩ <;> exact ⟨_, _, rfl⟩

theorem defined_map {f : α → Item} {g : α → Label} (h : ∀ a, (f a).defines? = some (g a))
    (l : List α) : Assembly.defined (l.map f) = l.map g := by
  induction l with
  | nil => rfl
  | cons a l ih =>
    rw [List.map_cons, List.map_cons, ← ih, Assembly.defined, List.filterMap_cons_some (h a),
      Assembly.defined]

theorem defined_reserved (structs : Structs) (strings : LiteralPool)
    (statics : List StaticVariable) :
    (reserved structs strings statics).defined = (List.range strings.strings.length).map .string ++
      statics.map (·.label) := by
  rw [reserved, Assembly.defined_append, defined_map (fun _ => rfl), defined_map (fun _ => rfl),
    ← LiteralPool.fst_entries]

theorem flat_stringsCode : Flat (Among (c.Labels statics) n n') (stringsCode c.strings) := by
  refine flat_flatMap fun e he => flat_fillString (real_general.mpr (by decide)) ?_
    (oneLine_quoteText _)
  have hmem : e.1 ∈ c.strings.entries.map Prod.fst := List.mem_map_of_mem he
  rw [LiteralPool.fst_entries, List.mem_map] at hmem
  obtain ⟨i, hi, hlabel⟩ := hmem
  exact .inl (.inr (.inr ⟨i, List.mem_range.mp hi, hlabel.symm⟩))

theorem EmitsProgram.part (hc : c.Named) (hn : ∀ v ∈ statics, IsName v.name) (hp : p.WellNamed)
    (h : EmitsProgram c statics p a) :
    ∃ code n, a = reserved c.structs c.strings statics ++ code ∧
      Part (c.Labels statics) 0 n (p.definitions.map (·.1.label)) code := by
  cases h with
  | @mk initsCode n₁ bodyCode frame n₂ functionsCode n₃ inits statements functions =>
    have hk := Frame.topLevel_known hn
    have hopening : Flat (Among (c.Labels statics) 0 0) [noted (.mov .sp (count (c.strings.words +
        c.structs.totalWords (statics.map StaticVariable.type))))
        "stack starts after statics"] := by
      simp [noted, OneLine]
    have hhalt : Flat (Among (c.Labels statics) n₂ n₂) [line .halt] := by simp [line]
    have hbody := (hopening.lines.append flat_stringsCode.lines).append ((inits.lines hc hk).append
      ((statements.lines hc hp.body hk).append hhalt.lines))
    have hpart := hbody.part.append (functions.part hc hn fun d hd => (hp.definitions hd).2)
    refine ⟨_, n₃, ?_, by simpa using hpart⟩
    simp [opening, reserved]

theorem EmitsProgram.complete (hc : c.Named) (hf : c.functions.Holds p.definitions)
    (hs : c.strings = .collect p) (hst : statics.map (·.name) = p.statics.map (·.name.text))
    (distinct : (statics.map (·.name)).Nodup)
    (hp : p.WellNamed) (h : EmitsProgram c statics p a) : a.Complete p := by
  have hn : ∀ v ∈ statics, IsName v.name := by
    intro v hv
    have hmem : v.name ∈ p.statics.map (·.name.text) := hst ▸ List.mem_map_of_mem hv
    obtain ⟨d, hd, hname⟩ := List.mem_map.mp hmem
    exact hname ▸ hp.statics d hd
  obtain ⟨code, n, rfl, hcode⟩ := h.part hc hn hp
  have hlabels : ∀ l, Among (c.Labels statics) 0 n l → l ∈ p.labels n :=
    fun l => labels_subset hf hs hst
  have hdefined : (reserved c.structs c.strings statics ++ code).defined.Perm (p.labels n) := by
    have hstatics : statics.map (·.label) = p.statics.map fun d => Label.static d.name.text := by
      have := congrArg (List.map Label.static) hst
      rwa [List.map_map, List.map_map] at this
    rw [Assembly.defined_append, defined_reserved, hstatics, hs, Program.labels,
      List.append_assoc _ _ (List.map _ _)]
    refine List.Perm.append_left _ ?_
    simpa [List.range_eq_range'] using hcode.defined
  have hdistinct : (p.labels n).Nodup := hp.nodup_labels (hst ▸ distinct) (hf.names ▸ hf.distinct) n
  refine ⟨?_, ⟨n, hdefined⟩, hdefined.nodup_iff.mpr hdistinct, ?_, ?_⟩
  · intro item hitem
    rcases List.mem_append.mp hitem with hitem | hitem
    · obtain ⟨l, words, rfl⟩ := mem_reserved hitem
      refine ⟨hp.symbolic (hdefined.mem_iff.mp ?_), Nat.mod_lt _ (by decide)⟩
      rw [Assembly.defined_append]
      exact List.mem_append_left _ (List.mem_filterMap.mpr ⟨_, hitem, rfl⟩)
    · exact (hcode.lines item hitem).writable fun l hl => hp.symbolic (hlabels l hl)
  · intro l hl
    obtain ⟨item, hitem, hl⟩ := List.mem_flatMap.mp hl
    rcases List.mem_append.mp hitem with hitem | hitem
    · obtain ⟨l, words, rfl⟩ := mem_reserved hitem
      simp [Item.uses] at hl
    · exact hdefined.mem_iff.mpr (hlabels l ((hcode.lines item hitem).uses hl))
  · refine Assembly.compared_append (Assembly.compared_of_not_branch fun item hitem => ?_)
      hcode.compared
    obtain ⟨l, words, rfl⟩ := mem_reserved hitem
    rfl

end

end Emit

theorem Assembly.ofProgram_complete {p : Program} (hp : p.WellNamed)
    (h : Assembly.ofProgram p = .ok a) : a.Complete p := by
  obtain ⟨structs, functions, statics, hs, hf, hst, he⟩ := Emit.ofProgram_emits hp h
  have hholds := Functions.ofProgram_holds hf
  obtain ⟨hnames, hdistinct⟩ := StaticVariable.declare_names (by simp) hst
  exact he.complete (EmitContext.named_of_tables hp hs hholds) hholds rfl
    (by simpa using hnames) hdistinct hp

theorem Assembly.ofProgram_of_source (parsed : Program.ofSource source = .ok p)
    (compiled : Assembly.ofSource source = .ok a) : Assembly.ofProgram p = .ok a := by
  simpa [Assembly.ofSource, parsed, bind_eq_ok, mapError_eq_ok] using compiled

theorem Assembly.complete_of_source (compiled : Assembly.ofSource source = .ok a) :
    ∃ p, Program.ofSource source = .ok p ∧ a.Complete p := by
  simp only [Assembly.ofSource, bind_eq_ok, mapError_eq_ok] at compiled
  obtain ⟨p, parsed, h⟩ := compiled
  exact ⟨p, parsed, Assembly.ofProgram_complete (Program.ofSource_wellNamed parsed) h⟩

theorem Bytecode.ofScript_words (parsed : Program.ofSource source = .ok p)
    (compiled : Assembly.ofSource source = .ok a)
    (file : Option String) : Bytecode.ofScript source file = .ok (.ofList (a.words a.value)) := by
  have complete := Assembly.ofProgram_complete (Program.ofSource_wellNamed parsed)
    (Assembly.ofProgram_of_source parsed compiled)
  have assembled :=
    Bytecode.ofAssembly_text complete.writable complete.distinct complete.closed file
  simp [Bytecode.ofScript, compiled, assembled, bind_eq_ok, mapError_eq_ok]

theorem Item.eq_cmp {item : Item} (h : item.isCmp = true) :
    ∃ kind r o note, item = .instruction (.cmp kind r o) note := by
  cases item with
  | instruction i note =>
    cases i with
    | cmp kind r o => exact ⟨kind, r, o, note, rfl⟩
    | _ => cases h
  | _ => cases h

/-- The text of a compiled script assembles, to the words of its lines. Its labels are those of its
strings, static variables, functions, methods and places in code, each defined once, and no two of
them are the same. Whatever label it uses is among them, none is read as a register or a number, and
the line before a branch is a comparison.

Where sums are checked, it assembles to the same words exactly if all counts are words. They are
below `2 ^ 31` words of code and of static memory. -/
theorem ofSource_assembles (h : Assembly.ofSource source = .ok a) (file : Option String) :
    Bytecode.ofAssembly ⟨a.text, file⟩ = .ok (.ofList (a.words a.value)) ∧
    (a.CountsFrom 0 0 →
      Bytecode.ofAssembly? ⟨a.text, file⟩ = some (.ok (.ofList (a.words a.value)))) ∧
    (¬ a.CountsFrom 0 0 → Bytecode.ofAssembly? ⟨a.text, file⟩ = none) ∧
    (a.size < 2 ^ 31 → a.staticWords < 2 ^ 31 → a.CountsFrom 0 0) ∧
    (∃ p n, Program.ofSource source = .ok p ∧ a.defined.Perm (p.labels n) ∧ (p.labels n).Nodup) ∧
    (∀ l ∈ a.used, l ∈ a.defined) ∧
    (∀ l ∈ a.defined, Assembly.readOperand? l.name.toList = some (.value (.label l))) ∧
    (∀ i relation target note, a[i]? = some (.instruction (.branch relation target) note) →
      ∃ j kind r o note', i = j + 1 ∧ a[j]? = some (.instruction (.cmp kind r o) note')) := by
  simp only [Assembly.ofSource, bind_eq_ok, mapError_eq_ok] at h
  obtain ⟨p, parsed, h⟩ := h
  have hp := Program.ofSource_wellNamed parsed
  obtain ⟨writable, ⟨n, defined⟩, distinct, closed, compared⟩ := Assembly.ofProgram_complete hp h
  obtain ⟨checked, stops⟩ := Bytecode.ofAssembly?_text writable distinct closed file
  refine ⟨Bytecode.ofAssembly_text writable distinct closed file, checked, stops,
    Assembly.countsFrom_of_lt,
    ⟨p, n, parsed, defined, defined.nodup_iff.mp distinct⟩, closed, ?_, ?_⟩
  · intro l hl
    have hsymbolic : Operand.Writable (.value (.label l)) := hp.symbolic (defined.mem_iff.mp hl)
    exact Assembly.readOperand?_text hsymbolic
  · intro i relation target note hi
    obtain ⟨j, test, rfl, hj, hcmp⟩ := Assembly.compared_branch compared hi rfl
    obtain ⟨kind, r, o, note', rfl⟩ := Item.eq_cmp hcmp
    exact ⟨j, kind, r, o, note', rfl, hj⟩

def SourceText.manyLabels : SourceText := .ofString
  ("struct L0 \x7b int sp; func int str() \x7b return this@.sp; \x7d \x7d static int r0 = 3; static L0 str; " ++
    "func int& fn(int sp) \x7b if (sp > 0 and r0) return fn(sp - 1); return \"a\n#:\"; \x7d " ++
    "while (r0 != 0) \x7b r0 -= 1; fn(r0); str.str(); \x7d")

theorem ofSource_assembles_manyLabels :
    ∃ a, Assembly.ofSource .manyLabels = .ok a ∧ a.defined.length = 17 ∧
    Bytecode.ofAssembly ⟨a.text, none⟩ = .ok (.ofList (a.words a.value)) ∧
    Bytecode.ofAssembly? ⟨a.text, none⟩ = some (.ok (.ofList (a.words a.value))) ∧
    ∀ l ∈ a.used, l ∈ a.defined := by
  have hrun : ((Assembly.ofSource .manyLabels).toOption.filter fun a =>
      a.defined.length = 17 ∧ a.size < 2 ^ 31 ∧ a.staticWords < 2 ^ 31).isSome = true := by
    decide +kernel
  obtain ⟨a, ha⟩ := Option.isSome_iff_exists.mp hrun
  obtain ⟨ha, hcounts⟩ := Option.filter_eq_some_iff.mp ha
  obtain ⟨hlength, hsize, hstatics⟩ := of_decide_eq_true hcounts
  have hsource := toOption_eq_some.mp ha
  obtain ⟨hbytecode, hchecked, -, hfit, -, hclosed, -⟩ := ofSource_assembles hsource none
  exact ⟨a, hsource, hlength, hbytecode, hchecked (hfit hsize hstatics), hclosed⟩

/-- Each structure has two fields of the one before it, so that the two static variables have
`2 ^ n` words each. -/
def Program.doubling (n : Nat) : Program where
  structs := (List.range n).map fun i =>
    let type : TypeName := ⟨if i = 0 then "int" else s!"A{i}", 0, ⟨0, 0⟩⟩
    ⟨⟨s!"A{i + 1}", ⟨0, 0⟩, ⟨1, 1⟩⟩, ["x", "y"].map fun name => (type, ⟨name, ⟨0, 0⟩, ⟨1, 1⟩⟩), []⟩
  functions := []
  statics := ["x", "y"].map fun name => ⟨⟨s!"A{n}", 0, ⟨0, 0⟩⟩, ⟨name, ⟨0, 0⟩, ⟨1, 1⟩⟩, none⟩
  body := []

/-- The bound cannot be left out: a program compiles whose static memory has no word for its end. -/
theorem Program.doubling_not_countsFrom :
    ∃ a, Assembly.ofProgram (.doubling 30) = .ok a ∧ ¬ a.CountsFrom 0 0 := by
  have hrun : (Assembly.ofProgram (.doubling 30)).toOption.map (fun a =>
    Assembly.staticSum (a.take 2)) = some (2 ^ 31) := by
    decide +kernel
  obtain ⟨a, ha, hsum⟩ := Option.map_eq_some_iff.mp hrun
  refine ⟨a, toOption_eq_some.mp ha, fun counts => ?_⟩
  have hholds := counts.2 2
  rw [hsum] at hholds
  exact absurd hholds (by decide)

end WordScript
