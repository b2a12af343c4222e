import WordScript.Proofs.Emit.Program
import WordScript.Proofs.Labels

/-!
# Lines of generated code

What generated code is made of, line by line. It names registers of the machine, labels of its own
and labels of the program, and its comments stay on their lines. Each number from `n` to `n'` is the
number of one label in code that was emitted from `n` to `n'`, and every branch directly follows a
comparison (`Tidy`).
-/

namespace WordScript

/-! ### Lines -/

def Operand.Over (K : Label → Prop) : Operand Register Value → Prop
  | .register r => r.Real
  | .value (.immediate _) => True
  | .value (.label l) => K l

theorem Operand.Over.mono {o : Operand Register Value} (h : o.Over K) (hK : ∀ l, K l → K' l) :
    o.Over K' := by
  cases o with
  | register r => exact h
  | value v => cases v with
    | immediate w => trivial
    | label l => exact hK l h

namespace Item

def isBranch : Item → Bool
  | .instruction (.branch ..) _ => true
  | _ => false

def isCmp : Item → Bool
  | .instruction (.cmp ..) _ => true
  | _ => false

def Over (K : Label → Prop) : Item → Prop
  | .instruction i note => (∀ o ∈ i.operands, o.Over K) ∧ ∀ s ∈ note, OneLine s
  | .label l => K l
  | .static .. | .comment _ => False

def Flat (K : Label → Prop) (item : Item) : Prop :=
  item.Over K ∧ item.isBranch = false ∧ item.defines? = none

theorem Over.mono {item : Item} (h : item.Over K) (hK : ∀ l, K l → K' l) : item.Over K' := by
  cases item with
  | instruction i note => exact ⟨fun o ho => (h.1 o ho).mono hK, h.2⟩
  | label l => exact hK l h
  | static | comment => exact h

theorem Over.writable {item : Item} (h : item.Over K) (hK : ∀ l, K l → l.Symbolic) :
    item.Writable := by
  cases item with
  | instruction i note =>
    refine ⟨fun o ho => ?_, h.2⟩
    have hover := h.1 o ho
    cases o with
    | register r => exact hover
    | value v => cases v with
      | immediate w => trivial
      | label l => exact hK l hover
  | label l => exact hK l h
  | static | comment => exact h.elim

theorem Over.uses {item : Item} (h : item.Over K) (hl : l ∈ item.uses) : K l := by
  cases item with
  | instruction i note =>
    obtain ⟨o, ho, hl⟩ := List.mem_filterMap.mp hl
    have hover := h.1 o ho
    cases o with
    | register r => simp [Operand.label?] at hl
    | value v => cases v with
      | immediate w => simp [Operand.label?] at hl
      | label l' =>
        obtain rfl : l' = l := by simpa [Operand.label?] using hl
        exact hover
  | label | static | comment => simp [Item.uses] at hl

end Item

namespace Assembly

/-- Every branch directly follows a comparison. `after` says whether the lines follow one
themselves. -/
def compared (after : Bool) : Assembly → Bool
  | [] => true
  | item :: rest => (after || !item.isBranch) && compared item.isCmp rest

theorem compared_of_false {a : Assembly} (h : a.compared false = true) (after : Bool) :
    a.compared after = true := by
  cases a with
  | nil => rfl
  | cons item rest =>
    simp only [compared, Bool.false_or, Bool.and_eq_true, Bool.or_eq_true] at h ⊢
    exact ⟨.inr h.1, h.2⟩

theorem compared_append {a b : Assembly} (ha : a.compared after = true)
    (hb : b.compared false = true) : (a ++ b).compared after = true := by
  induction a generalizing after with
  | nil => exact compared_of_false hb after
  | cons item rest ih =>
    simp only [List.cons_append, compared, Bool.and_eq_true] at ha ⊢
    exact ⟨ha.1, ih ha.2⟩

theorem compared_of_not_branch {a : Assembly} (h : ∀ item ∈ a, item.isBranch = false) :
    a.compared after = true := by
  induction a generalizing after with
  | nil => rfl
  | cons item rest ih =>
    simp [compared, h item List.mem_cons_self, ih fun item hitem =>
      h item (List.mem_cons_of_mem _ hitem)]

/-- A branch has a comparison on the line before it. -/
theorem compared_branch {a : Assembly} (h : a.compared false = true) (hi : a[i]? = some item)
    (hb : item.isBranch = true) : ∃ j test, i = j + 1 ∧ a[j]? = some test ∧ test.isCmp = true := by
  have key : ∀ {a : Assembly} {after i}, a.compared after = true → a[i]? = some item →
      i = 0 ∧ after = true ∨ ∃ j test, i = j + 1 ∧ a[j]? = some test ∧ test.isCmp = true := by
    intro a
    induction a with
    | nil => simp
    | cons first rest ih =>
      intro after i h hi
      simp only [compared, Bool.and_eq_true, Bool.or_eq_true, Bool.not_eq_true'] at h
      cases i with
      | zero =>
        obtain rfl : first = item := by simpa using hi
        exact .inl ⟨rfl, h.1.resolve_right (by simp [hb])⟩
      | succ i =>
        refine .inr ?_
        rcases ih h.2 (by simpa using hi) with ⟨rfl, hcmp⟩ | ⟨j, test, rfl, hj, hcmp⟩
        · exact ⟨0, first, rfl, rfl, hcmp⟩
        · exact ⟨j + 1, test, rfl, by simpa using hj, hcmp⟩
  exact (key h hi).resolve_left (by simp)

end Assembly

namespace Emit

/-! ### Flat code -/

def Flat (K : Label → Prop) (code : Assembly) : Prop := ∀ item ∈ code, item.Flat K

section
variable {K : Label → Prop}

@[simp] theorem flat_nil : Flat K [] := by simp [Flat]

@[simp] theorem flat_cons : Flat K (item :: code) ↔ item.Flat K ∧ Flat K code := by simp [Flat]

@[simp] theorem flat_append : Flat K (a ++ b) ↔ Flat K a ∧ Flat K b := by
  simp only [Flat, List.mem_append]
  grind

theorem flat_flatten {blocks : List Assembly} (h : ∀ block ∈ blocks, Flat K block) :
    Flat K blocks.flatten := by
  intro item hitem
  obtain ⟨block, hblock, hitem⟩ := List.mem_flatten.mp hitem
  exact h block hblock item hitem

theorem flat_flatMap {l : List α} {f : α → Assembly} (h : ∀ a ∈ l, Flat K (f a)) :
    Flat K (l.flatMap f) := by
  intro item hitem
  obtain ⟨a, ha, hitem⟩ := List.mem_flatMap.mp hitem
  exact h a ha item hitem

theorem flat_replicate (h : Flat K block) : Flat K (List.replicate n block).flatten :=
  flat_flatten fun _ hb => List.eq_of_mem_replicate hb ▸ h

theorem flat_two (plain : (Item.instruction i note).isBranch = false)
    (two : i.operands = [.register r, o]) :
    (Item.instruction i note).Flat K ↔ (r.Real ∧ o.Over K) ∧ ∀ s ∈ note, OneLine s := by
  simp [Item.Flat, Item.Over, Item.defines?, Operand.Over, plain, two]

@[simp] theorem flat_mov : (Item.instruction (.mov r o) note).Flat K ↔
    (r.Real ∧ o.Over K) ∧ ∀ s ∈ note, OneLine s := flat_two rfl rfl

@[simp] theorem flat_arith : (Item.instruction (.arith kind op r o) note).Flat K ↔
    (r.Real ∧ o.Over K) ∧ ∀ s ∈ note, OneLine s := flat_two rfl rfl

@[simp] theorem flat_cmp : (Item.instruction (.cmp kind r o) note).Flat K ↔
    (r.Real ∧ o.Over K) ∧ ∀ s ∈ note, OneLine s := flat_two rfl rfl

@[simp] theorem flat_memRead : (Item.instruction (.memRead r r') note).Flat K ↔
    (r.Real ∧ r'.Real) ∧ ∀ s ∈ note, OneLine s := flat_two (o := .register r') rfl rfl

@[simp] theorem flat_memWrite : (Item.instruction (.memWrite r o) note).Flat K ↔
    (r.Real ∧ o.Over K) ∧ ∀ s ∈ note, OneLine s := flat_two rfl rfl

@[simp] theorem flat_memCopy : (Item.instruction (.memCopy r r') note).Flat K ↔
    (r.Real ∧ r'.Real) ∧ ∀ s ∈ note, OneLine s := flat_two (o := .register r') rfl rfl

@[simp] theorem flat_jmp : (Item.instruction (.jmp o) note).Flat K ↔
    o.Over K ∧ ∀ s ∈ note, OneLine s := by
  simp [Item.Flat, Item.Over, Item.isBranch, Item.defines?, Instr.operands]

@[simp] theorem flat_halt : (Item.instruction .halt note).Flat K ↔ ∀ s ∈ note, OneLine s := by
  simp [Item.Flat, Item.Over, Item.isBranch, Item.defines?, Instr.operands]

@[simp] theorem real_sp : Register.sp.Real := trivial

@[simp] theorem real_general : (Register.general k).Real ↔ k < generalRegisters := .rfl

@[simp] theorem over_register : (Operand.register r).Over K ↔ r.Real := .rfl

@[simp] theorem over_word : (word w).Over K := trivial

@[simp] theorem over_count : (count n).Over K := trivial

@[simp] theorem over_labelled : (labelled l).Over K ↔ K l := .rfl

theorem flat_copyWords (ht : target.Real) (hs : source.Real) :
    Flat K (copyWords target source words) :=
  flat_replicate (by simp [line, increase, ht, hs])

theorem flat_pointAt (hr : r.Real) (hc : OneLine comment) (hl : ∀ l, location = .static l → K l) :
    Flat K (pointAt r location comment) := by
  cases location with
  | stack offset => simp [pointAt, noted, line, increase, hr, hc]
  | static l => simp [pointAt, noted, hr, hc, hl l rfl]

theorem flat_lowerSp : Flat K (lowerSp words) := by
  by_cases h : words = 0 <;> simp [lowerSp, h, line, decrease]

theorem flat_pushCode (h : value.Over K) : Flat K (pushCode value) := by
  simp [pushCode, line, increase, h]

theorem flat_popCode (h : r.Real) : Flat K (popCode r) := by simp [popCode, line, decrease, h]

theorem flat_pushCopyCode (h : r.Real) : Flat K (pushCopyCode r words) :=
  flat_replicate (by simp [line, increase, h])

theorem flat_arithmeticCode (hl : l.Real) (hr : r.Real) : Flat K (arithmeticCode kind op l r) := by
  simp [arithmeticCode, flat_popCode, flat_pushCode, line, hl, hr]

theorem flat_negateCode (h : r.Real) : Flat K (negateCode type r) := by
  simp [negateCode, flat_popCode, flat_pushCode, line, h]

theorem flat_updateCode (ha : address.Real) (ho : operand.Real) (hr : result.Real) :
    Flat K (updateCode kind op address operand result) := by
  simp [updateCode, flat_popCode, flat_pushCode, line, ha, ho, hr]

theorem flat_selectCode (h : r.Real) (hname : OneLine field.name) :
    Flat K (selectCode size field r words) := by
  have hcomment : OneLine s!".{field.name}" := by simpa [toString, OneLine] using hname
  by_cases h0 : field.offset = 0 <;>
    simp [selectCode, h0, flat_lowerSp, flat_pushCopyCode, line, noted, increase, h, hcomment]

theorem flat_fieldCode (h : r.Real) (hname : OneLine name) : Flat K (fieldCode name offset r) := by
  have hcomment : OneLine s!".{name}" := by simpa [toString, OneLine] using hname
  by_cases h0 : offset = 0 <;> simp [fieldCode, h0, noted, increase, h, hcomment]

theorem flat_store (h : r.Real) : Flat K (store words r) := by
  simp [store, line, decrease, flat_copyWords h real_sp]

theorem oneLine_text (r : Register) : OneLine r.text := by
  cases r with
  | sp => simp [Register.text, OneLine]
  | general k =>
    have hdigits : '\n' ∉ Nat.toDigits 10 k := fun hc =>
      absurd (Nat.isDigit_of_mem_toDigits (by decide) (by decide) hc) (by decide)
    simpa [Register.text, OneLine, toString, Nat.toList_repr] using hdigits

theorem flat_saveCode (h : ∀ r ∈ saved, r.Real) : Flat K (saveCode saved) := by
  refine flat_flatMap fun r hr => ?_
  have hcomment : OneLine s!"save {r.text}" := by simpa [toString, OneLine] using oneLine_text r
  simp [line, noted, increase, h r hr, hcomment]

theorem flat_restoreCode (h : ∀ r ∈ saved, r.Real) : Flat K (restoreCode saved) := by
  refine flat_flatMap fun r hr => ?_
  have hcomment : OneLine s!"restore {r.text}" := by simpa [toString, OneLine] using oneLine_text r
  simp [line, noted, decrease, h r hr, hcomment]

theorem flat_roomCode (h : OneLine type) : Flat K (roomCode words type) := by
  have hcomment : OneLine s!"room for {type}" := by simpa [toString, OneLine] using h
  by_cases h0 : words = 0 <;> simp [roomCode, h0, noted, increase, hcomment]

theorem flat_thisCode (h : r.Real) : Flat K (thisCode r) := by
  have hcomment : OneLine "this" := by simp [OneLine]
  simp [thisCode, noted, line, increase, h, hcomment]

theorem flat_slideCode (h : ∀ r ∈ saved, r.Real) (hr : saved ≠ [] → words ≠ 0 → r.Real) :
    Flat K (slideCode saved words r) := by
  have hrestore : Flat K (restoreCode saved.reverse) :=
    flat_restoreCode fun r hr => h r (by simpa using hr)
  by_cases hs : saved = []
  · simp [slideCode, hs]
  by_cases hw : words = 0
  · simp [slideCode, hs, hw, hrestore, flat_lowerSp]
  · simp [slideCode, hs, hw, hrestore, flat_lowerSp, line, increase, hr hs hw,
      flat_copyWords real_sp (hr hs hw)]

theorem flat_dropCode (h : ∀ s ∈ comment, OneLine s) : Flat K (dropCode comment words) := by
  by_cases h0 : words = 0 <;> simp only [dropCode, h0, ↓reduceIte, flat_nil]
  simpa [decrease] using h

theorem flat_zerosCode : Flat K (zerosCode words) := flat_replicate (by simp [line, increase])

theorem flat_resultCode (ht : words ≠ 0 → target.Real ∧ source.Real) :
    Flat K (resultCode slot words target source) := by
  have hcomment : OneLine "return value" := by simp [OneLine]
  by_cases h0 : words = 0
  · simp [resultCode, h0]
  · obtain ⟨ht, hs⟩ := ht h0
    simp [resultCode, h0, noted, line, increase, decrease, ht, hs, hcomment, flat_copyWords ht hs]

theorem flat_leaveCode (h : r.Real) : Flat K (leaveCode depth r) := by
  simp [leaveCode, line, decrease, h]

theorem flat_settleCode (ht : target.Real) (hs : source.Real) (hl : K l) (hc : OneLine comment) :
    Flat K (settleCode words target source l comment) := by
  simp [settleCode, flat_lowerSp, noted, line, ht, hs, hl, hc, flat_copyWords ht hs]

theorem flat_fillString (hr : r.Real) (hl : K l) (hc : OneLine (quoteText s)) :
    Flat K (fillString r l s) := by
  simp only [fillString, flat_cons]
  refine ⟨by simp [noted, hr, hl, hc], by simp [line, hr], flat_flatMap fun ch _ => ?_⟩
  simp [line, increase, hr]

/-! ### Tidy code -/

/-- Code with labels among `K`, that defines the label number `i` as often as `d` says. -/
structure Tidy (K : Label → Prop) (d : Nat → Nat) (code : Assembly) : Prop where
  lines : ∀ item ∈ code, item.Over K
  only : ∀ l ∈ code.defined, ∃ i, l = .code i
  count : ∀ i, code.defined.count (.code i) = d i
  compared : code.compared false = true

theorem Flat.defined (h : Flat K code) : code.defined = [] :=
  List.filterMap_eq_nil_iff.mpr fun item hitem => (h item hitem).2.2

theorem Flat.tidy (h : Flat K code) : Tidy K (fun _ => 0) code where
  lines := fun item hitem => (h item hitem).1
  only := by simp [h.defined]
  count := by simp [h.defined]
  compared := Assembly.compared_of_not_branch fun item hitem => (h item hitem).2.1

namespace Tidy

theorem append (ha : Tidy K d a) (hb : Tidy K d' b) : Tidy K (fun i => d i + d' i) (a ++ b) where
  lines := by
    intro item hitem
    rcases List.mem_append.mp hitem with hitem | hitem
    · exact ha.lines item hitem
    · exact hb.lines item hitem
  only := by
    intro l hl
    rw [Assembly.defined_append, List.mem_append] at hl
    exact hl.elim (ha.only l) (hb.only l)
  count := by simp [ha.count, hb.count]
  compared := Assembly.compared_append ha.compared hb.compared

theorem mono (h : Tidy K d code) (hK : ∀ l, K l → K' l) : Tidy K' d code :=
  { h with lines := fun item hitem => (h.lines item hitem).mono hK }

theorem congr (h : Tidy K d code) (hd : ∀ i, d i = d' i) : Tidy K d' code :=
  { h with count := fun i => (h.count i).trans (hd i) }

theorem label (h : K (.code k)) : Tidy K (fun i => if i = k then 1 else 0) [.label (.code k)] where
  lines := by simpa [Item.Over] using h
  only := by simp
  count := by
    intro i
    by_cases hi : i = k
    · simp [hi]
    · have hne : Label.code k ≠ .code i := fun he => hi (Label.code_inj he).symm
      simp [hi, hne]
  compared := rfl

theorem branch (hr : r.Real) (ho : o.Over K) (hl : K l) :
    Tidy K (fun _ => 0) [line (.cmp kind r o), line (.branch relation (.label l))] where
  lines := by
    simp only [List.mem_cons, List.not_mem_nil, or_false]
    rintro item (rfl | rfl)
    · exact (flat_cmp.mpr ⟨⟨hr, ho⟩, by simp⟩).1
    · exact ⟨by simpa [Instr.operands, Operand.Over] using hl, by simp⟩
  only := by simp [line]
  count := by simp [line]
  compared := rfl

theorem testCode (hr : r.Real) (hl : K l) : Tidy K (fun _ => 0) (testCode r type relation l) :=
  (flat_popCode hr).tidy.append (.branch hr (by trivial) hl)

theorem relationCode (hr : r.Real) (ho : o.Over K) (hy : K (.code yes)) (hd : K (.code done)) :
    Tidy K (fun i => (if i = yes then 1 else 0) + (if i = done then 1 else 0))
      (line (.cmp kind r o) :: relationCode relation (.code yes) (.code done)) := by
  have hmiss : Flat K [line (.memWrite .sp (word 0)), line (.jmp (labelled (.code done)))] := by
    simp [line, hd]
  have hhit : Flat K [line (.memWrite .sp (word 1))] := by simp [line]
  have hpush : Flat K [line (increase .sp (Emit.count 1))] := by simp [line, increase]
  have htest : Tidy K (fun _ => 0)
      [line (.cmp kind r o), line (.branch relation (.label (.code yes)))] :=
    .branch hr ho hy
  have h := ((((htest.append hmiss.tidy).append (.label hy)).append hhit.tidy).append
    (.label hd)).append hpush.tidy
  exact h.congr fun i => by omega

theorem logicCode (hd : K (.code decided)) (hu : K (.code done)) :
    Tidy K (fun i => (if i = decided then 1 else 0) + (if i = done then 1 else 0))
      (logicCode op (.code decided) (.code done)) := by
  have hundecided : Flat K [line (.memWrite .sp (word (undecidedValue op))),
    line (.jmp (labelled (.code done)))] := by
    simp [line, hu]
  have hdecided : Flat K [line (.memWrite .sp (word (decidedValue op)))] := by simp [line]
  have hpush : Flat K [line (increase .sp (Emit.count 1))] := by simp [line, increase]
  have h := (((hundecided.tidy.append (.label hd)).append hdecided.tidy).append (.label hu)).append
    hpush.tidy
  exact h.congr fun i => by omega

theorem enterCode {f : FunctionName} (hb : K (.code back)) (hf : K f.label) (hn : OneLine f.text) :
    Tidy K (fun i => if i = back then 1 else 0) (enterCode (.code back) f) := by
  have hcomment : OneLine s!"call {f.text}" := by simpa [toString, OneLine] using hn
  have hcall : Flat K [line (.memWrite .sp (labelled (.code back))), line (increase .sp (word 1)),
      noted (.jmp (labelled f.label)) s!"call {f.text}"] := by
    simp [line, noted, increase, hb, hf, hcomment]
  exact (hcall.tidy.append (.label hb)).congr fun i => by omega

end Tidy

end

end Emit

/-! ### What code refers to -/

structure EmitContext.Named (c : EmitContext) : Prop where
  structs : c.structs.Named
  functions : ∀ f signature, c.functions.get? f = some signature →
    f.Proper ∧ ∀ p ∈ signature.params, IsName p.1

def EmitContext.Labels (c : EmitContext) (statics : List StaticVariable) (l : Label) : Prop :=
  (∃ f signature, c.functions.get? f = some signature ∧ l = f.label) ∨
    (∃ v ∈ statics, l = v.label) ∨ ∃ i < c.strings.strings.length, l = .string i

namespace Frame

/-- Variables have names without line breaks, and those in static memory are among `statics`. -/
def Known (statics : List StaticVariable) (f : Frame) : Prop :=
  ∀ name v, f.find? name = some v → OneLine name ∧ ∀ l, v.storage = .static l →
    ∃ s ∈ statics, l = s.label

theorem Known.push (h : Known statics f) (n : Nat) : Known statics (f.push n) := h

theorem Known.enter (h : Known statics f) : Known statics f.enter := fun name v hv =>
  h name v (by simpa [find?, Frame.enter, Scope.empty, List.findSome?_cons] using hv)

theorem Known.lookup (h : Known statics f) (found : f.lookup name = some (type, location)) :
    OneLine name ∧ ∀ l, location = .static l → ∃ s ∈ statics, l = s.label := by
  obtain ⟨v, hv, -, ⟨position, -, rfl⟩ | ⟨l, hl, rfl⟩⟩ := lookup_eq_some found
  · exact ⟨(h name v hv).1, by simp⟩
  · refine ⟨(h name v hv).1, fun l' hl' => (h name v hv).2 l' ?_⟩
    rw [hl, Location.static.inj hl']

theorem Known.declare (h : Known statics f) (hn : OneLine name)
    (hd : f.declare structs name type = .ok g) : Known statics g := by
  obtain ⟨scope, outer, hs, rfl⟩ := declare_eq_ok hd
  intro name' v hv
  by_cases hname : name' = name
  · subst hname
    obtain rfl : _ = v := by simpa [find?, List.findSome?_cons] using hv
    exact ⟨hn, by simp⟩
  · refine h name' v ?_
    have hne : (name' == name) = false := by simpa using hname
    simpa [find?, hs, List.findSome?_cons, List.lookup_cons, hne] using hv

end Frame

namespace Emit

def Among (K : Label → Prop) (n n' : Nat) (l : Label) : Prop :=
  K l ∨ ∃ i, n ≤ i ∧ i < n' ∧ l = .code i

def between (n n' i : Nat) : Nat := if n ≤ i ∧ i < n' then 1 else 0

theorem Among.mono (hn : m ≤ n) (hn' : n' ≤ m') (l : Label) (h : Among K n n' l) :
    Among K m m' l := by
  rcases h with h | ⟨i, hi, hi', rfl⟩
  · exact .inl h
  · exact .inr ⟨i, by omega, by omega, rfl⟩

theorem among_code (hn : n ≤ i) (hn' : i < n') : Among K n n' (.code i) := .inr ⟨i, hn, hn', rfl⟩

/-- Code that was emitted with label numbers from `n` to `n'`. -/
structure Lines (K : Label → Prop) (n n' : Nat) (code : Assembly) : Prop where
  mono : n ≤ n'
  tidy : Tidy (Among K n n') (between n n') code

theorem Lines.within (h : Lines K n n' code) (hn : m ≤ n) (hn' : n' ≤ m') :
    Tidy (Among K m m') (between n n') code := h.tidy.mono (Among.mono hn hn')

theorem Lines.append (ha : Lines K n n₁ a) (hb : Lines K n₁ n₂ b) : Lines K n n₂ (a ++ b) where
  mono := Nat.le_trans ha.mono hb.mono
  tidy := by
    have hmono := ha.mono
    have hmono' := hb.mono
    refine ((ha.within le_rfl hb.mono).append (hb.within ha.mono le_rfl)).congr fun i => ?_
    simp only [between]
    split_ifs <;> omega

theorem Flat.lines (h : Flat (Among K n n) code) : Lines K n n code where
  mono := le_rfl
  tidy := h.tidy.congr fun i => by
    simp only [between]
    split_ifs <;> omega

/-! ### Expressions -/

section
variable {c : EmitContext} {statics : List StaticVariable}

theorem real_of_lowestFree? {pool : RegisterPool} (h : pool.lowestFree? = some k) :
    (Register.general k).Real :=
  (RegisterPool.lowestFree?_spec h).1

theorem real_of_live {pool : RegisterPool} : ∀ r ∈ pool.live, r.Real := by
  intro r hr
  obtain ⟨k, hk, -, rfl⟩ := RegisterPool.mem_live.mp hr
  exact hk

theorem oneLine_structText {s : Structs} (hs : s.Named) (type : ValueType) :
    OneLine (s.text type) := by
  induction type with
  | void | int | float | ptr => simp [Structs.text, OneLine]
  | reference type ih => simpa [Structs.text, OneLine] using ih
  | struct id =>
    simp only [Structs.text, Structs.nameOf, Structs.get?]
    cases ht : s.entries[id]? with
    | none => simp [OneLine]
    | some t => exact (hs t (List.mem_of_getElem? ht)).1.oneLine

theorem oneLine_field {s : Structs} {name : Name} (hs : s.Named)
    (h : Typing.fieldOf s type name = .ok field) : OneLine field.name ∧ OneLine name.text := by
  obtain ⟨id, t, rfl, ht, hfield⟩ := Typing.fieldOf_eq_ok h
  have hname : field.name = name.text := by simpa using List.find?_some hfield
  have hone := ((hs t (List.mem_of_getElem? ht)).2 field (List.mem_of_find?_eq_some hfield)).oneLine
  exact ⟨hone, hname ▸ hone⟩

theorem Constant.over (h : Constant c frame e value type) : value.Over (c.Labels statics) := by
  cases h with
  | integer | float | typeSize | valueSize => trivial
  | string h =>
    obtain ⟨i, hi, rfl⟩ := Option.map_eq_some_iff.mp ((c.strings.labelled _).symm.trans h)
    obtain ⟨hlt, -⟩ := List.idxOf?_eq_some_iff.mp hi
    exact .inr (.inr ⟨i, hlt, rfl⟩)

theorem flat_variable {frame : Frame} (hk : frame.Known statics)
    (found : frame.lookup name = some (type, location)) (hr : r.Real) (hc : OneLine comment) :
    Flat (Among (c.Labels statics) n n') (pointAt r location comment) :=
  flat_pointAt hr hc fun l hl => .inl (.inr (.inl ((hk.lookup found).2 l hl)))

theorem oneLine_read (h : OneLine name) : OneLine s!"read {name}" := by
  simpa [toString, OneLine] using h

theorem oneLine_reference (h : OneLine name) : OneLine s!"&{name}" := by
  simpa [toString, OneLine] using h

theorem Lines.relation {rel : Relation} (h : Lines K n n₁ code)
    (hpops : Flat (Among K n₁ (n₁ + 2)) pops) (hr : r.Real) (ho : o.Over (Among K n₁ (n₁ + 2))) :
    Lines K n (n₁ + 2) (code ++ (pops ++ [line (.cmp kind r o)]) ++ relationCode rel (.code n₁)
      (.code (n₁ + 1))) := by
  have hrelation : Tidy (Among K n₁ (n₁ + 2)) _
      (line (.cmp kind r o) :: relationCode rel (.code n₁) (.code (n₁ + 1))) :=
    .relationCode hr ho (among_code (by omega) (by omega)) (among_code (by omega) (by omega))
  have hrest : Lines K n₁ (n₁ + 2)
      (pops ++ line (.cmp kind r o) :: relationCode rel (.code n₁) (.code (n₁ + 1))) :=
    ⟨by omega, (hpops.tidy.append hrelation).congr fun i => by
      simp only [between]; split_ifs <;> omega⟩
  simpa using h.append hrest

/-- The two labels of `and` and `or` have the first numbers, and stand behind both operands. -/
theorem Lines.logic (hl : Lines K (n + 2) n₁ left) (hr : Lines K n₁ n₂ right) (hreg : r.Real) :
    Lines K n n₂ (left ++ testCode r a (deciding op) (.code n) ++
      (right ++ testCode r b (deciding op) (.code n)) ++
      logicCode op (.code n) (.code (n + 1))) := by
  have hmono := hl.mono
  have hmono' := hr.mono
  have htest : ∀ type, Tidy (Among K n n₂) _ (testCode r type (deciding op) (.code n)) :=
    fun type => .testCode hreg (among_code (by omega) (by omega))
  have hlogic : Tidy (Among K n n₂) _ (logicCode op (.code n) (.code (n + 1))) :=
    .logicCode (among_code (by omega) (by omega)) (among_code (by omega) (by omega))
  refine ⟨by omega, ((((hl.within (by omega) (by omega)).append (htest a)).append
    ((hr.within (by omega) (by omega)).append (htest b))).append hlogic).congr fun i => ?_⟩
  simp only [between]
  split_ifs <;> omega

theorem lines_enterCode {f : FunctionName} (hf : K f.label) (hn : OneLine f.text) :
    Lines K n (n + 1) (enterCode (.code n) f) where
  mono := by omega
  tidy := by
    refine (Tidy.enterCode (among_code (by omega) (by omega)) (.inl hf) hn).congr fun i => ?_
    simp only [between]
    split_ifs <;> omega

theorem Emits.lines (hc : c.Named) (h : Emits c frame pool n piece code n')
    (hk : frame.Known statics) : Lines (c.Labels statics) n n' code := by
  induction h with
  | constant h => exact (flat_pushCode (h.over.mono fun _ => .inl)).lines
  | var found free =>
    have hr := real_of_lowestFree? free
    exact (flat_append.mpr ⟨flat_variable hk found hr (oneLine_read (hk.lookup found).1),
      flat_pushCopyCode hr⟩).lines
  | arithmetic left right leftWords rightWords typed freeLeft freeRight ihLeft ihRight =>
    exact ((ihLeft hk).append (ihRight (hk.push 1))).append
      (flat_arithmeticCode (real_of_lowestFree? freeLeft) (real_of_lowestFree? freeRight)).lines
  | relation left right leftWords rightWords typed freeLeft freeRight ihLeft ihRight =>
    have hl := real_of_lowestFree? freeLeft
    have hr := real_of_lowestFree? freeRight
    exact ((ihLeft hk).append (ihRight (hk.push 1))).relation
      (flat_append.mpr ⟨flat_popCode hr, flat_popCode hl⟩) hl (over_register.mpr hr)
  | logic left right leftWords rightWords free ihLeft ihRight =>
    exact (ihLeft hk).logic (ihRight hk) (real_of_lowestFree? free)
  | negate operand number free ih =>
    exact (ih hk).append (flat_negateCode (real_of_lowestFree? free)).lines
  | not operand words free ih =>
    have hr := real_of_lowestFree? free
    exact (ih hk).relation (flat_popCode hr) hr over_word
  | assign place value accepted same ihPlace ihValue =>
    exact ((ihPlace hk).append (ihValue hk)).append
      (flat_store (real_of_lowestFree? place.free_of_address)).lines
  | update place value placeWords valueWords typed freeOperand freeResult ihPlace ihValue =>
    exact ((ihPlace hk).append (ihValue hk)).append
      (flat_updateCode (real_of_lowestFree? place.free_of_address)
      (real_of_lowestFree? freeOperand) (real_of_lowestFree? freeResult)).lines
  | field base found free ih =>
    exact (ih hk).append (flat_selectCode (real_of_lowestFree? free)
      (oneLine_field hc.structs found).1).lines
  | addressOf place ih =>
    exact (ih hk).append (flat_pushCode
      (over_register.mpr (real_of_lowestFree? place.free_of_address))).lines
  | dereference pointer free ih =>
    have hr := real_of_lowestFree? free
    exact (ih hk).append (flat_append.mpr ⟨flat_popCode hr, flat_pushCopyCode hr⟩).lines
  | call resolved signature live result this args fits method free ihThis ihArgs =>
    subst live
    have hlabel : c.Labels statics _ := .inl ⟨_, _, signature, rfl⟩
    have hname := (hc.functions _ _ signature).1.oneLine
    refine .append (.append (.append
      (.append (.append (.append (.append (Flat.lines ?saves) (Flat.lines ?room))
      (ihThis (hk.push _))) (ihArgs (hk.push _))) (lines_enterCode hlabel hname))
      (Flat.lines ?pops)) (Flat.lines ?popThis)) (Flat.lines ?slide)
    case saves => exact flat_saveCode real_of_live
    case room => exact flat_roomCode (oneLine_structText hc.structs _)
    case pops => exact flat_flatMap fun _ _ => flat_lowerSp
    case popThis => exact flat_lowerSp
    case slide => exact flat_slideCode real_of_live fun hs hw => real_of_lowestFree? (free hs hw)
  | addressVar found free =>
    exact (flat_variable hk found (real_of_lowestFree? free)
      (oneLine_reference (hk.lookup found).1)).lines
  | addressField base found ih =>
    exact (ih hk).append (flat_fieldCode (real_of_lowestFree? base.free_of_address)
      (oneLine_field hc.structs found).2).lines
  | addressDereference pointer free ih =>
    exact (ih hk).append (flat_popCode (real_of_lowestFree? free)).lines
  | noReceiver | noArguments => exact flat_nil.lines
  | receiver place ih =>
    exact (ih hk).append (flat_thisCode (real_of_lowestFree? place.free_of_address)).lines
  | argument first rest ihFirst ihRest => exact (ihFirst hk).append (ihRest (hk.push _))

/-! ### Statements -/

theorem EmitsResult.lines (hc : c.Named) (h : EmitsResult c frame pool n value type code n')
    (hk : frame.Known statics) : Lines (c.Labels statics) n n' code := by
  cases h with
  | none => exact flat_nil.lines
  | some h => exact h.lines hc hk

theorem Lines.ifThen (ht : Lines K (n + 1) n₁ testing) (hy : Lines K n₁ n₂ yes) (hr : r.Real) :
    Lines K n n₂ (testing ++ testCode r type .equal (.code n) ++ yes ++ [.label (.code n)]) := by
  have hmono := ht.mono
  have hmono' := hy.mono
  have hlabel : Among K n n₂ (.code n) := among_code (by omega) (by omega)
  refine ⟨by omega, ((((ht.within (by omega) (by omega)).append (.testCode hr hlabel)).append
    (hy.within (by omega) (by omega))).append (.label hlabel)).congr fun i => ?_⟩
  simp only [between]
  split_ifs <;> omega

theorem Lines.ifThenElse (ht : Lines K (n + 1) n₁ testing) (hy : Lines K n₁ n₂ yes)
    (hn : Lines K (n₂ + 1) n₃ no)
    (hr : r.Real) : Lines K n n₃ (testing ++ testCode r type .equal (.code n) ++ yes ++
      line (.jmp (labelled (.code n₂))) :: .label (.code n) :: no ++ [.label (.code n₂)]) := by
  have hmono := ht.mono
  have hmono' := hy.mono
  have hmono'' := hn.mono
  have hlabel : Among K n n₃ (.code n) := among_code (by omega) (by omega)
  have hdone : Among K n n₃ (.code n₂) := among_code (by omega) (by omega)
  have hjump : Flat (Among K n n₃) [line (.jmp (labelled (.code n₂)))] := by simp [line, hdone]
  have htest : Tidy (Among K n n₃) _ (testCode r type .equal (.code n)) := .testCode hr hlabel
  have h := ((((((ht.within (by omega) (by omega)).append htest).append
    (hy.within (by omega) (by omega))).append hjump.tidy).append (.label hlabel)).append
      (hn.within (by omega) le_rfl)).append (.label hdone)
  refine ⟨by omega, ?_⟩
  simpa using h.congr fun i => by simp only [between]; split_ifs <;> omega

theorem Lines.loop (ht : Lines K (n + 2) n₁ testing) (hb : Lines K n₁ n₂ repeated) (hr : r.Real) :
    Lines K n n₂ (.label (.code n) ::
      (testing ++ testCode r type .equal (.code (n + 1)) ++ repeated ++
      [line (.jmp (labelled (.code n))), .label (.code (n + 1))])) := by
  have hmono := ht.mono
  have hmono' := hb.mono
  have hlabel : Among K n n₂ (.code n) := among_code (by omega) (by omega)
  have hdone : Among K n n₂ (.code (n + 1)) := among_code (by omega) (by omega)
  have hjump : Flat (Among K n n₂) [line (.jmp (labelled (.code n)))] := by simp [line, hlabel]
  have htest : Tidy (Among K n n₂) _ (testCode r type .equal (.code (n + 1))) := .testCode hr hdone
  have h := (((((Tidy.label hlabel).append (ht.within (by omega) (by omega))).append htest).append
    (hb.within (by omega) le_rfl)).append hjump.tidy).append (.label hdone)
  refine ⟨by omega, ?_⟩
  simpa using h.congr fun i => by simp only [between]; split_ifs <;> omega

def Block.Named : Block → Prop
  | .one s | .body s => s.WellNamed
  | .many ss => Statement.AllNamed ss

theorem EmitsCode.known (h : EmitsCode c pool frame n b code frame' n') (hb : b.Named)
    (hk : frame.Known statics) : frame'.Known statics := by
  induction h with
  | declare resolved value accepted same declared | declareZero resolved declared =>
    exact Frame.Known.declare (hk.push _) (IsName.oneLine hb) declared
  | cons first rest ihFirst ihRest => exact ihRest hb.2 (ihFirst hb.1 hk)
  | _ => exact hk

theorem EmitsCode.lines (hc : c.Named) (h : EmitsCode c pool frame n b code frame' n')
    (hb : b.Named) (hk : frame.Known statics) : Lines (c.Labels statics) n n' code := by
  induction h with
  | stop result outside => exact (result.lines hc hk).append (Flat.lines (by simp [line]))
  | ret result inside accepted size same position free freeSource =>
    have hr := real_of_lowestFree? free
    exact ((result.lines hc hk).append (flat_resultCode fun h0 =>
      ⟨hr, real_of_lowestFree? (freeSource h0)⟩).lines).append
      (flat_leaveCode hr).lines
  | expression value => exact (value.lines hc hk).append flat_lowerSp.lines
  | declare resolved value accepted same declared => exact value.lines hc hk
  | declareZero resolved declared => exact flat_zerosCode.lines
  | block inner left ih =>
    exact (ih hb hk.enter).append (flat_dropCode (by simp [OneLine])).lines
  | ifThen test single free yes ih =>
    exact (test.lines hc hk).ifThen (ih hb hk) (real_of_lowestFree? free)
  | ifThenElse test single free yes no ihYes ihNo =>
    exact (test.lines hc hk).ifThenElse (ihYes hb.1 hk) (ihNo hb.2 hk) (real_of_lowestFree? free)
  | loop test single free inner ih =>
    exact (test.lines hc hk).loop (ih hb hk) (real_of_lowestFree? free)
  | nil => exact flat_nil.lines
  | cons first rest ihFirst ihRest =>
    exact (ihFirst hb.1 hk).append (ihRest hb.2 (first.known hb.1 hk))
  | bodyBlock inner ih => exact ih hb hk
  | bodyScoped single inner left ih =>
    exact (ih hb hk.enter).append (flat_dropCode (by simp)).lines

end

end Emit

end WordScript
