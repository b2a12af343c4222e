import WordScript.Proofs.Assembly.Encoding

/-!
# Counting with checked sums

Where sums are checked, the first pass of the assembler stops as soon as the number of code words,
or the address of the next static, is not a word. This is said of exact sums
(`Assembly.CountsFrom`). A pass that does not stop is the one whose sums wrap around.
-/

namespace WordScript

/-! ### Checked sums -/

def Word.Holds (z : Int) : Prop := -2 ^ 31 ≤ z ∧ z < 2 ^ 31

instance : DecidablePred Word.Holds := fun _ => inferInstanceAs (Decidable (_ ∧ _))

theorem Word.holds_toInt (a : Word) : Word.Holds a.toInt := ⟨a.le_toInt, a.toInt_lt⟩

theorem Word.toInt_add {a b : Word} (h : Word.Holds (a.toInt + b.toInt)) :
    (a + b).toInt = a.toInt + b.toInt := by
  obtain ⟨hlow, hhigh⟩ := h
  rw [Int32.toInt_add]
  exact Int.bmod_eq_of_le (by omega) (by omega)

theorem Word.add?_of_holds {a b : Word} (h : Word.Holds (a.toInt + b.toInt)) :
    a.add? b = some (a + b) :=
  if_pos (Word.toInt_add h)

theorem Word.add?_of_not_holds {a b : Word} (h : ¬ Word.Holds (a.toInt + b.toInt)) :
    a.add? b = none :=
  if_neg fun hsum => h (by rw [← hsum]; exact Word.holds_toInt _)

theorem Word.add?_eq_some {a b : Word} (h : a.add? b = some c) : c = a + b := by
  simp only [Word.add?] at h
  split at h <;> simp_all

theorem Word.add?_ofNat (hm : m < 2 ^ 31) (hn : n < 2 ^ 31) :
    Word.add? (.ofNat m) (.ofNat n) = if m + n < 2 ^ 31 then some (.ofNat (m + n)) else none := by
  have hsum : (Int32.ofNat m).toInt + (Int32.ofNat n).toInt = (m + n : Nat) := by
    rw [Int32.toInt_ofNat_of_lt hm, Int32.toInt_ofNat_of_lt hn, Int.natCast_add]
  split
  · rw [Word.add?_of_holds (by rw [hsum, Word.Holds]; omega), Assembly.ofNat_add]
  · exact Word.add?_of_not_holds (by rw [hsum, Word.Holds]; omega)

theorem Instr.width_lt (i : Instr ρ τ) : i.width < 2 ^ 31 := by
  rw [Instr.width]
  generalize i.opcode = o
  cases o <;> simp [Opcode.width, Opcode.arity, Opcode.operands]

def Item.staticStep : Item → Int
  | .static _ words => (Int32.ofNat words).toInt
  | .label _ | .instruction .. | .comment _ => 0

namespace Assembly

def staticSum (a : Assembly) : Int := (a.map Item.staticStep).sum

/-- Whatever is counted from `offset` and `address` on is a word. -/
def CountsFrom (offset : Nat) (address : Int) (a : Assembly) : Prop :=
  offset + a.size < 2 ^ 31 ∧ ∀ n, Word.Holds (address + staticSum (a.take n))

theorem countsFrom_cons {a : Assembly} : CountsFrom offset address (item :: a) ↔
    Word.Holds address ∧ CountsFrom (offset + item.size) (address + item.staticStep) a := by
  have hsum : ∀ n, address + staticSum ((item :: a).take (n + 1)) = address + item.staticStep +
      staticSum (a.take n) := by
    intro n
    simp [staticSum, Int.add_assoc]
  constructor
  · rintro ⟨hsize, h⟩
    exact ⟨by simpa [staticSum] using h 0, by simpa [Nat.add_assoc] using hsize, fun n =>
      hsum n ▸ h (n + 1)⟩
  · rintro ⟨haddress, hsize, h⟩
    refine ⟨by simpa [Nat.add_assoc] using hsize, fun n => ?_⟩
    cases n with
    | zero => simpa [staticSum] using haddress
    | succ n => exact hsum n ▸ h n

/-- A first pass that does not stop is the one whose sums wrap around. -/
theorem collectSymbols_of_checked {items : List SourceItem}
    (h : collectSymbols? table offset address items = some r) :
    collectSymbols table offset address items = r := by
  induction items generalizing table offset address with
  | nil => exact Option.some.inj h
  | cons item items ih =>
    cases item with
    | instruction i =>
      obtain ⟨next, hnext, h⟩ := Option.bind_eq_some_iff.mp h
      rw [collectSymbols, ih (Word.add?_eq_some hnext ▸ h)]
    | label name =>
      rw [collectSymbols?] at h
      rw [collectSymbols]
      split at h
      · next hdefined => exact (if_pos hdefined).trans (Option.some.inj h)
      · next hnew => exact (if_neg hnew).trans (ih h)
    | static name words =>
      obtain ⟨next, hnext, h⟩ := Option.bind_eq_some_iff.mp h
      obtain rfl := Word.add?_eq_some hnext
      rw [collectSymbols]
      split at h
      · next hdefined => exact (if_pos hdefined).trans (Option.some.inj h)
      · next hnew => exact (if_neg hnew).trans (ih h)

theorem CountsFrom.holds {a : Assembly} (h : CountsFrom offset address a) : Word.Holds address := by
  simpa [staticSum] using h.2 0

/-- The first pass stops exactly if a count is not a word. -/
theorem collectSymbols?_isSome {items : List SourceItem}
    (h : collectSymbols table (.ofNat offset) address items = .ok table')
    (hoffset : offset < 2 ^ 31) :
    (collectSymbols? table (.ofNat offset) address items).isSome = true ↔
      CountsFrom offset address.toInt (items.map SourceItem.item) := by
  induction items generalizing table offset address with
  | nil => exact ⟨fun _ => ⟨hoffset, fun n => by simpa [staticSum] using address.holds_toInt⟩,
      fun _ => rfl⟩
  | cons item items ih =>
    rw [List.map_cons, countsFrom_cons, and_iff_right address.holds_toInt]
    cases item with
    | instruction i =>
      have hsize : (SourceItem.instruction i).item.size = i.width := Instr.width_map ..
      rw [hsize, show (SourceItem.instruction i).item.staticStep = 0 from rfl, Int.add_zero]
      by_cases hnext : offset + i.width < 2 ^ 31
      · rw [collectSymbols, ofNat_add] at h
        rw [collectSymbols?, Word.add?_ofNat hoffset i.width_lt, if_pos hnext]
        exact ih h hnext
      · rw [collectSymbols?, Word.add?_ofNat hoffset i.width_lt, if_neg hnext]
        exact iff_of_false Bool.false_ne_true fun hcounts => hnext (by have := hcounts.1; omega)
    | label name =>
      rw [collectSymbols] at h
      split at h
      · cases h
      · next hnew =>
        rw [collectSymbols?, if_neg hnew, show (SourceItem.label name).item.staticStep = 0 from rfl,
          Int.add_zero]
        exact ih h hoffset
    | static name words =>
      rw [collectSymbols] at h
      split at h
      · cases h
      · next hnew =>
        rw [show (SourceItem.static name words).item.staticStep =
          (Int32.ofNat words).toInt from rfl]
        by_cases hsum : Word.Holds (address.toInt + (Int32.ofNat words).toInt)
        · have hrest := ih h hoffset
          rw [Word.toInt_add hsum] at hrest
          rw [collectSymbols?, Word.add?_of_holds hsum, Option.bind_eq_bind,
            Option.bind_some, if_neg hnew]
          exact hrest
        · rw [collectSymbols?, Word.add?_of_not_holds hsum]
          exact iff_of_false Bool.false_ne_true fun hcounts => hsum hcounts.holds

theorem countsFrom_bare (a : Assembly) : CountsFrom offset address a.bare ↔
    CountsFrom offset address a := by
  induction a generalizing offset address with
  | nil => rfl
  | cons item a ih =>
    rw [countsFrom_cons, ← ih]
    cases item with
    | comment note =>
      show _ ↔ Word.Holds address ∧ CountsFrom offset (address + 0) (bare a)
      rw [Int.add_zero, and_iff_right_of_imp CountsFrom.holds]
      rfl
    | instruction | label | static => exact countsFrom_cons

theorem staticSum_of_lt {a : Assembly} (h : a.staticWords < 2 ^ 31) :
    a.staticSum = a.staticWords := by
  induction a with
  | nil => rfl
  | cons item a ih =>
    simp only [staticWords] at h
    rw [staticSum, List.map_cons, List.sum_cons, ← staticSum, ih (by omega), staticWords,
      Int.natCast_add]
    cases item with
    | static l words =>
      simp only [Item.staticWords] at h
      rw [Item.staticStep, Int32.toInt_ofNat_of_lt (by omega)]
      rfl
    | _ => rfl

theorem countsFrom_of_lt {a : Assembly} (size : a.size < 2 ^ 31)
    (statics : a.staticWords < 2 ^ 31) : CountsFrom 0 0 a := by
  refine ⟨by omega, fun n => ?_⟩
  have hsplit := staticWords_append (a.take n) (a.drop n)
  rw [List.take_append_drop] at hsplit
  rw [staticSum_of_lt (by omega), Word.Holds]
  omega

end Assembly

namespace Bytecode

theorem ofAssembly_of_checked (h : ofAssembly? source = some r) : ofAssembly source = r := by
  simp only [ofAssembly?] at h
  simp only [ofAssembly]
  cases hread : Assembly.read source.chars with
  | error f =>
    rw [hread] at h
    exact Option.some.inj h
  | ok items =>
    rw [hread] at h
    obtain ⟨symbols, hsymbols, h⟩ := Option.bind_eq_some_iff.mp h
    show (Assembly.collectSymbols [] 0 0 items >>= _) = r
    rw [Assembly.collectSymbols_of_checked hsymbols]
    cases symbols with
    | error f => exact Option.some.inj h
    | ok table =>
      obtain rfl := Option.some.inj h
      show (Assembly.encode table items >>= _) = _
      cases Assembly.encode table items <;> rfl

theorem ofAssembly?_isSome {items : List SourceItem}
    (hread : Assembly.read source.chars = .ok items)
    (hsymbols : Assembly.collectSymbols [] 0 0 items = .ok table) :
    (ofAssembly? source).isSome = true ↔ Assembly.CountsFrom 0 0 (items.map SourceItem.item) := by
  have hcounts : (Assembly.collectSymbols? [] 0 0 items).isSome = true ↔
      Assembly.CountsFrom 0 (0 : Word).toInt (items.map SourceItem.item) :=
    Assembly.collectSymbols?_isSome hsymbols (by decide)
  refine Iff.trans ?_ hcounts
  simp only [ofAssembly?, hread]
  cases Assembly.collectSymbols? [] 0 0 items with
  | none => exact Iff.rfl
  | some symbols => cases symbols <;> exact Iff.rfl

/-- With checked sums too, the text of an assembly assembles to the words of its lines, unless a
count is not a word. -/
theorem ofAssembly?_text {a : Assembly} (writable : ∀ item ∈ a, item.Writable)
    (distinct : a.defined.Nodup) (closed : ∀ l ∈ a.used, l ∈ a.defined) (file : Option String) :
    (a.CountsFrom 0 0 → ofAssembly? ⟨a.text, file⟩ = some (.ok (.ofList (a.words a.value)))) ∧
    (¬ a.CountsFrom 0 0 → ofAssembly? ⟨a.text, file⟩ = none) := by
  obtain ⟨items, hread, hitems⟩ := Assembly.read_text writable
  obtain ⟨table, htable, -⟩ :=
    Assembly.collectSymbols_eq [] 0 0 hitems (by rwa [Assembly.defined_bare]) (by simp)
  have hsome : (ofAssembly? ⟨a.text, file⟩).isSome = true ↔ a.CountsFrom 0 0 := by
    rw [← Assembly.countsFrom_bare, ← hitems]
    exact ofAssembly?_isSome hread htable
  refine ⟨fun counts => ?_, fun counts => ?_⟩
  · obtain ⟨r, hr⟩ := Option.isSome_iff_exists.mp (hsome.mpr counts)
    rw [hr, ← ofAssembly_of_checked hr, ofAssembly_text writable distinct closed file]
  · exact Option.not_isSome_iff_eq_none.mp (mt hsome.mp counts)

end Bytecode

end WordScript
