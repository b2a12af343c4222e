import WordScript.Assembly.Reader

/-!
# Text read back

Numerals, lines and words, written out and read again.
-/

namespace WordScript

theorem isAlpha_iff {c : Char} : c.isAlpha = true ↔
    (65 ≤ c.toNat ∧ c.toNat ≤ 90) ∨ (97 ≤ c.toNat ∧ c.toNat ≤ 122) := by
  delta Char.isAlpha Char.isUpper Char.isLower
  simp only [Bool.or_eq_true, Bool.and_eq_true, decide_eq_true_eq, ge_iff_le,
    UInt32.le_iff_toNat_le]
  rfl

theorem isDigit_iff {c : Char} : c.isDigit = true ↔ 48 ≤ c.toNat ∧ c.toNat ≤ 57 := by
  delta Char.isDigit
  simp only [Bool.and_eq_true, decide_eq_true_eq, ge_iff_le, UInt32.le_iff_toNat_le]
  rfl

/-! ### Numerals -/

theorem readDigits?_toDigits (n : Nat) : readDigits? (Nat.toDigits 10 n) = some n := by
  have hdigits : (Nat.toDigits 10 n).all Char.isDigit = true :=
    List.all_eq_true.mpr fun c hc => Nat.isDigit_of_mem_toDigits (by decide) (by decide) hc
  rw [readDigits?, if_pos ⟨Nat.toDigits_ne_nil, hdigits⟩, Nat.ofDigitChars_ten_toDigits]

theorem toDigits_eq_cons (n : Nat) : ∃ c cs, Nat.toDigits 10 n = c :: cs ∧ c.isDigit = true := by
  cases h : Nat.toDigits 10 n with
  | nil => exact absurd h Nat.toDigits_ne_nil
  | cons c cs =>
    exact ⟨c, cs, rfl, Nat.isDigit_of_mem_toDigits (by decide) (by decide) (h ▸ List.mem_cons_self)⟩

theorem readNatBelow?_toDigits (h : n < bound) :
    readNatBelow? bound (Nat.toDigits 10 n) = some n := by
  obtain ⟨c, cs, hcs, hc⟩ := toDigits_eq_cons n
  have hsign : c ≠ '+' := by
    rintro rfl
    simp at hc
  have hdigits := readDigits?_toDigits n
  rw [hcs] at hdigits ⊢
  simp [readNatBelow?, hsign, hdigits, h]

def isNumeralChar (c : Char) : Bool := c.isDigit || c == '-'

theorem text_eq (w : Word) : w.text.toList = Nat.toDigits 10 w.toInt.toNat ∧ 0 ≤ w.toInt ∨
    w.text.toList = '-' :: Nat.toDigits 10 (-w.toInt).toNat ∧ w.toInt < 0 := by
  rw [Word.text, Int.toString_eq_repr, Int.repr_eq_if]
  by_cases h : 0 ≤ w.toInt
  · exact .inl ⟨by rw [if_pos h, Nat.toList_repr], h⟩
  · exact .inr ⟨by rw [if_neg h]; simp [Nat.toList_repr], by omega⟩

theorem isNumeralChar_text {w : Word} (hc : c ∈ w.text.toList) : isNumeralChar c = true := by
  have hdigit : ∀ {n}, c ∈ Nat.toDigits 10 n → isNumeralChar c = true := fun h => by
    simp [isNumeralChar, Nat.isDigit_of_mem_toDigits (by decide) (by decide) h]
  rcases text_eq w with ⟨h, -⟩ | ⟨h, -⟩
  · exact hdigit (h ▸ hc)
  · rw [h, List.mem_cons] at hc
    rcases hc with rfl | hc
    · rfl
    · exact hdigit hc

theorem readInt32?_text (w : Word) : readInt32? w.text.toList = some w := by
  have hlow := w.le_toInt
  have hhigh := w.toInt_lt
  have hint : readInt? w.text.toList = some w.toInt := by
    rcases text_eq w with ⟨h, hsign⟩ | ⟨h, hsign⟩
    · obtain ⟨c, cs, hcs, hc⟩ := toDigits_eq_cons w.toInt.toNat
      have hplus : c ≠ '+' := by
        rintro rfl
        simp at hc
      have hminus : c ≠ '-' := by
        rintro rfl
        simp at hc
      have hdigits := readDigits?_toDigits w.toInt.toNat
      rw [h]
      rw [hcs] at hdigits ⊢
      simpa [readInt?, hplus, hminus, hdigits] using Int.toNat_of_nonneg hsign
    · rw [h]
      simp only [readInt?, readDigits?_toDigits, Option.map_some, Option.some.injEq,
        Int.ofNat_eq_natCast]
      omega
  rw [readInt32?, hint]
  simp only
  rw [if_pos ⟨hlow, hhigh⟩, Int32.ofInt_toInt]

/-- The text writes a number in decimal, with or without a sign. -/
inductive Decimal : List Char → Int → Prop
  | plain (proper : ds ≠ []) (digits : ds.all Char.isDigit = true) :
      Decimal ds (Nat.ofDigitChars 10 ds 0)
  | plus (proper : ds ≠ []) (digits : ds.all Char.isDigit = true) :
      Decimal ('+' :: ds) (Nat.ofDigitChars 10 ds 0)
  | minus (proper : ds ≠ []) (digits : ds.all Char.isDigit = true) :
      Decimal ('-' :: ds) (-(Nat.ofDigitChars 10 ds 0))

theorem readDigits?_eq_some : readDigits? ds = some n ↔
    ds ≠ [] ∧ ds.all Char.isDigit = true ∧ Nat.ofDigitChars 10 ds 0 = n := by
  simp only [readDigits?]
  split
  · next h => simp [h]
  · next h => exact iff_of_false (by simp) fun h' => h ⟨h'.1, h'.2.1⟩

theorem readInt?_eq_some {z : Int} : readInt? cs = some z ↔ Decimal cs z := by
  constructor
  · intro h
    simp only [readInt?] at h
    split at h
    all_goals
      obtain ⟨n, hn, rfl⟩ := Option.map_eq_some_iff.mp h
      obtain ⟨proper, digits, rfl⟩ := readDigits?_eq_some.mp hn
    · exact .plus proper digits
    · exact .minus proper digits
    · exact .plain proper digits
  · intro h
    cases h with
    | plus proper digits | minus proper digits => simp [readInt?, readDigits?, proper, digits]
    | plain proper digits =>
      have hdigits := readDigits?_eq_some.mpr ⟨proper, digits, rfl⟩
      simp only [readInt?]
      split
      · simp at digits
      · simp at digits
      · rw [hdigits]
        rfl

theorem readInt32?_eq_some {w : Word} : readInt32? cs = some w ↔ Decimal cs w.toInt := by
  have hlow := w.le_toInt
  have hhigh := w.toInt_lt
  rw [← readInt?_eq_some, readInt32?]
  split
  · next z hz =>
    rw [hz, Option.some.injEq]
    split
    · next hfits =>
      rw [Option.some.injEq]
      constructor
      · rintro rfl
        exact (Int32.toInt_ofInt_of_le hfits.1 hfits.2).symm
      · rintro rfl
        exact Int32.ofInt_toInt w
    · next hfits =>
      refine iff_of_false (by simp) ?_
      rintro rfl
      exact hfits ⟨hlow, hhigh⟩
  · next hz => simp [hz]

theorem decimal_text (w : Word) : Decimal w.text.toList w.toInt :=
  readInt32?_eq_some.mp (readInt32?_text w)

/-! ### Lines -/

theorem splitWhere_append {separator : Char → Bool} {xs : List Char}
    (h : ∀ c ∈ xs, separator c = false) (hc : separator c = true) (ys : List Char) :
    splitWhere separator (xs ++ c :: ys) = xs :: splitWhere separator ys := by
  induction xs with
  | nil => simp [splitWhere, hc]
  | cons x xs ih =>
    have hx := h x (by simp)
    simp [splitWhere, hx, ih fun c hc => h c (by simp [hc])]

/-- The text is these parts, with one separator between each two of them. -/
inductive Cut (separator : Char → Bool) : List (List Char) → List Char → Prop
  | last (solid : ∀ c ∈ part, separator c = false) : Cut separator [part] part
  | more (solid : ∀ c ∈ part, separator c = false) (stop : separator c = true)
      (rest : Cut separator parts cs) :
      Cut separator (part :: parts) (part ++ c :: cs)

theorem splitWhere_solid {separator : Char → Bool} {xs : List Char}
    (h : ∀ c ∈ xs, separator c = false) : splitWhere separator xs = [xs] := by
  induction xs with
  | nil => rfl
  | cons x xs ih =>
    have hx := h x (by simp)
    simp [splitWhere, hx, ih fun c hc => h c (by simp [hc])]

theorem Cut.splitWhere_eq (h : Cut separator parts cs) : splitWhere separator cs = parts := by
  induction h with
  | last solid => exact splitWhere_solid solid
  | more solid stop _ ih => rw [splitWhere_append solid stop, ih]

theorem cut_splitWhere (separator : Char → Bool) (cs : List Char) :
    Cut separator (splitWhere separator cs) cs := by
  induction cs with
  | nil => exact .last (by simp)
  | cons c cs ih =>
    rw [splitWhere]
    split
    · next hc =>
      show Cut separator ([] :: splitWhere separator cs) ([] ++ c :: cs)
      exact .more (List.forall_mem_nil _) hc ih
    · next hc =>
      have hc : separator c = false := by simpa using hc
      generalize splitWhere separator cs = parts at ih
      cases ih with
      | last solid => exact .last (List.forall_mem_cons.mpr ⟨hc, solid⟩)
      | more solid stop rest => exact .more (List.forall_mem_cons.mpr ⟨hc, solid⟩) stop rest

theorem Cut.solid (h : Cut separator parts cs) :
    ∀ part ∈ parts, ∀ c ∈ part, separator c = false := by
  induction h with
  | last solid => simpa using solid
  | more solid _ _ ih => exact List.forall_mem_cons.mpr ⟨solid, ih⟩

theorem cut_intercalate {parts : List (List Char)} (hne : parts ≠ [])
    (solid : ∀ part ∈ parts, ∀ c ∈ part, separator c = false) (stop : separator c = true) :
    Cut separator parts ([c].intercalate parts) := by
  induction parts with
  | nil => exact absurd rfl hne
  | cons part parts ih =>
    obtain ⟨hpart, hparts⟩ := List.forall_mem_cons.mp solid
    cases parts with
    | nil => simpa [List.intercalate] using Cut.last hpart
    | cons next parts => simpa [List.intercalate] using Cut.more hpart stop (ih (by simp) hparts)

/-- Text is cut where the lines were joined; what follows the last newline is one more line. -/
theorem splitLines_intercalate {lines : List (List Char)} (hne : lines ≠ [])
    (h : ∀ line ∈ lines, '\n' ∉ line) :
    splitLines (['\n'].intercalate lines ++ ['\n']) = lines ++ [[]] := by
  have hline : ∀ line ∈ lines, ∀ c ∈ line, (c == '\n') = false := by
    intro line hl c hc
    simpa using fun he : c = '\n' => h line hl (he ▸ hc)
  clear h
  induction lines with
  | nil => exact absurd rfl hne
  | cons line lines ih =>
    cases lines with
    | nil => simpa [splitLines, splitWhere] using splitWhere_append (hline line
        (by simp)) (by decide) []
    | cons next lines =>
      have hrest := ih (by simp) fun l hl => hline l (by simp [hl])
      have hfirst := splitWhere_append (c := '\n') (hline line (by simp)) (by decide)
        (['\n'].intercalate (next :: lines) ++ ['\n'])
      simp only [splitLines] at hrest hfirst ⊢
      rw [hrest] at hfirst
      simpa [List.intercalate] using hfirst

/-! ### Words -/

namespace Assembly

def Breaks (cs : List Char) : Prop := ∀ c ∈ cs.head?, isSeparator c = true

/-- The text holds these words, with separators around them. -/
inductive Spells : List (List Char) → List Char → Prop
  | blank (gap : ∀ c ∈ cs, isSeparator c = true) : Spells [] cs
  | word (gap : ∀ c ∈ blanks, isSeparator c = true) (proper : w ≠ [])
      (solid : ∀ c ∈ w, isSeparator c = false)
      (ends : Breaks cs) (rest : Spells ws cs) : Spells (w :: ws) (blanks ++ w ++ cs)

theorem isSeparator_cons (h : isSeparator d = true) (rest : ∀ c ∈ cs, isSeparator c = true) :
    ∀ c ∈ d :: cs, isSeparator c = true := List.forall_mem_cons.mpr ⟨h, rest⟩

theorem isSeparator_nil : ∀ c ∈ [], isSeparator c = true := List.forall_mem_nil _

theorem splitWords_blank (h : ∀ c ∈ blanks, isSeparator c = true) (offset : Nat) (cs : List Char) :
    splitWords offset (blanks ++ cs) = splitWords (offset + byteLength blanks) cs := by
  induction blanks generalizing offset with
  | nil => simp
  | cons c blanks ih =>
    have hc := h c (by simp)
    simp [splitWords, hc, ih (fun c hc => h c (by simp [hc])), Nat.add_assoc]

theorem le_of_splitWords (h : splitWords offset cs = (start, w) :: more) : offset ≤ start := by
  induction cs generalizing offset start w more with
  | nil => cases h
  | cons c cs ih =>
    rw [splitWords] at h
    split at h
    · have := ih h
      omega
    · split at h
      · cases h
        exact Nat.le_refl _
      · split at h <;> cases h <;> exact Nat.le_refl _

/-- Behind a word there is no other before the next separator. -/
theorem Breaks.lt_of_splitWords (ends : Breaks cs) (h : splitWords offset cs = (start, w) :: more) :
    offset < start := by
  cases cs with
  | nil => cases h
  | cons c cs =>
    have hc : isSeparator c = true := ends c rfl
    simp only [splitWords, hc, ↓reduceIte] at h
    have := le_of_splitWords h
    have := c.utf8Size_pos
    omega

theorem splitWords_word (solid : ∀ c ∈ w, isSeparator c = false) (proper : w ≠ [])
    (ends : Breaks cs) (offset : Nat) :
    splitWords offset (w ++ cs) = (offset, w) :: splitWords (offset + byteLength w) cs := by
  induction w generalizing offset with
  | nil => exact absurd rfl proper
  | cons c w ih =>
    have hc := solid c (by simp)
    cases w with
    | nil =>
      simp only [List.cons_append, List.nil_append, splitWords, hc, Bool.false_eq_true, ↓reduceIte,
        byteLength_cons, byteLength_nil, Nat.add_zero]
      cases hwords : splitWords (offset + c.utf8Size) cs with
      | nil => rfl
      | cons next words =>
        have := ends.lt_of_splitWords hwords
        simp only
        rw [if_neg (by omega)]
    | cons c' w =>
      have hrest := ih (fun c hc => solid c (by simp [hc])) (by simp) (offset + c.utf8Size)
      simp only [List.cons_append] at hrest ⊢
      rw [splitWords, hrest]
      simp [hc, Nat.add_assoc]

theorem Spells.words (h : Spells ws cs) (offset : Nat) :
    (splitWords offset cs).map Prod.snd = ws := by
  induction h generalizing offset with
  | blank gap =>
    have := splitWords_blank gap offset []
    simp_all [splitWords]
  | word gap proper solid ends rest ih =>
    rw [List.append_assoc, splitWords_blank gap, splitWords_word solid proper ends]
    simp [ih]

end Assembly

end WordScript
