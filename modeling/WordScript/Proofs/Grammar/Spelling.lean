import WordScript.Proofs.Grammar.Lexemes
import WordScript.Proofs.Tokens

/-!
# Spelling tokens

Which texts stand for one token when a space or nothing follows. Tokens that are spelled with single
spaces between them are read again, with their kinds and texts (`tokens_spaced`, `drain_spaced`).
-/

namespace WordScript

/-- A token of this kind and text is written as `source`. -/
inductive Spelled : TokenKind → List Char → List Char → Prop
  | name (start : c.isAlpha = true) (more : ∀ d ∈ cs, d.isAlphanum = true ∨ d = '_') :
      Spelled .identifier (c :: cs) (c :: cs)
  | integer (proper : ds ≠ []) (digits : ds.all Char.isDigit = true)
      (small : Nat.ofDigitChars 10 ds 0 ≤ 2147483647) :
      Spelled .integer ds ds
  | float (proper : ds ≠ []) (digits : ds.all Char.isDigit = true) (proper' : fs ≠ [])
      (fraction : fs.all Char.isDigit = true) :
      Spelled .float (ds ++ '.' :: fs) (ds ++ '.' :: fs)
  | string (quote : q = '\'' ∨ q = '"') (inside : q ∉ content) :
      Spelled .string content (q :: (content ++ [q]))
  | symbol (s : Symbol) : Spelled (.symbol s) s.text.toList s.text.toList

def Separates (r : List Char) : Prop := ∀ d ∈ r.head?, d = ' '

theorem readWord?_digits (proper : ds ≠ []) (digits : ds.all Char.isDigit = true)
    (small : Nat.ofDigitChars 10 ds 0 ≤ 2147483647) : (readWord? ds).isSome = true := by
  have hlow : (-2147483648 : Int) ≤ Nat.ofDigitChars 10 ds 0 := by omega
  have hhigh : (Nat.ofDigitChars 10 ds 0 : Int) < 2147483648 := by omega
  have hvalue := Decimal.plain proper digits
  rw [← Int32.toInt_ofInt_of_le hlow hhigh] at hvalue
  rw [readWord?, readInt32?_eq_some.mpr hvalue]
  rfl

theorem readFloat?_digits (proper : ds ≠ []) (digits : ds.all Char.isDigit = true)
    (proper' : fs ≠ [])
    (fraction : fs.all Char.isDigit = true) : (readFloat? (ds ++ '.' :: fs)).isSome = true := by
  have hplain : ds.all (· != '.') = true := List.all_eq_true.mpr fun c hc => by
    have hdigit := List.all_eq_true.mp digits c hc
    rw [bne_iff_ne]
    rintro rfl
    simp at hdigit
  have hpoint : ∀ d ∈ ('.' :: fs).head?, (d != '.') = false := by simp
  obtain ⟨htake, hdrop⟩ := takeWhile_append_stop hplain hpoint
  have hfraction := readDigits?_eq_some.mpr ⟨proper', fraction, rfl⟩
  rw [readFloat?, htake, hdrop, readDigits?_eq_some.mpr ⟨proper, digits, rfl⟩]
  simp only [hfraction, Option.map_some, Option.isSome_some]

theorem Spelled.valid (h : Spelled kind text source) (hr : Separates r) :
    ValidLexeme ⟨kind, text, source, r⟩ := by
  have hdelimiter : ∀ d ∈ r.head?, isDelimiter d = true := fun d hd => by
    obtain rfl := hr d hd
    rfl
  cases h with
  | name start more =>
    refine .name start (List.all_eq_true.mpr fun d hd => ?_) fun d hd => ?_
    · simpa [isNameChar] using more d hd
    · obtain rfl := hr d hd
      rfl
  | integer proper digits small =>
    obtain ⟨c, ds, rfl⟩ := List.exists_cons_of_ne_nil proper
    -- Before a point the digits would be those of a float.
    refine .integer digits (readWord?_digits proper digits small) hdelimiter fun d r' heq => ?_
    simp [Separates, heq] at hr
  | float proper digits proper' fraction =>
    have hvalue := readFloat?_digits proper digits proper' fraction
    obtain ⟨c, ds, rfl⟩ := List.exists_cons_of_ne_nil proper
    obtain ⟨d, fs, rfl⟩ := List.exists_cons_of_ne_nil proper'
    exact .float digits fraction hvalue hdelimiter
  | string quote inside => exact .string quote inside
  | symbol s =>
    -- Symbols of two characters start with others, but none goes on with a space.
    refine .symbol fun d hd => ?_
    obtain rfl := hr d hd
    cases s <;> rfl

theorem intercalate_cons (x : List Char) (xs : List (List Char)) :
    [' '].intercalate (x :: xs) = x ++ xs.flatMap (' ' :: ·) := by
  induction xs generalizing x with
  | nil => simp
  | cons y ys ih => simp [ih]

section

variable {α : Type} {shape : α → TokenKind × String} {source : α → List Char} {ps : List α} {p : α}

theorem tokens_spelled {c : Cursor} (h : Spelled (shape p).1 (shape p).2.toList (source p))
    (hr : Separates r) (hc : spanTrivia false c.rest = (gap, source p ++ r))
    (hrest : ∀ c' : Cursor, c'.rest = r → c'.tokens.map Token.shape = ps.map shape ∧ c'.Lexes) :
    c.tokens.map Token.shape = (p :: ps).map shape ∧ c.Lexes := by
  obtain ⟨hsome, hiff⟩ := Cursor.drain_some (Cursor.next_valid hc (Spelled.valid h hr))
  obtain ⟨htokens, hlexes⟩ := hrest ((c.past gap (source p ++ r)).past (source p) r) rfl
  refine ⟨?_, hiff.mpr hlexes⟩
  rw [hsome, List.map_cons, htokens]
  simp [Token.shape]

theorem separates_flatMap (xs : List (List Char)) : Separates (xs.flatMap (' ' :: ·)) := by
  cases xs <;> simp [Separates]

theorem tokens_spaced_after {c : Cursor}
    (h : ∀ p ∈ ps, Spelled (shape p).1 (shape p).2.toList (source p))
    (hc : c.rest = (ps.map source).flatMap (' ' :: ·)) :
    c.tokens.map Token.shape = ps.map shape ∧ c.Lexes := by
  induction ps generalizing c with
  | nil =>
    have hnext : Cursor.next c = .ok none c := by
      rw [Cursor.next, Cursor.skipTrivia_end hc]
      simp [show c.rest = [] from hc, lexeme]
    obtain ⟨htokens, hlexes⟩ := Cursor.drain_none hnext
    exact ⟨by rw [htokens]; rfl, hlexes⟩
  | cons p ps ih =>
    obtain ⟨hp, hps⟩ := List.forall_mem_cons.mp h
    have hsep := separates_flatMap (ps.map source)
    have hgap : spanTrivia false c.rest =
        ([' '], source p ++ (ps.map source).flatMap (' ' :: ·)) := by
      rw [hc, List.map_cons, List.flatMap_cons, List.cons_append, spanTrivia]
      simp [isBlank, spanTrivia_valid (Spelled.valid hp hsep)]
    exact tokens_spelled hp hsep hgap fun c' hrest => ih hps hrest

/-- Tokens that are spelled with single spaces between them are read again. -/
theorem tokens_spaced (h : ∀ p ∈ ps, Spelled (shape p).1 (shape p).2.toList (source p)) :
    (Cursor.start ([' '].intercalate (ps.map source))).tokens.map Token.shape = ps.map shape ∧
      (Cursor.start ([' '].intercalate (ps.map source))).Lexes := by
  cases ps with
  | nil => exact tokens_spaced_after h rfl
  | cons p ps =>
    obtain ⟨hp, hps⟩ := List.forall_mem_cons.mp h
    have hsep := separates_flatMap (ps.map source)
    -- Only the first of the tokens has no space before it.
    have hgap := spanTrivia_valid (Spelled.valid hp hsep) ((ps.map source).flatMap (' ' :: ·))
    rw [List.map_cons, intercalate_cons]
    exact tokens_spelled hp hsep hgap fun c' hrest => tokens_spaced_after hps hrest

end

structure Spelling where
  kind : TokenKind
  text : List Char
  source : List Char
  spelled : Spelled kind text source

def Spelling.shape (s : Spelling) : TokenKind × String := (s.kind, String.ofList s.text)

/-- Reading undoes writing: any tokens, written with single spaces between them, are read in order
with their kinds and texts, and nothing fails. -/
theorem drain_spaced (spellings : List Spelling) :
    (TokenStream.start ([' '].intercalate (spellings.map Spelling.source))).drain.1.map
      Token.shape = spellings.map Spelling.shape ∧
      (TokenStream.start ([' '].intercalate (spellings.map Spelling.source))).drain.2.1 = none := by
  have hspelled : ∀ s ∈ spellings, Spelled s.shape.1 s.shape.2.toList s.source := fun s _ => by
    rw [Spelling.shape, String.toList_ofList]
    exact s.spelled
  exact tokens_spaced hspelled

def Spelling.oneOfEach : List Spelling :=
  [⟨.identifier, ['x', '_', '1'], ['x', '_', '1'], .name rfl
      (List.forall_mem_cons.mpr ⟨.inr rfl, List.forall_mem_singleton.mpr (.inl rfl)⟩)⟩,
    ⟨.symbol .plusEquals, ['+', '='], ['+', '='], .symbol .plusEquals⟩,
    ⟨.integer, ['0', '0', '7'], ['0', '0', '7'], .integer (by decide) rfl (by decide)⟩,
    ⟨.float, ['2', '.', '5', '0'], ['2', '.', '5', '0'],
      @Spelled.float ['2'] ['5', '0'] (by decide) rfl (by decide) rfl⟩,
    ⟨.string, ['a', '"', ' '], ['\'', 'a', '"', ' ', '\''], .string (.inl rfl) (by decide)⟩]

theorem drain_spaced_oneOfEach :
    String.ofList ([' '].intercalate (Spelling.oneOfEach.map Spelling.source)) =
      "x_1 += 007 2.50 'a\" '" ∧
    (TokenStream.start "x_1 += 007 2.50 'a\" '".toList).drain.1.map Token.shape =
      [(.identifier, "x_1"), (.symbol .plusEquals, "+="), (.integer, "007"), (.float, "2.50"),
        (.string, "a\" ")] :=
  ⟨by decide, (drain_spaced Spelling.oneOfEach).1⟩

end WordScript
