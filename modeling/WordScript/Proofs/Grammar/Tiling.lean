import WordScript.Proofs.Grammar.Slices

/-!
# Tokens and what is between them

A text that can be read is its tokens with white space and comments around them, and each token is
as long as it can be. `tokens_tile` says so, and that a text that is cut up like this has just these
tokens.
-/

namespace WordScript

/-- White space and comments before `rest`. A comment runs up to a newline or to the end of the
text. -/
inductive Gap (rest : List Char) : List Char → Prop
  | nil : Gap rest []
  | blank (space : isBlank c = true) (others : Gap rest cs) : Gap rest (c :: cs)
  | comment (line : '\n' ∉ note) (stop : ∀ c ∈ (cs ++ rest).head?, c = '\n')
      (others : Gap rest cs) :
      Gap rest ('#' :: (note ++ cs))

/-- The text from a cursor on is these tokens with gaps around them. Each token has the span of its
slice of the text, and what follows it makes it no longer. -/
inductive Tiles : Cursor → List Token → Prop
  | done (gap : Gap [] c.rest) : Tiles c []
  | token (text : c.rest = skipped ++ (slice ++ rest)) (gap : Gap (slice ++ rest) skipped)
      (stands : ValidLexeme ⟨t.kind, t.text.toList, slice, rest⟩)
      (span : t.span = ⟨c.offset + byteLength skipped, byteLength slice⟩)
      (position : t.position = c.position.advance skipped)
      (others : Tiles ((c.past skipped (slice ++ rest)).past slice rest) ts) : Tiles c (t :: ts)

/-! ### Gaps -/

def Gap.Commented (rest gap : List Char) : Prop :=
  ∃ note cs, gap = note ++ cs ∧ '\n' ∉ note ∧ (∀ c ∈ (cs ++ rest).head?, c = '\n') ∧ Gap rest cs

theorem Gap.of_spanTrivia (inComment : Bool) (cs : List Char) :
    (inComment = false → Gap (spanTrivia inComment cs).2 (spanTrivia inComment cs).1) ∧
      (inComment = true → Gap.Commented (spanTrivia inComment cs).2
        (spanTrivia inComment cs).1) := by
  induction cs generalizing inComment with
  | nil => exact ⟨fun _ => .nil, fun _ => ⟨[], [], rfl, by simp, by simp [spanTrivia], .nil⟩⟩
  | cons c cs ih =>
    cases inComment with
    | true =>
      refine ⟨Bool.noConfusion, fun _ => ?_⟩
      simp only [spanTrivia, ↓reduceIte]
      by_cases hc : c = '\n'
      · subst hc
        exact ⟨[], _, rfl, by simp, by simp, .blank (by decide) ((ih _).1 rfl)⟩
      · obtain ⟨note, ds, hnote, hline, hstop, hgap⟩ := (ih (c != '\n')).2 (by simpa using hc)
        refine ⟨c :: note, ds, by rw [hnote]; rfl, ?_, hstop, hgap⟩
        simpa using ⟨Ne.symm hc, hline⟩
    | false =>
      refine ⟨fun _ => ?_, Bool.noConfusion⟩
      simp only [spanTrivia, Bool.false_eq_true, ↓reduceIte]
      split
      · next hblank => exact .blank hblank ((ih false).1 rfl)
      split
      · next hmark =>
        subst hmark
        obtain ⟨note, ds, hnote, hline, hstop, hgap⟩ := (ih true).2 rfl
        simp only [hnote]
        exact .comment hline hstop hgap
      · exact .nil

theorem spanTrivia_line {cs : List Char} (stop : ∀ c ∈ cs.head?, c = '\n') :
    spanTrivia true cs = spanTrivia false cs := by
  cases cs with
  | nil => rfl
  | cons c cs =>
    obtain rfl := stop c rfl
    simp [spanTrivia, show isBlank '\n' = true by decide]

theorem spanTrivia_note {note : List Char} (line : '\n' ∉ note) (cs : List Char) :
    spanTrivia true (note ++ cs) = (note ++ (spanTrivia true cs).1, (spanTrivia true cs).2) := by
  induction note with
  | nil => rfl
  | cons c note ih =>
    obtain ⟨hc, hnote⟩ := not_or.mp (List.mem_cons.not.mp line)
    have hc : (c != '\n') = true := by simpa using Ne.symm hc
    simp [spanTrivia, hc, ih hnote]

/-- Before what is neither white space nor a comment, all of a gap is skipped. -/
theorem Gap.spanTrivia_eq (h : Gap rest gap) (solid : spanTrivia false rest = ([], rest)) :
    spanTrivia false (gap ++ rest) = (gap, rest) := by
  induction h with
  | nil => exact solid
  | blank space others ih => simp [spanTrivia, space, ih]
  | comment line stop others ih =>
    have hblank : isBlank '#' = false := by decide
    simp [spanTrivia, hblank, spanTrivia_note line, spanTrivia_line stop, ih]

/-! ### Tokens -/

theorem Gap.of_next (h : Cursor.next c = .ok none c') : Gap [] c.rest := by
  have hrest : (spanTrivia false c.rest).2 = [] := by
    simp only [Cursor.next] at h
    split at h
    · next hl => exact Cursor.eq_nil_of_lexeme hl
    · cases h
    · cases h
  have happend := spanTrivia_append false c.rest
  have hgap := (Gap.of_spanTrivia false c.rest).1 rfl
  rw [hrest, List.append_nil] at happend
  rwa [hrest, happend] at hgap

theorem Gap.next_eq (h : Gap [] c.rest) : ∃ c', Cursor.next c = .ok none c' := by
  have hskip := h.spanTrivia_eq rfl
  rw [List.append_nil] at hskip
  refine ⟨c.skipTrivia, ?_⟩
  have hlexeme : lexeme c.skipTrivia.rest = .ok none := by
    rw [Cursor.skipTrivia, hskip]
    rfl
  simp only [Cursor.next, hlexeme]

theorem Tiles.of_lexes {c : Cursor} (lexes : c.Lexes) (h : c.tokens = ts) : Tiles c ts := by
  induction ts generalizing c with
  | nil =>
    cases hnext : Cursor.next c with
    | error e c' => exact absurd lexes (Cursor.not_lexes hnext)
    | ok first c' =>
      cases first with
      | none => exact .done (.of_next hnext)
      | some t => simp [(Cursor.drain_some hnext).1] at h
  | cons t ts ih =>
    obtain ⟨c', hnext, htokens⟩ := Cursor.eq_of_tokens h
    obtain ⟨gap, l, htrivia, hvalid, -⟩ := Cursor.next_some_cases hnext
    have hgap := (Gap.of_spanTrivia false c.rest).1 rfl
    rw [htrivia] at hgap
    have hlexes := (Cursor.drain_some hnext).2.mp lexes
    -- The cursor and the token are those that reading the slice gives.
    rw [Cursor.next_valid htrivia hvalid] at hnext
    cases hnext
    exact .token (Cursor.rest_eq htrivia) hgap (by simpa using hvalid) rfl rfl (ih hlexes htokens)

theorem Tiles.lexes {c : Cursor} (h : Tiles c ts) : c.Lexes ∧ c.tokens = ts := by
  induction h with
  | done gap =>
    obtain ⟨c', hnext⟩ := gap.next_eq
    obtain ⟨htokens, hlexes⟩ := Cursor.drain_none hnext
    exact ⟨hlexes, htokens⟩
  | token text gap stands span position others ih =>
    have htrivia := gap.spanTrivia_eq (spanTrivia_valid stands _)
    rw [← text] at htrivia
    have hnext := Cursor.next_valid htrivia stands
    obtain ⟨htokens, hlexes⟩ := Cursor.drain_some hnext
    refine ⟨hlexes.mpr ih.1, ?_⟩
    rw [htokens, ih.2, String.ofList_toList, ← span, ← position]

/-- A text can be read as these tokens just if it is these tokens with nothing but white space and
comments between them: each token stands where its span says, looks as its kind and text say, and is
not followed by what would make it longer. -/
theorem tokens_tile (source : SourceText) (ts : List Token) :
    ((TokenStream.start source.chars).drain.1 = ts ∧
      (TokenStream.start source.chars).drain.2.1 = none) ↔
      Tiles (.start source.chars) ts := by
  constructor
  · rintro ⟨htokens, hlexes⟩
    exact .of_lexes hlexes htokens
  · intro h
    exact ⟨h.lexes.2, h.lexes.1⟩

end WordScript
