import WordScript.Proofs.Text
import WordScript.Token.Stream

/-!
# What tokens look like

`ValidLexeme` says which characters make a token and what may follow it, and `lexeme_eq_ok_iff` that
reading finds just these. The text after a token matters by its first two characters only, so a
token stays one where the text is cut off behind it (`ValidLexeme.cut`).
-/

namespace WordScript

/-- What a token that is read off the front of a text looks like, and what may follow it. -/
inductive ValidLexeme : Lexeme → Prop
  | string (quote : q = '\'' ∨ q = '"') (inside : q ∉ content) :
      ValidLexeme ⟨.string, content, q :: (content ++ [q]), rest⟩
  | name (start : isNameStart c = true) (more : cs.all isNameChar = true)
      (stop : ∀ d ∈ rest.head?, isNameChar d = false) :
      ValidLexeme ⟨.identifier, c :: cs, c :: cs, rest⟩
  | integer (digits : (c :: ds).all Char.isDigit = true)
      (value : (readWord? (c :: ds)).isSome = true)
      (stop : ∀ d ∈ rest.head?, isDelimiter d = true)
      (whole : ∀ d r, rest = '.' :: d :: r → d.isDigit = false) :
      ValidLexeme ⟨.integer, c :: ds, c :: ds, rest⟩
  | float (digits : (c :: ds).all Char.isDigit = true)
      (fraction : (d :: fs).all Char.isDigit = true)
      (value : (readFloat? (c :: ds ++ '.' :: d :: fs)).isSome = true)
      (stop : ∀ d ∈ rest.head?, isDelimiter d = true) :
      ValidLexeme ⟨.float, c :: ds ++ '.' :: d :: fs, c :: ds ++ '.' :: d :: fs, rest⟩
  | symbol (stop : ∀ d ∈ rest.head?, Symbol.extend? s d = none) :
      ValidLexeme ⟨.symbol s, s.text.toList, s.text.toList, rest⟩

/-! ### Symbols -/

namespace Symbol

theorem text_of_ofChar? (h : ofChar? c = some s) : s.text.toList = [c] := by
  unfold ofChar? at h
  split at h <;> cases h <;> rfl

theorem text_of_extend? (h : extend? s d = some long) (hs : s.text.toList = [c]) :
    long.text.toList = [c, d] ∧ ∀ d', extend? long d' = none := by
  unfold extend? at h
  split at h <;> cases h
  all_goals
    cases hs
    exact ⟨rfl, fun _ => rfl⟩

/-- A symbol is one character, or two of which the first is one already. -/
theorem spelled (s : Symbol) : (∃ c, s.text.toList = [c] ∧ ofChar? c = some s) ∨
    ∃ c d short, s.text.toList = [c, d] ∧ ofChar? c = some short ∧ short.extend? d = some s := by
  cases s <;> first | exact .inl ⟨_, rfl, rfl⟩ | exact .inr ⟨_, _, _, rfl, rfl, rfl⟩

end Symbol

theorem lexSymbol_valid (h : Symbol.ofChar? c = some s) (cs : List Char) :
    ValidLexeme (lexSymbol s c cs) := by
  have htext := Symbol.text_of_ofChar? h
  cases cs with
  | nil =>
    have hvalid : ValidLexeme ⟨.symbol s, s.text.toList, s.text.toList, []⟩ := .symbol (by simp)
    rwa [htext] at hvalid
  | cons d rest =>
    cases hlong : s.extend? d with
    | none =>
      simp only [lexSymbol, hlong]
      have hvalid : ValidLexeme ⟨.symbol s, s.text.toList, s.text.toList, d :: rest⟩ :=
        .symbol (by simp [hlong])
      rwa [htext] at hvalid
    | some long =>
      obtain ⟨hlongText, hstop⟩ := Symbol.text_of_extend? hlong htext
      simp only [lexSymbol, hlong]
      have hvalid : ValidLexeme ⟨.symbol long, long.text.toList, long.text.toList, rest⟩ :=
        .symbol fun d' _ => hstop d'
      rwa [hlongText] at hvalid

theorem lexeme_of_ofChar? (h : Symbol.ofChar? c = some s) (cs : List Char) :
    lexeme (c :: cs) = .ok (some (lexSymbol s c cs)) := by
  unfold Symbol.ofChar? at h
  split at h <;> cases h <;> rfl

theorem lexeme_symbol (stop : ∀ d ∈ rest.head?, Symbol.extend? s d = none) :
    lexeme (s.text.toList ++ rest) =
      .ok (some ⟨.symbol s, s.text.toList, s.text.toList, rest⟩) := by
  rcases s.spelled with ⟨c, htext, hchar⟩ | ⟨c, d, short, htext, hchar, hlong⟩
  · rw [htext, List.cons_append, List.nil_append, lexeme_of_ofChar? hchar]
    cases rest with
    | nil => rfl
    | cons d rest => simp only [lexSymbol, stop d rfl]
  · rw [htext, List.cons_append, lexeme_of_ofChar? hchar]
    simp only [List.cons_append, List.nil_append, lexSymbol, hlong]

/-! ### Numbers -/

theorem not_isDigit_of_isDelimiter (h : isDelimiter c = true) : c.isDigit = false := by
  rw [← Bool.not_eq_true, isDigit_iff]
  simp only [isDelimiter, isBlank, isPunctuation, Bool.or_eq_true, Bool.and_eq_true,
    decide_eq_true_eq, beq_iff_eq] at h
  omega

theorem takeWhile_append_stop {p : Char → Bool} {xs rest : List Char} (all : xs.all p = true)
    (stop : ∀ d ∈ rest.head?, p d = false) :
    (xs ++ rest).takeWhile p = xs ∧ (xs ++ rest).dropWhile p = rest := by
  have hall := List.all_eq_true.mp all
  rw [List.takeWhile_append_of_pos hall, List.dropWhile_append_of_pos hall]
  cases rest with
  | nil => simp
  | cons d rest => simp [stop d rfl]

theorem spanNumber_integer {ds : List Char} (digits : ds.all Char.isDigit = true)
    (stop : ∀ d ∈ rest.head?, isDelimiter d = true)
    (whole : ∀ d r, rest = '.' :: d :: r → d.isDigit = false) :
    spanNumber (ds ++ rest) = (.integer, ds, rest) := by
  obtain ⟨htake, hdrop⟩ := takeWhile_append_stop digits fun d hd =>
    not_isDigit_of_isDelimiter (stop d hd)
  unfold spanNumber
  rw [htake, hdrop]
  simp only
  split
  · next d r => simp [whole d r rfl]
  · rfl

theorem spanNumber_float {ds fs : List Char} (digits : ds.all Char.isDigit = true)
    (fraction : (d :: fs).all Char.isDigit = true) (stop : ∀ d ∈ rest.head?, isDelimiter d = true) :
    spanNumber (ds ++ '.' :: d :: fs ++ rest) = (.float, ds ++ '.' :: d :: fs, rest) := by
  have hpoint : ∀ d' ∈ ('.' :: (d :: fs ++ rest)).head?, d'.isDigit = false := by simp
  obtain ⟨htake, hdrop⟩ := takeWhile_append_stop digits hpoint
  obtain ⟨htake', hdrop'⟩ := takeWhile_append_stop fraction fun d hd =>
    not_isDigit_of_isDelimiter (stop d hd)
  have hd : d.isDigit = true := List.all_eq_true.mp fraction d (by simp)
  unfold spanNumber
  rw [List.append_assoc, List.cons_append, htake, hdrop]
  simp only [List.cons_append, hd, ↓reduceIte]
  rw [← List.cons_append, htake', hdrop']

theorem head?_dropWhile {p : Char → Bool} {cs : List Char} (hd : d ∈ (cs.dropWhile p).head?) :
    p d = false := by
  have hnot := List.head?_dropWhile_not p cs
  rw [Option.mem_def.mp hd] at hnot
  exact hnot

theorem spanNumber_cases (hc : c.isDigit = true) (cs : List Char) :
    (∃ ds rest, spanNumber (c :: cs) = (.integer, c :: ds, rest) ∧
      (c :: ds).all Char.isDigit = true ∧
      ∀ d r, rest = '.' :: d :: r → d.isDigit = false) ∨
    ∃ ds d fs rest, spanNumber (c :: cs) = (.float, c :: ds ++ '.' :: d :: fs, rest) ∧
    (c :: ds).all Char.isDigit = true ∧ (d :: fs).all Char.isDigit = true := by
  have hall : (c :: cs.takeWhile Char.isDigit).all Char.isDigit = true := by
    rw [List.all_cons, hc, List.all_takeWhile]
    rfl
  unfold spanNumber
  simp only [List.takeWhile_cons, List.dropWhile_cons, hc, ↓reduceIte]
  split
  · next d r hdrop =>
    split
    · next hd =>
      refine .inr ⟨cs.takeWhile Char.isDigit, d, r.takeWhile Char.isDigit, _, rfl, hall, ?_⟩
      rw [List.all_cons, hd, List.all_takeWhile]
      rfl
    · next hd =>
      refine .inl ⟨cs.takeWhile Char.isDigit, _, rfl, hall, fun d' r' heq => ?_⟩
      obtain ⟨rfl, -⟩ := by simpa using heq
      simpa using hd
  · next hno =>
      exact .inl ⟨cs.takeWhile Char.isDigit, _, rfl, hall, fun d r heq => absurd heq (hno d r)⟩

theorem lexNumber_iff (hspan : spanNumber cs = (kind, digits, rest)) : lexNumber cs = .ok l ↔
    (∀ d ∈ rest.head?, isDelimiter d = true) ∧
    (kind = .integer → (readWord? digits).isSome = true) ∧
      (kind = .float → (readFloat? digits).isSome = true) ∧ l = ⟨kind, digits, digits, rest⟩ := by
  unfold lexNumber
  simp only [hspan]
  split
  · next c hc =>
    obtain ⟨hmem, hnot⟩ := Option.filter_eq_some_iff.mp hc
    refine iff_of_false (by simp) fun h => ?_
    simp [h.1 c hmem] at hnot
  · next hnone =>
    have hstop : ∀ d ∈ rest.head?, isDelimiter d = true := by
      simpa using Option.filter_eq_none_iff.mp hnone
    rw [and_iff_right hstop]
    have hsome : ∀ {x : Option Word}, ¬x.isNone = true ↔ x.isSome = true := by
      intro x
      cases x <;> simp
    split
    · next hread => exact iff_of_false (by simp) fun h => hsome.mpr (h.1 hread.1) hread.2
    split
    · next hread => exact iff_of_false (by simp) fun h => hsome.mpr (h.2.1 hread.1) hread.2
    · next hinteger hfloat =>
      have hinteger : kind = .integer → (readWord? digits).isSome = true :=
        fun hk => hsome.mp fun hn => hinteger ⟨hk, hn⟩
      have hfloat : kind = .float → (readFloat? digits).isSome = true :=
        fun hk => hsome.mp fun hn => hfloat ⟨hk, hn⟩
      rw [and_iff_right hinteger, and_iff_right hfloat, Except.ok.injEq]
      exact eq_comm

theorem lexNumber_valid (hc : c.isDigit = true) (h : lexNumber (c :: cs) = .ok l) :
    ValidLexeme l := by
  rcases spanNumber_cases hc cs with ⟨ds, rest, hspan, hdigits, hwhole⟩ |
    ⟨ds, d, fs, rest, hspan, hdigits, hfraction⟩
  · obtain ⟨hstop, hvalue, -, rfl⟩ := (lexNumber_iff hspan).mp h
    exact .integer hdigits (hvalue rfl) hstop hwhole
  · obtain ⟨hstop, -, hvalue, rfl⟩ := (lexNumber_iff hspan).mp h
    exact .float hdigits hfraction (hvalue rfl) hstop

/-! ### All tokens -/

theorem lexString_valid (quote : c = '\'' ∨ c = '"') (h : lexString c cs = .ok l) :
    ValidLexeme l := by
  unfold lexString at h
  split at h
  · cases h
  · next close rest hdrop =>
    cases h
    have hmem : close ∈ (cs.dropWhile (· != c)).head? := by
      rw [hdrop]
      rfl
    obtain rfl : close = c := by simpa using head?_dropWhile hmem
    exact .string quote fun hmem => by simpa using List.all_eq_true.mp List.all_takeWhile close hmem

theorem ValidLexeme.of_lexeme (h : lexeme cs = .ok (some l)) : ValidLexeme l := by
  cases cs with
  | nil => cases h
  | cons c cs =>
    rw [lexeme] at h
    split at h
    · next quote =>
      cases hs : lexString c cs with
      | error e => rw [hs] at h; cases h
      | ok l' =>
        rw [hs] at h
        cases h
        exact lexString_valid quote hs
    split at h
    · next hc =>
      cases h
      have hchar := isNameChar_of_isNameStart hc
      simp only [lexName, List.takeWhile_cons, List.dropWhile_cons, hchar, ↓reduceIte]
      exact .name hc List.all_takeWhile fun d hd => head?_dropWhile hd
    split at h
    · next hc =>
      cases hn : lexNumber (c :: cs) with
      | error e => rw [hn] at h; cases h
      | ok l' =>
        rw [hn] at h
        cases h
        exact lexNumber_valid hc hn
    split at h
    · next s hs =>
      cases h
      exact lexSymbol_valid hs cs
    · cases h

theorem not_quote_of_isNameStart (h : isNameStart c = true) : ¬(c = '\'' ∨ c = '"') := by
  rintro (rfl | rfl) <;> simp [isNameStart] at h

theorem lexeme_number (digits : (c :: ds).all Char.isDigit = true)
    (h : lexNumber (c :: cs) = .ok l) : lexeme (c :: cs) = .ok (some l) := by
  have hc : c.isDigit = true := List.all_eq_true.mp digits c (by simp)
  have hquote : ¬(c = '\'' ∨ c = '"') := by rintro (rfl | rfl) <;> simp at hc
  have hname : ¬isNameStart c = true := by
    rw [isNameStart, isAlpha_iff]
    have := isDigit_iff.mp hc
    omega
  rw [lexeme, if_neg hquote, if_neg hname, if_pos hc, h]
  rfl

theorem ValidLexeme.lexeme (h : ValidLexeme l) : lexeme (l.consumed ++ l.rest) = .ok (some l) := by
  cases h with
  | @string q content rest quote inside =>
    have hall : content.all (· != q) = true := List.all_eq_true.mpr fun c hc => by
      simpa using fun heq : c = q => inside (heq ▸ hc)
    have hstop : ∀ d ∈ (q :: rest).head?, (d != q) = false := by simp
    obtain ⟨htake, hdrop⟩ := takeWhile_append_stop hall hstop
    rw [List.cons_append, WordScript.lexeme, if_pos quote, List.append_assoc, List.cons_append,
      List.nil_append]
    simp only [lexString, htake, hdrop]
    rfl
  | @name c cs rest start more stop =>
    have hall : (c :: cs).all isNameChar = true := by
      rw [List.all_cons, isNameChar_of_isNameStart start, more]
      rfl
    obtain ⟨htake, hdrop⟩ := takeWhile_append_stop hall stop
    rw [List.cons_append, WordScript.lexeme, if_neg (not_quote_of_isNameStart start), if_pos start,
      ← List.cons_append]
    simp only [lexName, htake, hdrop]
  | integer digits value stop whole =>
    have hnumber := (lexNumber_iff (spanNumber_integer digits stop whole)).mpr ⟨stop,
      fun _ => value, TokenKind.noConfusion, rfl⟩
    exact lexeme_number digits hnumber
  | @float c ds d fs rest digits fraction value stop =>
    have hnumber := (lexNumber_iff (spanNumber_float digits fraction stop)).mpr ⟨stop,
      TokenKind.noConfusion, fun _ => value, rfl⟩
    rw [List.cons_append, List.cons_append] at hnumber
    exact lexeme_number digits hnumber
  | symbol stop => exact lexeme_symbol stop

theorem lexeme_eq_ok_iff : lexeme cs = .ok (some l) ↔
    ValidLexeme l ∧ l.consumed ++ l.rest = cs := by
  constructor
  · intro h
    exact ⟨.of_lexeme h, (lexeme_append h).1⟩
  · rintro ⟨hvalid, rfl⟩
    exact hvalid.lexeme

theorem mem_head?_append {v : List Char} (hd : d ∈ v.head?) (w : List Char) :
    d ∈ (v ++ w).head? := by
  rw [List.head?_append, Option.mem_def.mp hd]
  rfl

/-- Text further on does not matter to a token. -/
theorem ValidLexeme.cut (h : ValidLexeme ⟨kind, text, consumed, v ++ w⟩) :
    ValidLexeme ⟨kind, text, consumed, v⟩ := by
  cases h with
  | string quote inside => exact .string quote inside
  | name start more stop => exact .name start more fun d hd => stop d (mem_head?_append hd w)
  | integer digits value stop whole =>
    exact .integer digits value (fun d hd => stop d (mem_head?_append hd w)) fun d r heq =>
      whole d (r ++ w) (by simp [heq])
  | float digits fraction value stop =>
    exact .float digits fraction value fun d hd => stop d (mem_head?_append hd w)
  | symbol stop => exact .symbol fun d hd => stop d (mem_head?_append hd w)

/-! ### In a text -/

theorem ValidLexeme.head (h : ValidLexeme l) :
    ∃ c cs, l.consumed = c :: cs ∧ isBlank c = false ∧ c ≠ '#' := by
  have hplain : ∀ c : Char, (48 ≤ c.toNat ∧ c.toNat ≤ 57 ∨ 65 ≤ c.toNat ∧ c.toNat ≤ 90 ∨
    97 ≤ c.toNat ∧ c.toNat ≤ 122) →
      isBlank c = false ∧ c ≠ '#' := by
    intro c hc
    constructor
    · rw [← Bool.not_eq_true]
      simp only [isBlank, Bool.or_eq_true, Bool.and_eq_true, decide_eq_true_eq, beq_iff_eq]
      omega
    · rintro rfl
      exact absurd hc (by decide)
  cases h with
  | string quote => exact ⟨_, _, rfl, by rcases quote with rfl | rfl <;> decide⟩
  | @name c cs _ start =>
    have hc := isAlpha_iff.mp start
    exact ⟨c, cs, rfl, hplain c (by omega)⟩
  | @integer c ds _ digits | @float c ds _ _ _ digits =>
    have hc := isDigit_iff.mp (List.all_eq_true.mp digits c (by simp))
    exact ⟨c, _, rfl, hplain c (by omega)⟩
  | @symbol s => cases s <;> exact ⟨_, _, rfl, by decide⟩

theorem spanTrivia_valid (h : ValidLexeme l) (cs : List Char) :
    spanTrivia false (l.consumed ++ cs) = ([], l.consumed ++ cs) := by
  obtain ⟨c, ds, hconsumed, hblank, hcomment⟩ := h.head
  rw [hconsumed, List.cons_append, spanTrivia]
  simp [hblank, hcomment]

theorem Cursor.next_valid {c : Cursor}
    (htrivia : spanTrivia false c.rest = (gap, l.consumed ++ l.rest)) (h : ValidLexeme l) :
    Cursor.next c = .ok (some ⟨l.kind, String.ofList l.text,
      ⟨c.offset + byteLength gap, byteLength l.consumed⟩,
      c.position.advance gap⟩) ((c.past gap (l.consumed ++ l.rest)).past l.consumed l.rest) := by
  have hskip : c.skipTrivia = c.past gap (l.consumed ++ l.rest) := by
    rw [skipTrivia, htrivia]
  rw [Cursor.next, hskip]
  simp only [past, h.lexeme]

end WordScript
