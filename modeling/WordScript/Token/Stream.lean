import WordScript.Token.Scan

/-!
# Token streams

All tokens of a text in order. A stream ends at the end of the text or with its first fault, and
gives nothing after that. Every token takes at least one character, so a stream is finite.
-/

namespace WordScript

theorem spanTrivia_append (inComment : Bool) (cs : List Char) :
    (spanTrivia inComment cs).1 ++ (spanTrivia inComment cs).2 = cs := by
  fun_induction spanTrivia inComment cs <;> simp_all

theorem spanNumber_append (cs : List Char) : (spanNumber cs).2.1 ++ (spanNumber cs).2.2 = cs := by
  unfold spanNumber
  split
  next d rest h =>
    have hcs : cs.takeWhile Char.isDigit ++ '.' :: d :: rest = cs := by
      rw [← h, List.takeWhile_append_dropWhile]
    have hrest := List.takeWhile_append_dropWhile (p := Char.isDigit) (l := d :: rest)
    split
    · simpa [hrest] using hcs
    · exact hcs
  next => exact List.takeWhile_append_dropWhile

theorem spanNumber_ne_nil {c : Char} (cs : List Char) (h : c.isDigit) :
    (spanNumber (c :: cs)).2.1 ≠ [] := by
  unfold spanNumber
  repeat' split
  all_goals simp [h]

theorem lexNumber_eq_ok {cs : List Char} {l : Lexeme} (h : lexNumber cs = .ok l) :
    l.consumed = (spanNumber cs).2.1 ∧ l.rest = (spanNumber cs).2.2 := by
  unfold lexNumber at h
  grind

theorem lexString_append {quote : Char} {cs : List Char} {l : Lexeme}
    (h : lexString quote cs = .ok l) : l.consumed ++ l.rest = quote :: cs := by
  have hcs := List.takeWhile_append_dropWhile (p := (· != quote)) (l := cs)
  unfold lexString at h
  split at h
  next => cases h
  next close rest hdrop =>
    cases h
    rw [hdrop] at hcs
    simpa using hcs

theorem lexSymbol_append (symbol : Symbol) (c : Char) (cs : List Char) :
    (lexSymbol symbol c cs).consumed ++ (lexSymbol symbol c cs).rest = c :: cs := by
  unfold lexSymbol
  repeat' split
  all_goals rfl

theorem isNameChar_of_isNameStart {c : Char} (h : isNameStart c) : isNameChar c := by
  simp_all [isNameStart, isNameChar, Char.isAlphanum]

/-- A token is the front of the text it is read from, and is never empty. -/
theorem lexeme_append {cs : List Char} {l : Lexeme} (h : lexeme cs = .ok (some l)) :
    l.consumed ++ l.rest = cs ∧ l.consumed ≠ [] := by
  match cs with
  | [] => simp [lexeme] at h
  | c :: cs =>
    rw [lexeme] at h
    split at h
    next =>
      cases hs : lexString c cs with
      | error e => rw [hs] at h; cases h
      | ok l' =>
        rw [hs] at h
        cases h
        refine ⟨lexString_append hs, fun hnil => ?_⟩
        unfold lexString at hs
        split at hs <;> cases hs
        simp at hnil
    split at h
    next hname =>
      cases h
      refine ⟨List.takeWhile_append_dropWhile, ?_⟩
      simp [lexName, isNameChar_of_isNameStart hname]
    split at h
    next hdigit =>
      cases hn : lexNumber (c :: cs) with
      | error e => rw [hn] at h; cases h
      | ok l' =>
        rw [hn] at h
        cases h
        obtain ⟨hconsumed, hrest⟩ := lexNumber_eq_ok hn
        rw [hconsumed, hrest]
        exact ⟨spanNumber_append _, spanNumber_ne_nil cs hdigit⟩
    split at h
    next symbol _ =>
      cases h
      refine ⟨lexSymbol_append symbol c cs, ?_⟩
      unfold lexSymbol
      repeat' split
      all_goals simp
    next => cases h

theorem Cursor.next_rest_lt {c c' : Cursor} {t : Token} (h : Cursor.next c = .ok (some t) c') :
    c'.rest.length < c.rest.length := by
  have htrivia := congrArg List.length (spanTrivia_append false c.rest)
  simp only [Cursor.next] at h
  split at h
  next => cases h
  next l hl =>
    cases h
    obtain ⟨happend, hne⟩ := lexeme_append hl
    have hlength := congrArg List.length happend
    have := List.length_pos_iff.mpr hne
    simp only [List.length_append, Cursor.skipTrivia, Cursor.past] at htrivia hlength ⊢
    omega
  next => cases h

structure TokenStream where
  cursor : Cursor
  ended : Bool
  deriving Inhabited

namespace TokenStream

def start (cs : List Char) : TokenStream := ⟨.start cs, false⟩

def next? (s : TokenStream) : Option (Except (Fault LexError) Token) × TokenStream :=
  if s.ended then (none, s)
  else match Cursor.next s.cursor with
    | .ok (some t) cursor => (some (.ok t), ⟨cursor, false⟩)
    | .ok none cursor => (none, ⟨cursor, true⟩)
    | .error e cursor => (some (.error e), ⟨cursor, true⟩)

/-- All tokens up to the end or the first fault, that fault, and the ended stream. -/
def drain (s : TokenStream) : List Token × Option (Fault LexError) × TokenStream :=
  if s.ended then ([], none, s)
  else match _h : Cursor.next s.cursor with
    | .ok (some t) cursor =>
      let (tokens, fault, s) := drain ⟨cursor, false⟩
      (t :: tokens, fault, s)
    | .ok none cursor => ([], none, ⟨cursor, true⟩)
    | .error e cursor => ([], some e, ⟨cursor, true⟩)
termination_by s.cursor.rest.length
decreasing_by exact Cursor.next_rest_lt _h

end TokenStream

end WordScript
