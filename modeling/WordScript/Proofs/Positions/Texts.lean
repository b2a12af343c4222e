import Mathlib.Data.List.DropRight
import WordScript.Diagnostic
import WordScript.Proofs.Text
import WordScript.Token.Stream

/-!
# Places in texts

A byte that starts a character of a text, or is the end of the text, is found on one of its lines:
`SourceText.locate?` counts the lines and columns that reading up to it takes (`locate?_front`).
Those are the newlines before it and the characters after the last of them, for tokens too, whatever
was read or misread before (`positions_counted`).
-/

namespace WordScript

/-! ### Boundaries -/

/-- Byte `n` starts a character of the text or is its end. -/
def Boundary (cs : List Char) (n : Nat) : Prop :=
  ∃ front back, cs = front ++ back ∧ byteLength front = n

theorem Boundary.zero (cs : List Char) : Boundary cs 0 := ⟨[], cs, rfl, rfl⟩

theorem Boundary.append (front : List Char) (h : Boundary cs n) :
    Boundary (front ++ cs) (byteLength front + n) := by
  obtain ⟨mid, back, rfl, rfl⟩ := h
  exact ⟨front ++ mid, back, (List.append_assoc ..).symm, byteLength_append front mid⟩

theorem Boundary.append_right (h : Boundary cs n) (back : List Char) : Boundary (cs ++ back) n := by
  obtain ⟨front, mid, rfl, rfl⟩ := h
  exact ⟨front, mid ++ back, List.append_assoc .., rfl⟩

def Span.StartsIn (cs : List Char) (s : Span) : Prop := Boundary cs s.offset

theorem Span.StartsIn.join {a b : Span} (ha : a.StartsIn cs) (hb : b.StartsIn cs) :
    (a.join b).StartsIn cs := by
  unfold StartsIn
  rcases Nat.le_total a.offset b.offset with h | h
  · rw [show (a.join b).offset = a.offset from Nat.min_eq_left h]
    exact ha
  · rw [show (a.join b).offset = b.offset from Nat.min_eq_right h]
    exact hb

theorem Span.StartsIn.foldl_join {start : Span} {spans : List Span} (hstart : start.StartsIn cs)
    (h : ∀ s ∈ spans, s.StartsIn cs) : (spans.foldl Span.join start).StartsIn cs := by
  induction spans generalizing start with
  | nil => exact hstart
  | cons s spans ih =>
    obtain ⟨hs, hspans⟩ := List.forall_mem_cons.mp h
    exact ih (hstart.join hs) hspans

/-! ### Lines and columns -/

namespace Position

theorem advance_append (p : Position) (xs ys : List Char) :
    p.advance (xs ++ ys) = (p.advance xs).advance ys :=
  List.foldl_append

theorem advance_solid (p : Position) (h : ∀ c ∈ cs, (c == '\n') = false) :
    p.advance cs = ⟨p.line, p.column + cs.length⟩ := by
  induction cs generalizing p with
  | nil => rfl
  | cons c cs ih =>
    obtain ⟨hc, hcs⟩ := List.forall_mem_cons.mp h
    have hnext : p.next c = ⟨p.line, p.column + 1⟩ := if_neg (by simpa using hc)
    rw [advance, List.foldl_cons, hnext, ← advance, ih _ hcs, List.length_cons]
    simp only [mk.injEq, true_and]
    omega

/-- A whole line and its newline lead to the start of the next one. -/
theorem advance_line (p : Position) (h : ∀ c ∈ cs, (c == '\n') = false) :
    p.advance (cs ++ ['\n']) = ⟨p.line + 1, 1⟩ := by
  rw [advance_append, advance_solid p h]
  rfl

end Position

def firstLine (cs : List Char) : List Char := cs.takeWhile (· != '\n')

def lastLine (cs : List Char) : List Char := cs.rtakeWhile (· != '\n')

theorem firstLine_append_newline (xs ys : List Char) :
    firstLine (xs ++ '\n' :: ys) = firstLine xs := by
  induction xs with
  | nil => rfl
  | cons c xs ih => simp only [firstLine, List.cons_append, List.takeWhile_cons] at ih ⊢; rw [ih]

theorem firstLine_solid (h : ∀ c ∈ cs, (c == '\n') = false) : firstLine cs = cs :=
  List.takeWhile_eq_self_iff.mpr fun c hc => congrArg not (h c hc)

theorem lastLine_append_newline (xs ys : List Char) :
    lastLine (xs ++ '\n' :: ys) = lastLine ys := by
  rw [lastLine, List.rtakeWhile, List.reverse_append, List.reverse_cons, List.append_assoc,
    List.singleton_append]
  exact congrArg List.reverse (firstLine_append_newline ys.reverse xs.reverse)

theorem lastLine_solid (h : ∀ c ∈ cs, (c == '\n') = false) : lastLine cs = cs :=
  List.rtakeWhile_eq_self_iff.mpr fun c hc => congrArg not (h c hc)

/-- The position behind a text: one line more than it has newlines, one column more than characters
after the last. -/
def Position.behind (front : List Char) : Position :=
  ⟨1 + front.count '\n', 1 + (lastLine front).length⟩

theorem Position.start_advance (front : List Char) :
    Position.start.advance front = .behind front := by
  induction front using List.reverseRecOn with
  | nil => rfl
  | append_singleton front c ih =>
    rw [advance_append, ih]
    -- A newline starts the count of columns again, any other character adds to it.
    by_cases hc : c = '\n'
    · subst hc
      rw [behind, behind, lastLine_append_newline, List.count_append]
      rfl
    · have hlast : lastLine (front ++ [c]) = lastLine front ++ [c] :=
        List.rtakeWhile_concat_pos _ front c (by simpa using hc)
      have hnext : (behind front).advance [c] =
          ⟨1 + front.count '\n', 1 + (lastLine front).length + 1⟩ := if_neg hc
      rw [hnext, behind, hlast, List.count_append, List.count_singleton, if_neg (by simpa using hc),
        List.length_append]
      rfl

theorem charsBefore?_front (front back : List Char) :
    charsBefore? (front ++ back) (byteLength front) = some front.length := by
  induction front with
  | nil => cases back <;> rfl
  | cons c front ih =>
    obtain ⟨n, hn⟩ := Nat.exists_eq_succ_of_ne_zero (Nat.ne_of_gt (c.utf8Size_pos))
    have hbytes : byteLength (c :: front) = n + byteLength front + 1 := by
      rw [byteLength_cons]
      omega
    have hle : c.utf8Size ≤ n + byteLength front + 1 := by omega
    have hrest : n + byteLength front + 1 - c.utf8Size = byteLength front := by omega
    rw [hbytes, List.cons_append, charsBefore?, if_pos hle, hrest, ih]
    rfl

theorem columnOffset_front (front back : List Char) :
    columnOffset (front ++ back) (byteLength front) = front.length := by
  rw [columnOffset, charsBefore?_front, Option.getD_some]

/-- The place is on this one of some lines, the first of which has number `number`. -/
structure Position.OnLine (p : Position) (number : Nat) (lines : List (List Char))
    (line : List Char) : Prop where
  left : 1 ≤ p.column
  right : p.column ≤ line.length + 1
  first : number ≤ p.line
  found : lines[p.line - number]? = some line

theorem Position.OnLine.later {p : Position} (h : p.OnLine (number + 1) lines here)
    (above : List Char) : p.OnLine number (above :: lines) here := by
  have hfirst := h.first
  have hindex : p.line - number = p.line - (number + 1) + 1 := by omega
  refine ⟨h.left, h.right, by omega, ?_⟩
  rw [hindex, List.getElem?_cons_succ]
  exact h.found

theorem locateLine?_first (solid : ∀ c ∈ front, (c == '\n') = false) (number start : Nat)
    (back : List Char) (lines : List (List Char)) :
    locateLine? (start + byteLength front) number start ((front ++ back) :: lines) =
        some ⟨Position.advance ⟨number, 1⟩ front, String.ofList (front ++ back)⟩ ∧
      (Position.advance ⟨number, 1⟩ front).OnLine number ((front ++ back) :: lines)
      (front ++ back) := by
  have hbefore : start + byteLength front < start + byteLength (front ++ back) + 1 := by
    rw [byteLength_append]
    omega
  rw [Position.advance_solid _ solid]
  refine ⟨?_, ⟨?_, ?_, Nat.le_refl _, ?_⟩⟩
  · simp only [locateLine?, hbefore, ↓reduceIte, Nat.add_sub_cancel_left, columnOffset_front,
      Nat.add_comm 1]
  · exact Nat.le_add_right 1 _
  · simp only [List.length_append]
    omega
  · simp

/-- A place past the first line and its newline is looked for in the lines after it. -/
theorem locateLine?_later (part : List Char) (number start n : Nat) (lines : List (List Char)) :
    locateLine? (start + byteLength part + 1 + n) number start (part :: lines) =
      locateLine? (start + byteLength part + 1 + n) (number + 1)
        (start + byteLength part + 1) lines := by
  rw [locateLine?]
  exact if_neg (Nat.not_lt.mpr (Nat.le_add_right _ n))

/-- Where reading `front` of some lines leads to is on one of them, and is found there. -/
theorem locateLine?_front (cut : Cut (· == '\n') lines (front ++ back)) (number start : Nat) :
    locateLine? (start + byteLength front) number start lines =
        some ⟨Position.advance ⟨number, 1⟩ front,
          String.ofList (lastLine front ++ firstLine back)⟩ ∧
      (Position.advance ⟨number, 1⟩ front).OnLine number lines
        (lastLine front ++ firstLine back) := by
  -- By induction on the lines; the text in front ends on the first of them or goes on after its
  -- newline.
  generalize hcs : front ++ back = cs at cut
  induction cut generalizing front number start with
  | last solid =>
    subst hcs
    obtain ⟨hfront, hback⟩ := List.forall_mem_append.mp solid
    rw [lastLine_solid hfront, firstLine_solid hback]
    exact locateLine?_first hfront number start back []
  | @more part c lines cs solid stop rest ih =>
    obtain rfl : c = '\n' := by simpa using stop
    rcases List.append_eq_append_iff.mp hcs with ⟨more, rfl, rfl⟩ | ⟨more, rfl, hmore⟩
    -- It ends on this line.
    · obtain ⟨hfront, hmore⟩ := List.forall_mem_append.mp solid
      rw [lastLine_solid hfront, firstLine_append_newline, firstLine_solid hmore]
      exact locateLine?_first hfront number start more _
    · cases more with
      | nil =>
        -- It ends just before the newline, which still is on this line.
        obtain rfl : '\n' :: cs = back := hmore
        have hhere := locateLine?_first solid number start [] lines
        rw [List.append_nil] at hhere ⊢
        rw [lastLine_solid solid, show firstLine ('\n' :: cs) = [] from rfl, List.append_nil]
        exact hhere
      | cons c' front =>
        -- It goes on below, where the search starts again with the next number and offset.
        obtain ⟨rfl, hafter⟩ := List.cons.inj hmore
        have hsize : '\n'.utf8Size = 1 := rfl
        have hbytes : start + byteLength (part ++ '\n' :: front) = start + byteLength part + 1 +
            byteLength front := by
          rw [byteLength_append, byteLength_cons, hsize, ← Nat.add_assoc, ← Nat.add_assoc]
        have hread : Position.advance ⟨number, 1⟩ (part ++ '\n' :: front) =
            Position.advance ⟨number + 1, 1⟩ front := by
          rw [List.append_cons, Position.advance_append, Position.advance_line _ solid]
        obtain ⟨hfound, hon⟩ := ih (number + 1) (start + byteLength part + 1) hafter.symm
        rw [hbytes, hread, locateLine?_later, lastLine_append_newline]
        exact ⟨hfound, hon.later part⟩

/-- Every place in a text is found, as the position that reading up to it leads to, with the whole
line around it. -/
theorem SourceText.locate?_front {source : SourceText} (h : source.chars = front ++ back) :
    source.locate? (byteLength front) =
        some ⟨Position.start.advance front, String.ofList (lastLine front ++ firstLine back)⟩ ∧
      (Position.start.advance front).OnLine 1 (splitLines source.chars)
        (lastLine front ++ firstLine back) := by
  have cut := cut_splitWhere (· == '\n') source.chars
  rw [h] at cut
  have hline := locateLine?_front cut 1 0
  rw [Nat.zero_add, ← h] at hline
  exact hline

/-! ### Reading -/

theorem lexNumber_before (h : lexNumber cs = .error e) :
    (∃ back, cs = e.before ++ back) ∧ e.consumed ++ e.rest = cs := by
  have hspan := spanNumber_append cs
  unfold lexNumber at h
  dsimp only at h
  split at h
  · cases h
    exact ⟨⟨_, hspan.symm⟩, hspan⟩
  split at h
  · cases h
    exact ⟨⟨cs, rfl⟩, hspan⟩
  split at h <;> cases h
  exact ⟨⟨cs, rfl⟩, hspan⟩

/-- A reading that fails points into the text it was given, and goes on in it. -/
theorem lexeme_before (h : lexeme cs = .error e) :
    (∃ back, cs = e.before ++ back) ∧ e.consumed ++ e.rest = cs := by
  cases cs with
  | nil => cases h
  | cons c cs =>
    rw [lexeme] at h
    split at h
    · cases hs : lexString c cs with
      | ok l =>
        rw [hs] at h
        cases h
      | error e' =>
        rw [hs] at h
        cases h
        unfold lexString at hs
        split at hs <;> cases hs
        exact ⟨⟨_, rfl⟩, List.append_nil _⟩
    split at h
    · cases h
    split at h
    · cases hn : lexNumber (c :: cs) with
      | ok l =>
        rw [hn] at h
        cases h
      | error e' =>
        rw [hn] at h
        cases h
        exact lexNumber_before hn
    split at h <;> cases h
    exact ⟨⟨_, rfl⟩, rfl⟩

/-- What the cursor has left to read is the end of the text. It has counted the bytes, lines and
columns before. -/
def Cursor.InText (cs : List Char) (c : Cursor) : Prop :=
  ∃ front, cs = front ++ c.rest ∧ byteLength front = c.offset ∧
    Position.start.advance front = c.position

/-- The token starts at a boundary of the text, on the line and column that reading up to it leads
to. -/
def Token.StandsIn (cs : List Char) (t : Token) : Prop :=
  ∃ front back, cs = front ++ back ∧ byteLength front = t.span.offset ∧
    Position.start.advance front = t.position

theorem Token.StandsIn.startsIn {t : Token} (h : t.StandsIn cs) : t.span.StartsIn cs := by
  obtain ⟨front, back, htext, hoffset, -⟩ := h
  exact ⟨front, back, htext, hoffset⟩

namespace Cursor.InText

variable {cs : List Char} {c c' : Cursor}

theorem start (cs : List Char) : (Cursor.start cs).InText cs := ⟨[], rfl, rfl, rfl⟩

theorem past (h : c.InText cs) (hrest : c.rest = consumed ++ after) :
    (c.past consumed after).InText cs := by
  obtain ⟨front, rfl, hoffset, hposition⟩ := h
  refine ⟨front ++ consumed, by simp [hrest, Cursor.past], by simp [hoffset, Cursor.past], ?_⟩
  rw [Position.advance_append, hposition]
  rfl

theorem skipTrivia (h : c.InText cs) : c.skipTrivia.InText cs :=
  h.past (spanTrivia_append false c.rest).symm

theorem boundary (h : c.InText cs) (hrest : c.rest = before ++ after) :
    Boundary cs (c.offset + byteLength before) := by
  obtain ⟨front, rfl, hoffset, -⟩ := h
  exact ⟨front ++ before, after, by simp [hrest], by simp [hoffset]⟩

theorem offset (h : c.InText cs) : Boundary cs c.offset := h.boundary (List.nil_append _).symm

theorem endOffset (h : c.InText cs) : Boundary cs c.endOffset := h.boundary (List.append_nil _).symm

theorem next_ok (h : c.InText cs) (hnext : next c = .ok t c') :
    c'.InText cs ∧ ∀ u ∈ t, u.StandsIn cs := by
  have hskip := h.skipTrivia
  simp only [next] at hnext
  split at hnext
  · cases hnext
    exact ⟨hskip, by simp⟩
  · next l hl =>
    cases hnext
    refine ⟨hskip.past (lexeme_append hl).1.symm, ?_⟩
    rintro u ⟨⟩
    obtain ⟨front, htext, hfront⟩ := hskip
    exact ⟨front, _, htext, hfront⟩
  · cases hnext

theorem next_error (h : c.InText cs) (hnext : next c = .error e c') :
    c'.InText cs ∧ e.span.StartsIn cs := by
  have hskip := h.skipTrivia
  simp only [next] at hnext
  split at hnext
  · cases hnext
  · cases hnext
  · next e he =>
    cases hnext
    obtain ⟨⟨back, hback⟩, hrest⟩ := lexeme_before he
    exact ⟨hskip.past hrest.symm, hskip.boundary hback⟩

end Cursor.InText

/-- The cursor that some calls of `Cursor.next` lead to, any of which may have failed. -/
inductive Cursor.Called (cs : List Char) : Cursor → Prop
  | start : Called cs (.start cs)
  | ok (before : Called cs c) (done : Cursor.next c = .ok t c') : Called cs c'
  | error (before : Called cs c) (failed : Cursor.next c = .error e c') : Called cs c'

theorem Cursor.Called.inText {c : Cursor} (h : c.Called cs) : c.InText cs := by
  induction h with
  | start => exact .start cs
  | ok _ done ih => exact (ih.next_ok done).1
  | error _ failed ih => exact (ih.next_error failed).1

/-- A token's position, counted while reading, is the one that its offset is found at, and the one
that the newlines and characters before it make. Every boundary of a text is found there, with the
whole line that it is on. -/
theorem positions_counted (source : SourceText) :
    (∀ c t c', Cursor.Called source.chars c → Cursor.next c = .ok (some t) c' →
      ∃ front back, source.chars = front ++ back ∧ byteLength front = t.span.offset ∧
        t.position = ⟨1 + front.count '\n', 1 + (lastLine front).length⟩ ∧
        (source.locate? t.span.offset).map (·.position) = some t.position) ∧
    ∀ front back, source.chars = front ++ back →
      source.locate? (byteLength front) =
        some ⟨⟨1 + front.count '\n', 1 + (lastLine front).length⟩,
          String.ofList (lastLine front ++ firstLine back)⟩ := by
  refine ⟨fun c t c' hc hnext => ?_, fun front back htext => ?_⟩
  · obtain ⟨front, back, htext, hoffset, hposition⟩ := (hc.inText.next_ok hnext).2 t rfl
    refine ⟨front, back, htext, hoffset, ?_, ?_⟩
    · rw [← hposition, Position.start_advance, Position.behind]
    · rw [← hoffset, (SourceText.locate?_front htext).1, ← hposition]
      rfl
  · rw [(SourceText.locate?_front htext).1, Position.start_advance, Position.behind]

def SourceText.misread : SourceText := .ofString "9a\n'é\r\n' x"

/-- The last name is the third token after one fault. -/
theorem positions_counted_misread :
    ∃ c t c', Cursor.Called SourceText.misread.chars c ∧ Cursor.next c = .ok (some t) c' ∧
    t.text = "x" ∧ (SourceText.misread.locate? t.span.offset).map (·.position) = some t.position ∧
      SourceText.misread.locate? 10 = some ⟨⟨3, 3⟩, "' x"⟩ := by
  have hall := positions_counted .misread
  have hcalled : Cursor.Called SourceText.misread.chars _ := .ok (.ok (.error .start rfl) rfl) rfl
  obtain ⟨front, back, -, -, -, hfound⟩ := hall.1 _ _ _ hcalled rfl
  exact ⟨_, _, _, hcalled, rfl, rfl, hfound, hall.2 "9a\n'é\r\n' ".toList ['x'] rfl⟩

end WordScript
