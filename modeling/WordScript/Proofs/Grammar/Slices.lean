import WordScript.Proofs.Grammar.Parts
import WordScript.Proofs.Grammar.Reading
import WordScript.Proofs.Grammar.Spans

/-!
# Slices of a script

A text that is cut off before its first token and after its last one has the same tokens, and the
slice that an expression's span marks off reads as the same expression (`spans_faithful`).
-/

namespace WordScript

/-! ### Places further on -/

def Span.raised (o : Nat) (s : Span) : Span := ⟨s.offset + o, s.length⟩

/-- The token, so many bytes further on, without its line and column. -/
def Token.displaced (o : Nat) (t : Token) : Token := ⟨t.kind, t.text, t.span.raised o, default⟩

def Name.displaced (o : Nat) (n : Name) : Name := ⟨n.text, n.span.raised o, default⟩

mutual

def Expr.displaced (o : Nat) : Expr → Expr
  | .integer span value => .integer (span.raised o) value
  | .float span bits => .float (span.raised o) bits
  | .string span content => .string (span.raised o) content
  | .var span name => .var (span.raised o) name
  | .call span callee args => .call (span.raised o) (callee.displaced o) (Expr.allDisplaced o args)
  | .binary span op lhs rhs => .binary (span.raised o) op (lhs.displaced o) (rhs.displaced o)
  | .unary span op operand => .unary (span.raised o) op (operand.displaced o)
  | .assign span op target value =>
    .assign (span.raised o) op (target.displaced o) (value.displaced o)
  | .field span base name => .field (span.raised o) (base.displaced o) (name.displaced o)
  | .addressOf span inner => .addressOf (span.raised o) (inner.displaced o)
  | .dereference span inner => .dereference (span.raised o) (inner.displaced o)
  | .sizeOf span inner => .sizeOf (span.raised o) (inner.displaced o)

def Expr.allDisplaced (o : Nat) : List Expr → List Expr
  | [] => []
  | e :: rest => e.displaced o :: Expr.allDisplaced o rest

end

section
variable {o : Nat}

theorem Span.raised_zero (s : Span) : s.raised 0 = s := rfl

theorem Span.raised_join (s s' : Span) :
    (s.join s').raised o = (s.raised o).join (s'.raised o) := by
  simp only [raised, join, stop, Span.mk.injEq]
  omega

theorem Expr.span_displaced (e : Expr) : (e.displaced o).span = e.span.raised o := by
  cases e <;> rfl

theorem Expr.displaced_withSpan (e : Expr) (s : Span) :
    (e.withSpan s).displaced o = (e.displaced o).withSpan (s.raised o) := by
  cases e <;> rfl

theorem InfixOp.displaced_build (op : InfixOp) (lhs rhs : Expr) :
    (op.build lhs rhs).displaced o = op.build (lhs.displaced o) (rhs.displaced o) := by
  cases op <;> simp [build, Expr.displaced, Expr.span_displaced, Span.raised_join]

/-- The first tokens are the others, so many bytes further on. -/
def Displaces (o : Nat) (ts ts' : List Token) : Prop :=
  ts.map (Token.displaced 0) = ts'.map (Token.displaced o)

namespace Displaces

theorem append (h : Displaces o (us ++ vs) ts) :
    ∃ us' vs', ts = us' ++ vs' ∧ Displaces o us us' ∧ Displaces o vs vs' := by
  rw [Displaces, List.map_append] at h
  obtain ⟨us', vs', rfl, hus, hvs⟩ := List.map_eq_append_iff.mp h.symm
  exact ⟨us', vs', rfl, hus.symm, hvs.symm⟩

theorem cons (h : Displaces o (t :: us) ts) : ∃ t' us', ts = t' :: us' ∧
    (t'.kind = t.kind ∧ t'.text = t.text ∧ t.span = t'.span.raised o) ∧ Displaces o us us' := by
  rw [Displaces, List.map_cons] at h
  obtain ⟨t', us', rfl, ht, hus⟩ := List.map_eq_cons_iff.mp h.symm
  simp only [Token.displaced, Token.mk.injEq, Span.raised_zero] at ht
  exact ⟨t', us', rfl, ⟨ht.1, ht.2.1, ht.2.2.1.symm⟩, hus.symm⟩

theorem singleton (h : Displaces o [t] ts) : ∃ t', ts = [t'] ∧
    t'.kind = t.kind ∧ t'.text = t.text ∧ t.span = t'.span.raised o := by
  obtain ⟨t', us', rfl, ht, hus⟩ := h.cons
  exact ⟨t', by rw [List.map_eq_nil_iff.mp hus.symm], ht⟩

end Displaces

inductive Phrase.Displaced (o : Nat) : Phrase → Phrase → Prop
  | expr (h : e'.displaced o = e.displaced 0) : Displaced o (.expr k e) (.expr k e')
  | args (h : Expr.allDisplaced o es' = Expr.allDisplaced 0 es) : Displaced o (.args es) (.args es')

theorem Expr.span_eq_raised {e e' : Expr} (h : e'.displaced o = e.displaced 0) :
    e.span = e'.span.raised o := by
  have hspan := congrArg Expr.span h
  rw [span_displaced, span_displaced, Span.raised_zero] at hspan
  exact hspan.symm

theorem Expr.eq_cons_of_allDisplaced {es' : List Expr}
    (h : allDisplaced o es' = allDisplaced 0 (e :: es)) : ∃ e' rest, es' = e' :: rest := by
  cases es' with
  | nil => cases h
  | cons e' rest => exact ⟨e', rest, rfl⟩

theorem Written.displace (h : Written phrase ts) (hts : Displaces o ts ts') :
    ∃ phrase', phrase.Displaced o phrase' ∧ Written phrase' ts' := by
  -- The kinds and texts of the tokens fix the derivation, and their spans only the spans in the
  -- tree.
  induction h generalizing ts' with
  | tighter h ih =>
    obtain ⟨_, ⟨he⟩, hwritten⟩ := ih hts
    exact ⟨_, .expr he, hwritten.tighter⟩
  | @operation op _ _ _ _ _ operator left right ihl ihr =>
    obtain ⟨us, vs, rfl, hus, hvs⟩ := hts.append
    obtain ⟨t', rs, rfl, ⟨hkind, htext, -⟩, hrs⟩ := hvs.cons
    obtain ⟨_, ⟨hl⟩, hleft⟩ := ihl hus
    obtain ⟨_, ⟨hr⟩, hright⟩ := ihr hrs
    have hoperator : t'.operator? = some op := by
      rw [Token.operator?, hkind, htext]
      exact operator
    exact ⟨_, .expr (by rw [InfixOp.displaced_build, InfixOp.displaced_build, hl, hr]),
      .operation hoperator hleft hright⟩
  | @unary op _ _ _ sign operand ih =>
    obtain ⟨t', us, rfl, ⟨hkind, -, hspan⟩, hus⟩ := hts.cons
    obtain ⟨_, ⟨he⟩, hoperand⟩ := ih hus
    have hsign : t'.sign? = some op := by
      rw [Token.sign?, hkind]
      exact sign
    refine ⟨_, .expr ?_, .unary hsign hoperand⟩
    simp only [Expr.displaced, Span.raised_join, Span.raised_zero, he, hspan,
      Expr.span_eq_raised he]
  | call callee opened args closed ih iha =>
    obtain ⟨us, vs, rfl, hus, hvs⟩ := hts.append
    obtain ⟨t, ws, rfl, ⟨hkind, -⟩, hws⟩ := hvs.cons
    obtain ⟨xs, ys, rfl, hxs, hys⟩ := hws.append
    obtain ⟨t', rfl, hkind', -, hspan⟩ := hys.singleton
    obtain ⟨_, ⟨he⟩, hcallee⟩ := ih hus
    obtain ⟨_, _ | hes, hargs⟩ := iha hxs
    refine ⟨_, .expr ?_, .call hcallee (hkind.trans opened) hargs (hkind'.trans closed)⟩
    simp only [Expr.displaced, Span.raised_join, Span.raised_zero, he, hes, hspan,
      Expr.span_eq_raised he]
  | field base dot name free ih =>
    obtain ⟨us, vs, rfl, hus, hvs⟩ := hts.append
    obtain ⟨t, ws, rfl, ⟨hkind, -⟩, hws⟩ := hvs.cons
    obtain ⟨t', rfl, hkind', htext, hspan⟩ := hws.singleton
    obtain ⟨_, ⟨he⟩, hbase⟩ := ih hus
    refine ⟨_, .expr ?_, .field hbase (hkind.trans dot) (hkind'.trans name) (htext ▸ free)⟩
    simp only [Expr.displaced, Name.displaced, Span.raised_join, Span.raised_zero, he, htext, hspan,
      Expr.span_eq_raised he]
  | addressOf inner mark ih =>
    obtain ⟨us, vs, rfl, hus, hvs⟩ := hts.append
    obtain ⟨t, rfl, hkind, -, hspan⟩ := hvs.singleton
    obtain ⟨_, ⟨he⟩, hinner⟩ := ih hus
    refine ⟨_, .expr ?_, .addressOf hinner (hkind.trans mark)⟩
    simp only [Expr.displaced, Span.raised_join, Span.raised_zero, he, hspan,
      Expr.span_eq_raised he]
  | dereference inner mark ih =>
    obtain ⟨us, vs, rfl, hus, hvs⟩ := hts.append
    obtain ⟨t, rfl, hkind, -, hspan⟩ := hvs.singleton
    obtain ⟨_, ⟨he⟩, hinner⟩ := ih hus
    refine ⟨_, .expr ?_, .dereference hinner (hkind.trans mark)⟩
    simp only [Expr.displaced, Span.raised_join, Span.raised_zero, he, hspan,
      Expr.span_eq_raised he]
  | parenthesised opened inner closed ih =>
    obtain ⟨t, us, rfl, ⟨hkind, -, hspan⟩, hus⟩ := hts.cons
    obtain ⟨vs, ws, rfl, hvs, hws⟩ := hus.append
    obtain ⟨t', rfl, hkind', -, hspan'⟩ := hws.singleton
    obtain ⟨_, ⟨he⟩, hinner⟩ := ih hvs
    refine ⟨_, .expr ?_, .parenthesised (hkind.trans opened) hinner (hkind'.trans closed)⟩
    simp only [Expr.displaced_withSpan, Span.raised_join, Span.raised_zero, he, hspan, hspan']
  | integer kind value =>
    obtain ⟨t, rfl, hkind, htext, hspan⟩ := hts.singleton
    refine ⟨_, .expr ?_, .integer (hkind.trans kind) (htext ▸ value)⟩
    simp only [Expr.displaced, Span.raised_zero, hspan]
  | float kind value =>
    obtain ⟨t, rfl, hkind, htext, hspan⟩ := hts.singleton
    refine ⟨_, .expr ?_, .float (hkind.trans kind) (htext ▸ value)⟩
    simp only [Expr.displaced, Span.raised_zero, hspan]
  | string kind =>
    obtain ⟨t, rfl, hkind, htext, hspan⟩ := hts.singleton
    refine ⟨_, .expr ?_, .string (hkind.trans kind)⟩
    simp only [Expr.displaced, Span.raised_zero, htext, hspan]
  | var kind free =>
    obtain ⟨t, rfl, hkind, htext, hspan⟩ := hts.singleton
    refine ⟨_, .expr ?_, .var (hkind.trans kind) (htext ▸ free)⟩
    simp only [Expr.displaced, Span.raised_zero, htext, hspan]
  | sizeOf kind word opened inner closed ih =>
    obtain ⟨t, us, rfl, ⟨hkind, htext, hspan⟩, hus⟩ := hts.cons
    obtain ⟨t', vs, rfl, ⟨hkind', -⟩, hvs⟩ := hus.cons
    obtain ⟨ws, xs, rfl, hws, hxs⟩ := hvs.append
    obtain ⟨t'', rfl, hkind'', -, hspan''⟩ := hxs.singleton
    obtain ⟨_, ⟨he⟩, hinner⟩ := ih hws
    refine ⟨_, .expr ?_, .sizeOf (hkind.trans kind) (htext.trans word) (hkind'.trans opened) hinner
      (hkind''.trans closed)⟩
    simp only [Expr.displaced, Span.raised_join, Span.raised_zero, he, hspan, hspan'']
  | noArgs =>
    obtain rfl : ts' = [] := List.map_eq_nil_iff.mp hts.symm
    exact ⟨_, .args rfl, .noArgs⟩
  | lastArg last ih =>
    obtain ⟨_, ⟨he⟩, hlast⟩ := ih hts
    exact ⟨_, .args (by simp only [Expr.allDisplaced, he]), .lastArg hlast⟩
  | arg first comma others ih iha =>
    obtain ⟨us, vs, rfl, hus, hvs⟩ := hts.append
    obtain ⟨t, ws, rfl, ⟨hkind, -⟩, hws⟩ := hvs.cons
    obtain ⟨_, ⟨he⟩, hfirst⟩ := ih hus
    obtain ⟨_, _ | hes, hothers⟩ := iha hws
    obtain ⟨e', es', rfl⟩ := Expr.eq_cons_of_allDisplaced hes
    refine ⟨_, .args ?_, .arg hfirst (hkind.trans comma) hothers⟩
    rw [Expr.allDisplaced, hes, he]
    rfl

end

/-! ### Texts cut off -/

theorem spanTrivia_cut {gap : List Char}
    (h : spanTrivia inComment (gap ++ c :: cs) = (gap, c :: cs)) (ds : List Char) :
    spanTrivia inComment (gap ++ c :: ds) = (gap, c :: ds) := by
  induction gap generalizing inComment with
  | nil =>
    rw [List.nil_append, spanTrivia] at h ⊢
    -- A gap that ends before `c` ends for what `c` is, whatever comes after it.
    split at h
    · simp at h
    · next hcomment =>
      split at h
      · simp at h
      · next hblank =>
        split at h
        · simp at h
        · next hmark => simp [hcomment, hblank, hmark]
  | cons d gap ih =>
    rw [List.cons_append, spanTrivia] at h ⊢
    split at h
    · next hcomment =>
      simp only [Prod.mk.injEq, List.cons.injEq, true_and] at h
      simp [hcomment, ih (Prod.ext h.1 h.2)]
    · next hcomment =>
      split at h
      · next hblank =>
        simp only [Prod.mk.injEq, List.cons.injEq, true_and] at h
        simp [hcomment, hblank, ih (Prod.ext h.1 h.2)]
      · next hblank =>
        split at h
        · next hmark =>
          simp only [Prod.mk.injEq, List.cons.injEq, true_and] at h
          rw [if_neg hcomment, if_neg hblank, if_pos hmark, ih (Prod.ext h.1 h.2)]
        · simp at h

namespace Cursor

theorem eq_of_tokens {c : Cursor} (h : c.tokens = t :: ts) :
    ∃ c', next c = .ok (some t) c' ∧ c'.tokens = ts := by
  cases hnext : next c with
  | error e c' =>
    rw [drain_error hnext] at h
    cases h
  | ok first c' =>
    cases first with
    | none =>
      rw [(drain_none hnext).1] at h
      cases h
    | some t' =>
      rw [(drain_some hnext).1] at h
      cases h
      exact ⟨c', rfl, rfl⟩

theorem next_some_cases {c c' : Cursor} (h : next c = .ok (some t) c') :
    ∃ gap l, spanTrivia false c.rest = (gap, l.consumed ++ l.rest) ∧ ValidLexeme l ∧
    t.kind = l.kind ∧
      t.text = String.ofList l.text ∧ t.span = ⟨c.offset + byteLength gap, byteLength l.consumed⟩ ∧
        c'.rest = l.rest ∧ c'.offset = t.span.stop := by
  simp only [next, skipTrivia] at h
  split at h
  · cases h
  · next l hl =>
    cases h
    obtain ⟨hvalid, hrest⟩ := lexeme_eq_ok_iff.mp hl
    exact ⟨(spanTrivia false c.rest).1, l, Prod.ext rfl hrest.symm, hvalid, rfl, rfl, rfl, rfl, rfl⟩
  · cases h

theorem rest_eq {cs gap rest : List Char} (h : spanTrivia false cs = (gap, rest)) :
    cs = gap ++ rest := by
  rw [← spanTrivia_append false cs, h]

theorem ordered {c : Cursor} (h : c.tokens = ts) :
    (∀ t ∈ ts, c.offset ≤ t.span.offset) ∧ Ordered ts := by
  induction ts generalizing c with
  | nil => exact ⟨by simp, List.Pairwise.nil⟩
  | cons t ts ih =>
    obtain ⟨c', hnext, htokens⟩ := eq_of_tokens h
    obtain ⟨gap, l, -, -, -, -, hspan, -, hoffset⟩ := next_some_cases hnext
    obtain ⟨hfrom, hordered⟩ := ih htokens
    have hstart : c.offset ≤ t.span.offset := by
      rw [hspan]
      exact Nat.le_add_right _ _
    have hstop := t.span.offset_le_stop
    refine ⟨List.forall_mem_cons.mpr ⟨hstart, fun u hu => ?_⟩, hordered.cons fun u hu =>
      hoffset ▸ hfrom u hu⟩
    have := hfrom u hu
    omega

theorem skip {c : Cursor} (h : c.tokens = us ++ vs) :
    ∃ (c' : Cursor) (front : List Char), c'.tokens = vs ∧ c.rest = front ++ c'.rest ∧
      c'.offset = c.offset + byteLength front := by
  induction us generalizing c with
  | nil => exact ⟨c, [], h, rfl, rfl⟩
  | cons t us ih =>
    obtain ⟨c', hnext, htokens⟩ := eq_of_tokens h
    obtain ⟨gap, l, htrivia, -, -, -, hspan, hrest, hoffset⟩ := next_some_cases hnext
    obtain ⟨c'', front, htokens', hrest', hoffset'⟩ := ih htokens
    refine ⟨c'', gap ++ (l.consumed ++ front), htokens', ?_, ?_⟩
    · rw [rest_eq htrivia, ← hrest, hrest']
      simp
    · rw [hoffset', hoffset, hspan]
      simp [Span.stop]
      omega

/-- The token that a cursor elsewhere reads from the same characters. -/
theorem next_elsewhere {c d : Cursor} {t : Token} {l : Lexeme} {gap gap' r : List Char}
    (hvalid : ValidLexeme ⟨l.kind, l.text, l.consumed, r⟩)
    (htrivia : spanTrivia false d.rest = (gap', l.consumed ++ r)) (hkind : t.kind = l.kind)
    (htext : t.text = String.ofList l.text)
    (hspan : t.span = ⟨c.offset + byteLength gap, byteLength l.consumed⟩) :
    ∃ t' d', next d = .ok (some t') d' ∧ d'.rest = r ∧ d'.offset = d.offset + byteLength gap' +
      byteLength l.consumed ∧
      ∀ a b, a + (c.offset + byteLength gap) = b + (d.offset + byteLength gap') →
      t.displaced a = t'.displaced b := by
  refine ⟨_, _, next_valid htrivia hvalid, rfl, rfl, fun a b hab => ?_⟩
  simp only [Token.displaced, Span.raised, hkind, htext, hspan, Token.mk.injEq, Span.mk.injEq,
    true_and, and_true]
  omega

/-- A stretch of tokens is that of a stretch of text, wherever it stands. -/
theorem slice {c : Cursor} (h : c.tokens = t :: us ++ vs) :
    ∃ gap mid post : List Char, c.rest = gap ++ (mid ++ post) ∧
    t.span.offset = c.offset + byteLength gap ∧
    (∀ u ∈ (t :: us).getLast?, u.span.stop = c.offset + byteLength gap + byteLength mid) ∧
    spanTrivia false (gap ++ mid) = (gap, mid) ∧
    ∀ (d : Cursor) (gap' : List Char), spanTrivia false d.rest = (gap', mid) → d.Lexes ∧ ∀ a b,
      a + (c.offset + byteLength gap) = b + (d.offset + byteLength gap') →
        (t :: us).map (Token.displaced a) = d.tokens.map (Token.displaced b) := by
  induction us generalizing c t with
  -- The text ends with the last token, whose lexeme needs nothing of what stood behind it.
  | nil =>
    obtain ⟨c', hnext, htokens⟩ := eq_of_tokens h
    obtain ⟨gap, l, htrivia, hvalid, hkind, htext, hspan, hrest, hoffset⟩ := next_some_cases hnext
    obtain ⟨x, xs, hhead, -⟩ := hvalid.head
    refine ⟨gap, l.consumed, l.rest, rest_eq htrivia, by rw [hspan], ?_, ?_, fun d gap' hd => ?_⟩
    · simp [hspan, Span.stop]
    · rw [rest_eq htrivia] at htrivia
      rw [hhead, List.cons_append] at htrivia
      rw [hhead]
      exact spanTrivia_cut htrivia xs
    · have hcut : ValidLexeme ⟨l.kind, l.text, l.consumed, []⟩ :=
          ValidLexeme.cut (w := l.rest) hvalid
      rw [← List.append_nil l.consumed] at hd
      obtain ⟨t', d', hnext', hend, -, hshift⟩ := next_elsewhere hcut hd hkind htext hspan
      have hnone : next d' = .ok none d' := by
        rw [next, skipTrivia_end hend]
        simp [hend, lexeme]
      obtain ⟨htokens', hlexes⟩ := drain_none hnone
      obtain ⟨hsome, hiff⟩ := drain_some hnext'
      refine ⟨hiff.mpr hlexes, fun a b hab => ?_⟩
      rw [hsome, htokens', List.map_cons, List.map_cons, hshift a b hab]
      rfl
  | cons t₁ us ih =>
    obtain ⟨c', hnext, htokens⟩ := eq_of_tokens h
    obtain ⟨gap, l, htrivia, hvalid, hkind, htext, hspan, hrest, hoffset⟩ := next_some_cases hnext
    obtain ⟨gap₁, mid, post, hrest₁, hfirst, hlast, hgap, hcut⟩ := ih htokens
    obtain ⟨x, xs, hhead, -⟩ := hvalid.head
    have hrest : l.rest = (gap₁ ++ mid) ++ post := by rw [← hrest, hrest₁, List.append_assoc]
    have hstart : c'.offset = c.offset + byteLength gap + byteLength l.consumed := by
      rw [hoffset, hspan]; rfl
    refine ⟨gap, l.consumed ++ (gap₁ ++ mid), post, ?_, by rw [hspan], ?_, ?_, fun d gap' hd => ?_⟩
    · rw [rest_eq htrivia, hrest, List.append_assoc l.consumed]
    · intro u hu
      rw [hlast u (by simpa using hu), hstart]
      simp
      omega
    · rw [rest_eq htrivia] at htrivia
      rw [hhead, List.cons_append] at htrivia
      rw [hhead, List.cons_append]
      exact spanTrivia_cut htrivia _
    -- Read elsewhere, the first token leaves off where the stretch of the others starts.
    · have hvalid' : ValidLexeme ⟨l.kind, l.text, l.consumed, (gap₁ ++ mid) ++ post⟩ :=
        hrest ▸ hvalid
      obtain ⟨t', d', hnext', hrest', hoffset', hshift⟩ :=
        next_elsewhere hvalid'.cut hd hkind htext hspan
      obtain ⟨hlexes, hshifts⟩ := hcut d' gap₁ (by rw [hrest']; exact hgap)
      obtain ⟨hsome, hiff⟩ := drain_some hnext'
      refine ⟨hiff.mpr hlexes, fun a b hab => ?_⟩
      rw [hsome]
      exact congrArg₂ List.cons (hshift a b hab) (hshifts a b (by omega))

end Cursor

/-! ### Spans of a script -/

section
variable {s : Span} {t : Token} {us : List Token}

theorem Covers.offset_eq (h : Covers s (t :: us)) (ordered : Ordered (t :: us)) :
    s.offset = t.span.offset := by
  obtain ⟨u, hu, hfirst⟩ := h.first
  have hle := (h.around t (by simp)).1
  have hstop := t.span.offset_le_stop
  rcases List.mem_cons.mp hu with rfl | hu
  · exact hfirst.symm
  · have := (List.pairwise_cons.mp ordered).1 u hu
    omega

theorem Covers.stop_eq (h : Covers s us) (ordered : Ordered us) (ht : t ∈ us.getLast?) :
    s.stop = t.span.stop := by
  obtain ⟨front, rfl⟩ := List.getLast?_eq_some_iff.mp ht
  obtain ⟨u, hu, hlast⟩ := h.last
  have hle := (h.around t (by simp)).2
  rcases List.mem_append.mp hu with hu | hu
  · have := ordered.across u hu t (by simp)
    have hstop := t.span.offset_le_stop
    omega
  · rw [List.mem_singleton.mp hu] at hlast
    exact hlast.symm

end

theorem spanTrivia_rest (inComment : Bool) (cs : List Char) :
    spanTrivia false (spanTrivia inComment cs).2 = ([], (spanTrivia inComment cs).2) := by
  induction cs generalizing inComment with
  | nil => rfl
  | cons c cs ih =>
    rw [spanTrivia]
    split
    · exact ih _
    split
    · exact ih _
    split
    · exact ih _
    · next hblank hmark => simp [spanTrivia, hblank, hmark]

/-- What a part of a script is written with, which all of its tokens stand around. -/
theorem Program.written_of_part {source : SourceText}
    (parsed : Program.ofSource source = .ok program) (node : e ∈ program.parts) :
    ∃ us ts vs, (Cursor.start source.chars).tokens = us ++ (ts ++ vs) ∧ Written (.expr 1 e) ts := by
  obtain ⟨parts, rfl, written⟩ := Program.ofSource_written parsed
  obtain ⟨us, ⟨front, back, heq⟩, hus⟩ := written.part node
  exact ⟨front, us, back, by rw [← heq, List.append_assoc], hus⟩

/-- The span of a part of a script marks off a stretch of the text that reads as that part on its
own, just so many bytes further front. -/
theorem Program.part_alone {source : SourceText} (parsed : Program.ofSource source = .ok program)
    (node : e ∈ program.parts) :
    ∃ front mid back, source.chars = front ++ (mid ++ back) ∧ byteLength front = e.span.offset ∧
      byteLength mid = e.span.length ∧ ∃ e' q r, Parse.expression (.start mid) = .ok e' q ∧
      Parse.peek q = .ok none r ∧ e'.displaced e.span.offset = e.displaced 0 := by
  obtain ⟨us, ts, vs, htokens, written⟩ := Program.written_of_part parsed node
  have hordered : Ordered ts := (Cursor.ordered htokens).2.right.left
  obtain ⟨hcovers, -⟩ := written.placed hordered
  obtain ⟨t, ts, rfl⟩ := List.exists_cons_of_ne_nil written.ne_nil
  obtain ⟨c, front, htokens', hrest, hoffset⟩ := Cursor.skip htokens
  obtain ⟨gap, mid, back, hrest', hfirst, hlast, hgap, hcut⟩ := Cursor.slice htokens'
  have hplace : c.offset + byteLength gap = byteLength (front ++ gap) := by
    rw [hoffset, byteLength_append, Cursor.start, Nat.zero_add]
  have hstart : e.span.offset = byteLength (front ++ gap) := by
    rw [hcovers.offset_eq hordered, hfirst, hplace]
  have hstop : e.span.stop = byteLength (front ++ gap) + byteLength mid := by
    obtain ⟨last, hmem⟩ : ∃ last, last ∈ (t :: ts).getLast? :=
      ⟨_, List.getLast?_eq_some_getLast (by simp)⟩
    rw [hcovers.stop_eq hordered hmem, hlast last hmem, hplace]
  refine ⟨front ++ gap, mid, back, ?_, hstart.symm, ?_, ?_⟩
  · rw [List.append_assoc, ← hrest', ← hrest]
    rfl
  · simp only [Span.stop] at hstop
    omega
  · have htrivia : spanTrivia false mid = ([], mid) := by
      have := spanTrivia_rest false (gap ++ mid)
      rwa [hgap] at this
    obtain ⟨hlexes, hshift⟩ := hcut (.start mid) [] htrivia
    have hdisplaces : Displaces e.span.offset (t :: ts) (Cursor.start mid).tokens :=
      hshift 0 _ (by rw [hplace, hstart]; simp [Cursor.start])
    obtain ⟨_, ⟨he⟩, written'⟩ := written.displace hdisplaces
    have hsees : (Parser.start mid).Sees ((Cursor.start mid).tokens ++ []) builtinTypes :=
      ⟨by simp [Parser.tokens, Parser.start], hlexes, rfl⟩
    obtain ⟨q, hparses, hq⟩ := Parse.expression_of_written written' hsees endsExpr_nil
    obtain ⟨r, hpeek, -⟩ := Parse.peek_sees hq
    exact ⟨_, q, r, hparses, hpeek, he⟩

theorem append_inj_of_byteLength (h : xs ++ ys = xs' ++ ys')
    (hlength : byteLength xs = byteLength xs') : xs = xs' ∧ ys = ys' := by
  have hempty : ∀ zs : List Char, byteLength zs = 0 → zs = [] := by
    intro zs hzs
    cases zs with
    | nil => rfl
    | cons z zs =>
      have := z.utf8Size_pos
      simp only [byteLength_cons] at hzs
      omega
  rcases List.append_eq_append_iff.mp h with ⟨zs, rfl, rfl⟩ | ⟨zs, rfl, rfl⟩
  all_goals
    rw [byteLength_append] at hlength
    obtain rfl := hempty zs (by omega)
    simp

theorem Program.part_unique {source : SourceText} (parsed : Program.ofSource source = .ok program)
    (node : e ∈ program.parts)
    (node' : e' ∈ program.parts) (same : e.span = e'.span) : e.displaced 0 = e'.displaced 0 := by
  obtain ⟨front, mid, back, hchars, hfront, hmid, d, q, -, hparses, -, hd⟩ := part_alone parsed node
  obtain ⟨front', mid', back', hchars', hfront', hmid', d', q', -, hparses', -, hd'⟩ :=
    part_alone parsed node'
  obtain ⟨rfl, hrest⟩ :=
    append_inj_of_byteLength (hchars.symm.trans hchars') (by rw [hfront, hfront', same])
  obtain ⟨rfl, -⟩ := append_inj_of_byteLength hrest (by rw [hmid, hmid', same])
  rw [hparses'] at hparses
  cases hparses
  rw [← hd, ← hd', same]

/-- In a script that parses, the span of every expression marks off a stretch of the text that reads
as that expression on its own. The parts of an expression lie in its span, one after the other. -/
theorem spans_faithful {source : SourceText} {program : Program} {e : Expr}
    (parsed : Program.ofSource source = .ok program) (node : e ∈ program.parts) :
    (∃ front mid back, source.chars = front ++ (mid ++ back) ∧ byteLength front = e.span.offset ∧
      byteLength mid = e.span.length ∧ ∃ e' q r, Parse.expression (.start mid) = .ok e' q ∧
      Parse.peek q = .ok none r ∧ e'.displaced e.span.offset = e.displaced 0) ∧
    (∀ c ∈ e.children, c.span.Inside e.span) ∧ e.children.Pairwise fun a b =>
      a.span.stop ≤ b.span.offset := by
  obtain ⟨us, ts, vs, htokens, written⟩ := Program.written_of_part parsed node
  have hordered : Ordered ts := (Cursor.ordered htokens).2.right.left
  obtain ⟨-, hnested⟩ := written.placed hordered
  exact ⟨Program.part_alone parsed node, hnested.inside, hnested.apart⟩

def SourceText.wrapsCall : SourceText := .ofString "x = 'é'; r = (-f(1,  (b+'q')) # on\n .y)@ * 2;"

theorem spans_faithful_wrapsCall : ∃ program e, Program.ofSource .wrapsCall = .ok program ∧
    e ∈ program.parts ∧ e.span = ⟨16, 14⟩ ∧ e.children.length = 3 ∧
    (∃ front mid back, SourceText.wrapsCall.chars = front ++ (mid ++ back) ∧
      byteLength front = e.span.offset ∧
      byteLength mid = e.span.length ∧ ∃ e' q r, Parse.expression (.start mid) = .ok e' q ∧
      Parse.peek q = .ok none r ∧ e'.displaced e.span.offset = e.displaced 0) ∧
    (∀ c ∈ e.children, c.span.Inside e.span) ∧ e.children.Pairwise fun a b =>
      a.span.stop ≤ b.span.offset := by
  have hfound : ((Program.ofSource .wrapsCall).toOption.any fun p =>
      p.parts.any fun e => e.span = ⟨16, 14⟩ && e.children.length = 3) = true := by decide +kernel
  obtain ⟨program, hprogram, hparts⟩ := (Option.any_eq_true _ _).mp hfound
  obtain ⟨e, node, he⟩ := List.any_eq_true.mp hparts
  simp only [Bool.and_eq_true, decide_eq_true_eq] at he
  have parsed := toOption_eq_some.mp hprogram
  exact ⟨program, e, parsed, node, he.1, he.2, spans_faithful parsed node⟩

end WordScript
