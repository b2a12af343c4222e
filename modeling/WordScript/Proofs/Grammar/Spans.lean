import WordScript.Proofs.Grammar.Expressions
import WordScript.Proofs.Literals

/-!
# Spans of expressions

The span of an expression is the smallest one around the tokens that it is written with. So the
spans of its operands lie inside of it, one after the other (`Written.placed`).
-/

namespace WordScript

def Ordered (ts : List Token) : Prop := ts.Pairwise fun t t' => t.span.stop ≤ t'.span.offset

/-- The span is the smallest one around the tokens. -/
structure Covers (s : Span) (ts : List Token) : Prop where
  around : ∀ t ∈ ts, s.offset ≤ t.span.offset ∧ t.span.stop ≤ s.stop
  first : ∃ t ∈ ts, t.span.offset = s.offset
  last : ∃ t ∈ ts, t.span.stop = s.stop

def Span.Inside (s around : Span) : Prop := around.offset ≤ s.offset ∧ s.stop ≤ around.stop

/-- The spans of an expression's parts lie inside of its own, one after the other. -/
structure Expr.Nested (e : Expr) : Prop where
  inside : ∀ c ∈ e.children, c.span.Inside e.span
  apart : e.children.Pairwise fun a b => a.span.stop ≤ b.span.offset

theorem Span.offset_le_stop (s : Span) : s.offset ≤ s.stop := Nat.le_add_right s.offset s.length

theorem Span.stop_join (s s' : Span) : (s.join s').stop = max s.stop s'.stop := by
  have h := s.offset_le_stop
  simp only [join, stop] at h ⊢
  omega

/-! ### Around tokens -/

namespace Covers

variable {s s' : Span} {ts us vs ws : List Token} {t : Token}

theorem single : Covers t.span [t] := ⟨by simp, ⟨t, by simp, rfl⟩, ⟨t, by simp, rfl⟩⟩

theorem inside (h : Covers s ts) (h' : Covers s' us) (hsub : us ⊆ ts) : s'.Inside s := by
  obtain ⟨t, ht, hfirst⟩ := h'.first
  obtain ⟨t', ht', hlast⟩ := h'.last
  exact ⟨hfirst ▸ (h.around t (hsub ht)).1, hlast ▸ (h.around t' (hsub ht')).2⟩

/-- What is around earlier tokens ends before what is around later ones. -/
theorem before (h : Covers s us) (h' : Covers s' vs)
    (ordered : ∀ t ∈ us, ∀ t' ∈ vs, t.span.stop ≤ t'.span.offset) : s.stop ≤ s'.offset := by
  obtain ⟨t, ht, hlast⟩ := h.last
  obtain ⟨t', ht', hfirst⟩ := h'.first
  exact hlast ▸ hfirst ▸ ordered t ht t' ht'

theorem join (h : Covers s us) (h' : Covers s' vs) (ordered : Ordered (us ++ (ws ++ vs))) :
    Covers (s.join s') (us ++ (ws ++ vs)) := by
  obtain ⟨-, hinner, hleft⟩ := List.pairwise_append.mp ordered
  obtain ⟨-, -, hright⟩ := List.pairwise_append.mp hinner
  obtain ⟨a, ha, haFirst⟩ := h.first
  obtain ⟨b, hb, hbLast⟩ := h.last
  obtain ⟨c, hc, hcFirst⟩ := h'.first
  obtain ⟨d, hd, hdLast⟩ := h'.last
  have hbefore : s.stop ≤ s'.offset := h.before h' fun t ht t' ht' => hleft t ht t' (by simp [ht'])
  have hs := s.offset_le_stop
  have hs' := s'.offset_le_stop
  have hoffset : (s.join s').offset = s.offset := by
    simp only [Span.join]
    omega
  have hstop : (s.join s').stop = s'.stop := by
    rw [Span.stop_join]
    omega
  refine ⟨fun t ht => ?_, ⟨a, by simp [ha], hoffset ▸ haFirst⟩, ⟨d, by simp [hd], hstop ▸ hdLast⟩⟩
  rw [hoffset, hstop]
  rcases List.mem_append.mp ht with ht | ht
  · have := h.around t ht
    exact ⟨this.1, by omega⟩
  rcases List.mem_append.mp ht with ht | ht
  · have := hleft b hb t (by simp [ht])
    have := hright t ht c hc
    exact ⟨by omega, by omega⟩
  · have := h'.around t ht
    exact ⟨by omega, this.2⟩

end Covers

/-! ### Expressions -/

theorem Ordered.left (h : Ordered (us ++ vs)) : Ordered us := (List.pairwise_append.mp h).1

theorem Ordered.right (h : Ordered (us ++ vs)) : Ordered vs := (List.pairwise_append.mp h).2.1

theorem Ordered.tail (h : Ordered (t :: ts)) : Ordered ts := (List.pairwise_cons.mp h).2

theorem Ordered.across (h : Ordered (us ++ vs)) :
    ∀ t ∈ us, ∀ t' ∈ vs, t.span.stop ≤ t'.span.offset :=
  (List.pairwise_append.mp h).2.2

theorem Expr.Nested.single {e c : Expr} (hchildren : e.children = [c])
    (hinside : c.span.Inside e.span) : e.Nested :=
  ⟨by simpa [hchildren] using hinside, by simp [hchildren]⟩

theorem Expr.Nested.none {e : Expr} (hchildren : e.children = []) : e.Nested :=
  ⟨by simp [hchildren], by simp [hchildren]⟩

theorem Expr.span_withSpan (e : Expr) (s : Span) : (e.withSpan s).span = s := by cases e <;> rfl

theorem Expr.children_withSpan (e : Expr) (s : Span) : (e.withSpan s).children = e.children := by
  cases e <;> rfl

theorem InfixOp.span_build (op : InfixOp) (lhs rhs : Expr) :
    (op.build lhs rhs).span = lhs.span.join rhs.span := by
  cases op <;> rfl

theorem InfixOp.children_build (op : InfixOp) (lhs rhs : Expr) :
    (op.build lhs rhs).children = [lhs, rhs] := by
  cases op <;> rfl

def Phrase.Placed : Phrase → List Token → Prop
  | .expr _ e, ts => Covers e.span ts ∧ e.Nested
  | .args es, ts => (∀ e ∈ es, ∃ us, us ⊆ ts ∧ Covers e.span us) ∧ es.Pairwise fun a b =>
    a.span.stop ≤ b.span.offset

theorem Written.placed (h : Written phrase ts) (ordered : Ordered ts) : phrase.Placed ts := by
  induction h with
  | tighter h ih => exact ih ordered
  | @operation op lhs ls rhs rs t operator left right ihl ihr =>
    obtain ⟨hleft, -⟩ := ihl ordered.left
    obtain ⟨hright, -⟩ := ihr ordered.right.tail
    have hcovers : Covers (lhs.span.join rhs.span) (ls ++ ([t] ++ rs)) := hleft.join hright ordered
    refine ⟨InfixOp.span_build .. ▸ hcovers, ?_, ?_⟩
    · rw [InfixOp.children_build, InfixOp.span_build]
      simpa using ⟨hcovers.inside hleft (by simp), hcovers.inside hright (by simp)⟩
    · rw [InfixOp.children_build]
      simpa using hleft.before hright fun a ha b hb => ordered.across a ha b (by simp [hb])
  | @unary op e ts t sign operand ih =>
    obtain ⟨hinner, -⟩ := ih ordered.tail
    have hcovers : Covers (t.span.join e.span) ([t] ++ ([] ++ ts)) :=
      Covers.single.join hinner ordered
    exact ⟨hcovers, .single rfl (hcovers.inside hinner (by simp))⟩
  | @call e ts es us t t' callee opened args closed ih iha =>
    obtain ⟨hcallee, -⟩ := ih ordered.left
    obtain ⟨hargs, hapart⟩ := iha ordered.right.tail.left
    have hcovers : Covers (e.span.join t'.span) (ts ++ ((t :: us) ++ [t'])) :=
      hcallee.join .single ordered
    refine ⟨hcovers, List.forall_mem_cons.mpr ⟨hcovers.inside hcallee (by simp), fun a ha => ?_⟩,
      hapart.cons fun a ha => ?_⟩
    · obtain ⟨ws, hws, ha⟩ := hargs a ha
      exact hcovers.inside ha fun x hx => by simp [hws hx]
    · obtain ⟨ws, hws, ha⟩ := hargs a ha
      exact hcallee.before ha fun x hx y hy => ordered.across x hx y (by simp [hws hy])
  | @field e ts t t' base dot name free ih =>
    obtain ⟨hbase, -⟩ := ih ordered.left
    have hcovers : Covers (e.span.join t'.span) (ts ++ ([t] ++ [t'])) := hbase.join .single ordered
    exact ⟨hcovers, .single rfl (hcovers.inside hbase (by simp))⟩
  | @addressOf e ts t inner mark ih =>
    obtain ⟨hinner, -⟩ := ih ordered.left
    have hcovers : Covers (e.span.join t.span) (ts ++ ([] ++ [t])) := hinner.join .single ordered
    exact ⟨hcovers, .single rfl (hcovers.inside hinner (by simp))⟩
  | @dereference e ts t inner mark ih =>
    obtain ⟨hinner, -⟩ := ih ordered.left
    have hcovers : Covers (e.span.join t.span) (ts ++ ([] ++ [t])) := hinner.join .single ordered
    exact ⟨hcovers, .single rfl (hcovers.inside hinner (by simp))⟩
  | @parenthesised e ts t t' opened inner closed ih =>
    obtain ⟨hinner, hnested⟩ := ih ordered.tail.left
    have hcovers : Covers (t.span.join t'.span) ([t] ++ (ts ++ [t'])) :=
      Covers.single.join .single ordered
    have hwider := hcovers.inside hinner (by simp)
    refine ⟨Expr.span_withSpan .. ▸ hcovers, ?_, ?_⟩
    · rw [Expr.children_withSpan, Expr.span_withSpan]
      intro c hc
      have := hnested.inside c hc
      exact ⟨Nat.le_trans hwider.1 this.1, Nat.le_trans this.2 hwider.2⟩
    · rw [Expr.children_withSpan]
      exact hnested.apart
  | integer | float | string | var => exact ⟨.single, .none rfl⟩
  | @sizeOf e ts t t' t'' kind word opened inner closed ih =>
    obtain ⟨hinner, -⟩ := ih ordered.tail.tail.left
    have hcovers : Covers (t.span.join t''.span) ([t] ++ ((t' :: ts) ++ [t''])) :=
      Covers.single.join .single ordered
    exact ⟨hcovers, .single rfl (hcovers.inside hinner fun x hx => by simp [hx])⟩
  | noArgs => exact ⟨by simp, by simp⟩
  | lastArg last ih =>
    obtain ⟨hlast, -⟩ := ih ordered
    exact ⟨by simpa using ⟨_, List.Subset.refl _, hlast⟩, by simp⟩
  | arg first comma others ih iha =>
    obtain ⟨hfirst, -⟩ := ih ordered.left
    obtain ⟨hothers, hapart⟩ := iha ordered.right.tail
    refine ⟨List.forall_mem_cons.mpr ⟨⟨_, by simp, hfirst⟩, fun a ha => ?_⟩,
      hapart.cons fun a ha => ?_⟩
    · obtain ⟨ws, hws, ha⟩ := hothers a ha
      exact ⟨ws, fun x hx => by simp [hws hx], ha⟩
    · obtain ⟨ws, hws, ha⟩ := hothers a ha
      exact hfirst.before ha fun x hx y hy => ordered.across x hx y (by simp [hws hy])

end WordScript
