import WordScript.Proofs.Grammar.Printing
import WordScript.Proofs.Places.Parsing

/-!
# Printed statements read back

A statement that was parsed can be printed and parsed again, which gives the same statement but for
places (`printed_parses`). What makes it work is in the tree (`Statement.Printable`), so this goes
by induction on it.
-/

namespace WordScript

/-! ### Trees that can be printed -/

def Expr.isFloat : Expr → Bool
  | .float .. => true
  | _ => false

def Expr.Sound : Expr → Prop
  | .integer _ value => 0 ≤ value.toInt
  | .string _ content => '"' ∉ content.toList ∨ '\'' ∉ content.toList
  | .var _ name => IsName name ∧ keywords.contains name = false
  | .field _ _ name => IsName name.text ∧
      (keywords.contains name.text || builtinTypes.contains name.text) = false
  | _ => True

theorem Expr.sound_withSpan (e : Expr) (s : Span) : (e.withSpan s).Sound ↔ e.Sound := by
  cases e <;> rfl

theorem InfixOp.sound_build (op : InfixOp) (lhs rhs : Expr) : (op.build lhs rhs).Sound := by
  cases op <;> trivial

theorem Token.Lexed.nonneg {t : Token} (h : t.Lexed) (hkind : t.kind = .integer)
    (hw : readWord? t.text.toList = some w) : 0 ≤ w.toInt := by
  obtain ⟨l, hl, hkind', htext⟩ := h.valid
  rw [htext, String.toList_ofList] at hw
  rw [hkind] at hkind'
  cases hl with
  | @integer c ds rest digits =>
    have hdecimal := readInt32?_eq_some.mp hw
    generalize w.toInt = z at hdecimal ⊢
    cases hdecimal with
    | plain => exact Int.natCast_nonneg _
    | plus => exact Int.natCast_nonneg _
    | minus => simp at digits
  | _ => cases hkind'

theorem Token.Lexed.quotable {t : Token} (h : t.Lexed) (hkind : t.kind = .string) :
    '"' ∉ t.text.toList ∨ '\'' ∉ t.text.toList := by
  obtain ⟨l, hl, hkind', htext⟩ := h.valid
  rw [htext, String.toList_ofList]
  rw [hkind] at hkind'
  cases hl with
  | string quote inside =>
    rcases quote with rfl | rfl
    · exact .inr inside
    · exact .inl inside
  | _ => cases hkind'

theorem Written.sound (h : Written (.expr k e) ts) (lexed : ∀ t ∈ ts, t.Lexed) : e.Sound := by
  generalize hphrase : Phrase.expr k e = phrase at h
  induction h generalizing k e with
  | tighter h ih =>
    cases hphrase
    exact ih lexed rfl
  | operation => cases hphrase; exact InfixOp.sound_build ..
  | field base dot name free =>
    cases hphrase
    exact ⟨(lexed _ (by simp)).isName name, free⟩
  | parenthesised opened inner closed ih =>
    cases hphrase
    exact (Expr.sound_withSpan _ _).mpr (ih (fun t ht => lexed t (by simp [ht])) rfl)
  | integer kind value => cases hphrase; exact (lexed _ (by simp)).nonneg kind value
  | string kind => cases hphrase; exact (lexed _ (by simp)).quotable kind
  | var kind free => cases hphrase; exact ⟨(lexed _ (by simp)).isName kind, free⟩
  | unary | call | addressOf | dereference | float | sizeOf => cases hphrase; trivial
  | noArgs | lastArg | arg => cases hphrase

/-! ### Tokens that were printed -/

def Spells (ts : List Token) (ps : List Piece) : Prop := ts.map Token.shape = ps.map Piece.shape

namespace Spells

theorem append (h : Spells ts (ps ++ qs)) :
    ∃ us vs, ts = us ++ vs ∧ Spells us ps ∧ Spells vs qs := by
  rw [Spells, List.map_append] at h
  obtain ⟨us, vs, rfl, hus, hvs⟩ := List.map_eq_append_iff.mp h
  exact ⟨us, vs, rfl, hus, hvs⟩

theorem cons (h : Spells ts (p :: ps)) :
    ∃ t us, ts = t :: us ∧ t.shape = p.shape ∧ Spells us ps := by
  rw [Spells, List.map_cons] at h
  obtain ⟨t, us, rfl, ht, hus⟩ := List.map_eq_cons_iff.mp h
  exact ⟨t, us, rfl, ht, hus⟩

theorem nil (h : Spells ts []) : ts = [] := List.map_eq_nil_iff.mp h

theorem head (h : Spells ts (p :: ps)) (ht : t ∈ (ts ++ us).head?) : t.shape = p.shape := by
  obtain ⟨t', vs, rfl, ht', -⟩ := h.cons
  obtain rfl : t' = t := by simpa using ht
  exact ht'

theorem singleton (h : Spells ts [p]) : ∃ t, ts = [t] ∧ t.shape = p.shape := by
  obtain ⟨t, us, rfl, ht, hus⟩ := h.cons
  exact ⟨t, by rw [hus.nil], ht⟩

theorem parenthesised (h : Spells ts (Piece.parenthesised ps)) :
    ∃ t us t', ts = t :: (us ++ [t']) ∧ t.kind = .symbol .openParen ∧ Spells us ps ∧
    t'.kind = .symbol .closeParen := by
  obtain ⟨t, vs, rfl, ht, hvs⟩ := h.cons
  obtain ⟨us, ws, rfl, hus, hws⟩ := hvs.append
  obtain ⟨t', rfl, ht'⟩ := hws.singleton
  exact ⟨t, us, t', rfl, congrArg Prod.fst ht, hus, congrArg Prod.fst ht'⟩

end Spells

section
variable {t : Token}

theorem InfixOp.operator?_of_shape {op : InfixOp} (h : t.shape = op.piece.shape) :
    t.operator? = some op := by
  obtain ⟨hkind, htext⟩ := Prod.mk.inj h
  rw [Token.operator?, hkind]
  cases op with
  | binary op =>
    cases op with
    | arithmetic a => cases a <;> rfl
    | relation r => cases r <;> rfl
    | logic l =>
      cases l
      all_goals
        simp only [piece]
        rw [htext]
        rfl
  | assign op =>
    cases op with
    | none => rfl
    | some a => cases a <;> rfl

theorem UnaryOp.sign?_of_shape {op : UnaryOp} (h : t.shape = op.piece.shape) :
    t.sign? = some op := by
  rw [Token.sign?, (Prod.mk.inj h).1]
  cases op <;> rfl

theorem isWord_of_shape (h : t.shape = (Piece.word text).shape) : t.IsWord text :=
  ⟨(Prod.mk.inj h).1, (Prod.mk.inj h).2⟩

theorem symbol_of_shape (h : t.shape = (Piece.symbol s).shape) : t.kind = .symbol s :=
  (Prod.mk.inj h).1

end

/-- Tokens that were printed for an expression are those of an expression, the same but for places.
-/
def Expr.ReadsBack (e : Expr) : Prop :=
  ∀ ts, Spells ts e.pieces → ∃ e', Written (.expr 10 e') ts ∧ e'.bare = e.bare

theorem Expr.readsBack_of_inner {e : Expr} (hpieces : e.pieces = Piece.parenthesised ps)
    (h : ∀ ts, Spells ts ps → ∃ e', Written (.expr 1 e') ts ∧ e'.bare = e.bare) : e.ReadsBack := by
  intro ts hts
  rw [hpieces] at hts
  obtain ⟨t, us, t', rfl, opened, hus, closed⟩ := hts.parenthesised
  obtain ⟨e', written, hbare⟩ := h us hus
  exact ⟨_, .parenthesised opened written closed, by rw [Parse.bare_withSpan, hbare]⟩

def Expr.Printable (e : Expr) : Prop := ∀ x ∈ e.parts, x.Sound ∧ x.isFloat = false

theorem Expr.readsBack_operation (op : InfixOp) {e lhs rhs : Expr}
    (hpieces : e.pieces = Piece.parenthesised (lhs.pieces ++ op.piece :: rhs.pieces))
    (hbare : (op.build lhs rhs).bare = e.bare) (hl : lhs.ReadsBack) (hr : rhs.ReadsBack) :
    e.ReadsBack := by
  refine readsBack_of_inner hpieces fun ts hts => ?_
  obtain ⟨us, ws, rfl, hus, hws⟩ := hts.append
  obtain ⟨t, vs, rfl, ht, hvs⟩ := hws.cons
  obtain ⟨lhs', hlhs, hlbare⟩ := hl us hus
  obtain ⟨rhs', hrhs, hrbare⟩ := hr vs hvs
  have hle := op.precedence_le
  have hleft : op.precedence.leftLevel ≤ 10 := by rw [Precedence.leftLevel_eq]; split <;> omega
  have hright : op.precedence.rightLevel ≤ 10 := by rw [Precedence.rightLevel_eq]; split <;> omega
  refine ⟨_, (Written.operation (InfixOp.operator?_of_shape ht) (hlhs.looser hleft)
    (hrhs.looser hright)).looser op.precedence.level_pos, ?_⟩
  rw [Parse.bare_build hlbare hrbare, hbare]

mutual

theorem Expr.readsBack : (e : Expr) → e.Printable → e.ReadsBack
  | .integer span value, _ => by
    refine readsBack_of_inner rfl fun ts hts => ?_
    obtain ⟨t, rfl, ht⟩ := hts.singleton
    obtain ⟨hkind, htext⟩ := Prod.mk.inj ht
    have hvalue : readWord? t.text.toList = some value := by
      rw [htext]
      exact readInt32?_text value
    exact ⟨_, (Written.integer hkind hvalue).looser (by decide), rfl⟩
  | .float span bits, h => by
    have hfloat := (h (.float span bits) (by simp [parts])).2
    cases hfloat
  | .string span content, _ => by
    refine readsBack_of_inner rfl fun ts hts => ?_
    obtain ⟨t, rfl, ht⟩ := hts.singleton
    obtain ⟨hkind, rfl⟩ := Prod.mk.inj ht
    exact ⟨_, (Written.string hkind).looser (by decide), rfl⟩
  | .var span name, h => by
    refine readsBack_of_inner rfl fun ts hts => ?_
    obtain ⟨t, rfl, ht⟩ := hts.singleton
    obtain ⟨hkind, rfl⟩ := Prod.mk.inj ht
    have hfree := (h (.var span t.text) (by simp [parts])).1.2
    exact ⟨_, (Written.var hkind hfree).looser (by decide), rfl⟩
  | .call span callee args, h => by
    refine readsBack_of_inner rfl fun ts hts => ?_
    obtain ⟨us, vs, rfl, hus, hvs⟩ := hts.append
    obtain ⟨t, ws, rfl, ht, hws⟩ := hvs.cons
    obtain ⟨xs, ys, rfl, hxs, hys⟩ := hws.append
    obtain ⟨t', rfl, ht'⟩ := hys.singleton
    obtain ⟨callee', hcallee, hbare⟩ :=
      readsBack callee (fun x hx => h x (by simp [parts, hx])) us hus
    obtain ⟨args', hargs, hbares⟩ := allReadBack args (fun x hx => h x (by simp [parts, hx])) xs hxs
    have hcall :=
      Written.call (hcallee.looser (by decide)) (symbol_of_shape ht) hargs (symbol_of_shape ht')
    exact ⟨_, hcall.looser (by decide), by simp [bare, hbare, hbares]⟩
  | .binary span op lhs rhs, h =>
    readsBack_operation (.binary op) rfl rfl (readsBack lhs fun x hx => h x (by simp [parts, hx]))
      (readsBack rhs fun x hx => h x (by simp [parts, hx]))
  | .assign span op target value, h =>
    readsBack_operation (.assign op) rfl rfl (readsBack target fun x hx =>
      h x (by simp [parts, hx]))
      (readsBack value fun x hx => h x (by simp [parts, hx]))
  | .unary span op operand, h => by
    refine readsBack_of_inner rfl fun ts hts => ?_
    obtain ⟨t, us, rfl, ht, hus⟩ := hts.cons
    obtain ⟨operand', hoperand, hbare⟩ :=
      readsBack operand (fun x hx => h x (by simp [parts, hx])) us hus
    have hunary := Written.unary (UnaryOp.sign?_of_shape ht) (hoperand.looser (by decide))
    exact ⟨_, hunary.looser (by decide), by simp [bare, hbare]⟩
  | .field span base name, h => by
    refine readsBack_of_inner rfl fun ts hts => ?_
    obtain ⟨us, vs, rfl, hus, hvs⟩ := hts.append
    obtain ⟨t, ws, rfl, ht, hws⟩ := hvs.cons
    obtain ⟨t', rfl, ht'⟩ := hws.singleton
    obtain ⟨hkind, htext⟩ := Prod.mk.inj ht'
    obtain ⟨base', hbase, hbare⟩ := readsBack base (fun x hx => h x (by simp [parts, hx])) us hus
    have hfree := (h (.field span base name) (by simp [parts])).1.2
    rw [← htext] at hfree
    have hfield := Written.field (hbase.looser (by decide)) (symbol_of_shape ht) hkind hfree
    exact ⟨_, hfield.looser (by decide), by simp [bare, hbare, Name.bare, htext]⟩
  | .addressOf span inner, h => by
    refine readsBack_of_inner rfl fun ts hts => ?_
    obtain ⟨us, vs, rfl, hus, hvs⟩ := hts.append
    obtain ⟨t, rfl, ht⟩ := hvs.singleton
    obtain ⟨inner', hinner, hbare⟩ := readsBack inner (fun x hx => h x (by simp [parts, hx])) us hus
    have haddress := Written.addressOf (hinner.looser (by decide)) (symbol_of_shape ht)
    exact ⟨_, haddress.looser (by decide), by simp [bare, hbare]⟩
  | .dereference span inner, h => by
    refine readsBack_of_inner rfl fun ts hts => ?_
    obtain ⟨us, vs, rfl, hus, hvs⟩ := hts.append
    obtain ⟨t, rfl, ht⟩ := hvs.singleton
    obtain ⟨inner', hinner, hbare⟩ := readsBack inner (fun x hx => h x (by simp [parts, hx])) us hus
    have hdereference := Written.dereference (hinner.looser (by decide)) (symbol_of_shape ht)
    exact ⟨_, hdereference.looser (by decide), by simp [bare, hbare]⟩
  | .sizeOf span inner, h => by
    refine readsBack_of_inner rfl fun ts hts => ?_
    obtain ⟨t, us, rfl, ht, hus⟩ := hts.cons
    obtain ⟨t', vs, t'', rfl, opened, hvs, closed⟩ := hus.parenthesised
    obtain ⟨inner', hinner, hbare⟩ := readsBack inner (fun x hx => h x (by simp [parts, hx])) vs hvs
    have hword := isWord_of_shape ht
    have hsize := Written.sizeOf hword.kind hword.text opened (hinner.looser (by decide)) closed
    exact ⟨_, hsize.looser (by decide), by simp [bare, hbare]⟩

theorem Expr.allReadBack : (es : List Expr) → (∀ x ∈ allParts es, x.Sound ∧ x.isFloat = false) →
    (ts : List Token) →
    Spells ts (allPieces es) → ∃ es', Written (.args es') ts ∧ allBare es' = allBare es
  | [], _, ts, hts => ⟨[], hts.nil ▸ .noArgs, rfl⟩
  | [e], h, ts, hts => by
    obtain ⟨e', he, hbare⟩ := readsBack e (fun x hx => h x (by simp [allParts, hx])) ts hts
    exact ⟨[e'], .lastArg (he.looser (by decide)), by simp [allBare, hbare]⟩
  | e :: e₁ :: es, h, ts, hts => by
    obtain ⟨us, vs, rfl, hus, hvs⟩ := hts.append
    obtain ⟨t, ws, rfl, ht, hws⟩ := hvs.cons
    obtain ⟨e', he, hbare⟩ := readsBack e (fun x hx => h x (by simp [allParts, hx])) us hus
    obtain ⟨es', hes, hbares⟩ :=
      allReadBack (e₁ :: es) (fun x hx => h x (by rw [allParts]; simp [hx])) ws hws
    cases es' with
    | nil => simp [allBare] at hbares
    | cons e₁' es' =>
      exact ⟨e' :: e₁' :: es', .arg (he.looser (by decide)) (symbol_of_shape ht) hes,
        by rw [allBare, hbare, hbares]; rfl⟩

end

/-! ### Pieces of what can be printed -/

namespace Piece

def AllLexical (ps : List Piece) : Prop := ∀ p ∈ ps, p.Lexical

variable {p : Piece} {ps qs : List Piece}

theorem allLexical_nil : AllLexical [] := by simp [AllLexical]

theorem AllLexical.cons (h : p.Lexical) (hs : AllLexical ps) : AllLexical (p :: ps) :=
  List.forall_mem_cons.mpr ⟨h, hs⟩

theorem AllLexical.append (h : AllLexical ps) (h' : AllLexical qs) : AllLexical (ps ++ qs) :=
  List.forall_mem_append.mpr ⟨h, h'⟩

theorem AllLexical.parenthesised (h : AllLexical ps) : AllLexical (parenthesised ps) :=
  .cons trivial (h.append (.cons trivial allLexical_nil))

theorem lexical_infix (op : InfixOp) : op.piece.Lexical := by
  cases op with
  | binary op =>
    cases op with
    | arithmetic a => cases a <;> trivial
    | relation r => cases r <;> trivial
    | logic l => cases l <;> exact ⟨_, _, rfl, rfl, rfl⟩
  | assign op =>
    cases op with
    | none => trivial
    | some a => cases a <;> trivial

theorem lexical_unary (op : UnaryOp) : op.piece.Lexical := by cases op <;> trivial

end Piece

open Piece (allLexical_nil)

mutual

theorem Expr.lexical_pieces : (e : Expr) → e.Printable → Piece.AllLexical e.pieces
  | .integer span value, h =>
    .parenthesised (.cons (h (.integer span value) (by simp [parts])).1 allLexical_nil)
  | .float .., _ => allLexical_nil
  | .string span content, h =>
    .parenthesised (.cons (h (.string span content) (by simp [parts])).1 allLexical_nil)
  | .var span name, h =>
    .parenthesised (.cons (h (.var span name) (by simp [parts])).1.1 allLexical_nil)
  | .call _ callee args, h =>
    .parenthesised (.append (lexical_pieces callee fun x hx => h x (by simp [parts, hx]))
      (.cons trivial (.append (lexical_allPieces args fun x hx => h x (by simp [parts, hx]))
        (.cons trivial allLexical_nil))))
  | .binary _ op lhs rhs, h =>
    .parenthesised (.append (lexical_pieces lhs fun x hx => h x (by simp [parts, hx]))
      (.cons (Piece.lexical_infix _) (lexical_pieces rhs fun x hx => h x (by simp [parts, hx]))))
  | .assign _ op target value, h =>
    .parenthesised (.append (lexical_pieces target fun x hx => h x (by simp [parts, hx]))
      (.cons (Piece.lexical_infix _) (lexical_pieces value fun x hx => h x (by simp [parts, hx]))))
  | .unary _ op operand, h =>
    .parenthesised (.cons (Piece.lexical_unary op) (lexical_pieces operand fun x hx =>
      h x (by simp [parts, hx])))
  | .field span base name, h =>
    .parenthesised (.append (lexical_pieces base fun x hx => h x (by simp [parts, hx]))
      (.cons trivial (.cons (h (.field span base name) (by simp [parts])).1.1 allLexical_nil)))
  | .addressOf _ inner, h | .dereference _ inner, h =>
    .parenthesised (.append (lexical_pieces inner fun x hx => h x (by simp [parts, hx]))
      (.cons trivial allLexical_nil))
  | .sizeOf _ inner, h =>
    .parenthesised (.cons ⟨_, _, rfl, rfl, rfl⟩
      (.parenthesised (lexical_pieces inner fun x hx => h x (by simp [parts, hx]))))

theorem Expr.lexical_allPieces :
    (es : List Expr) → (∀ x ∈ allParts es, x.Sound ∧ x.isFloat = false) →
    Piece.AllLexical (allPieces es)
  | [], _ => allLexical_nil
  | [e], h => lexical_pieces e fun x hx => h x (by simp [allParts, hx])
  | e :: e₁ :: es, h =>
    .append (lexical_pieces e fun x hx => h x (by simp [allParts, hx]))
      (.cons trivial (lexical_allPieces (e₁ :: es) fun x hx => h x (by rw [allParts]; simp [hx])))

end

/-! ### Statements -/

def Statement.leadingType? : Statement → Option String
  | .declare _ type _ _ => some type.name
  | _ => none

mutual

/-- The statement can be printed, its expressions aside: what it declares is named properly, and
each `else` finds its `if` again. -/
def Statement.Fits (types : List String) : Statement → Prop
  | .ret .. | .expression .. => True
  | .declare _ type name _ => type.name ∈ types ∧ IsName type.name ∧
    (type.name ≠ "if" ∧ type.name ≠ "while" ∧ type.name ≠ "return") ∧
    IsName name.text ∧ (keywords.contains name.text || builtinTypes.contains name.text) = false
  | .block _ body => Statement.AllFit types body
  | .ifThen _ _ yes => yes.Fits types
  | .ifThenElse _ _ yes no => yes.Fits types ∧ yes.dangling = false ∧ no.Fits types
  | .loop _ _ body => body.Fits types

def Statement.AllFit (types : List String) : List Statement → Prop
  | [] => True
  | s :: rest => s.Fits types ∧ Statement.AllFit types rest ∧
    (s.dangling = true → rest.head?.bind Statement.leadingType? ≠ some "else")

end

def Passage.Fits (types : List String) : Passage → Prop
  | .one s => s.Fits types
  | .many ss => Statement.AllFit types ss

theorem DeclarationWritten.leading (h : DeclarationWritten types (type, name, init, span) ts) :
    ∃ t us, ts = t :: us ∧ t.kind = .identifier ∧ t.text = type.name ∧ t.text ∈ types := by
  cases h with
  | plain written | initialised written =>
    obtain ⟨kind, known, -⟩ := written
    exact ⟨_, _, rfl, kind, rfl, known⟩

theorem DeclarationWritten.named (h : DeclarationWritten types (type, name, init, span) ts) :
    ∃ t ∈ ts, t.kind = .identifier ∧ t.text = name.text ∧
      (keywords.contains name.text || builtinTypes.contains name.text) = false := by
  cases h with
  | plain _ written | initialised _ written =>
    obtain ⟨kind, free⟩ := written
    exact ⟨_, by simp, kind, rfl, free⟩

theorem StatementWritten.leading (h : StatementWritten types (.many ss) ts)
    (hs : ss.head?.bind Statement.leadingType? = some text) :
    ∃ t ∈ ts.head?, t.kind = .identifier ∧ t.text = text := by
  cases h with
  | nil => cases hs
  | cons first =>
    rw [List.head?_cons, Option.bind_some] at hs
    cases first with
    | declare declaration =>
      obtain ⟨t, us, rfl, hkind, htext, -⟩ := declaration.leading
      exact ⟨t, rfl, hkind, htext.trans (Option.some.inj hs)⟩
    | _ => cases hs

theorem StatementWritten.fits (h : StatementWritten types passage ts) (lexed : ∀ t ∈ ts, t.Lexed) :
    passage.Fits types := by
  induction h with
  | ret | retValue | expression | nil => trivial
  | declare declaration start =>
    obtain ⟨t, us, rfl, hkind, htext, known⟩ := declaration.leading
    obtain ⟨t', hmem, hkind', htext', hfree⟩ := declaration.named
    obtain ⟨hif, hwhile, hreturn⟩ := start
    refine ⟨htext ▸ known, htext ▸ (lexed t (by simp)).isName hkind,
      htext ▸ ⟨?_, ?_, ?_⟩, ?_, hfree⟩
    · exact hif t rfl hkind
    · exact hwhile t rfl hkind
    · exact hreturn t rfl hkind
    · exact htext' ▸ (lexed t' hmem).isName hkind'
  | block opened statements closed ih => exact ih fun t ht => lexed t (by simp [ht])
  | ifThen word opened condition closed yes ih => exact ih fun t ht => lexed t (by simp [ht])
  | loop word opened condition closed repeated ih => exact ih fun t ht => lexed t (by simp [ht])
  | ifThenElse word opened condition closed yes complete word' no ihy ihn =>
    exact ⟨ihy fun t ht => lexed t (by simp [ht]), complete, ihn fun t ht => lexed t (by simp [ht])⟩
  | cons first others apart ih ihs =>
    refine ⟨ih fun t ht => lexed t (by simp [ht]), ihs fun t ht => lexed t (by simp [ht]),
      fun hopen helse => ?_⟩
    obtain ⟨t, ht, hkind, htext⟩ := others.leading helse
    exact apart hopen t ht hkind htext

theorem Statement.dangling_bare (s : Statement) : s.bare.dangling = s.dangling := by
  cases s with
  | ifThenElse _ _ _ no => exact dangling_bare no
  | loop _ _ repeated => exact dangling_bare repeated
  | ret | expression | declare | block | ifThen => rfl

theorem Expr.head_pieces (e : Expr) :
    e.pieces = [] ∨ ∃ ps, e.pieces = .symbol .openParen :: ps := by
  cases e with
  | float => exact .inl rfl
  | _ => exact .inr ⟨_, rfl⟩

theorem Statement.head_pieces (s : Statement) :
    ∃ p ps, s.pieces = p :: ps ∧ (p = .word "else" → s.leadingType? = some "else") := by
  cases s with
  | ret span value => cases value <;> exact ⟨_, _, rfl, by simp⟩
  | expression span e =>
    rcases e.head_pieces with h | ⟨ps, h⟩
    · exact ⟨.symbol .semicolon, [], by rw [pieces, h]; rfl, by simp⟩
    · exact ⟨.symbol .openParen, _, by rw [pieces, h]; rfl, by simp⟩
  | declare span type name init =>
    cases init <;> exact ⟨.word type.name, _, rfl, by simp [leadingType?]⟩
  | block | ifThen | ifThenElse | loop => exact ⟨_, _, rfl, by simp⟩

theorem Spells.condition {e : Expr} (h : Spells ts (Piece.parenthesised e.pieces))
    (he : e.Printable) :
    ∃ t₁ us t₂ e', ts = t₁ :: (us ++ [t₂]) ∧ t₁.kind = .symbol .openParen ∧
    Written (.expr 1 e') us ∧ t₂.kind = .symbol .closeParen ∧ e'.bare = e.bare := by
  obtain ⟨t₁, us, t₂, rfl, opened, hus, closed⟩ := h.parenthesised
  obtain ⟨e', he', hbare⟩ := e.readsBack he us hus
  exact ⟨t₁, us, t₂, e', rfl, opened, he'.looser (by decide), closed, hbare⟩

theorem Spells.type {type : TypeName} (h : Spells ts type.pieces) (known : type.name ∈ types) :
    ∃ type', TypeWritten types type' ts ∧ type'.bare = type.bare := by
  obtain ⟨t, ms, rfl, ht, hms⟩ := h.cons
  obtain ⟨hkind, htext⟩ := isWord_of_shape ht
  have hmap : ms.map Token.shape = List.replicate type.references
      (Piece.symbol .ampersand).shape := by
    rw [hms, List.map_replicate]
  have hlength : ms.length = type.references := by simpa using congrArg List.length hmap
  have hmarks : ∀ m ∈ ms, m.kind = .symbol .ampersand := by
    intro m hm
    have hmem : m.shape ∈ List.replicate type.references (Piece.symbol .ampersand).shape :=
      hmap ▸ List.mem_map_of_mem hm
    exact symbol_of_shape (List.eq_of_mem_replicate hmem)
  refine ⟨_, .mk hkind (htext ▸ known) hmarks, ?_⟩
  rw [TypeName.bare, TypeName.bare, htext, hlength]

theorem Spells.unlike {type : TypeName} (h : Spells us type.pieces) (hne : type.name ≠ word) :
    Unlike word (us ++ vs) :=
  fun _ ht _ => (isWord_of_shape (h.head ht)).text ▸ hne

def Statement.Printable (s : Statement) : Prop := ∀ x ∈ s.parts, x.Sound ∧ x.isFloat = false

section
variable {types : List String}

mutual

theorem Statement.readsBack : (s : Statement) → s.Fits types → s.Printable → (ts : List Token) →
    Spells ts s.pieces → ∃ s', StatementWritten types (.one s') ts ∧ s'.bare = s.bare
  | .ret _ none, _, _, ts, hts => by
    obtain ⟨t, us, rfl, ht, hus⟩ := hts.cons
    obtain ⟨t', rfl, ht'⟩ := hus.singleton
    exact ⟨_, .ret (isWord_of_shape ht) (symbol_of_shape ht'), rfl⟩
  | .ret _ (some e), _, h, ts, hts => by
    obtain ⟨t, us, rfl, ht, hus⟩ := hts.cons
    obtain ⟨vs, ws, rfl, hvs, hws⟩ := hus.append
    obtain ⟨t', rfl, ht'⟩ := hws.singleton
    obtain ⟨e', he, hbare⟩ := e.readsBack h vs hvs
    exact ⟨_, .retValue (isWord_of_shape ht) (he.looser (by decide)) (symbol_of_shape ht'),
      by simp [bare, hbare]⟩
  | .expression _ e, _, h, ts, hts => by
    obtain ⟨us, vs, rfl, hus, hvs⟩ := hts.append
    obtain ⟨t', rfl, ht'⟩ := hvs.singleton
    obtain ⟨e', he, hbare⟩ := e.readsBack h us hus
    refine ⟨_, .expression (he.looser (by decide)) (fun t ht hkind => ?_) (symbol_of_shape ht'),
      by simp [bare, hbare]⟩
    -- Unless it prints as nothing, an expression prints with a parenthesis first, so it is no
    -- declaration.
    rcases e.head_pieces with hnil | ⟨ps, hcons⟩
    · rw [hnil] at hus
      rw [hus.nil] at ht
      cases ht
    · rw [hcons] at hus
      rw [← List.append_nil us] at ht
      rw [symbol_of_shape (hus.head ht)] at hkind
      cases hkind
  | .declare _ type name none, hfits, _, ts, hts => by
    obtain ⟨known, -, start, -, free⟩ := hfits
    obtain ⟨us, vs, rfl, hus, hvs⟩ := hts.append
    obtain ⟨t, ws, rfl, ht, hws⟩ := hvs.cons
    obtain ⟨t', rfl, ht'⟩ := hws.singleton
    obtain ⟨type', htype, hbare⟩ := hus.type known
    obtain ⟨hkind, htext⟩ := isWord_of_shape ht
    have hname := NameWritten.mk hkind (htext ▸ free)
    refine ⟨_, .declare (.plain htype hname (symbol_of_shape ht')) ?_,
      by simp [bare, hbare, Name.bare, htext]⟩
    exact ⟨hus.unlike start.1, hus.unlike start.2.1, hus.unlike start.2.2⟩
  | .declare _ type name (some e), hfits, h, ts, hts => by
    obtain ⟨known, -, start, -, free⟩ := hfits
    obtain ⟨us, vs, rfl, hus, hvs⟩ := hts.append
    obtain ⟨t, ws, rfl, ht, hws⟩ := hvs.cons
    obtain ⟨t₁, xs, rfl, ht₁, hxs⟩ := hws.cons
    obtain ⟨ys, zs, rfl, hys, hzs⟩ := hxs.append
    obtain ⟨t', rfl, ht'⟩ := hzs.singleton
    obtain ⟨type', htype, hbare⟩ := hus.type known
    obtain ⟨e', he, hbareInit⟩ := e.readsBack h ys hys
    obtain ⟨hkind, htext⟩ := isWord_of_shape ht
    have hname := NameWritten.mk hkind (htext ▸ free)
    have hdeclaration := DeclarationWritten.initialised htype hname (symbol_of_shape ht₁)
      (he.looser (by decide)) (symbol_of_shape ht')
    refine ⟨_, .declare hdeclaration ?_, by simp [bare, hbare, hbareInit, Name.bare, htext]⟩
    exact ⟨hus.unlike start.1, hus.unlike start.2.1, hus.unlike start.2.2⟩
  | .block _ body, hfits, h, ts, hts => by
    obtain ⟨t, us, rfl, ht, hus⟩ := hts.cons
    obtain ⟨vs, ws, rfl, hvs, hws⟩ := hus.append
    obtain ⟨t', rfl, ht'⟩ := hws.singleton
    obtain ⟨body', hbody, hbare⟩ := allReadBack body hfits h vs hvs
    exact ⟨_, .block (symbol_of_shape ht) hbody (symbol_of_shape ht'), by rw [bare, bare, hbare]⟩
  | .ifThen _ condition yes, hfits, h, ts, hts => by
    obtain ⟨t, us, rfl, ht, hus⟩ := hts.cons
    obtain ⟨vs, ws, rfl, hvs, hws⟩ := hus.append
    obtain ⟨t₁, vs, t₂, e', rfl, opened, he, closed, hbare⟩ :=
      hvs.condition fun x hx => h x (by simp [parts, hx])
    obtain ⟨yes', hyes, hbareYes⟩ :=
      readsBack yes hfits (fun x hx => h x (by simp [parts, hx])) ws hws
    exact ⟨_, by simpa using StatementWritten.ifThen (isWord_of_shape ht) opened he closed hyes,
      by simp [bare, hbare, hbareYes]⟩
  | .ifThenElse _ condition yes no, hfits, h, ts, hts => by
    obtain ⟨hyesFits, hcomplete, hnoFits⟩ := hfits
    obtain ⟨t, us, rfl, ht, hus⟩ := hts.cons
    obtain ⟨vs, ws, rfl, hvs, hws⟩ := hus.append
    obtain ⟨xs, ys, rfl, hxs, hys⟩ := hws.append
    obtain ⟨t₃, zs, rfl, ht₃, hzs⟩ := hys.cons
    obtain ⟨t₁, vs, t₂, e', rfl, opened, he, closed, hbare⟩ :=
      hvs.condition fun x hx => h x (by simp [parts, hx])
    obtain ⟨yes', hyes, hbareYes⟩ :=
      readsBack yes hyesFits (fun x hx => h x (by simp [parts, hx])) xs hxs
    obtain ⟨no', hno, hbareNo⟩ :=
      readsBack no hnoFits (fun x hx => h x (by simp [parts, hx])) zs hzs
    -- Whether a branch is complete does not depend on its spans.
    have hcomplete' : yes'.dangling = false := by
      rw [← dangling_bare, hbareYes, dangling_bare, hcomplete]
    have hwritten := StatementWritten.ifThenElse (isWord_of_shape ht) opened he closed hyes
      hcomplete' (isWord_of_shape ht₃) hno
    exact ⟨_, by simpa using hwritten, by simp [bare, hbare, hbareYes, hbareNo]⟩
  | .loop _ condition body, hfits, h, ts, hts => by
    obtain ⟨t, us, rfl, ht, hus⟩ := hts.cons
    obtain ⟨vs, ws, rfl, hvs, hws⟩ := hus.append
    obtain ⟨t₁, vs, t₂, e', rfl, opened, he, closed, hbare⟩ :=
      hvs.condition fun x hx => h x (by simp [parts, hx])
    obtain ⟨body', hbody, hbareBody⟩ :=
      readsBack body hfits (fun x hx => h x (by simp [parts, hx])) ws hws
    exact ⟨_, by simpa using StatementWritten.loop (isWord_of_shape ht) opened he closed hbody,
      by simp [bare, hbare, hbareBody]⟩

theorem Statement.allReadBack : (ss : List Statement) → AllFit types ss →
    (∀ x ∈ allParts ss, x.Sound ∧ x.isFloat = false) →
    (ts : List Token) → Spells ts (allPieces ss) → ∃ ss', StatementWritten types (.many ss') ts ∧
    allBare ss' = allBare ss
  | [], _, _, ts, hts => ⟨[], hts.nil ▸ .nil, rfl⟩
  | s :: ss, hfits, h, ts, hts => by
    obtain ⟨hfit, hfits, hapart⟩ := hfits
    obtain ⟨us, vs, rfl, hus, hvs⟩ := hts.append
    obtain ⟨s', hs, hbare⟩ := readsBack s hfit (fun x hx => h x (by simp [allParts, hx])) us hus
    obtain ⟨ss', hss, hbares⟩ :=
      allReadBack ss hfits (fun x hx => h x (by simp [allParts, hx])) vs hvs
    refine ⟨s' :: ss', .cons hs hss fun hopen t ht hkind htext => ?_,
      by rw [allBare, allBare, hbare, hbares]⟩
    rw [← dangling_bare, hbare, dangling_bare] at hopen
    cases ss with
    | nil =>
      rw [hvs.nil] at ht
      cases ht
    | cons s₁ ss =>
      obtain ⟨p, ps, hpieces, helse⟩ := s₁.head_pieces
      rw [allPieces, hpieces, List.cons_append] at hvs
      rw [← List.append_nil vs] at ht
      have hshape : p.shape = (.identifier, "else") := by
        rw [← hvs.head ht, Token.shape, hkind, htext]
      refine hapart hopen (helse ?_)
      cases p with
      | word text => exact congrArg Piece.word (Prod.mk.inj hshape).2
      | _ => cases hshape

end

theorem TypeName.lexical_pieces {type : TypeName} (h : IsName type.name) :
    Piece.AllLexical type.pieces := by
  refine .cons h fun p hp => ?_
  rw [List.eq_of_mem_replicate hp]
  trivial

mutual

theorem Statement.lexical_pieces : (s : Statement) → s.Fits types → s.Printable →
    Piece.AllLexical s.pieces
  | .ret _ none, _, _ => .cons ⟨_, _, rfl, rfl, rfl⟩ (.cons trivial allLexical_nil)
  | .ret _ (some e), _, h =>
    .cons ⟨_, _, rfl, rfl, rfl⟩ (.append (e.lexical_pieces h) (.cons trivial allLexical_nil))
  | .expression _ e, _, h => .append (e.lexical_pieces h) (.cons trivial allLexical_nil)
  | .declare _ type name none, hfits, _ =>
    .append (TypeName.lexical_pieces hfits.2.1) (.cons hfits.2.2.2.1 (.cons trivial allLexical_nil))
  | .declare _ type name (some e), hfits, h =>
    .append (TypeName.lexical_pieces hfits.2.1)
      (.cons hfits.2.2.2.1 (.cons trivial
        (.append (e.lexical_pieces h) (.cons trivial allLexical_nil))))
  | .block _ body, hfits, h =>
    .cons trivial (.append (lexical_allPieces body hfits h) (.cons trivial allLexical_nil))
  | .ifThen _ condition yes, hfits, h | .loop _ condition yes, hfits, h =>
    .cons ⟨_, _, rfl, rfl, rfl⟩
      (.append (.parenthesised (condition.lexical_pieces fun x hx => h x (by simp [parts, hx])))
      (lexical_pieces yes hfits fun x hx => h x (by simp [parts, hx])))
  | .ifThenElse _ condition yes no, hfits, h =>
    .cons ⟨_, _, rfl, rfl, rfl⟩
      (.append (.parenthesised (condition.lexical_pieces fun x hx => h x (by simp [parts, hx])))
      (.append (lexical_pieces yes hfits.1 fun x hx => h x (by simp [parts, hx]))
        (.cons ⟨_, _, rfl, rfl, rfl⟩ (lexical_pieces no hfits.2.2 fun x hx =>
          h x (by simp [parts, hx])))))

theorem Statement.lexical_allPieces : (ss : List Statement) → AllFit types ss →
    (∀ x ∈ allParts ss, x.Sound ∧ x.isFloat = false) → Piece.AllLexical (allPieces ss)
  | [], _, _ => allLexical_nil
  | s :: ss, hfits, h =>
    .append (lexical_pieces s hfits.1 fun x hx => h x (by simp [allParts, hx]))
      (lexical_allPieces ss hfits.2.1 fun x hx => h x (by simp [allParts, hx]))

end

end

/-! ### The round trip -/

/-- The token ahead, if there is one, was read off a text. -/
def Parser.Genuine (p : Parser) : Prop := ∀ t ∈ p.ahead, t.Lexed

theorem Parser.Genuine.lexed {p : Parser} (h : p.Genuine) (ht : t ∈ p.tokens) : t.Lexed := by
  rcases List.mem_append.mp ht with hahead | hcursor
  · exact h t (Option.mem_toList.mp hahead)
  · exact Cursor.lexed_of_mem_tokens hcursor

/-- Printing a statement that was parsed anywhere in a text, without floats, and parsing it again
with the same types takes all that was printed and gives the same statement but for places. -/
theorem printed_parses {p q : Parser} {s : Statement} (genuine : p.Genuine)
    (parsed : Parse.statement p = .ok s q) (floatless : ∀ e ∈ s.parts, e.isFloat = false) :
    ∃ s' q' r, Parse.statement ⟨.start s.printed, none, p.typeNames⟩ = .ok s' q' ∧
    s'.bare = s.bare ∧ Parse.peek q' = .ok none r := by
  obtain ⟨ts, past, written, -⟩ := (Parse.statement_written p).ok parsed
  have hlexed : ∀ t ∈ ts, t.Lexed :=
    fun t ht => genuine.lexed (by rw [past.tokens]; exact List.mem_append_left _ ht)
  have hprintable : s.Printable := by
    intro x hx
    obtain ⟨us, hpart, hwritten⟩ := written.part hx
    exact ⟨hwritten.sound fun t ht => hlexed t (hpart.subset ht), floatless x hx⟩
  have hfits : s.Fits p.typeNames := written.fits hlexed
  obtain ⟨hshapes, hlexes⟩ := Piece.tokens_spaced (s.lexical_pieces hfits hprintable)
  obtain ⟨s', hwritten, hbare⟩ := s.readsBack hfits hprintable _ hshapes
  have hsees : (⟨.start s.printed, none, p.typeNames⟩ : Parser).Sees
      ((Cursor.start s.printed).tokens ++ []) p.typeNames :=
    ⟨by simp [Parser.tokens], hlexes, rfl⟩
  obtain ⟨q', hparsed, hq'⟩ := Parse.statement_of_written hwritten hsees fun _ t ht => by cases ht
  obtain ⟨r, hpeek, -⟩ := Parse.peek_sees hq'
  exact ⟨s', q', r, hparsed, hbare, hpeek⟩

def Parser.atNestedIf : Parser :=
  ⟨.start "if (a) if (b < -3) { vec& v = w&; } else f(1, 'say \"no\"').x@ += sizeof(a) * 2;".toList,
    none, "vec" :: builtinTypes⟩

def nestedIfPrinted : List Char :=
  ("if ( ( a ) ) if ( ( ( b ) < ( - ( 3 ) ) ) ) \x7b vec & v = ( ( w ) & ) ; \x7d else " ++
    "( ( ( ( ( f ) ( ( 1 ) , ( 'say \"no\"' ) ) ) . x ) @ ) += ( ( sizeof ( ( a ) ) ) * ( 2 ) ) ) ;").toList

theorem printed_parses_atNestedIf : ∃ s, (∃ q, Parse.statement Parser.atNestedIf = .ok s q) ∧
    s.printed = nestedIfPrinted ∧ (∀ e ∈ s.parts, e.isFloat = false) ∧
    ∃ s' q' r, Parse.statement ⟨.start s.printed, none, Parser.atNestedIf.typeNames⟩ = .ok s' q' ∧
    s'.bare = s.bare ∧ Parse.peek q' = .ok none r := by
  have hparses : ((Parse.statement.run' Parser.atNestedIf).any fun s =>
      decide (s.printed = nestedIfPrinted) && s.parts.all fun e => !e.isFloat) = true := by
    decide +kernel
  cases hrun : Parse.statement.run' Parser.atNestedIf with
  | none => simp [hrun] at hparses
  | some s =>
    rw [hrun, Option.any_some, Bool.and_eq_true, decide_eq_true_eq, List.all_eq_true] at hparses
    obtain ⟨q, hq⟩ := run'_eq_some.mp hrun
    have hfloatless : ∀ e ∈ s.parts, e.isFloat = false := fun e he => by simpa using hparses.2 e he
    exact ⟨s, ⟨q, hq⟩, hparses.1, hfloatless,
      printed_parses (fun t ht => by cases ht) hq hfloatless⟩

end WordScript
