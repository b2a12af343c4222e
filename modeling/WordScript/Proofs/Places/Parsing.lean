import WordScript.Proofs.Grammar.Reading
import WordScript.Proofs.Grammar.Statements
import WordScript.Proofs.Places.Checks

/-!
# Parsing without places

Two texts with the same tokens, wherever those are, parse to trees with the same bare form, or
neither parses, for the same cause. Both parsers take the same steps: they look at kinds and texts
of tokens only. The steps that either is allowed depend on the length of its text, but more of them
would change nothing (`Reads.allowance`).
-/

namespace WordScript

/-- Two parsers that see the same, but for places. -/
structure Parser.Alike (p p' : Parser) : Prop where
  tokens : p.tokens.map Token.shape = p'.tokens.map Token.shape
  ahead : p.ahead.map Token.shape = p'.ahead.map Token.shape
  types : p.typeNames = p'.typeNames
  lexes : p.cursor.Lexes
  lexes' : p'.cursor.Lexes

theorem Parser.Alike.currentText {p p' : Parser} (h : p.Alike p') :
    p.currentText = p'.currentText := by
  have htext : ∀ q : Parser, q.currentText = (q.ahead.map Token.shape).elim "" (·.2) := by
    intro q
    rw [Parser.currentText]
    cases q.ahead <;> rfl
  rw [htext, htext, h.ahead]

/-! ### Two parsers side by side -/

namespace Parse

/-- On parsers that are alike, both succeed with what looks the same and leave the parsers alike, or
both fail for the same cause. -/
def Reads {α γ : Type} (view : α → γ) (x y : Parse α) : Prop :=
  ∀ p p' : Parser, p.Alike p' →
    (∃ a b q q', x p = .ok a q ∧ y p' = .ok b q' ∧ view a = view b ∧ q.Alike q') ∨
      ∃ e e' q q', x p = .error e q ∧ y p' = .error e' q' ∧ e.cause = e'.cause ∧
      e.contexts = e'.contexts

section
variable {α β γ δ : Type} {view : α → γ} {view' : β → δ}

namespace Reads

theorem bind {x y : Parse α} {f g : α → Parse β} (h : Reads view x y)
    (hf : ∀ a b, view a = view b → Reads view' (f a) (g b)) : Reads view' (x >>= f) (y >>= g) := by
  intro p p' hp
  rcases h p p' hp with ⟨a, b, q, q', hx, hy, hab, hq⟩ | ⟨e, e', q, q', hx, hy, he⟩
  · simp only [Bind.bind, EStateM.bind, hx, hy]
    exact hf a b hab q q' hq
  · exact .inr ⟨e, e', q, q', by simp only [Bind.bind, EStateM.bind, hx],
      by simp only [Bind.bind, EStateM.bind, hy], he⟩

theorem same {x y : Parse α} {f g : α → Parse β} (h : Reads id x y)
    (hf : ∀ a, Reads view' (f a) (g a)) : Reads view' (x >>= f) (y >>= g) := by
  refine bind h fun a b hab => ?_
  obtain rfl : a = b := hab
  exact hf a

theorem pure (h : view a = view b) : Reads view (pure a) (Pure.pure b) :=
  fun p p' hp => .inl ⟨a, b, p, p', rfl, rfl, h, hp⟩

theorem map {x y : Parse α} {f g : α → β} (h : Reads view x y)
    (hf : ∀ a b, view a = view b → view' (f a) = view' (g b)) :
    Reads view' (f <$> x) (g <$> y) := by
  rw [map_eq_pure_bind, map_eq_pure_bind]
  exact bind h fun a b hab => pure (hf a b hab)

theorem within {x y : Parse α} (h : Reads view x y) :
    Reads view (within context x) (WordScript.within context y) := by
  intro p p' hp
  rcases h p p' hp with ⟨a, b, q, q', hx, hy, hab⟩ | ⟨e, e', q, q', hx, hy, hcause, hcontexts⟩
  · exact .inl ⟨a, b, q, q', by simp only [WordScript.within, hx],
      by simp only [WordScript.within, hy], hab⟩
  · refine .inr ⟨e.within context, e'.within context, q, q', by simp only [WordScript.within, hx],
      by simp only [WordScript.within, hy], hcause, ?_⟩
    simp only [Fault.within, hcontexts]

theorem failAt : Reads view (failAt span cause) (Parse.failAt span' cause) :=
  fun p p' _ => .inr ⟨_, _, p, p', rfl, rfl, rfl, rfl⟩

theorem reject : Reads view (reject cause) (Parse.reject cause) :=
  fun p p' _ => .inr ⟨_, _, p, p', rfl, rfl, rfl, rfl⟩

theorem reject_bind {f g : α → Parse β} :
    Reads view' (Parse.reject cause >>= f) (Parse.reject cause >>= g) :=
  fun p p' _ => .inr ⟨_, _, p, p', rfl, rfl, rfl, rfl⟩

theorem get {f g : Parser → Parse β} (h : ∀ p p' : Parser, p.Alike p' → Reads view' (f p) (g p')) :
    Reads view' (get >>= f) (MonadState.get >>= g) := fun p p' hp => h p p' hp p p' hp

/-- Each is given as many steps as its text allows, so both may be given as many. -/
theorem allowance {x : Nat → Parse α} (h : ∀ n, Reads view (x n) (x n))
    (enough : ∀ (p : Parser) n, p.allowance ≤ n → x n p = x p.allowance p) :
    Reads view (fun p => x p.allowance p) (fun p => x p.allowance p) := by
  intro p p' hp
  have hboth := h (max p.allowance p'.allowance) p p' hp
  rwa [enough p _ (Nat.le_max_left ..), enough p' _ (Nat.le_max_right ..)] at hboth

theorem allowance_bind {x : Nat → Parse α} {f g : α → Parse β} (h : ∀ n, Reads view (x n) (x n))
    (enough : ∀ (p : Parser) n, p.allowance ≤ n → x n p = x p.allowance p)
    (hf : ∀ a b, view a = view b → Reads view' (f a) (g b)) :
    Reads view' (do f (← x (← MonadState.get).allowance))
      (do g (← x (← MonadState.get).allowance)) := by
  have hall := bind (allowance h enough) hf
  exact hall

theorem currentSpan : Reads (fun _ => ()) currentSpan Parse.currentSpan :=
  fun p p' hp => .inl ⟨_, _, p, p', rfl, rfl, rfl, hp⟩

theorem currentText : Reads id currentText Parse.currentText :=
  fun p p' hp => .inl ⟨_, _, p, p', rfl, rfl, hp.currentText, hp⟩

theorem peek : Reads id peek Parse.peek := by
  intro p p' hp
  obtain ⟨q, hpeek, hq, hahead⟩ := peek_sees (p := p) ⟨rfl, hp.lexes, rfl⟩
  obtain ⟨q', hpeek', hq', hahead'⟩ := peek_sees (p := p') ⟨rfl, hp.lexes', rfl⟩
  have hhead : p.tokens.head?.map Token.shape = p'.tokens.head?.map Token.shape := by
    rw [← List.head?_map, ← List.head?_map, hp.tokens]
  refine .inl ⟨_, _, q, q', hpeek, hpeek', ?_, ?_, ?_, ?_, hq.lexes, hq'.lexes⟩
  · have hkind := congrArg (Option.map Prod.fst) hhead
    rwa [Option.map_map, Option.map_map] at hkind
  · rw [hq.tokens, hq'.tokens, hp.tokens]
  · rw [hahead, hahead', hhead]
  · rw [hq.types, hq'.types, hp.types]

theorem accept : Reads id accept Parse.accept := by
  intro p p' hp
  refine .inl ⟨(), (), _, _, rfl, rfl, rfl, ?_, rfl, hp.types, hp.lexes, hp.lexes'⟩
  have htokens : ∀ q : Parser, q.tokens.map Token.shape = (q.ahead.map Token.shape).toList ++
      q.cursor.tokens.map Token.shape := by
    intro q
    rw [Parser.tokens, List.map_append]
    cases q.ahead <;> rfl
  have hall := hp.tokens
  rw [htokens, htokens, hp.ahead] at hall
  exact List.append_cancel_left hall

theorem expectAny : Reads id (expectAny wanted) (Parse.expectAny wanted) := by
  refine get fun p p' _ => same peek fun kind => ?_
  cases kind with
  | none => exact failAt
  | some kind => exact pure rfl

theorem expect (kind : TokenKind) : Reads id (expect kind) (Parse.expect kind) := by
  refine same expectAny fun found => ?_
  split
  · exact reject
  · exact pure rfl

theorem symbol (s : Symbol) : Reads (fun _ => ()) (symbol s) (Parse.symbol s) :=
  same (expect _) fun _ => bind currentSpan fun _ _ _ => same accept fun _ => pure rfl

theorem keyword (word : String) : Reads id (keyword word) (Parse.keyword word) := by
  refine same (within (expect _)) fun _ => same currentText fun text => ?_
  split
  · exact reject_bind
  · exact accept

theorem peekSymbol (s : Symbol) : Reads id (peekSymbol s) (Parse.peekSymbol s) :=
  same peek fun _ => pure rfl

theorem peekKeyword (word : String) : Reads id (peekKeyword word) (Parse.peekKeyword word) :=
  same peek fun _ => same currentText fun _ => pure rfl

theorem peekTypeName : Reads id peekTypeName Parse.peekTypeName := by
  refine same peek fun _ => get fun p p' hp => ?_
  rw [hp.types, hp.currentText]
  exact pure rfl

theorem name : Reads Name.bare name Parse.name := by
  refine within (same (expect _) fun _ => same currentText fun text => ?_)
  split
  · exact reject_bind
  · refine get fun p p' hp => ?_
    have hahead := hp.ahead
    cases ht : p.ahead with
    | none =>
      rw [ht] at hahead
      rw [Option.map_eq_none_iff.mp hahead.symm]
      exact reject
    | some t =>
      rw [ht] at hahead
      obtain ⟨t', ht', hshape⟩ := Option.map_eq_some_iff.mp hahead.symm
      rw [ht']
      have htext : t'.text = t.text := congrArg Prod.snd hshape
      exact same accept fun _ => pure (by rw [Name.bare, Name.bare, htext])

theorem repeatWhile {more : Parse Bool} {body : Parse α} (hmore : Reads id more more)
    (hbody : Reads view body body) (n : Nat) :
    Reads (List.map view) (repeatWhile more body n) (Parse.repeatWhile more body n) := by
  induction n with
  | zero => exact reject
  | succ n ih =>
    refine same hmore fun go => ?_
    cases go with
    | false => exact pure rfl
    | true => exact bind hbody fun a b hab => bind ih fun as bs has => pure (by
        rw [List.map_cons, List.map_cons, hab, has])

theorem commaSeparated {item : Parse α} (hitem : Reads view item item) (n : Nat) :
    Reads (List.map view) (commaSeparated item n) (Parse.commaSeparated item n) := by
  induction n with
  | zero => exact reject
  | succ n ih =>
    refine bind hitem fun a b hab => same (peekSymbol _) fun comma => ?_
    cases comma with
    | false => exact pure (by rw [List.map_singleton, List.map_singleton, hab])
    | true => exact same accept fun _ => bind ih fun as bs has => pure (by
        rw [List.map_cons, List.map_cons, hab, has])

theorem typeName : Reads TypeName.bare typeName Parse.typeName := by
  refine within (same peekTypeName fun known => ?_)
  cases known with
  | false => exact same expectAny fun _ => reject_bind
  | true =>
    refine same currentText fun base => bind currentSpan fun _ _ _ => same accept fun _ =>
      allowance_bind
      (fun n => repeatWhile (peekSymbol _) (symbol _) n) (fun p n h => (marks_written p h).eq id)
      fun as bs has => pure ?_
    have hlength := congrArg List.length has
    rw [List.length_map, List.length_map] at hlength
    simp only [TypeName.bare, hlength]

/-! ### Expressions -/

theorem peekInfix : Reads id peekInfix Parse.peekInfix := by
  refine same peek fun kind => ?_
  cases kind with
  | none => exact pure rfl
  | some kind =>
    cases kind with
    | identifier => exact same currentText fun _ => pure rfl
    | integer | float | string | symbol => exact pure rfl

theorem peekPrefix : Reads id peekPrefix Parse.peekPrefix := by
  refine same peek fun kind => ?_
  cases kind with
  | none => exact pure rfl
  | some kind => cases kind <;> exact pure rfl

theorem literal {read? : List Char → Option Word} {node : Span → Word → Expr}
    (hnode : ∀ s s' w, (node s w).bare = (node s' w).bare) :
    Reads Expr.bare (literal read? node cause) (Parse.literal read? node cause) := by
  refine bind currentSpan fun s s' _ => same currentText fun text => ?_
  split
  · exact same accept fun _ => pure (hnode s s' _)
  · exact reject

end Reads

theorem bare_withSpan (e : Expr) (s : Span) : (e.withSpan s).bare = e.bare := by cases e <;> rfl

theorem bare_build {lhs lhs' rhs rhs' : Expr} (hl : lhs.bare = lhs'.bare)
    (hr : rhs.bare = rhs'.bare) (op : InfixOp) :
    (op.build lhs rhs).bare = (op.build lhs' rhs').bare := by
  cases op with
  | binary op => simp only [InfixOp.build, Expr.bare, hl, hr]
  | assign op => simp only [InfixOp.build, Expr.bare, hl, hr]

structure ExpressionsAgree (n : Nat) : Prop where
  expr : Reads Expr.bare (expr n) (expr n)
  operand : Reads Expr.bare (operand n) (operand n)
  suffixes : ∀ base base' : Expr, base.bare = base'.bare →
    Reads Expr.bare (suffixes n base) (suffixes n base')
  primary : Reads Expr.bare (primary n) (primary n)
  binary : ∀ lhs lhs' : Expr, ∀ least, lhs.bare = lhs'.bare →
    Reads Expr.bare (binary n lhs least) (binary n lhs' least)
  climb : ∀ outer, ∀ rhs rhs' : Expr, rhs.bare = rhs'.bare →
    Reads Expr.bare (climb n outer rhs) (climb n outer rhs')

namespace ExpressionsAgree

theorem operand_succ (ih : ExpressionsAgree n) :
    Reads Expr.bare (Parse.operand (n + 1)) (Parse.operand (n + 1)) := by
  refine .same .peekPrefix fun op => ?_
  cases op with
  | none => exact .bind ih.primary fun e e' he => ih.suffixes e e' he
  | some op =>
    exact .bind .currentSpan fun _ _ _ => .same .accept fun _ => .bind ih.operand fun e e' he =>
      .pure (by simp only [Expr.bare, he])

theorem suffixes_succ (ih : ExpressionsAgree n) {base base' : Expr}
    (hbase : base.bare = base'.bare) :
    Reads Expr.bare (Parse.suffixes (n + 1) base) (Parse.suffixes (n + 1) base') := by
  refine .same .peek fun kind => ?_
  have hstop : Reads Expr.bare (pure base) (pure base') := .pure hbase
  cases kind with
  | none => exact hstop
  | some kind =>
    cases kind with
    | identifier | integer | float | string => exact hstop
    | symbol s =>
      cases s
      case openParen =>
        have hargs : Reads (List.map Expr.bare)
            (within "parsing call arguments" do
              if ← peekSymbol .closeParen then return [] else commaSeparated (Parse.expr n) n)
            (within "parsing call arguments" do
              if ← peekSymbol .closeParen then return [] else commaSeparated (Parse.expr n) n) := by
          refine .within (.same (.peekSymbol _) fun none => ?_)
          cases none with
          | true => exact .pure rfl
          | false => exact .commaSeparated ih.expr n
        refine .same .accept fun _ => .bind hargs fun es es' hes => .bind (.symbol _) fun _ _ _ =>
          ih.suffixes _ _ ?_
        simp only [Expr.bare, Expr.allBare_eq, hbase, hes]
      case dot =>
        exact .same .accept fun _ => .bind .name fun f f' hf =>
          ih.suffixes _ _ (by simp only [Expr.bare, hbase, hf])
      case ampersand | commercialAt =>
        exact .bind .currentSpan fun _ _ _ => .same .accept fun _ =>
          ih.suffixes _ _ (by simp only [Expr.bare, hbase])
      all_goals exact hstop

theorem primary_succ (ih : ExpressionsAgree n) :
    Reads Expr.bare (Parse.primary (n + 1)) (Parse.primary (n + 1)) := by
  refine .within (.same .expectAny fun kind => ?_)
  cases kind with
  | integer => exact .literal fun _ _ _ => rfl
  | float => exact .literal fun _ _ _ => rfl
  | string =>
    exact .bind .currentSpan fun _ _ _ =>
      .same .currentText fun _ => .same .accept fun _ => .pure rfl
  | identifier =>
    refine .bind .currentSpan fun _ _ _ => .same .currentText fun text => ?_
    split
    · exact .same .accept fun _ => .bind (.symbol _) fun _ _ _ => .bind ih.expr fun e e' he =>
        .bind (.symbol _) fun _ _ _ =>
        .pure (by simp only [Expr.bare, he])
    split
    · exact .reject
    · exact .same .accept fun _ => .pure rfl
  | symbol s =>
    cases s
    case openParen =>
      exact .bind .currentSpan fun _ _ _ => .same .accept fun _ => .bind ih.expr fun e e' he =>
        .bind (.within (.symbol _)) fun _ _ _ => .pure (by rw [bare_withSpan, bare_withSpan, he])
    all_goals exact .reject

theorem binary_succ (ih : ExpressionsAgree n) {lhs lhs' : Expr} (hlhs : lhs.bare = lhs'.bare) :
    Reads Expr.bare (Parse.binary (n + 1) lhs least) (Parse.binary (n + 1) lhs' least) := by
  refine .same .peekInfix fun op => ?_
  cases op with
  | none => exact .pure hlhs
  | some op =>
    dsimp only
    split
    · exact .same .accept fun _ => .bind ih.operand fun v v' hv =>
        .bind (ih.climb _ v v' hv) fun rhs rhs' hrhs =>
        ih.binary _ _ _ (bare_build hlhs hrhs op)
    · exact .pure hlhs

theorem climb_succ (ih : ExpressionsAgree n) {rhs rhs' : Expr} (hrhs : rhs.bare = rhs'.bare) :
    Reads Expr.bare (Parse.climb (n + 1) outer rhs) (Parse.climb (n + 1) outer rhs') := by
  refine .same .peekInfix fun op => ?_
  cases op with
  | none => exact .pure hrhs
  | some op =>
    dsimp only
    split
    · exact .bind (ih.binary rhs rhs' _ hrhs) fun e e' he => ih.climb _ e e' he
    · exact .pure hrhs

end ExpressionsAgree

theorem expressionsAgree (n : Nat) : ExpressionsAgree n := by
  induction n with
  | zero => exact ⟨.reject, .reject, fun _ _ _ => .reject, .reject, fun _ _ _ _ => .reject,
      fun _ _ _ _ => .reject⟩
  | succ n ih =>
    exact ⟨.within (.bind ih.operand fun u u' hu => .within (ih.binary u u' _ hu)), ih.operand_succ,
      fun _ _ h => ih.suffixes_succ h, ih.primary_succ, fun _ _ _ h => ih.binary_succ h,
      fun _ _ _ h => ih.climb_succ h⟩

theorem expression_reads : Reads Expr.bare expression expression :=
  .allowance (fun n => (expressionsAgree n).expr) fun _ _ h => expr_of_allowance_le h

/-! ### Statements -/

def bareDeclaration (d : TypeName × Name × Option Expr × Span) : TypeName × Name × Option Expr :=
  (d.1.bare, d.2.1.bare, d.2.2.1.map Expr.bare)

theorem bareDeclaration_eq (h : bareDeclaration d = bareDeclaration d') :
    d.1.bare = d'.1.bare ∧ d.2.1.bare = d'.2.1.bare ∧
    d.2.2.1.map Expr.bare = d'.2.2.1.map Expr.bare := by
  simpa only [bareDeclaration, Prod.mk.injEq] using h

theorem value_reads : Reads (Option.map Expr.bare) (some <$> expression) (some <$> expression) :=
  .map expression_reads fun _ _ he => congrArg some he

theorem variableDeclaration_reads :
    Reads bareDeclaration variableDeclaration variableDeclaration := by
  refine .within (.bind .typeName fun t t' ht => .bind .name fun n n' hn =>
    .same (.peekSymbol _) fun given => ?_)
  have hrest : ∀ init init' : Option Expr, init.map Expr.bare = init'.map Expr.bare →
    Reads bareDeclaration (do let stop ← symbol .semicolon; return (t, n, init, t.span.join stop))
      (do let stop ← symbol .semicolon; return (t', n', init', t'.span.join stop)) :=
        fun init init' hinit =>
    .bind (.symbol _) fun _ _ _ => .pure (by simp only [bareDeclaration, ht, hn, hinit])
  cases given with
  | false => exact hrest none none rfl
  | true => exact .same .accept fun _ => .bind value_reads hrest

theorem condition_reads : Reads Expr.bare condition condition :=
  .bind (.symbol _) fun _ _ _ => .bind expression_reads fun _ _ he =>
    .bind (.symbol _) fun _ _ _ => .pure he

theorem expressionStatement_reads : Reads Statement.bare expressionStatement expressionStatement :=
  .bind expression_reads fun _ _ he => .bind (.symbol _) fun _ _ _ =>
    .pure (by simp only [Statement.bare, he])

theorem returnStatement_reads (start start' : Span) :
    Reads Statement.bare (returnStatement start) (returnStatement start') := by
  refine .same (.peekSymbol _) fun none => ?_
  have hrest : ∀ value value' : Option Expr, value.map Expr.bare = value'.map Expr.bare →
    Reads Statement.bare (do let stop ← symbol .semicolon; return .ret (start.join stop) value)
      (do let stop ← symbol .semicolon; return .ret (start'.join stop) value') :=
        fun value value' hvalue =>
    .bind (.symbol _) fun _ _ _ => .pure (by simp only [Statement.bare, hvalue])
  cases none with
  | true => exact hrest .none .none rfl
  | false => exact .bind value_reads hrest

structure StatementsAgree (n : Nat) : Prop where
  statement : Reads Statement.bare (statementWithin n) (statementWithin n)
  block : Reads (fun b => b.1.map Statement.bare) (blockWithin n) (blockWithin n)

theorem StatementsAgree.statement_succ (ih : StatementsAgree n) :
    Reads Statement.bare (statementWithin (n + 1)) (statementWithin (n + 1)) := by
  refine .within (.same .expectAny fun kind => ?_)
  cases kind with
  | integer | float | string => exact expressionStatement_reads
  | identifier =>
    refine .bind .currentSpan fun start start' _ => .same .currentText fun text => ?_
    split
    · refine .same .accept fun _ => .bind (.within condition_reads) fun e e' he =>
        .bind ih.statement fun yes yes' hyes =>
        .same (.peekKeyword _) fun more => ?_
      cases more with
      | false => exact .pure (by simp only [Statement.bare, he, hyes])
      | true =>
        exact .same .accept fun _ => .bind ih.statement fun no no' hno =>
          .pure (by simp only [Statement.bare, he, hyes, hno])
    · exact .same .accept fun _ => .bind (.within condition_reads) fun e e' he =>
        .bind ih.statement fun s s' hs =>
        .pure (by simp only [Statement.bare, he, hs])
    · exact .same .accept fun _ => returnStatement_reads start start'
    · refine .same .peekTypeName fun known => ?_
      cases known with
      | false => exact expressionStatement_reads
      | true =>
        refine .bind variableDeclaration_reads fun d d' hd => .pure ?_
        obtain ⟨htype, hname, hinit⟩ := bareDeclaration_eq hd
        simp only [Statement.bare, htype, hname, hinit]
  | symbol s =>
    cases s
    case openBrace =>
      refine .bind ih.block fun b b' hb => .pure ?_
      simp only [Statement.bare, Statement.allBare_eq, hb]
    all_goals exact expressionStatement_reads

theorem StatementsAgree.block_succ (ih : StatementsAgree n) :
    Reads (fun b => b.1.map Statement.bare) (blockWithin (n + 1)) (blockWithin (n + 1)) :=
  .within (.bind (.symbol _) fun _ _ _ =>
    .bind (.repeatWhile (.same .peek fun _ => .pure rfl) ih.statement n)
    fun _ _ hbody => .bind (.symbol _) fun _ _ _ => .pure hbody)

theorem statementsAgree (n : Nat) : StatementsAgree n := by
  induction n with
  | zero => exact ⟨.reject, .reject⟩
  | succ n ih => exact ⟨ih.statement_succ, ih.block_succ⟩

theorem statement_reads : Reads Statement.bare statement statement :=
  .allowance (fun n => (statementsAgree n).statement) fun _ _ h => statementWithin_of_allowance_le h

theorem block_reads : Reads (fun b => b.1.map Statement.bare) block block :=
  .allowance (fun n => (statementsAgree n).block) fun _ _ h => blockWithin_of_allowance_le h

end

end Parse

end WordScript
