import WordScript.Proofs.Grammar.Expressions

/-!
# The grammar of scripts

Which tokens types, declarations, statements, functions, structs and whole scripts are written with,
given the names of types that are known where they stand. What is parsed was written with the tokens
that were taken, and the steps that a parser is allowed suffice (`program_written`).
-/

namespace WordScript

/-! ### The grammar -/

inductive TypeWritten (types : List String) : TypeName → List Token → Prop
  | mk (kind : t.kind = .identifier) (known : t.text ∈ types)
      (marks : ∀ m ∈ ms, m.kind = .symbol .ampersand) :
      TypeWritten types ⟨t.text, ms.length, (ms.map Token.span).foldl Span.join t.span⟩ (t :: ms)

inductive NameWritten : Name → Token → Prop
  | mk (kind : t.kind = .identifier)
      (free : (keywords.contains t.text || builtinTypes.contains t.text) = false) :
      NameWritten ⟨t.text, t.span, t.position⟩ t

/-- A local or static variable: its type, name, initial value if any, and the span of it all. -/
inductive DeclarationWritten (types : List String) : TypeName × Name × Option Expr × Span →
    List Token → Prop
  | plain (type : TypeWritten types type' ts) (name : NameWritten name' t)
      (stop : t'.kind = .symbol .semicolon) :
      DeclarationWritten types (type', name', none, type'.span.join t'.span) (ts ++ [t, t'])
  | initialised (type : TypeWritten types type' ts) (name : NameWritten name' t)
      (equals : t₁.kind = .symbol .equals)
      (value : Written (.expr 1 e) us) (stop : t'.kind = .symbol .semicolon) :
      DeclarationWritten types (type', name', some e, type'.span.join t'.span)
        (ts ++ t :: t₁ :: (us ++ [t']))

/-- Whether an `else` after the statement would become part of it. -/
def Statement.dangling : Statement → Bool
  | .ifThen .. => true
  | .ifThenElse _ _ _ no => no.dangling
  | .loop _ _ repeated => repeated.dangling
  | _ => false

def Unlike (word : String) (ts : List Token) : Prop :=
  ∀ t ∈ ts.head?, t.kind = .identifier → t.text ≠ word

inductive Passage
  | one (s : Statement)
  | many (ss : List Statement)

structure Token.IsWord (t : Token) (word : String) : Prop where
  kind : t.kind = .identifier
  text : t.text = word

inductive StatementWritten (types : List String) : Passage → List Token → Prop
  | ret (word : t.IsWord "return") (stop : t'.kind = .symbol .semicolon) :
      StatementWritten types (.one (.ret (t.span.join t'.span) none)) [t, t']
  | retValue (word : t.IsWord "return") (value : Written (.expr 1 e) ts)
      (stop : t'.kind = .symbol .semicolon) :
      StatementWritten types (.one (.ret (t.span.join t'.span) (some e))) (t :: (ts ++ [t']))
  | expression (value : Written (.expr 1 e) ts)
      (start : ∀ t ∈ ts.head?, t.kind = .identifier → t.text ∉ types)
      (stop : t'.kind = .symbol .semicolon) :
      StatementWritten types (.one (.expression (e.span.join t'.span) e)) (ts ++ [t'])
  | declare (declaration : DeclarationWritten types (type, name, init, span) ts)
      (start : Unlike "if" ts ∧ Unlike "while" ts ∧ Unlike "return" ts) :
      StatementWritten types (.one (.declare span type name init)) ts
  | block (opened : t.kind = .symbol .openBrace) (statements : StatementWritten types (.many ss) ts)
      (closed : t'.kind = .symbol .closeBrace) :
      StatementWritten types (.one (.block (t.span.join t'.span) ss)) (t :: (ts ++ [t']))
  | ifThen (word : t.IsWord "if") (opened : t₁.kind = .symbol .openParen)
      (condition : Written (.expr 1 e) ts)
      (closed : t₂.kind = .symbol .closeParen) (yes : StatementWritten types (.one s) us) :
      StatementWritten types (.one (.ifThen (t.span.join s.span) e s)) (t :: t₁ :: (ts ++ t₂ :: us))
  | ifThenElse (word : t.IsWord "if") (opened : t₁.kind = .symbol .openParen)
      (condition : Written (.expr 1 e) ts)
      (closed : t₂.kind = .symbol .closeParen) (yes : StatementWritten types (.one s) us)
      (complete : s.dangling = false)
      (word' : t₃.IsWord "else") (no : StatementWritten types (.one s') vs) :
      StatementWritten types (.one (.ifThenElse (t.span.join s'.span) e s s'))
        (t :: t₁ :: (ts ++ t₂ :: (us ++ t₃ :: vs)))
  | loop (word : t.IsWord "while") (opened : t₁.kind = .symbol .openParen)
      (condition : Written (.expr 1 e) ts)
      (closed : t₂.kind = .symbol .closeParen) (repeated : StatementWritten types (.one s) us) :
      StatementWritten types (.one (.loop (t.span.join s.span) e s)) (t :: t₁ :: (ts ++ t₂ :: us))
  | nil : StatementWritten types (.many []) []
  | cons (first : StatementWritten types (.one s) ts) (rest : StatementWritten types (.many ss) us)
      (apart : s.dangling = true → Unlike "else" us) :
      StatementWritten types (.many (s :: ss)) (ts ++ us)

inductive FieldWritten (types : List String) : TypeName × Name → List Token → Prop
  | mk (type : TypeWritten types type' ts) (name : NameWritten name' t) :
      FieldWritten types (type', name') (ts ++ [t])

inductive FunctionWritten (types : List String) : FunctionDecl → List Token → Prop
  | mk (word : t.IsWord "func") (type : TypeWritten types type' ts) (name : NameWritten name' t₁)
      (opened : t₂.kind = .symbol .openParen)
      (params : params' = [] ∧ us = [] ∨ Parse.Separated (FieldWritten types) params' us)
      (closed : t₃.kind = .symbol .closeParen) (openedBody : t₄.kind = .symbol .openBrace)
      (statements : StatementWritten types (.many ss) vs)
      (closedBody : t₅.kind = .symbol .closeBrace) :
      FunctionWritten types ⟨name', type', params', ss⟩
        (t :: (ts ++ t₁ :: t₂ :: (us ++ t₃ :: t₄ :: (vs ++ [t₅]))))

inductive MembersWritten (types : List String) : List Parse.Member → List Token → Prop
  | nil : MembersWritten types [] []
  | field (field : FieldWritten types (type, name) ts) (stop : t.kind = .symbol .semicolon)
      (rest : MembersWritten types ms us) :
      MembersWritten types (.field type name :: ms) (ts ++ t :: us)
  | method (method : FunctionWritten types decl ts) (rest : MembersWritten types ms us) :
      MembersWritten types (.method decl :: ms) (ts ++ us)

/-- The name of a struct is known inside of it. -/
inductive StructWritten (types : List String) : StructDecl → List Token → Prop
  | mk (word : t.IsWord "struct") (name : NameWritten name' t₁)
      (opened : t₂.kind = .symbol .openBrace)
      (members : MembersWritten (name'.text :: types) ms ts)
      (closed : t₃.kind = .symbol .closeBrace) :
      StructWritten types ⟨name', ms.filterMap Parse.Member.field?,
        ms.filterMap Parse.Member.method?⟩
        (t :: t₁ :: t₂ :: (ts ++ [t₃]))

/-- A part of a script, and the types that are known after it. -/
inductive PartWritten (types : List String) : Parse.TopLevel → List Token → List String → Prop
  | struct (struct : StructWritten types d ts) :
      PartWritten types (.struct d) ts (d.name.text :: types)
  | function (function : FunctionWritten types d ts) : PartWritten types (.function d) ts types
  | static (word : t.IsWord "static")
      (declaration : DeclarationWritten types (type, name, init, span) ts) :
      PartWritten types (.static ⟨type, name, init⟩) (t :: ts) types
  | statement (statement : StatementWritten types (.one s) ts) :
      PartWritten types (.statement s) ts types

inductive PartsWritten : List String → List Parse.TopLevel → List Token → Prop
  | nil : PartsWritten types [] []
  | cons (first : PartWritten types part ts types') (rest : PartsWritten types' parts us) :
      PartsWritten types (part :: parts) (ts ++ us)

/-! ### Types and declarations -/

theorem DeclarationWritten.ne_nil (h : DeclarationWritten types d ts) : ts ≠ [] := by
  cases h <;> simp

theorem StatementWritten.ne_nil (h : StatementWritten types (.one s) ts) : ts ≠ [] := by
  cases h with
  | declare declaration => exact declaration.ne_nil
  | _ => simp

theorem FunctionWritten.ne_nil (h : FunctionWritten types d ts) : ts ≠ [] := by
  cases h
  simp

theorem PartWritten.ne_nil (h : PartWritten types part ts types') : ts ≠ [] := by
  cases h with
  | struct struct =>
    cases struct
    simp
  | function function => exact function.ne_nil
  | static => simp
  | statement statement => exact statement.ne_nil

namespace Parse

theorem marks_written (p : Parser) (h : p.allowance ≤ n) :
    Outcome True (repeatWhile (peekSymbol .ampersand) (symbol .ampersand) p.allowance)
      (repeatWhile (peekSymbol .ampersand) (symbol .ampersand) n) False p
        fun spans ms _ => (∀ m ∈ ms, m.kind = .symbol .ampersand) ∧ spans = ms.map Token.span := by
  refine (Outcome.repeatWhile p.unread (fun _ spans ms _ =>
    (∀ m ∈ ms, m.kind = .symbol .ampersand) ∧ spans = ms.map Token.span)
    (fun q _ => (Outcome.symbolAhead .ampersand).mono ?_) (Nat.le_refl _) h).shorter
      (Or.rec id (Nat.not_le.mpr p.unread_lt_allowance))
  rintro _ _ r _ ⟨rfl, ⟨_, -, -, rfl⟩ | ⟨-, rfl⟩⟩
  · refine ⟨rfl, .inr ⟨rfl, (Outcome.symbolSpan .ampersand).mono ?_⟩⟩
    rintro _ _ s _ ⟨m, rfl, hm, rfl⟩
    refine ⟨by simp, fun spans ms _ _ hms => ⟨?_, by simp [hms.2]⟩⟩
    simpa [hm] using hms.1
  · exact ⟨rfl, .inl ⟨rfl, by simp, rfl⟩⟩

theorem typeName_written (p : Parser) :
    Outcome True typeName typeName False p fun type ts _ => TypeWritten p.typeNames type ts := by
  refine .within (.peekTypeName (fun t q hq ht hkind hknown => ?_) fun q _ _ => ?_)
  · refine .currentText (.currentSpan (.accept ht fun r hr => .get ?_))
    rw [Parser.currentText_of_ahead ht, Parser.currentSpan_of_ahead ht]
    refine (marks_written r (Nat.le_refl _)).bind ?_
    rintro _ ms _ _ ⟨hms, rfl⟩
    have htypes : t.text ∈ p.typeNames := hq.types trivial ▸ hknown
    exact .pure (by simpa using TypeWritten.mk hkind htypes hms)
  · exact .expectAny fun t r _ _ => .reject_bind ParseError.noConfusion fun _ =>
      ParseError.noConfusion

theorem variableDeclaration_written (p : Parser) :
    Outcome True variableDeclaration variableDeclaration False p fun d ts _ =>
      DeclarationWritten p.typeNames d ts := by
  refine .within ((typeName_written p).bind fun type ts q hq htype =>
    .name fun t r hkind hfree hr => ?_)
  have hname := NameWritten.mk hkind hfree
  refine .peekSymbol (fun t₁ s hs ht₁ hequals => .accept ht₁ fun u hu => ?_) fun s hs _ => ?_
  · exact (expression_written u).map_bind fun e us v hv he => .symbol fun t' w hstop _ =>
      .pure (by simpa using .initialised htype hname hequals he.1 hstop)
  · exact .symbol fun t' u hstop _ => .pure (by simpa using .plain htype hname hstop)

/-! ### Statements -/

theorem condition_written (p : Parser) : Outcome True condition condition False p fun e ts _ =>
    ∃ t us t', ts = t :: (us ++ [t']) ∧ t.kind = .symbol .openParen ∧ Written (.expr 1 e) us ∧
    t'.kind = .symbol .closeParen :=
  .symbol fun t q hopened _ => (expression_written q).bind fun e us r _ he =>
    .symbol fun t' s hclosed _ => .pure ⟨t, us, t', by simp, hopened, he.1, hclosed⟩

theorem expressionStatement_written (p : Parser)
    (start : ∀ t ∈ p.tokens.head?, t.kind = .identifier → t.text ∉ p.typeNames) :
    Outcome True expressionStatement expressionStatement False p fun s ts _ =>
      StatementWritten p.typeNames (.one s) ts ∧ s.dangling = false := by
  refine (expression_written p).bind fun e ts q hq he => .symbol fun t' r hstop _ =>
    .pure ⟨.expression he.1 ?_ hstop, rfl⟩
  intro t ht
  refine start t ?_
  rw [hq.tokens, List.head?_append, ht]
  rfl

theorem returnStatement_written (p : Parser) (word : t.IsWord "return") :
    Outcome True (returnStatement t.span) (returnStatement t.span) False p fun s ts _ =>
      StatementWritten p.typeNames (.one s) (t :: ts) ∧ s.dangling = false := by
  refine .peekSymbol (fun t₁ q _ _ _ => ?_) fun q hq _ => ?_
  · exact .symbol fun t' r hstop _ => .pure ⟨.ret word hstop, rfl⟩
  · exact (expression_written q).map_bind fun e us r _ he => .symbol fun t' u hstop _ =>
      .pure ⟨by simpa using .retValue word he.1 hstop, rfl⟩

/-- Parsers of statements, given `n` steps, beside those that are given more. -/
structure StatementsWritten (n : Nat) : Prop where
  statement : ∀ n' ≥ n, ∀ p, Outcome True (statementWithin n) (statementWithin n')
    (n < 8 * p.unread + 2) p fun s ts q =>
    StatementWritten p.typeNames (.one s) ts ∧ (s.dangling = true → Unlike "else" q.tokens)
  block : ∀ n' ≥ n, ∀ p, Outcome True (blockWithin n) (blockWithin n') (n < 8 * p.unread + 1)
    p fun b ts _ =>
    ∃ t us t', ts = t :: (us ++ [t']) ∧ t.kind = .symbol .openBrace ∧
      StatementWritten p.typeNames (.many b.1) us ∧
      t'.kind = .symbol .closeBrace ∧ b.2 = t.span.join t'.span

theorem StatementsWritten.statement_succ (ih : StatementsWritten n) (hn : n ≤ n') (p : Parser) :
    Outcome True (statementWithin (n + 1)) (statementWithin (n' + 1)) (n + 1 < 8 * p.unread + 2)
      p fun s ts q =>
      StatementWritten p.typeNames (.one s) ts ∧ (s.dangling = true → Unlike "else" q.tokens) := by
  refine .within (.expectAny fun t q hq ht => ?_)
  have hqle : q.unread ≤ p.unread := hq.unread
  have htypes := hq.types trivial
  have htokens := Parser.tokens_of_ahead ht
  rw [← htypes]
  have hexpression : (t.kind = .identifier → t.text ∉ q.typeNames) →
      Outcome True expressionStatement expressionStatement (n + 1 < 8 * p.unread + 2)
      q fun s ts r =>
        StatementWritten q.typeNames (.one s) ts ∧
          (s.dangling = true → Unlike "else" r.tokens) := by
    intro hstart
    refine ((expressionStatement_written q ?_).shorter False.elim).mono fun s ts _ _ hs =>
      ⟨hs.1, fun h => ?_⟩
    · simpa [htokens] using hstart
    · rw [hs.2] at h
      cases h
  cases hkind : t.kind with
  | integer | float | string => exact hexpression (by simp [hkind])
  | identifier =>
    refine .currentSpan (.currentText ?_)
    rw [Parser.currentSpan_of_ahead ht, Parser.currentText_of_ahead ht]
    split
    · next hword =>
      have hif : t.IsWord "if" := ⟨hkind, hword⟩
      refine .accept ht fun r hr =>
        ((Outcome.within (condition_written r)).shorter False.elim).bind ?_
      rintro e _ u hu ⟨t₁, ts, t₂, rfl, hopened, he, hclosed⟩
      have hrle := hr.unread
      have hule := hu.unread
      have hutypes := (hu.types trivial).trans (hr.types trivial)
      refine ((ih.statement n' hn u).shorter (by simp at hrle; omega)).bind fun yes us v hv hyes =>
        ?_
      rw [hutypes] at hyes
      have hvle := hv.unread
      refine .peekKeyword (fun t₃ w hw ht₃ hkind₃ hword₃ => .accept ht₃ fun x hx => ?_)
        fun w hw helse => .pure ⟨?_, fun _ => helse⟩
      · have hwle := hw.unread
        have hxle := hx.unread
        have hxtypes := (hx.types trivial).trans ((hw.types trivial).trans (hv.types trivial))
        -- The `else` ahead shows that the branch before it is complete.
        have hcomplete : yes.dangling = false := by
          refine Bool.eq_false_iff.mpr fun h => ?_
          refine hyes.2 h t₃ ?_ hkind₃ hword₃
          rw [hw.tokens, List.nil_append, Parser.tokens_of_ahead ht₃]
          rfl
        refine ((ih.statement n' hn x).shorter (by simp at hrle hxle; omega)).bind
          fun no vs y _ hno => .pure ⟨?_, hno.2⟩
        rw [hxtypes, hutypes] at hno
        simpa using StatementWritten.ifThenElse hif hopened he hclosed hyes.1 hcomplete
          ⟨hkind₃, hword₃⟩ hno.1
      · simpa using StatementWritten.ifThen hif hopened he hclosed hyes.1
    · next hword =>
      refine .accept ht fun r hr =>
        ((Outcome.within (condition_written r)).shorter False.elim).bind ?_
      rintro e _ u hu ⟨t₁, ts, t₂, rfl, hopened, he, hclosed⟩
      have hrle := hr.unread
      have hule := hu.unread
      refine ((ih.statement n' hn u).shorter (by simp at hrle; omega)).bind
        fun repeated us v _ hrepeated =>
        .pure ⟨?_, hrepeated.2⟩
      rw [(hu.types trivial).trans (hr.types trivial)] at hrepeated
      simpa using StatementWritten.loop ⟨hkind, hword⟩ hopened he hclosed hrepeated.1
    · next hword =>
      refine .accept ht fun r hr =>
        ((returnStatement_written r ⟨hkind, hword⟩).shorter False.elim).mono ?_
      rintro s ts _ _ ⟨hs, hcomplete⟩
      rw [hr.types trivial] at hs
      exact ⟨hs, fun h => by rw [hcomplete] at h; cases h⟩
    · next hif hwhile hreturn =>
      refine .peekTypeName (fun t' r hr ht' hkind' _ => ?_) fun r hr hunknown => ?_
      · refine ((variableDeclaration_written r).shorter False.elim).bind ?_
        rintro ⟨type, name, init, span⟩ ts s hs hd
        rw [hr.types trivial] at hd
        have hunlike : ∀ word, t.text ≠ word → Unlike word ts := by
          intro word hword u hu _
          have hall : q.tokens.head? = some u := by
            rw [hr.tokens, List.nil_append, hs.tokens, List.head?_append, hu]; rfl
          rw [htokens, List.head?_cons] at hall
          exact Option.some.inj hall ▸ hword
        have hdeclare :=
          StatementWritten.declare hd ⟨hunlike _ hif, hunlike _ hwhile, hunlike _ hreturn⟩
        exact .pure ⟨by simpa using hdeclare, fun h => by cases h⟩
      · have hsame := hr.types trivial
        refine ((expressionStatement_written r hunknown).shorter False.elim).mono ?_
        rintro s ts _ _ ⟨hs, hcomplete⟩
        rw [hsame] at hs
        exact ⟨hs, fun h => by rw [hcomplete] at h; cases h⟩
  | symbol s =>
    cases s
    case openBrace =>
      refine ((ih.block n' hn q).shorter (by omega)).bind ?_
      rintro ⟨body, span⟩ _ r _ ⟨t₁, us, t₂, rfl, hopened, hbody, hclosed, rfl⟩
      exact .pure ⟨by simpa using .block hopened hbody hclosed, fun h => by cases h⟩
    all_goals exact hexpression (by simp [hkind])

theorem StatementsWritten.block_succ (ih : StatementsWritten n) (hn : n ≤ n') (p : Parser) :
    Outcome True (blockWithin (n + 1)) (blockWithin (n' + 1)) (n + 1 < 8 * p.unread + 1)
      p fun b ts _ =>
      ∃ t us t', ts = t :: (us ++ [t']) ∧ t.kind = .symbol .openBrace ∧
      StatementWritten p.typeNames (.many b.1) us ∧
        t'.kind = .symbol .closeBrace ∧ b.2 = t.span.join t'.span := by
  refine .within (.symbol fun t q hopened hq => ?_)
  have hqle := hq.unread
  have hbody : Outcome True (repeatWhile (return (← peek) != some (.symbol .closeBrace))
    (statementWithin n) n)
      (repeatWhile (return (← peek) != some (.symbol .closeBrace)) (statementWithin n') n')
        (n + 1 < 8 * p.unread + 1 ∨ n ≤ q.unread) q fun ss ts _ =>
          StatementWritten q.typeNames (.many ss) ts := by
    refine .repeatWhile q.unread (fun r ss ts _ => StatementWritten r.typeNames (.many ss) ts)
      (fun r hrle => ?_) (Nat.le_refl _) hn
    have hround : ∀ s : Parser, r.Past True [] s →
      Outcome True (statementWithin n) (statementWithin n') (n + 1 < 8 * p.unread + 1) s
        fun first us u => us ≠ [] ∧ ∀ ss vs w, u.Past True vs w →
          StatementWritten u.typeNames (.many ss) vs →
          StatementWritten r.typeNames (.many (first :: ss)) (us ++ vs) := by
      intro s hs
      have hsle := hs.unread
      refine ((ih.statement n' hn s).shorter (by simp at hqle hsle; omega)).mono ?_
      rintro first us u hu ⟨hfirst, hopen⟩
      refine ⟨hfirst.ne_nil, fun ss vs w hw hss => ?_⟩
      rw [hs.types trivial] at hfirst
      rw [hu.types trivial, hs.types trivial] at hss
      refine .cons hfirst hss fun h t' ht' => hopen h t' ?_
      rw [hw.tokens, List.head?_append, ht']
      rfl
    refine .peek (fun s hs _ _ => .pure ⟨rfl, .inr ⟨rfl, hround s hs⟩⟩) fun t' s hs ht' =>
      .pure ⟨rfl, ?_⟩
    by_cases hclose : t'.kind = .symbol .closeBrace
    · exact .inl ⟨by simp [hclose], .nil⟩
    · exact .inr ⟨by simp [hclose], hround s hs⟩
  refine (hbody.shorter ?_).bind fun ss us r _ hss => .symbol fun t' s hclosed _ =>
    .pure ⟨t, us, t', by simp, hopened, ?_, hclosed, rfl⟩
  · rintro (hshort | hle)
    · exact hshort
    · simp at hqle
      omega
  · rw [hq.types trivial] at hss
    exact hss

theorem statementsWritten (n : Nat) : StatementsWritten n := by
  induction n with
  | zero =>
    constructor
    all_goals
      intros
      exact .exhausted (by omega)
  | succ n ih =>
    constructor
    all_goals
      intro n' hn p
      obtain ⟨n', rfl⟩ : ∃ k, n' = k + 1 := ⟨n' - 1, by omega⟩
    · exact ih.statement_succ (Nat.le_of_succ_le_succ hn) p
    · exact ih.block_succ (Nat.le_of_succ_le_succ hn) p

theorem statement_written (p : Parser) : Outcome True statement statement False p fun s ts q =>
    StatementWritten p.typeNames (.one s) ts ∧ (s.dangling = true → Unlike "else" q.tokens) :=
  .get (((statementsWritten p.allowance).statement _ (Nat.le_refl _) p).shorter
    (by rw [Parser.allowance]; omega))

theorem block_written (p : Parser) : Outcome True block block False p fun b ts _ =>
    ∃ t us t', ts = t :: (us ++ [t']) ∧ t.kind = .symbol .openBrace ∧
    StatementWritten p.typeNames (.many b.1) us ∧
      t'.kind = .symbol .closeBrace ∧ b.2 = t.span.join t'.span :=
  .get (((statementsWritten p.allowance).block _ (Nat.le_refl _) p).shorter
    (by rw [Parser.allowance]; omega))

theorem statementWithin_of_allowance_le (h : p.allowance ≤ n) : statementWithin n p = statement p :=
  ((statementsWritten p.allowance).statement n h p).eq (by rw [Parser.allowance]; omega)

theorem blockWithin_of_allowance_le (h : p.allowance ≤ n) : blockWithin n p = block p :=
  ((statementsWritten p.allowance).block n h p).eq (by rw [Parser.allowance]; omega)

/-! ### Programs -/

theorem typedName_written (p : Parser) :
    Outcome True typedName typedName False p fun f ts _ => FieldWritten p.typeNames f ts :=
  (typeName_written p).bind fun _ _ _ _ htype => .name fun _ _ hkind hfree _ =>
    .pure (.mk htype (.mk hkind hfree))

theorem fields_written (p : Parser) (h : p.allowance ≤ n) :
    Outcome True (commaSeparated typedName p.allowance) (commaSeparated typedName n) False p
      fun fs ts _ => Separated (FieldWritten p.typeNames) fs ts := by
  refine (Outcome.commaSeparated p.unread p.typeNames (fun q _ hq => ?_) (Nat.le_refl _)
    (fun _ => rfl) h).shorter
    (Or.rec id (Nat.not_le.mpr p.unread_lt_allowance))
  refine (typedName_written q).mono fun f ts _ _ hf => ⟨?_, hq trivial ▸ hf⟩
  cases hf
  simp

theorem function_written (p : Parser) :
    Outcome True function function False p fun d ts _ => FunctionWritten p.typeNames d ts := by
  refine .within (.keyword fun t q hkind hword hq =>
    (typeName_written q).bind fun type ts r hr htype =>
    .name fun t₁ s hkind₁ hfree hs =>
    .symbol fun t₂ u hopened hu => ?_)
  have hutypes : u.typeNames = q.typeNames :=
    (hu.types trivial).trans ((hs.types trivial).trans (hr.types trivial))
  rw [← hq.types trivial, ← hutypes]
  rw [← hutypes] at htype
  have hrest : ∀ (v : Parser) (params : List (TypeName × Name)) (us : List Token),
    v.typeNames = u.typeNames →
      (params = [] ∧ us = [] ∨ Separated (FieldWritten u.typeNames) params us) →
        Outcome True (do let _ ← symbol .closeParen; let b ← block; return ⟨⟨t₁.text, t₁.span,
          t₁.position⟩, type, params, b.1⟩)
          (do let _ ← symbol .closeParen; let b ← block; return ⟨⟨t₁.text, t₁.span, t₁.position⟩,
            type, params, b.1⟩) False v
            fun d vs _ => FunctionWritten u.typeNames d (t :: (ts ++ t₁ :: t₂ :: (us ++ vs))) := by
    intro v params us hv hparams
    refine .symbol fun t₃ w hclosed hw => (block_written w).bind ?_
    rintro ⟨body, span⟩ _ x _ ⟨t₄, vs, t₅, rfl, hopenedBody, hbody, hclosedBody, -⟩
    rw [hw.types trivial, hv] at hbody
    refine .pure ?_
    simpa using FunctionWritten.mk ⟨hkind, hword⟩ htype (.mk hkind₁ hfree) hopened hparams hclosed
      hopenedBody hbody hclosedBody
  refine .peekSymbol (fun t' v hv _ _ => ?_) fun v hv _ => .get ?_
  · simpa using hrest v [] [] (hv.types trivial) (.inl ⟨rfl, rfl⟩)
  · refine (fields_written v (Nat.le_refl _)).bind fun params us w hw hparams => ?_
    rw [hv.types trivial] at hparams
    simpa using hrest w params us ((hw.types trivial).trans (hv.types trivial)) (.inr hparams)

theorem member_written (p : Parser) : Outcome True member member False p fun m ts _ =>
    ts ≠ [] ∧ ∀ ms us, MembersWritten p.typeNames ms us →
    MembersWritten p.typeNames (m :: ms) (ts ++ us) := by
  refine .peekKeyword (fun t q hq _ _ _ => ?_) fun q hq _ => ?_
  · refine (function_written q).bind fun d ts r _ hd =>
      .pure ⟨by simpa using hd.ne_nil, fun ms us hms => ?_⟩
    rw [hq.types trivial] at hd
    simpa using .method hd hms
  · refine (typedName_written q).bind ?_
    rintro ⟨type, name⟩ ts r _ hf
    refine .symbol fun t s hstop _ => .pure ⟨by simp, fun ms us hms => ?_⟩
    rw [hq.types trivial] at hf
    simpa using .field hf hstop hms

theorem members_written (p : Parser) (h : p.allowance ≤ n) :
    Outcome True (repeatWhile (return !(← peekSymbol .closeBrace)) member p.allowance)
      (repeatWhile (return !(← peekSymbol .closeBrace)) member n) False p fun ms ts _ =>
        MembersWritten p.typeNames ms ts := by
  refine (Outcome.repeatWhile p.unread (fun q ms ts _ => MembersWritten q.typeNames ms ts)
    (fun q _ => ?_) (Nat.le_refl _)
    h).shorter (Or.rec id (Nat.not_le.mpr p.unread_lt_allowance))
  refine .peekSymbol (fun _ r _ _ _ => .pure ⟨rfl, .inl ⟨rfl, .nil⟩⟩) fun r hr _ =>
    .pure ⟨rfl, .inr ⟨rfl, ?_⟩⟩
  refine (member_written r).mono fun m us s hs hm => ⟨hm.1, fun ms vs _ _ hms => ?_⟩
  rw [hs.types trivial] at hms
  rw [← hr.types trivial]
  exact hm.2 ms vs hms

theorem struct_written (p : Parser) : Outcome False struct struct False p fun d ts q =>
    StructWritten p.typeNames d ts ∧ q.typeNames = d.name.text :: p.typeNames := by
  refine .within (.keyword fun t q hkind hword hq => .name fun t₁ r hkind₁ hfree hr =>
    (Outcome.declareType t₁.text).bind ?_)
  rintro _ _ s - ⟨rfl, hstypes⟩
  refine .symbol fun t₂ u hopened hu =>
    .get ((members_written u (Nat.le_refl _)).bind_kept fun ms ts v hv hms =>
    .symbol fun t₃ w hclosed hw => .pure ?_)
  have htypes : u.typeNames = t₁.text :: p.typeNames := by
    rw [hu.types trivial, hstypes, hr.types trivial, hq.types trivial]
  rw [htypes] at hms
  refine ⟨?_, by rw [hw.types trivial, hv.types trivial, htypes]⟩
  simpa using StructWritten.mk ⟨hkind, hword⟩ (.mk hkind₁ hfree) hopened hms hclosed

theorem topLevel_written (p : Parser) : Outcome False topLevel topLevel False p fun part ts q =>
    PartWritten p.typeNames part ts q.typeNames := by
  refine .peekKeyword (fun _ q hq _ _ _ => ?_) fun q hq _ =>
    .peekKeyword (fun _ r hr _ _ _ => ?_) fun r hr _ =>
    .peekKeyword (fun t s hs ht hkind hword => .accept ht fun u hu => ?_) fun s hs _ => ?_
  · refine (struct_written q).bind fun d ts r _ hd => .pure ?_
    rw [hd.2, hq.types trivial]
    rw [hq.types trivial] at hd
    simpa using .struct hd.1
  · refine (function_written r).bind_kept fun d ts s hs hd => .pure ?_
    rw [hs.types trivial, hr.types trivial, hq.types trivial]
    rw [hr.types trivial, hq.types trivial] at hd
    simpa using .function hd
  · refine (Outcome.within (variableDeclaration_written u)).bind_kept ?_
    rintro ⟨type, name, init, span⟩ ts v hv hd
    have htypes : u.typeNames = p.typeNames := by
      rw [hu.types trivial, hs.types trivial, hr.types trivial, hq.types trivial]
    refine .pure ?_
    rw [hv.types trivial, htypes]
    rw [htypes] at hd
    simpa using .static ⟨hkind, hword⟩ hd
  · refine (statement_written s).bind_kept fun st ts u hu hst => .pure ?_
    have htypes : s.typeNames = p.typeNames := by
      rw [hs.types trivial, hr.types trivial, hq.types trivial]
    rw [hu.types trivial, htypes]
    rw [htypes] at hst
    simpa using .statement hst.1

theorem parts_written (p : Parser) (h : p.allowance ≤ n) :
    Outcome False (repeatWhile (return (← peek).isSome) topLevel p.allowance)
      (repeatWhile (return (← peek).isSome) topLevel n) False p fun parts ts q =>
        q.tokens = [] ∧ PartsWritten p.typeNames parts ts := by
  refine (Outcome.repeatWhile p.unread (fun q parts ts r => r.tokens = [] ∧
    PartsWritten q.typeNames parts ts) (fun q _ => ?_)
    (Nat.le_refl _) h).shorter (Or.rec id (Nat.not_le.mpr p.unread_lt_allowance))
  refine .peek (fun r _ _ hr => .pure ⟨rfl, .inl ⟨rfl, hr, .nil⟩⟩) fun t r hr ht =>
    .pure ⟨rfl, .inr ⟨rfl, ?_⟩⟩
  refine (topLevel_written r).mono fun part ts s _ hpart =>
    ⟨hpart.ne_nil, fun parts us u _ hparts => ⟨hparts.1, ?_⟩⟩
  rw [hr.types trivial] at hpart
  exact .cons hpart hparts.2

/-- A program that was parsed was written with all tokens of the text. -/
theorem program_written (p : Parser) : Outcome False program program False p fun prog ts q =>
    q.tokens = [] ∧ ∃ parts, prog = assemble parts ∧ PartsWritten p.typeNames parts ts :=
  .get ((parts_written p (Nat.le_refl _)).bind fun parts ts q _ h =>
    .pure ⟨h.1, parts, rfl, by simpa using h.2⟩)

end Parse

end WordScript
