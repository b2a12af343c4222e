import WordScript.Proofs.Grammar.Outcome

/-!
# The grammar of expressions

`Written` says which tokens an expression is written with, by levels: 1 to 7 for operators between
operands, loosest first, 8 for prefix operators, 9 for calls and the like, 10 for literals, names
and parentheses. An expression that is parsed was written with the tokens that were taken
(`expression_written`): precedence climbing follows these levels.
-/

namespace WordScript

/-! ### Levels -/

namespace Precedence

/-- The level of a left operand. Assignments group to the right. -/
def leftLevel : Precedence → Nat
  | assignment => 2
  | other => other.level

def rightLevel : Precedence → Nat
  | assignment => 1
  | other => other.level + 1

theorem level_pos (a : Precedence) : 1 ≤ a.level := by cases a <;> decide

theorem level_eq_one_iff (a : Precedence) : a.level = 1 ↔ a = .assignment := by cases a <;> decide

theorem leftLevel_eq (a : Precedence) : a.leftLevel = if a.level = 1 then 2 else a.level := by
  cases a <;> rfl

theorem rightLevel_eq (a : Precedence) : a.rightLevel = if a.level = 1 then 1 else a.level + 1 := by
  cases a <;> rfl

theorem level_next (a : Precedence) (h : a.level ≤ 7) : a.next.level = a.level + 1 := by
  cases a <;> first | rfl | exact absurd h (by decide)

end Precedence

namespace InfixOp

variable {op op' : InfixOp} {outer : Precedence}

theorem precedence_le : (op : InfixOp) → op.precedence.level ≤ 7
  | assign _ => Nat.le_add_left 1 6
  | binary (.arithmetic a) => by cases a <;> decide
  | binary (.relation r) => by cases r <;> decide
  | binary (.logic l) => by cases l <;> decide

theorem rightAssociative_iff :
    (op : InfixOp) → (op.rightAssociative = true ↔ op.precedence.level = 1)
  | assign _ => by simp [rightAssociative, precedence, Precedence.level]
  | binary (.arithmetic a) => by cases a <;> decide
  | binary (.relation r) => by cases r <;> decide
  | binary (.logic l) => by cases l <;> decide

theorem continues_iff : op.continues outer = true ↔
    outer.level < op.precedence.level ∨ op.precedence.level = 1 ∧ outer.level = 1 := by
  rw [continues, Bool.or_eq_true_iff, Bool.and_eq_true_iff, rightAssociative_iff,
    decide_eq_true_eq, beq_iff_eq]
  constructor
  · rintro (h | ⟨h, rfl⟩)
    · exact .inl h
    · exact .inr ⟨h, h⟩
  · rintro (h | ⟨h, h'⟩)
    · exact .inl h
    · refine .inr ⟨h, ?_⟩
      rw [(Precedence.level_eq_one_iff _).mp h, (Precedence.level_eq_one_iff _).mp h']

/-- What an operator made can stand on the left of the next operator, unless that one takes its
right operand. -/
theorem leftLevel_le_of_not_continues (h : op'.continues op.precedence ≠ true) :
    op'.precedence.leftLevel ≤ op.precedence.level := by
  have hpos := op.precedence.level_pos
  rw [Ne, continues_iff] at h
  rw [Precedence.leftLevel_eq]
  split <;> omega

/-- The least level that a right operand is read at, if it goes on with this operator. -/
def least (op : InfixOp) (outer : Precedence) : Precedence :=
  if outer.level < op.precedence.level then outer.next else outer

theorem level_least (h : op.continues outer = true) :
    (op.least outer).level = if outer.level < op.precedence.level then outer.level + 1 else 1 := by
  have hle := op.precedence_le
  rw [continues_iff] at h
  rw [least]
  split
  · exact outer.level_next (by omega)
  · omega

theorem least_of_continues (h : op.continues outer = true) :
    outer.rightLevel ≤ (op.least outer).level ∧ (op.least outer).level ≤ op.precedence.level ∧
      (op.least outer).level ≤ op.precedence.leftLevel := by
  have hpos := outer.level_pos
  rw [level_least h, Precedence.rightLevel_eq, Precedence.leftLevel_eq]
  rw [continues_iff] at h
  refine ⟨?_, ?_, ?_⟩ <;> repeat' split
  all_goals omega

/-- The operator after such an operand finds a left operand. -/
theorem leftLevel_le_least (h : op.continues outer = true)
    (stopped : op'.precedence.level < (op.least outer).level) :
    op'.precedence.leftLevel ≤ (op.least outer).level := by
  have hpos := outer.level_pos
  have hpos' := op'.precedence.level_pos
  rw [level_least h] at stopped ⊢
  rw [Precedence.leftLevel_eq]
  by_cases hlt : outer.level < op.precedence.level
  · rw [if_pos hlt] at stopped ⊢
    split <;> omega
  · rw [if_neg hlt] at stopped ⊢
    split <;> omega

end InfixOp

/-! ### The grammar -/

def Token.operator? (t : Token) : Option InfixOp :=
  match t.kind with
  | .symbol s => InfixOp.ofSymbol? s
  | .identifier => InfixOp.ofWord? t.text
  | _ => none

def Token.sign? (t : Token) : Option UnaryOp :=
  match t.kind with
  | .symbol s => UnaryOp.ofSymbol? s
  | _ => none

def operatorOf? (ts : List Token) : Option InfixOp := ts.head?.bind Token.operator?

/-- What expressions are made of: an expression at a level, or the arguments of a call. -/
inductive Phrase
  | expr (level : Nat) (e : Expr)
  | args (es : List Expr)

inductive Written : Phrase → List Token → Prop
  | tighter (h : Written (.expr (k + 1) e) ts) : Written (.expr k e) ts
  | operation (operator : t.operator? = some op)
      (left : Written (.expr op.precedence.leftLevel lhs) ls)
      (right : Written (.expr op.precedence.rightLevel rhs) rs) :
      Written (.expr op.precedence.level (op.build lhs rhs)) (ls ++ t :: rs)
  | unary (sign : t.sign? = some op) (operand : Written (.expr 8 e) ts) :
      Written (.expr 8 (.unary (t.span.join e.span) op e)) (t :: ts)
  | call (callee : Written (.expr 9 e) ts) (opened : t.kind = .symbol .openParen)
      (args : Written (.args es) us)
      (closed : t'.kind = .symbol .closeParen) :
      Written (.expr 9 (.call (e.span.join t'.span) e es)) (ts ++ t :: (us ++ [t']))
  | field (base : Written (.expr 9 e) ts) (dot : t.kind = .symbol .dot)
      (name : t'.kind = .identifier)
      (free : (keywords.contains t'.text || builtinTypes.contains t'.text) = false) :
      Written (.expr 9 (.field (e.span.join t'.span) e ⟨t'.text, t'.span, t'.position⟩))
        (ts ++ [t, t'])
  | addressOf (inner : Written (.expr 9 e) ts) (mark : t.kind = .symbol .ampersand) :
      Written (.expr 9 (.addressOf (e.span.join t.span) e)) (ts ++ [t])
  | dereference (inner : Written (.expr 9 e) ts) (mark : t.kind = .symbol .commercialAt) :
      Written (.expr 9 (.dereference (e.span.join t.span) e)) (ts ++ [t])
  | parenthesised (opened : t.kind = .symbol .openParen) (inner : Written (.expr 1 e) ts)
      (closed : t'.kind = .symbol .closeParen) :
      Written (.expr 10 (e.withSpan (t.span.join t'.span))) (t :: (ts ++ [t']))
  | integer (kind : t.kind = .integer) (value : readWord? t.text.toList = some w) :
      Written (.expr 10 (.integer t.span w)) [t]
  | float (kind : t.kind = .float) (value : readFloat? t.text.toList = some w) :
      Written (.expr 10 (.float t.span w)) [t]
  | string (kind : t.kind = .string) : Written (.expr 10 (.string t.span t.text)) [t]
  | var (kind : t.kind = .identifier) (free : keywords.contains t.text = false) :
      Written (.expr 10 (.var t.span t.text)) [t]
  | sizeOf (kind : t.kind = .identifier) (word : t.text = "sizeof")
      (opened : t'.kind = .symbol .openParen)
      (inner : Written (.expr 1 e) ts) (closed : t''.kind = .symbol .closeParen) :
      Written (.expr 10 (.sizeOf (t.span.join t''.span) e)) (t :: t' :: (ts ++ [t'']))
  | noArgs : Written (.args []) []
  | lastArg (last : Written (.expr 1 e) ts) : Written (.args [e]) ts
  | arg (first : Written (.expr 1 e) ts) (comma : t.kind = .symbol .comma)
      (rest : Written (.args (e' :: es)) us) :
      Written (.args (e :: e' :: es)) (ts ++ t :: us)

namespace Written

theorem looser (h : Written (.expr k e) ts) (hle : k' ≤ k) : Written (.expr k' e) ts := by
  induction hle with
  | refl => exact h
  | step _ ih => exact ih h.tighter

theorem ne_nil (h : Written (.expr k e) ts) : ts ≠ [] := by
  generalize hphrase : Phrase.expr k e = phrase at h
  induction h generalizing k e with
  | tighter h ih => exact ih rfl
  | noArgs | lastArg | arg => cases hphrase
  | _ => simp

theorem args_of_separated (h : Parse.Separated (fun e ts => Written (.expr 1 e) ts) es ts) :
    Written (.args es) ts := by
  induction h with
  | one item => exact .lastArg item
  | more item comma rest ih =>
    cases rest with
    | one => exact .arg item comma ih
    | more => exact .arg item comma ih

end Written

/-! ### Parsers -/

namespace Parse

section
variable {kept short : Prop} {β : Type} {p : Parser} {t : Token}
  {Q : β → List Token → Parser → Prop}

namespace Outcome

theorem peekInfix {f g : Option InfixOp → Parse β}
    (hsome : ∀ op t q, p.Past True [] q → q.ahead = some t → t.operator? = some op →
      Outcome kept (f (some op)) (g (some op)) short q Q)
    (hnone : ∀ q, p.Past True [] q → operatorOf? q.tokens = none →
      Outcome kept (f none) (g none) short q Q) :
    Outcome kept (peekInfix >>= f) (Parse.peekInfix >>= g) short p Q := by
  have hfound : Outcome True Parse.peekInfix Parse.peekInfix short p fun op ts q => ts = [] ∧
    op = operatorOf? q.tokens ∧
      ∀ o, op = some o → ∃ t, q.ahead = some t ∧ t.operator? = some o := by
    refine peek (fun q _ _ hq => .pure ⟨rfl, by simp [hq, operatorOf?], by simp⟩) fun t q _ ht => ?_
    have hop : operatorOf? q.tokens = t.operator? := by rw [Parser.tokens_of_ahead ht]; rfl
    cases hkind : t.kind with
    | identifier =>
      refine .currentText (.pure ⟨rfl, ?_, fun o ho => ⟨t, ht, ?_⟩⟩)
      · rw [hop, Token.operator?, hkind, Parser.currentText_of_ahead ht]
      · rw [Token.operator?, hkind, ← ho, Parser.currentText_of_ahead ht]
    | integer | float | string | symbol =>
      refine .pure ⟨rfl, ?_, fun o ho => ⟨t, ht, ?_⟩⟩
      · rw [hop, Token.operator?, hkind]
      · rw [Token.operator?, hkind, ← ho]
  refine hfound.bind_kept ?_
  rintro op _ q hpast ⟨rfl, hop, hahead⟩
  cases op with
  | none => exact hnone q hpast hop.symm
  | some op =>
    obtain ⟨t, ht, ho⟩ := hahead op rfl
    exact hsome op t q hpast ht ho

theorem peekPrefix {f g : Option UnaryOp → Parse β}
    (hsome : ∀ op t q, p.Past True [] q → q.ahead = some t → t.sign? = some op →
      Outcome kept (f (some op)) (g (some op)) short q Q)
    (hnone : ∀ q, p.Past True [] q → Outcome kept (f none) (g none) short q Q) :
    Outcome kept (peekPrefix >>= f) (Parse.peekPrefix >>= g) short p Q := by
  have hfound : Outcome True Parse.peekPrefix Parse.peekPrefix short p fun op ts q => ts = [] ∧
      ∀ o, op = some o → ∃ t, q.ahead = some t ∧ t.sign? = some o := by
    refine peek (fun q _ _ _ => .pure ⟨rfl, by simp⟩) fun t q _ ht => ?_
    cases hkind : t.kind with
    | identifier | integer | float | string => exact .pure ⟨rfl, by simp⟩
    | symbol s =>
      refine .pure ⟨rfl, fun o ho => ⟨t, ht, ?_⟩⟩
      rw [Token.sign?, hkind, ← ho]
  refine hfound.bind_kept ?_
  rintro op _ q hpast ⟨rfl, hahead⟩
  cases op with
  | none => exact hnone q hpast
  | some op =>
    obtain ⟨t, ht, ho⟩ := hahead op rfl
    exact hsome op t q hpast ht ho

/-- A number that has no value is no token of any text. -/
theorem literal {read? : List Char → Option Word} {node : Span → Word → Expr}
    {R : Expr → List Token → Parser → Prop}
    (ht : p.ahead = some t) (readable : t.Lexed → (read? t.text.toList).isSome = true)
    (hnode : ∀ w q, read? t.text.toList = some w → R (node t.span w) [t] q) :
    Outcome kept (literal read? node cause) (Parse.literal read? node cause) short p R := by
  refine .currentSpan (.currentText ?_)
  rw [Parser.currentSpan_of_ahead ht, Parser.currentText_of_ahead ht]
  cases hread : read? t.text.toList with
  | some w => exact .accept ht fun q _ => .pure (hnode w q hread)
  | none =>
    have hlexed : ¬t.Lexed := fun h => by simpa [hread] using readable h
    refine .inr (.inl ⟨_, p, rfl, rfl, ParseError.noConfusion, fun c _ => .inr ⟨t, ?_, hlexed⟩,
      fun _ hp => hp.currentSpan⟩)
    rw [Parser.tokens_of_ahead ht]
    exact List.mem_cons_self

end Outcome

end

/-- What operators after `lhs` make of it, read from `p` on. -/
structure Extends (least : Precedence) (lhs : Expr) (p : Parser) (e : Expr) (ts : List Token)
    (q : Parser) : Prop where
  written : ∀ us, Written (.expr least.level lhs) us →
    (∀ op, operatorOf? p.tokens = some op → least.level ≤ op.precedence.level →
      Written (.expr op.precedence.leftLevel lhs) us) →
      Written (.expr least.level e) (us ++ ts)
  stopped : ∀ op, operatorOf? q.tokens = some op → op.precedence.level < least.level
  progress : ∀ op, operatorOf? p.tokens = some op → least.level ≤ op.precedence.level → ts ≠ []

structure Climbs (outer : Precedence) (rhs : Expr) (p : Parser) (e : Expr) (ts : List Token)
    (q : Parser) : Prop where
  written : ∀ us, Written (.expr outer.rightLevel rhs) us →
    (∀ op, operatorOf? p.tokens = some op → op.continues outer = true →
      Written (.expr op.precedence.leftLevel rhs) us) →
      Written (.expr outer.rightLevel e) (us ++ ts)
  stopped : ∀ op, operatorOf? q.tokens = some op → op.continues outer ≠ true

/-- All parsers of expressions, given `n` steps, beside those that are given more. -/
structure ExpressionsWritten (n : Nat) : Prop where
  expr : ∀ n' ≥ n, ∀ p, Outcome True (expr n) (expr n') (n < 8 * p.unread + 3) p fun e ts q =>
    Written (.expr 1 e) ts ∧ operatorOf? q.tokens = none
  operand : ∀ n' ≥ n, ∀ p, Outcome True (operand n) (operand n') (n < 8 * p.unread + 2)
    p fun e ts _ => Written (.expr 8 e) ts
  suffixes : ∀ n' ≥ n, ∀ base p, Outcome True (suffixes n base) (suffixes n' base)
    (n < 8 * p.unread + 1) p fun e ts _ =>
    ∀ us, Written (.expr 9 base) us → Written (.expr 9 e) (us ++ ts)
  primary : ∀ n' ≥ n, ∀ p, Outcome True (primary n) (primary n') (n < 8 * p.unread + 1)
    p fun e ts _ => Written (.expr 10 e) ts
  binary : ∀ n' ≥ n, ∀ lhs least p, Outcome True (binary n lhs least) (binary n' lhs least)
    (n < 8 * p.unread + 1) p (Extends least lhs p)
  climb : ∀ n' ≥ n, ∀ outer rhs p, Outcome True (climb n outer rhs) (climb n' outer rhs)
    (n < 8 * p.unread + 2) p (Climbs outer rhs p)

namespace ExpressionsWritten

variable {n n' : Nat} {p : Parser}

theorem expr_succ (ih : ExpressionsWritten n) (hn : n ≤ n') (p : Parser) :
    Outcome True (Parse.expr (n + 1)) (Parse.expr (n' + 1)) (n + 1 < 8 * p.unread + 3)
      p fun e ts q => Written (.expr 1 e) ts ∧ operatorOf? q.tokens = none := by
  refine .within (((ih.operand n' hn p).shorter (by omega)).bind fun lhs ts q hq hlhs => .within ?_)
  have hle := hq.unread
  refine ((ih.binary n' hn lhs .assignment q).shorter (by omega)).mono fun e us r _ he => ⟨?_, ?_⟩
  · refine he.written ts (hlhs.looser (by decide)) fun op _ _ => hlhs.looser ?_
    have hpre := op.precedence_le
    rw [Precedence.leftLevel_eq]
    split <;> omega
  · cases hop : operatorOf? r.tokens with
    | none => rfl
    | some op => exact absurd (he.stopped op hop) (Nat.not_lt.mpr op.precedence.level_pos)

theorem operand_succ (ih : ExpressionsWritten n) (hn : n ≤ n') (p : Parser) :
    Outcome True (Parse.operand (n + 1)) (Parse.operand (n' + 1)) (n + 1 < 8 * p.unread + 2)
      p fun e ts _ => Written (.expr 8 e) ts := by
  refine .peekPrefix (fun op t q hq ht hop => .currentSpan (.accept ht fun r hr => ?_)) fun q hq =>
    ?_
  · have hqle := hq.unread
    have hrle := hr.unread
    rw [Parser.currentSpan_of_ahead ht]
    refine ((ih.operand n' hn r).shorter (by simp at hrle; omega)).bind fun e ts s _ he => .pure ?_
    simpa using Written.unary hop he
  · have hqle := hq.unread
    refine ((ih.primary n' hn q).shorter (by simp at hqle; omega)).bind fun base ts r hr hbase => ?_
    have hrle := hr.unread
    refine ((ih.suffixes n' hn base r).shorter (by omega)).mono fun e us s _ he => ?_
    exact (he ts hbase.tighter).tighter

theorem suffixes_succ (ih : ExpressionsWritten n) (hn : n ≤ n') (base : Expr) (p : Parser) :
    Outcome True (Parse.suffixes (n + 1) base) (Parse.suffixes (n' + 1) base)
      (n + 1 < 8 * p.unread + 1) p fun e ts _ =>
      ∀ us, Written (.expr 9 base) us → Written (.expr 9 e) (us ++ ts) := by
  refine .peek (fun q _ _ _ => .pure fun us hus => by simpa using hus) fun t q hq ht => ?_
  have hqle : q.unread ≤ p.unread := hq.unread
  have hstop : Outcome True (pure base) (pure base) (n + 1 < 8 * p.unread + 1) q fun e ts _ =>
      ∀ us, Written (.expr 9 base) us → Written (.expr 9 e) (us ++ ts) := .pure fun us hus => by
        simpa using hus
  have hmore : ∀ (e : Expr) (r : Parser) (ts : List Token), r.unread < q.unread →
      (∀ us, Written (.expr 9 base) us → Written (.expr 9 e) (us ++ ts)) →
        Outcome True (Parse.suffixes n e) (Parse.suffixes n' e) (n + 1 < 8 * p.unread + 1)
        r fun e' us _ =>
          ∀ vs, Written (.expr 9 base) vs → Written (.expr 9 e') (vs ++ (ts ++ us)) := by
    intro e r ts hr he
    refine ((ih.suffixes n' hn e r).shorter (by omega)).mono fun e' us _ _ he' vs hvs => ?_
    simpa using he' _ (he vs hvs)
  cases hkind : t.kind with
  | identifier | integer | float | string => exact hstop
  | symbol s =>
    cases s
    case openParen =>
      refine .accept ht fun r hr => ?_
      have hrle : r.unread + 1 ≤ q.unread := hr.unread
      have hargs : Outcome True (within "parsing call arguments" do
            if ← peekSymbol .closeParen then return [] else commaSeparated (Parse.expr n) n)
          (within "parsing call arguments" do
            if ← peekSymbol .closeParen then return [] else commaSeparated (Parse.expr n') n')
          (n + 1 < 8 * p.unread + 1) r fun es ts _ => Written (.args es) ts := by
        refine .within (.peekSymbol (fun _ _ _ _ _ => .pure .noArgs) fun u hu _ => ?_)
        have hule : u.unread ≤ r.unread := hu.unread
        have hitem : ∀ v : Parser, v.unread ≤ u.unread → (True → v.typeNames = u.typeNames) →
          Outcome True (Parse.expr n)
            (Parse.expr n') (n + 1 < 8 * p.unread + 1) v fun e ts _ => ts ≠ [] ∧
            Written (.expr 1 e) ts := fun v hv _ =>
          ((ih.expr n' hn v).shorter (by omega)).mono fun e ts _ _ he => ⟨he.1.ne_nil, he.1⟩
        refine ((Outcome.commaSeparated u.unread u.typeNames hitem (Nat.le_refl _) (fun _ => rfl)
          hn).shorter ?_).mono
          fun es ts _ _ hes => Written.args_of_separated hes
        rintro (hshort | hle)
        · exact hshort
        · omega
      refine hargs.bind fun es ts u hu hes => .symbol fun t' v ht' hv => ?_
      have hule := hu.unread
      have hvle := hv.unread
      refine (hmore _ v (t :: (ts ++ [t'])) (by simp at hvle; omega) fun us hus =>
        .call hus hkind hes ht').mono ?_
      intro e us _ _ he vs hvs
      simpa using he vs hvs
    case dot =>
      refine .accept ht fun r hr => .name fun t' u ht' hfree hu => ?_
      have hrle := hr.unread
      have hule := hu.unread
      refine (hmore _ u [t, t'] (by simp at hrle; omega) fun us hus =>
        .field hus hkind ht' hfree).mono ?_
      intro e us _ _ he vs hvs
      simpa using he vs hvs
    case ampersand =>
      refine .currentSpan (.accept ht fun r hr => ?_)
      rw [Parser.currentSpan_of_ahead ht]
      exact hmore _ r [t] hr.unread fun us hus => .addressOf hus hkind
    case commercialAt =>
      refine .currentSpan (.accept ht fun r hr => ?_)
      rw [Parser.currentSpan_of_ahead ht]
      exact hmore _ r [t] hr.unread fun us hus => .dereference hus hkind
    all_goals exact hstop

theorem primary_succ (ih : ExpressionsWritten n) (hn : n ≤ n') (p : Parser) :
    Outcome True (Parse.primary (n + 1)) (Parse.primary (n' + 1)) (n + 1 < 8 * p.unread + 1)
      p fun e ts _ => Written (.expr 10 e) ts := by
  refine .within (.expectAny fun t q hq ht => ?_)
  have hqle : q.unread ≤ p.unread := hq.unread
  have hrefuse : ∀ cause : ParseError, cause ≠ .exhausted → (∀ c, cause ≠ .lex c) →
      Outcome True (reject cause) (reject cause) (n + 1 < 8 * p.unread + 1) q fun e ts _ =>
        Written (.expr 10 e) ts :=
    fun cause h h' => .reject h h'
  cases hkind : t.kind with
  | integer => exact .literal ht (fun h => h.readable.1 hkind) fun w _ hw => .integer hkind hw
  | float => exact .literal ht (fun h => h.readable.2 hkind) fun w _ hw => .float hkind hw
  | string =>
    refine .currentSpan (.currentText (.accept ht fun r _ => .pure ?_))
    rw [Parser.currentSpan_of_ahead ht, Parser.currentText_of_ahead ht]
    exact .string hkind
  | identifier =>
    refine .currentSpan (.currentText ?_)
    rw [Parser.currentSpan_of_ahead ht, Parser.currentText_of_ahead ht]
    split
    · next hword =>
      refine .accept ht fun r hr => .symbol fun t' u ht' hu => ?_
      have hrle := hr.unread
      have hule := hu.unread
      refine ((ih.expr n' hn u).shorter (by simp at hrle hule; omega)).bind fun e ts v hv he =>
        .symbol fun t'' w ht'' hw => .pure ?_
      simpa using Written.sizeOf hkind hword ht' he.1 ht''
    split
    · exact hrefuse _ ParseError.noConfusion fun _ => ParseError.noConfusion
    · next hfree => exact .accept ht fun r _ => .pure (.var hkind (by simpa using hfree))
  | symbol s =>
    cases s
    case openParen =>
      refine .currentSpan (.accept ht fun r hr => ?_)
      have hrle := hr.unread
      rw [Parser.currentSpan_of_ahead ht]
      refine ((ih.expr n' hn r).shorter (by simp at hrle; omega)).bind fun e ts u hu he => ?_
      have hclose : Outcome True (within "as the end of the expression" (symbol .closeParen))
          (within "as the end of the expression" (symbol .closeParen)) (n + 1 < 8 * p.unread + 1)
          u fun span us _ => ∃ t', us = [t'] ∧ t'.kind = .symbol .closeParen ∧ span = t'.span :=
        .within (.symbolSpan .closeParen)
      refine hclose.bind ?_
      rintro _ _ v hv ⟨t', rfl, ht', rfl⟩
      exact .pure (by simpa using Written.parenthesised hkind he.1 ht')
    all_goals exact hrefuse _ ParseError.noConfusion fun _ => ParseError.noConfusion

theorem binary_succ (ih : ExpressionsWritten n) (hn : n ≤ n') (lhs : Expr) (least : Precedence)
    (p : Parser) :
    Outcome True (Parse.binary (n + 1) lhs least) (Parse.binary (n' + 1) lhs least)
      (n + 1 < 8 * p.unread + 1) p (Extends least lhs p) := by
  refine .peekInfix (fun op t q hq ht hop => ?_) fun q hq hnone => .pure ?_
  · have hqle : q.unread ≤ p.unread := hq.unread
    have hfirst : operatorOf? p.tokens = some op := by
      rw [hq.tokens, List.nil_append, Parser.tokens_of_ahead ht]
      exact hop
    dsimp only
    split
    · next hlevel =>
      refine .accept ht fun r hr => ?_
      have hrle := hr.unread
      refine ((ih.operand n' hn r).shorter (by simp at hrle; omega)).bind
        fun first ts u hu hfirst' => ?_
      have hule := hu.unread
      refine ((ih.climb n' hn op.precedence first u).shorter (by simp at hrle; omega)).bind
        fun rhs us v hv hrhs => ?_
      have hvle := hv.unread
      refine ((ih.binary n' hn (op.build lhs rhs) least v).shorter (by simp at hrle; omega)).mono
        fun e vs w hw he => ?_
      have hright : Written (.expr op.precedence.rightLevel rhs) (ts ++ us) := by
        have hpre := op.precedence_le
        refine hrhs.written ts (hfirst'.looser ?_) fun op' _ _ => hfirst'.looser ?_
        · rw [Precedence.rightLevel_eq]
          split <;> omega
        · have hpre' := op'.precedence_le
          rw [Precedence.leftLevel_eq]
          split <;> omega
      refine ⟨fun ls hls hnext => ?_, he.stopped, fun _ _ _ => by simp⟩
      have hbuilt := Written.operation hop (hnext op hfirst hlevel) hright
      have hall := he.written _ (hbuilt.looser hlevel) fun op' hop' _ =>
        hbuilt.looser (InfixOp.leftLevel_le_of_not_continues (hrhs.stopped op' hop'))
      simpa using hall
    · next hlevel =>
      refine .pure ⟨fun us hus _ => by simpa using hus, fun op' hop' => ?_,
        fun op' hop' hlevel' => ?_⟩
      · rw [Parser.tokens_of_ahead ht] at hop'
        obtain rfl : op = op' := Option.some.inj (hop.symm.trans hop')
        omega
      · obtain rfl : op = op' := Option.some.inj (hfirst.symm.trans hop')
        exact absurd hlevel' hlevel
  · have hsame : operatorOf? p.tokens = none := by rw [hq.tokens, List.nil_append, hnone]
    refine ⟨fun us hus _ => by simpa using hus, fun op hop => ?_, fun op hop => ?_⟩
    · rw [hnone] at hop
      cases hop
    · rw [hsame] at hop
      cases hop

theorem climb_succ (ih : ExpressionsWritten n) (hn : n ≤ n') (outer : Precedence) (rhs : Expr)
    (p : Parser) :
    Outcome True (Parse.climb (n + 1) outer rhs) (Parse.climb (n' + 1) outer rhs)
      (n + 1 < 8 * p.unread + 2) p (Climbs outer rhs p) := by
  refine .peekInfix (fun op t q hq ht hop => ?_) fun q hq hnone =>
    .pure ⟨fun us hus _ => by simpa using hus, fun op hop => ?_⟩
  · have hqle : q.unread ≤ p.unread := hq.unread
    have hfirst : operatorOf? q.tokens = some op := by
      rw [Parser.tokens_of_ahead ht]
      exact hop
    dsimp only
    split
    · next hcontinues =>
      obtain ⟨hright, hlevel, hleft⟩ := InfixOp.least_of_continues hcontinues
      refine ((ih.binary n' hn rhs (op.least outer) q).shorter (by omega)).bind fun e ts r hr he =>
        ?_
      have hrle := hr.unread
      have hpos := List.length_pos_iff.mpr (he.progress op hfirst hlevel)
      refine ((ih.climb n' hn outer e r).shorter (by omega)).mono fun e' us s hs he' => ?_
      refine ⟨fun vs hvs hnext => ?_, he'.stopped⟩
      have hrhs : Written (.expr op.precedence.leftLevel rhs) vs := by
        refine hnext op ?_ hcontinues
        rw [hq.tokens]
        exact hfirst
      have hread := he.written vs (hrhs.looser hleft) fun op' hop' _ => by
        obtain rfl : op = op' := Option.some.inj (hfirst.symm.trans hop')
        exact hrhs
      have hall := he'.written _ (hread.looser hright) fun op' hop' _ =>
        hread.looser (InfixOp.leftLevel_le_least hcontinues (he.stopped op' hop'))
      simpa using hall
    · next hcontinues =>
      refine .pure ⟨fun us hus _ => by simpa using hus, fun op' hop' => ?_⟩
      obtain rfl : op = op' := Option.some.inj (hfirst.symm.trans hop')
      exact hcontinues
  · rw [hnone] at hop
    cases hop

end ExpressionsWritten

theorem expressionsWritten (n : Nat) : ExpressionsWritten n := by
  induction n with
  | zero =>
    constructor
    all_goals
      intros
      exact .exhausted (by omega)
  | succ n ih =>
    constructor
    case expr =>
      intro n' hn p
      obtain ⟨n', rfl⟩ : ∃ k, n' = k + 1 := ⟨n' - 1, by omega⟩
      exact ih.expr_succ (Nat.le_of_succ_le_succ hn) p
    case operand =>
      intro n' hn p
      obtain ⟨n', rfl⟩ : ∃ k, n' = k + 1 := ⟨n' - 1, by omega⟩
      exact ih.operand_succ (Nat.le_of_succ_le_succ hn) p
    case suffixes =>
      intro n' hn base p
      obtain ⟨n', rfl⟩ : ∃ k, n' = k + 1 := ⟨n' - 1, by omega⟩
      exact ih.suffixes_succ (Nat.le_of_succ_le_succ hn) base p
    case primary =>
      intro n' hn p
      obtain ⟨n', rfl⟩ : ∃ k, n' = k + 1 := ⟨n' - 1, by omega⟩
      exact ih.primary_succ (Nat.le_of_succ_le_succ hn) p
    case binary =>
      intro n' hn lhs least p
      obtain ⟨n', rfl⟩ : ∃ k, n' = k + 1 := ⟨n' - 1, by omega⟩
      exact ih.binary_succ (Nat.le_of_succ_le_succ hn) lhs least p
    case climb =>
      intro n' hn outer rhs p
      obtain ⟨n', rfl⟩ : ∃ k, n' = k + 1 := ⟨n' - 1, by omega⟩
      exact ih.climb_succ (Nat.le_of_succ_le_succ hn) outer rhs p

/-- An expression that was parsed was written with the tokens that were taken, and no operator
follows it. -/
theorem expression_written (p : Parser) : Outcome True expression expression False p fun e ts q =>
    Written (.expr 1 e) ts ∧ operatorOf? q.tokens = none :=
  .get (((expressionsWritten p.allowance).expr _ (Nat.le_refl _) p).shorter
    (by rw [Parser.allowance]; omega))

/-- More steps change nothing. -/
theorem expr_of_allowance_le {p : Parser} (h : p.allowance ≤ n) : expr n p = expression p :=
  ((expressionsWritten p.allowance).expr n h p).eq (by rw [Parser.allowance]; omega)

end Parse

end WordScript
