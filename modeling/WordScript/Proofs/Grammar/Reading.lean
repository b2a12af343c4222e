import WordScript.Proofs.Grammar.Strata

/-!
# What is written can be read

The other direction for expressions: on tokens that an expression is written with, and that no
operator or suffix follows, the parser gives that expression and takes just these tokens
(`expression_of_written`). The steps that it needs are left open on the way, since those that it is
allowed suffice.
-/

namespace WordScript

/-- What a parser has in front of it: these tokens and no fault, with these types known. -/
structure Parser.Sees (p : Parser) (ts : List Token) (types : List String) : Prop where
  tokens : p.tokens = ts
  lexes : p.cursor.Lexes
  types : p.typeNames = types

theorem Parser.Sees.skip {p : Parser} {names : List String} (h : p.Sees (t :: ts) names)
    (ht : p.ahead = some t) : ({ p with ahead := none } : Parser).Sees ts names := by
  have htokens := h.tokens
  rw [Parser.tokens_of_ahead ht] at htokens
  exact ⟨(List.cons.inj htokens).2, h.lexes, h.types⟩

namespace Parse

/-- With steps enough, `x` gives `a` and leaves these tokens. -/
def Gives {α : Type} (types : List String) (x : Nat → Parse α) (p : Parser) (a : α)
    (rest : List Token) : Prop :=
  ∃ q N, q.Sees rest types ∧ ∀ n ≥ N, x n p = .ok a q

theorem peek_sees {p : Parser} {types : List String} (h : p.Sees ts types) :
    ∃ q, peek p = .ok (ts.head?.map Token.kind) q ∧ q.Sees ts types ∧ q.ahead = ts.head? := by
  have htokens := h.tokens
  cases hahead : p.ahead with
  | some t =>
    rw [Parser.tokens_of_ahead hahead] at htokens
    refine ⟨p, ?_, h, ?_⟩
    · simp [peek, hahead, ← htokens]
    · simp [hahead, ← htokens]
  | none =>
    have htokens : p.cursor.tokens = ts := by simpa [Parser.tokens, hahead] using htokens
    cases hnext : Cursor.next p.cursor with
    | error e c => exact absurd h.lexes (Cursor.not_lexes hnext)
    | ok first c =>
      refine ⟨{ p with cursor := c, ahead := first }, ?_, ?_, ?_⟩
      · cases first with
        | none => simp [peek, hahead, hnext, ← htokens, (Cursor.drain_none hnext).1]
        | some t => simp [peek, hahead, hnext, ← htokens, (Cursor.drain_some hnext).1]
      · cases first with
        | none =>
          obtain ⟨hnone, hlexes⟩ := Cursor.drain_none (Cursor.next_none hnext)
          refine ⟨?_, hlexes, h.types⟩
          simp [Parser.tokens, hnone, ← htokens, (Cursor.drain_none hnext).1]
        | some t =>
          obtain ⟨hsome, hlexes⟩ := Cursor.drain_some hnext
          exact ⟨by simp [Parser.tokens, ← htokens, hsome], hlexes.mp h.lexes, h.types⟩
      · cases first with
        | none => simp [← htokens, (Cursor.drain_none hnext).1]
        | some t => simp [← htokens, (Cursor.drain_some hnext).1]

section
variable {α β : Type} {types : List String} {p : Parser} {a : α} {b : β}
  {mid rest ts : List Token} {t : Token}

namespace Gives

theorem bind {x : Nat → Parse α} {f : Nat → α → Parse β} (h : Gives types x p a mid)
    (hf : ∀ q, q.Sees mid types → Gives types (fun n => f n a) q b rest) :
    Gives types (fun n => x n >>= f n) p b rest := by
  obtain ⟨q, N, hq, hx⟩ := h
  obtain ⟨r, N', hr, hfa⟩ := hf q hq
  refine ⟨r, max N N', hr, fun n hn => ?_⟩
  simp only [Bind.bind, EStateM.bind, hx n (by omega), hfa n (by omega)]

theorem step {x : Parse α} {f : Nat → α → Parse β} (hx : x p = .ok a q)
    (hf : Gives types (fun n => f n a) q b rest) : Gives types (fun n => x >>= f n) p b rest := by
  obtain ⟨r, N, hr, hfa⟩ := hf
  refine ⟨r, N, hr, fun n hn => ?_⟩
  simp only [Bind.bind, EStateM.bind, hx, hfa n hn]

theorem pure (h : p.Sees rest types) : Gives types (fun _ => Pure.pure a) p a rest :=
  ⟨p, 0, h, fun _ _ => rfl⟩

theorem within {x : Nat → Parse α} (h : Gives types x p a rest) :
    Gives types (fun n => WordScript.within context (x n)) p a rest := by
  obtain ⟨q, N, hq, hx⟩ := h
  exact ⟨q, N, hq, fun n hn => by simp only [WordScript.within, hx n hn]⟩

theorem succ {x : Nat → Parse α} (h : Gives types (fun n => x (n + 1)) p a rest) :
    Gives types x p a rest := by
  obtain ⟨q, N, hq, hx⟩ := h
  refine ⟨q, N + 1, hq, fun n hn => ?_⟩
  obtain ⟨n, rfl⟩ : ∃ k, n = k + 1 := ⟨n - 1, by omega⟩
  exact hx n (by omega)

theorem later {x : Nat → Parse α} (h : Gives types x p a rest) (k : Nat) :
    Gives types (fun n => x (n + k)) p a rest := by
  obtain ⟨q, N, hq, hx⟩ := h
  exact ⟨q, N, hq, fun n hn => hx (n + k) (by omega)⟩

theorem get {f : Nat → Parser → Parse β} (h : Gives types (fun n => f n p) p b rest) :
    Gives types (fun n => MonadState.get >>= f n) p b rest := h

theorem currentSpan {f : Nat → Span → Parse β} (ht : p.ahead = some t)
    (h : Gives types (fun n => f n t.span) p b rest) :
    Gives types (fun n => Parse.currentSpan >>= f n) p b rest := by
  rw [← Parser.currentSpan_of_ahead ht] at h
  exact h

theorem currentText {f : Nat → String → Parse β} (ht : p.ahead = some t)
    (h : Gives types (fun n => f n t.text) p b rest) :
    Gives types (fun n => Parse.currentText >>= f n) p b rest := by
  rw [← Parser.currentText_of_ahead ht] at h
  exact h

theorem peek {f : Nat → Option TokenKind → Parse β} (h : p.Sees ts types)
    (hf : ∀ q, q.Sees ts types → q.ahead = ts.head? →
      Gives types (fun n => f n (ts.head?.map Token.kind)) q b rest) :
    Gives types (fun n => Parse.peek >>= f n) p b rest := by
  obtain ⟨q, hpeek, hq, hahead⟩ := peek_sees h
  exact .step hpeek (hf q hq hahead)

theorem accept {f : Nat → Unit → Parse β} (h : p.Sees (t :: ts) types) (ht : p.ahead = some t)
    (hf : ∀ q, q.Sees ts types → Gives types (fun n => f n ()) q b rest) :
    Gives types (fun n => Parse.accept >>= f n) p b rest := by
  obtain ⟨r, N, hr, hfa⟩ := hf _ (h.skip ht)
  exact ⟨r, N, hr, hfa⟩

theorem expectAny {f : Nat → TokenKind → Parse β} (h : p.Sees (t :: ts) types)
    (hf : ∀ q, q.Sees (t :: ts) types → q.ahead = some t →
      Gives types (fun n => f n t.kind) q b rest) :
    Gives types (fun n => Parse.expectAny wanted >>= f n) p b rest := by
  obtain ⟨q, hpeek, hq, hahead⟩ := peek_sees h
  have hexpect : Parse.expectAny wanted p = .ok t.kind q :=
    bind_ok.mpr ⟨p, p, rfl, bind_ok.mpr ⟨_, q, hpeek, rfl⟩⟩
  exact .step hexpect (hf q hq hahead)

theorem expect {f : Nat → Unit → Parse β} (h : p.Sees (t :: ts) types) (hkind : t.kind = kind)
    (hf : ∀ q, q.Sees (t :: ts) types → q.ahead = some t → Gives types (fun n => f n ()) q b rest) :
    Gives types (fun n => Parse.expect kind >>= f n) p b rest := by
  obtain ⟨q, hpeek, hq, hahead⟩ := peek_sees h
  have hexpect : Parse.expectAny (some (.kind kind)) p = .ok t.kind q :=
    bind_ok.mpr ⟨p, p, rfl, bind_ok.mpr ⟨_, q, hpeek, rfl⟩⟩
  have hexpect : Parse.expect kind p = .ok () q := by
    refine bind_ok.mpr ⟨_, q, hexpect, ?_⟩
    rw [if_neg (not_not_intro hkind)]
    rfl
  exact .step hexpect (hf q hq hahead)

theorem symbolSpan (h : p.Sees (t :: ts) types) (hkind : t.kind = .symbol s) :
    Gives types (fun _ => Parse.symbol s) p t.span ts :=
  .expect h hkind fun _ hq ht => .currentSpan ht (.accept hq ht fun _ hr => .pure hr)

theorem symbol {f : Nat → Span → Parse β} (h : p.Sees (t :: ts) types) (hkind : t.kind = .symbol s)
    (hf : ∀ q, q.Sees ts types → Gives types (fun n => f n t.span) q b rest) :
    Gives types (fun n => Parse.symbol s >>= f n) p b rest := (symbolSpan h hkind).bind hf

theorem name {f : Nat → Name → Parse β} (h : p.Sees (t :: ts) types) (hkind : t.kind = .identifier)
    (free : (keywords.contains t.text || builtinTypes.contains t.text) = false)
    (hf : ∀ q, q.Sees ts types → Gives types (fun n => f n ⟨t.text, t.span, t.position⟩) q b rest) :
    Gives types (fun n => Parse.name >>= f n) p b rest := by
  have hname : Gives types (fun _ => Parse.name) p ⟨t.text, t.span, t.position⟩ ts := by
    refine .within (.expect h hkind fun q hq ht => .currentText ht ?_)
    simp only [free, Bool.false_eq_true, ↓reduceIte]
    refine .get ?_
    simp only [ht]
    exact .accept hq ht fun r hr => .pure hr
  exact hname.bind hf

theorem peekSymbol {f : Nat → Bool → Parse β} (h : p.Sees ts types)
    (hyes : ∀ t us q, ts = t :: us → t.kind = .symbol s → q.Sees ts types → q.ahead = some t →
      Gives types (fun n => f n true) q b rest)
    (hno : ∀ q, (∀ t ∈ ts.head?, t.kind ≠ .symbol s) → q.Sees ts types →
      Gives types (fun n => f n false) q b rest) :
    Gives types (fun n => Parse.peekSymbol s >>= f n) p b rest := by
  obtain ⟨q, hpeek, hq, hahead⟩ := peek_sees h
  have hlook : Parse.peekSymbol s p = .ok (ts.head?.map Token.kind == some (.symbol s)) q :=
    bind_ok.mpr ⟨_, q, hpeek, rfl⟩
  refine .step hlook ?_
  cases ts with
  | nil => exact hno q (by simp) hq
  | cons t us =>
    by_cases hkind : t.kind = .symbol s
    · simp only [List.head?_cons, Option.map_some, hkind, beq_self_eq_true]
      exact hyes t us q rfl hkind hq hahead
    · have hfalse : (some t.kind == some (.symbol s)) = false := by simpa using hkind
      simp only [List.head?_cons, Option.map_some, hfalse]
      exact hno q (by simpa using hkind) hq

theorem peekPrefix {f : Nat → Option UnaryOp → Parse β} (h : p.Sees (t :: ts) types)
    (hf : ∀ q, q.Sees (t :: ts) types → q.ahead = some t →
      Gives types (fun n => f n t.sign?) q b rest) :
    Gives types (fun n => Parse.peekPrefix >>= f n) p b rest := by
  obtain ⟨q, hpeek, hq, hahead⟩ := peek_sees h
  have hlook : Parse.peekPrefix p = .ok t.sign? q := by
    refine bind_ok.mpr ⟨_, q, hpeek, ?_⟩
    rw [Token.sign?]
    cases hkind : t.kind with
    | identifier | integer | float | string | symbol =>
      simp only [List.head?_cons, Option.map_some, hkind]
      rfl
  exact .step hlook (hf q hq hahead)

theorem literal {read? : List Char → Option Word} {node : Span → Word → Expr}
    (h : p.Sees (t :: ts) types) (ht : p.ahead = some t) (value : read? t.text.toList = some w) :
    Gives types (fun _ => Parse.literal read? node cause) p (node t.span w) ts := by
  refine .currentSpan ht (.currentText ht ?_)
  simp only [value]
  exact .accept h ht fun q hq => .pure hq

end Gives

end

end Parse

/-! ### First tokens -/

def Token.starts (t : Token) : Bool :=
  match t.kind with
  | .symbol s => s == .openParen || (UnaryOp.ofSymbol? s).isSome
  | .identifier => t.text == "sizeof" || !keywords.contains t.text
  | _ => true

theorem Written.head (h : Written (.expr k e) ts) :
    ∃ t us, ts = t :: us ∧ t.starts = true ∧ (9 ≤ k → t.sign? = none) := by
  generalize hphrase : Phrase.expr k e = phrase at h
  induction h generalizing k e with
  | tighter h ih =>
    obtain ⟨t, us, rfl, hstarts, hsign⟩ := ih rfl
    cases hphrase
    exact ⟨t, us, rfl, hstarts, fun hk => hsign (by omega)⟩
  | @operation op _ _ _ _ _ operator left right ihl ihr =>
    obtain ⟨u, us, rfl, hstarts, -⟩ := ihl rfl
    cases hphrase
    have hle := op.precedence_le
    exact ⟨u, _, rfl, hstarts, fun hk => by omega⟩
  | @unary op e ts t sign operand ih =>
    cases hphrase
    refine ⟨t, ts, rfl, ?_, fun hk => by omega⟩
    unfold Token.sign? at sign
    unfold Token.starts
    cases hkind : t.kind with
    | symbol s => simp_all
    | _ => simp_all
  -- A suffix changes neither the first token nor the level.
  | call callee _ _ _ ih | field callee _ _ _ ih | addressOf callee _ ih
  | dereference callee _ ih =>
    obtain ⟨u, us, rfl, hstarts, hsign⟩ := ih rfl
    cases hphrase
    exact ⟨u, _, rfl, hstarts, hsign⟩
  | parenthesised opened =>
    exact ⟨_, _, rfl, by simp [Token.starts, opened],
      fun _ => by simp [Token.sign?, opened, UnaryOp.ofSymbol?]⟩
  | integer kind | float kind | string kind =>
    exact ⟨_, _, rfl, by simp [Token.starts, kind], fun _ => by simp [Token.sign?, kind]⟩
  | var kind free =>
    rw [← Bool.not_eq_true, List.contains_iff_mem] at free
    exact ⟨_, _, rfl, by simp [Token.starts, kind, free], fun _ => by simp [Token.sign?, kind]⟩
  | sizeOf kind word =>
    exact ⟨_, _, rfl, by simp [Token.starts, kind, word], fun _ => by simp [Token.sign?, kind]⟩
  | noArgs | lastArg | arg => cases hphrase

theorem Written.args_head (h : Written (.args (e :: es)) ts) :
    ∃ t us, ts = t :: us ∧ t.starts = true := by
  cases h with
  | lastArg last =>
    obtain ⟨t, us, rfl, hstarts, -⟩ := last.head
    exact ⟨t, us, rfl, hstarts⟩
  | arg first =>
    obtain ⟨t, us, rfl, hstarts, -⟩ := first.head
    exact ⟨t, _, rfl, hstarts⟩

def NoSuffix (ts : List Token) : Prop :=
  ∀ t ∈ ts.head?, t.kind ≠ .symbol .openParen ∧ t.kind ≠ .symbol .dot ∧
    t.kind ≠ .symbol .ampersand ∧ t.kind ≠ .symbol .commercialAt

/-- The tokens do not go on with an expression that stands before them. -/
structure EndsExpr (ts : List Token) : Prop where
  suffix : NoSuffix ts
  operator : operatorOf? ts = none

theorem noSuffix_of_operator (h : t.operator? = some op) : NoSuffix (t :: ts) := by
  intro u hu
  obtain rfl : t = u := by simpa using hu
  refine ⟨?_, ?_, ?_, ?_⟩
  all_goals
    intro hkind
    simp [Token.operator?, hkind, InfixOp.ofSymbol?] at h

theorem operatorOf?_cons (t : Token) (ts : List Token) : operatorOf? (t :: ts) = t.operator? := rfl

theorem endsExpr_nil : EndsExpr [] := ⟨fun t ht => by simp at ht, rfl⟩

theorem endsExpr_of_symbol (h : t.kind = .symbol s)
    (hs : s = .closeParen ∨ s = .comma ∨ s = .semicolon) : EndsExpr (t :: ts) := by
  constructor
  · intro u hu
    obtain rfl : t = u := by simpa using hu
    rcases hs with rfl | rfl | rfl <;> simp [h]
  · rw [operatorOf?_cons, Token.operator?, h]
    rcases hs with rfl | rfl | rfl <;> rfl

/-! ### Operators -/

namespace Parse

theorem peekInfix_sees {p : Parser} {types : List String} (h : p.Sees ts types) :
    ∃ q, peekInfix p = .ok (operatorOf? ts) q ∧ q.Sees ts types ∧ q.ahead = ts.head? := by
  obtain ⟨q, hpeek, hq, hahead⟩ := peek_sees h
  refine ⟨q, bind_ok.mpr ⟨_, q, hpeek, ?_⟩, hq, hahead⟩
  cases ts with
  | nil => rfl
  | cons t us =>
    rw [operatorOf?, List.head?_cons, Option.bind_some, Token.operator?]
    cases hkind : t.kind with
    | identifier =>
      simp only [Option.map_some, hkind]
      refine bind_ok.mpr ⟨_, q, rfl, ?_⟩
      rw [Parser.currentText_of_ahead hahead]
      rfl
    | integer | float | string | symbol =>
      simp only [Option.map_some, hkind]
      rfl

def ReadsOperand (types : List String) (e : Expr) (ts : List Token) : Prop :=
  ∀ p rest, p.Sees (ts ++ rest) types → NoSuffix rest → Gives types operand p e rest

inductive ReadsOperations (types : List String) : List (InfixOp × Expr) → List Token → Prop
  | nil : ReadsOperations types [] []
  | cons (operator : t.operator? = some op) (operand : ReadsOperand types v us)
      (rest : ReadsOperations types ops vs) :
      ReadsOperations types ((op, v) :: ops) (t :: (us ++ vs))

namespace ReadsOperations

variable {types : List String}

theorem append (h : ReadsOperations types ops ts) (h' : ReadsOperations types ops' us) :
    ReadsOperations types (ops ++ ops') (ts ++ us) := by
  induction h with
  | nil => exact h'
  | cons operator operand _ ih =>
    rw [List.cons_append, List.cons_append, List.append_assoc]
    exact .cons operator operand ih

theorem noSuffix (h : ReadsOperations types ops ts) (hrest : NoSuffix rest) :
    NoSuffix (ts ++ rest) := by
  cases h with
  | nil => exact hrest
  | cons operator => exact noSuffix_of_operator operator

theorem follow {p : Parser} (h : ReadsOperations types ops ts) (hp : p.Sees (ts ++ rest) types)
    (ends : EndsExpr rest) : ∃ r, Follow p ops r ∧ r.Sees rest types := by
  induction h generalizing p with
  | nil =>
    obtain ⟨q, hpeek, hq, -⟩ := peekInfix_sees hp
    rw [List.nil_append, ends.operator] at hpeek
    exact ⟨q, .stop hpeek, hq⟩
  | cons operator operand others ih =>
    obtain ⟨q, hpeek, hq, hahead⟩ := peekInfix_sees hp
    rw [List.cons_append, operatorOf?_cons, operator] at hpeek
    rw [List.cons_append, List.append_assoc] at hq
    obtain ⟨s, N, hs, hv⟩ := operand _ _ (hq.skip hahead) (others.noSuffix ends.suffix)
    obtain ⟨r, hfollow, hr⟩ := ih hs
    exact ⟨r, .more hpeek ⟨N, hv N (Nat.le_refl N)⟩ hfollow, hr⟩

end ReadsOperations

/-- An expression at level `k` is a first operand and operations after it. -/
def Chained (types : List String) (k : Nat) (e : Expr) (ts : List Token) : Prop :=
  ∃ first us ops vs, ts = us ++ vs ∧ ReadsOperand types first us ∧
    ReadsOperations types ops vs ∧ GroupedAt k first ops e

namespace Chained

variable {types : List String}

theorem single (h : ReadsOperand types e ts) : Chained types k e ts :=
  ⟨e, ts, [], [], by simp, h, .nil, .operand⟩

theorem looser (h : Chained types k e ts) (hle : k' ≤ k) : Chained types k' e ts := by
  obtain ⟨first, us, ops, vs, hts, hfirst, hops, hgrouped⟩ := h
  exact ⟨first, us, ops, vs, hts, hfirst, hops, hgrouped.looser hle⟩

theorem operation {op : InfixOp} (operator : t.operator? = some op)
    (left : Chained types op.precedence.leftLevel lhs ls)
    (right : Chained types op.precedence.rightLevel rhs rs) :
    Chained types op.precedence.level (op.build lhs rhs) (ls ++ t :: rs) := by
  obtain ⟨first, us, ops, vs, rfl, hfirst, hops, hlhs⟩ := left
  obtain ⟨first', us', ops', vs', rfl, hfirst', hops', hrhs⟩ := right
  exact ⟨first, us, _, _, List.append_assoc .., hfirst, hops.append (.cons operator hfirst' hops'),
    .operation hlhs hrhs⟩

end Chained

/-! ### Operands -/

def ReadsPrimary (types : List String) (e : Expr) (ts : List Token) : Prop :=
  ∀ p rest, p.Sees (ts ++ rest) types → Gives types primary p e rest

/-- On these tokens, what is read as a primary expression and suffixes gets to be `e`, and goes on
from there. -/
def ReadsSuffixed (types : List String) (e : Expr) (ts : List Token) : Prop :=
  ∀ p rest e' rest', p.Sees (ts ++ rest) types →
    (∀ q, q.Sees rest types → Gives types (fun n => suffixes n e) q e' rest') →
    Gives types (fun n => primary n >>= suffixes n) p e' rest'

def ReadsArgs (types : List String) (es : List Expr) (ts : List Token) : Prop :=
  ∀ k p rest, p.Sees (ts ++ rest) types → (∀ t ∈ rest.head?, t.kind = .symbol .closeParen) →
    Gives types (fun n => commaSeparated (expr (n + k)) n) p es rest

/-- How a phrase is read by the parsers for its level and the looser ones. -/
def ReadsPhrase (types : List String) : Phrase → List Token → Prop
  | .expr k e, ts => Chained types k e ts ∧ (9 ≤ k → ReadsSuffixed types e ts) ∧
      (10 ≤ k → ReadsPrimary types e ts)
  | .args [], ts => ts = []
  | .args (e :: es), ts => ReadsArgs types (e :: es) ts

section
variable {types : List String} {p : Parser} {rest : List Token}

theorem suffixes_stops (h : p.Sees rest types) (stops : NoSuffix rest) :
    Gives types (fun n => suffixes n e) p e rest := by
  refine .succ (.peek h fun q hq _ => ?_)
  cases rest with
  | nil => exact .pure hq
  | cons t ts =>
    obtain ⟨hparen, hdot, hampersand, hat⟩ := stops t (by simp)
    simp only [List.head?_cons, Option.map_some]
    cases hkind : t.kind with
    | symbol s => cases s <;> first | exact .pure hq | contradiction
    | identifier | integer | float | string => exact .pure hq

theorem Chained.operand (h : Chained types 8 e ts) : ReadsOperand types e ts := by
  obtain ⟨first, us, ops, vs, rfl, hfirst, hops, hgrouped⟩ := h
  -- There is no level of operators that is tighter than all of them.
  have hgrouped : Grouped [] first ops e := hgrouped
  cases hgrouped
  cases hops
  simpa using hfirst

theorem Chained.expr (h : Chained types 1 e ts) (hp : p.Sees (ts ++ rest) types)
    (ends : EndsExpr rest) : Gives types Parse.expr p e rest := by
  obtain ⟨first, us, ops, vs, rfl, hfirst, hops, hgrouped⟩ := h
  rw [List.append_assoc] at hp
  obtain ⟨q, N, hq, hrun⟩ := hfirst p _ hp (hops.noSuffix ends.suffix)
  obtain ⟨r, hfollow, hr⟩ := hops.follow hq ends
  obtain ⟨e', he', N', hexpr⟩ := expr_of_follow (hrun N (Nat.le_refl N)) hfollow
  obtain rfl : e = e' := hgrouped.eq_stratify.trans he'.eq_stratify.symm
  exact ⟨r, N', hr, hexpr⟩

theorem ReadsSuffixed.operand (h : ReadsSuffixed types e ts) (written : Written (.expr 9 e) ts) :
    ReadsOperand types e ts := by
  intro p rest hp suffix
  obtain ⟨t, us, rfl, -, hsign⟩ := written.head
  refine .succ (.peekPrefix hp fun q hq _ => ?_)
  simp only [hsign (Nat.le_refl 9)]
  exact h q rest e rest hq fun r hr => suffixes_stops hr suffix

theorem ReadsPrimary.suffixed (h : ReadsPrimary types e ts) : ReadsSuffixed types e ts := by
  intro p rest e' rest' hp hf
  exact (h p rest hp).bind hf

theorem ReadsPhrase.suffixed (written : Written (.expr 9 e) ts) (h : ReadsSuffixed types e ts) :
    ReadsPhrase types (.expr 9 e) ts :=
  ⟨.single (h.operand written), fun _ => h, fun hk => absurd hk (by decide)⟩

theorem ReadsPhrase.primary (written : Written (.expr 10 e) ts) (h : ReadsPrimary types e ts) :
    ReadsPhrase types (.expr 10 e) ts :=
  ⟨.single (h.suffixed.operand written.tighter), fun _ => h.suffixed, fun _ => h⟩

theorem ReadsPhrase.of_written (h : Written phrase ts) : ReadsPhrase types phrase ts := by
  induction h with
  | tighter h ih =>
    obtain ⟨hchain, hsuffixed, hprimary⟩ := ih
    exact ⟨hchain.looser (by omega), fun hk => hsuffixed (by omega), fun hk => hprimary (by omega)⟩
  | @operation op _ _ _ _ _ operator left right ihl ihr =>
    have hle := op.precedence_le
    exact ⟨.operation operator ihl.1 ihr.1, fun hk => by omega, fun hk => by omega⟩
  | @unary op e ts t sign operand ih =>
    refine ⟨.single fun p rest hp suffix => ?_, fun hk => absurd hk (by decide), fun hk =>
      absurd hk (by decide)⟩
    refine .succ (.peekPrefix hp fun q hq ht => ?_)
    simp only [sign]
    refine .currentSpan ht (.accept hq ht fun r hr => ?_)
    exact (ih.1.operand r rest hr suffix).bind fun s hs => .pure hs
  | @call e ts es us t t' callee opened args closed ih iha =>
    refine .suffixed (.call callee opened args closed) fun p rest e' rest' hp hf => ?_
    simp only [List.append_assoc, List.cons_append, List.nil_append] at hp
    refine ih.2.1 (Nat.le_refl 9) p _ e' rest' hp fun q hq => .succ (.peek hq fun r hr ht => ?_)
    simp only [List.head?_cons, Option.map_some, opened]
    refine .accept hr ht fun u hu => ?_
    have hargs : Gives types (fun n => within "parsing call arguments" do
        if ← peekSymbol .closeParen then return [] else
          commaSeparated (Parse.expr n) n) u es (t' :: rest) := by
      cases es with
      -- The list is empty just when the parenthesis closes at once: no argument starts with one.
      | nil =>
        obtain rfl : us = [] := iha
        exact .within (.peekSymbol hu (fun _ _ v _ _ hv _ => .pure hv) fun v hno _ =>
          absurd closed (hno t' rfl))
      | cons e es =>
        obtain ⟨first, ws, rfl, hstarts⟩ := args.args_head
        refine .within (.peekSymbol hu ?_ fun v _ hv => iha 0 v _ hv (by simpa using closed))
        rintro t ts v heq hkind - -
        obtain ⟨rfl, -⟩ := List.cons.inj heq
        simp [Token.starts, hkind, UnaryOp.ofSymbol?] at hstarts
    exact hargs.bind fun v hv => .symbol hv closed hf
  | field base dot name free ih =>
    refine .suffixed (.field base dot name free) fun p rest e' rest' hp hf => ?_
    rw [List.append_assoc] at hp
    refine ih.2.1 (Nat.le_refl 9) p _ e' rest' hp fun q hq => .succ (.peek hq fun r hr ht => ?_)
    simp only [List.cons_append, List.head?_cons, Option.map_some, dot]
    exact .accept hr ht fun u hu => .name hu name free hf
  | addressOf inner mark ih =>
    refine .suffixed (.addressOf inner mark) fun p rest e' rest' hp hf => ?_
    rw [List.append_assoc] at hp
    refine ih.2.1 (Nat.le_refl 9) p _ e' rest' hp fun q hq => .succ (.peek hq fun r hr ht => ?_)
    simp only [List.cons_append, List.head?_cons, Option.map_some, mark]
    exact .currentSpan ht (.accept hr ht hf)
  | dereference inner mark ih =>
    refine .suffixed (.dereference inner mark) fun p rest e' rest' hp hf => ?_
    rw [List.append_assoc] at hp
    refine ih.2.1 (Nat.le_refl 9) p _ e' rest' hp fun q hq => .succ (.peek hq fun r hr ht => ?_)
    simp only [List.cons_append, List.head?_cons, Option.map_some, mark]
    exact .currentSpan ht (.accept hr ht hf)
  | parenthesised opened inner closed ih =>
    refine .primary (.parenthesised opened inner closed) fun p rest hp => ?_
    simp only [List.append_assoc, List.cons_append, List.nil_append] at hp
    refine .succ (.within (.expectAny hp fun q hq ht => ?_))
    simp only [opened]
    refine .currentSpan ht (.accept hq ht fun r hr => ?_)
    refine (ih.1.expr hr (endsExpr_of_symbol closed (.inl rfl))).bind fun u hu => ?_
    exact (Gives.within (.symbolSpan hu closed)).bind fun v hv => .pure hv
  | integer kind value =>
    refine .primary (.integer kind value) fun p rest hp =>
      .succ (.within (.expectAny hp fun q hq ht => ?_))
    simp only [kind]
    exact .literal hq ht value
  | float kind value =>
    refine .primary (.float kind value) fun p rest hp =>
      .succ (.within (.expectAny hp fun q hq ht => ?_))
    simp only [kind]
    exact .literal hq ht value
  | string kind =>
    refine .primary (.string kind) fun p rest hp =>
      .succ (.within (.expectAny hp fun q hq ht => ?_))
    simp only [kind]
    exact .currentSpan ht (.currentText ht (.accept hq ht fun r hr => .pure hr))
  | @var t kind free =>
    refine .primary (.var kind free) fun p rest hp =>
      .succ (.within (.expectAny hp fun q hq ht => ?_))
    simp only [kind]
    refine .currentSpan ht (.currentText ht ?_)
    -- `sizeof` is a keyword, which a variable is not.
    have hword : t.text ≠ "sizeof" := fun h => by rw [h] at free; exact absurd free (by decide)
    simp only [hword, ↓reduceIte, free, Bool.false_eq_true]
    exact .accept hq ht fun r hr => .pure hr
  | sizeOf kind word opened inner closed ih =>
    refine .primary (.sizeOf kind word opened inner closed) fun p rest hp => ?_
    simp only [List.append_assoc, List.cons_append, List.nil_append] at hp
    refine .succ (.within (.expectAny hp fun q hq ht => ?_))
    simp only [kind]
    refine .currentSpan ht (.currentText ht ?_)
    simp only [word, ↓reduceIte]
    refine .accept hq ht fun r hr => .symbol hr opened fun u hu => ?_
    refine (ih.1.expr hu (endsExpr_of_symbol closed (.inl rfl))).bind fun v hv => ?_
    exact .symbol hv closed fun w hw => .pure hw
  | noArgs => rfl
  | @lastArg e ts last ih =>
    intro k p rest hp closes
    have hlast : Gives types (fun n => Parse.expr (n + 1 + k)) p e rest := by
      simp only [Nat.add_assoc]
      refine (ih.1.expr hp ?_).later (1 + k)
      cases rest with
      | nil => exact endsExpr_nil
      | cons t ts => exact endsExpr_of_symbol (closes t rfl) (.inl rfl)
    refine .succ (hlast.bind fun q hq => .peekSymbol hq ?_ fun r _ hr => .pure hr)
    rintro t ts r rfl hkind - -
    simp [closes t rfl] at hkind
  | @arg e ts e' es us t first comma others ih iha =>
    intro k p rest hp closes
    simp only [List.append_assoc, List.cons_append] at hp
    have hfirst : Gives types (fun n => Parse.expr (n + 1 + k)) p e (t :: (us ++ rest)) := by
      simp only [Nat.add_assoc]
      exact (ih.1.expr hp (endsExpr_of_symbol comma (.inr (.inl rfl)))).later (1 + k)
    refine .succ (hfirst.bind fun q hq => .peekSymbol hq ?_ ?_)
    · rintro t' ts' r heq - hr ht
      obtain ⟨rfl, rfl⟩ := List.cons.inj heq
      refine .accept hr ht fun u hu => ?_
      simp only [Nat.add_assoc]
      exact (iha (1 + k) u rest hu closes).bind fun v hv => .pure hv
    · intro r hno _
      exact absurd comma (hno _ rfl)

/-- An expression is read from the tokens that it is written with. -/
theorem expression_of_written (written : Written (.expr 1 e) ts) (hp : p.Sees (ts ++ rest) types)
    (ends : EndsExpr rest) : ∃ q, expression p = .ok e q ∧ q.Sees rest types := by
  have hreads : ReadsPhrase types (.expr 1 e) ts := .of_written written
  obtain ⟨q, N, hq, hexpr⟩ := hreads.1.expr hp ends
  refine ⟨q, ?_, hq⟩
  rw [← expr_of_allowance_le (Nat.le_max_right N p.allowance)]
  exact hexpr _ (Nat.le_max_left N p.allowance)

end

end Parse

end WordScript
