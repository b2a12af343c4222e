import WordScript.Proofs.Grammar.Statements

/-!
# Parsing ends

In every state, on every text, each parser of a part of a script ends, and whenever it gives
something, less is left to read (`parsing_progresses`). The steps that it is allowed are no
restriction.
-/

namespace WordScript

namespace Parse

/-- `x` ends with a result or a fault, and not because it ran out of steps. -/
def Ends {α : Type} (x : Parse α) (p : Parser) : Prop :=
  (∃ a q, x p = .ok a q) ∨ ∃ e q, x p = .error e q ∧ e.cause ≠ .exhausted

/-- `x` ends, and leaves less to read if it succeeds. -/
structure Progresses {α : Type} (x : Parse α) (p : Parser) : Prop where
  ends : Ends x p
  shrinks : ∀ a q, x p = .ok a q → q.unread < p.unread

variable {kept : Prop} {α : Type} {x : Parse α} {p q r : Parser}
  {P : α → List Token → Parser → Prop}

theorem Outcome.ends (h : Outcome kept x x False p P) : Ends x p := by
  cases hx : x p with
  | ok a q => exact .inl ⟨a, q, hx⟩
  | error e q => exact .inr ⟨e, q, hx, (h.error id hx).ended⟩

theorem Outcome.progresses (h : Outcome kept x x False p P) (taken : ∀ a ts q, P a ts q → ts ≠ []) :
    Progresses x p := by
  refine ⟨h.ends, fun a q hx => ?_⟩
  obtain ⟨ts, hpast, ha⟩ := h.ok hx
  have hpos := List.length_pos_iff.mpr (taken a ts q ha)
  have hle := hpast.unread
  omega

theorem peekInfix_ahead (h : peekInfix p = .ok (some op) q) :
    ∃ t, q.ahead = some t ∧ t.operator? = some op := by
  have hfound : Outcome True (peekInfix >>= pure) (peekInfix >>= pure) False p fun op ts q =>
      ∀ o, op = some o → ∃ t, q.ahead = some t ∧ t.operator? = some o :=
    .peekInfix (fun op t q _ ht hop => .pure fun o ho => ⟨t, ht, ho ▸ hop⟩) fun q _ _ =>
      .pure fun o ho => by cases ho
  rw [bind_pure] at hfound
  obtain ⟨ts, -, hq⟩ := hfound.ok h
  exact hq op rfl

/-- When climbing goes on with an operator, the call that it makes takes the operator. -/
theorem binary_takes_operator (h : peekInfix p = .ok (some op) q)
    (hcontinues : op.continues outer = true) (hbinary : binary n rhs (op.least outer) q = .ok e r) :
    ∃ t ts, t.operator? = some op ∧ q.tokens = t :: ts ++ r.tokens ∧ r.unread < q.unread := by
  obtain ⟨t, ht, hop⟩ := peekInfix_ahead h
  have htokens := Parser.tokens_of_ahead ht
  have hfirst : operatorOf? q.tokens = some op := by
    rw [htokens]
    exact hop
  obtain ⟨ts, hpast, he⟩ :=
    ((expressionsWritten n).binary n (Nat.le_refl _) rhs (op.least outer) q).ok hbinary
  have hne := he.progress op hfirst (InfixOp.least_of_continues hcontinues).2.1
  obtain ⟨t', ts, rfl⟩ := List.exists_cons_of_ne_nil hne
  have hall := hpast.tokens
  rw [htokens, List.cons_append] at hall
  obtain rfl : t = t' := (List.cons.inj hall).1
  have hle := hpast.unread
  exact ⟨t, ts, hop, hpast.tokens, by rw [List.length_cons] at hle; omega⟩

end Parse

open Parse

/-- Parsing ends, with a tree or a fault, and makes progress: in any state, each part of a script
but a whole program takes something off the text whenever it succeeds. More steps than allowed
change nothing. Where climbing goes on with an operator, it calls `binary`, which takes that
operator before climbing looks again. -/
theorem parsing_progresses (p : Parser) :
    Ends program p ∧ Progresses struct p ∧ Progresses function p ∧ Progresses statement p ∧
    Progresses block p ∧ Progresses expression p ∧ Progresses typeName p ∧ Progresses name p ∧
      (∀ n, p.allowance ≤ n → expr n p = expression p ∧ statementWithin n p = statement p ∧
        blockWithin n p = block p) ∧
      ∀ n outer rhs op q, peekInfix p = .ok (some op) q → op.continues outer = true →
        climb (n + 1) outer rhs p = (binary n rhs (op.least outer) >>= climb n outer) q ∧
          ∀ e r, binary n rhs (op.least outer) q = .ok e r →
            ∃ t ts, t.operator? = some op ∧ q.tokens = t :: ts ++ r.tokens ∧
            r.unread < q.unread := by
  refine ⟨(program_written p).ends, (struct_written p).progresses fun d ts q h => ?_,
    (function_written p).progresses fun d ts q h => h.ne_nil, (statement_written p).progresses
    fun s ts q h => h.1.ne_nil,
    (block_written p).progresses fun b ts q h => ?_, (expression_written p).progresses
    fun e ts q h => h.1.ne_nil,
    (typeName_written p).progresses fun t ts q h => ?_, Outcome.nameToken.progresses fun n ts q h =>
      ?_,
    fun n hn => ⟨expr_of_allowance_le hn, statementWithin_of_allowance_le hn,
      blockWithin_of_allowance_le hn⟩,
    fun n outer rhs op q hop hcontinues => ⟨?_, fun e r => binary_takes_operator hop hcontinues⟩⟩
  · cases h.1
    simp
  · obtain ⟨t, us, t', rfl, -⟩ := h
    simp
  · cases h
    simp
  · obtain ⟨t, rfl, -⟩ := h
    simp
  · simp only [climb, bind, EStateM.bind, hop, hcontinues, ↓reduceIte]
    rfl

/-- In `a + b * c;`, at the second operator. -/
def Parser.atFactor : Parser :=
  ⟨⟨" c;".toList, 7, ⟨1, 8⟩⟩, some ⟨.symbol .star, "*", ⟨6, 1⟩, ⟨1, 7⟩⟩, builtinTypes⟩

/-- The right operand of the first operator starts with `b` and goes on with `* c`. -/
theorem parsing_progresses_atFactor :
    peekInfix .atFactor = .ok (some (.binary (.arithmetic .mul))) .atFactor ∧
    InfixOp.continues (.binary (.arithmetic .mul)) .term = true ∧
    ∃ e r, binary 60 (.var ⟨4, 1⟩ "b") (InfixOp.least (.binary (.arithmetic .mul)) .term)
      .atFactor = .ok e r ∧
      climb 61 .term (.var ⟨4, 1⟩ "b") .atFactor = climb 60 .term e r ∧
      r.unread < Parser.atFactor.unread := by
  have hsome :
      ((binary 60 (.var ⟨4, 1⟩ "b") (InfixOp.least (.binary (.arithmetic .mul)) .term)).run'
        .atFactor).isSome = true := by
    decide +kernel
  obtain ⟨e, he⟩ := Option.isSome_iff_exists.mp hsome
  obtain ⟨r, hr⟩ := run'_eq_some.mp he
  obtain ⟨hclimb, hbinary⟩ :=
    (parsing_progresses .atFactor).2.2.2.2.2.2.2.2.2 60 .term (.var ⟨4, 1⟩ "b") _ _ rfl rfl
  obtain ⟨t, ts, -, -, hless⟩ := hbinary e r hr
  refine ⟨rfl, rfl, e, r, hr, hclimb.trans ?_, hless⟩
  simp only [bind, EStateM.bind, hr]

end WordScript
