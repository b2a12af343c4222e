import WordScript.Proofs.Grammar.Expressions
import WordScript.Proofs.Success

/-!
# Operators by strata

A second way to make a tree of operands and the operators between them, one level of operators after
the other, and a grammar with one rule per level. The levels are written out as lists of operators,
which agree with the parser's precedences (`Stratum.drop_all`). Precedence climbing follows the
grammar (`expr_of_follow`), which allows one tree only (`Grouped.eq_stratify`), so both ways make
the same tree (`expression_stratified`).
-/

namespace WordScript

/-! ### One level after the other -/

/-- A level of operators, which all group to the right or all to the left. -/
structure Stratum where
  operators : List InfixOp
  right : Bool

/-- The levels of operators between operands, loosest first. -/
def Stratum.all : List Stratum :=
  [⟨[.assign none, .assign (some .add), .assign (some .sub), .assign (some .mul),
    .assign (some .div)], true⟩,
    ⟨[.binary (.logic .or)], false⟩,
    ⟨[.binary (.logic .and)], false⟩,
    ⟨[.binary (.relation .equal), .binary (.relation .notEqual)], false⟩,
    ⟨[.binary (.relation .less), .binary (.relation .greater), .binary (.relation .lessEqual),
      .binary (.relation .greaterEqual)], false⟩,
    ⟨[.binary (.arithmetic .add), .binary (.arithmetic .sub)], false⟩,
    ⟨[.binary (.arithmetic .mul), .binary (.arithmetic .div)], false⟩]

/-- The operations before the first operator of a level, then each operator of the level with its
operand and the operations after it. -/
def cutAt (a : Stratum) : List (InfixOp × Expr) →
    List (InfixOp × Expr) × List (InfixOp × Expr × List (InfixOp × Expr))
  | [] => ([], [])
  | (op, v) :: ops =>
    if op ∈ a.operators then ([], (op, v, (cutAt a ops).1) :: (cutAt a ops).2)
    else ((op, v) :: (cutAt a ops).1, (cutAt a ops).2)

def groupLeft (u : Expr) (ops : List (InfixOp × Expr)) : Expr :=
  ops.foldl (fun lhs o => o.1.build lhs o.2) u

def groupRight (u : Expr) : List (InfixOp × Expr) → Expr
  | [] => u
  | (op, v) :: ops => op.build u (groupRight v ops)

/-- The tree of `u` and the operations after it. What stands between operators of the first level is
grouped by the other levels, and then those operators group it. -/
def stratify : List Stratum → Expr → List (InfixOp × Expr) → Expr
  | [], u, _ => u
  | a :: tighter, u, ops =>
    let first := stratify tighter u (cutAt a ops).1
    let rest := (cutAt a ops).2.map fun o => (o.1, stratify tighter o.2.1 o.2.2)
    if a.right then groupRight first rest else groupLeft first rest

example (a b c d e f : Expr) :
    stratify Stratum.all a [(.assign none, b), (.binary (.logic .or), c),
      (.binary (.arithmetic .mul), d), (.binary (.arithmetic .sub), e), (.assign none, f)] =
      InfixOp.build (.assign none) a (InfixOp.build (.assign none)
        (InfixOp.build (.binary (.logic .or)) b (InfixOp.build (.binary (.arithmetic .sub))
          (InfixOp.build (.binary (.arithmetic .mul)) c d) e)) f) := rfl

section
variable {a : Stratum} {op : InfixOp} {u v : Expr} {ops front back : List (InfixOp × Expr)}
  {tighter : List Stratum}

theorem cutAt_append (h : op ∈ a.operators) (front back : List (InfixOp × Expr)) :
    cutAt a (front ++ (op, v) :: back) =
      ((cutAt a front).1, (cutAt a front).2 ++ (op, v, (cutAt a back).1) :: (cutAt a back).2) := by
  induction front with
  | nil => simp only [List.nil_append, cutAt, if_pos h]
  | cons o front ih =>
    rw [List.cons_append, cutAt, ih, cutAt]
    split <;> rfl

theorem cutAt_none (h : ∀ o ∈ ops, o.1 ∉ a.operators) : cutAt a ops = (ops, []) := by
  induction ops with
  | nil => rfl
  | cons o ops ih =>
    obtain ⟨ho, hops⟩ := List.forall_mem_cons.mp h
    rw [cutAt, if_neg ho, ih hops]

theorem stratify_tighter (h : ∀ o ∈ ops, o.1 ∉ a.operators) :
    stratify (a :: tighter) u ops = stratify tighter u ops := by
  rw [stratify, cutAt_none h]
  exact ite_self _

theorem stratify_nil (levels : List Stratum) (u : Expr) : stratify levels u [] = u := by
  induction levels with
  | nil => rfl
  | cons a levels ih => rw [stratify_tighter (by simp), ih]

theorem stratify_left (h : op ∈ a.operators) (left : a.right = false)
    (hback : ∀ o ∈ back, o.1 ∉ a.operators) : stratify (a :: tighter) u (front ++ (op, v) :: back) =
      op.build (stratify (a :: tighter) u front) (stratify tighter v back) := by
  rw [stratify, stratify, cutAt_append h, cutAt_none hback]
  simp only [left, Bool.false_eq_true, if_false, groupLeft, List.map_append, List.map_cons,
    List.map_nil, List.foldl_append, List.foldl_cons, List.foldl_nil]

theorem stratify_right (h : op ∈ a.operators) (right : a.right = true)
    (hfront : ∀ o ∈ front, o.1 ∉ a.operators) :
    stratify (a :: tighter) u (front ++ (op, v) :: back) =
      op.build (stratify tighter u front) (stratify (a :: tighter) v back) := by
  rw [stratify, stratify, cutAt_append h, cutAt_none hfront]
  simp only [right, if_true]
  rfl

end

/-! ### One rule per level -/

/-- By the rules for these levels, loosest first, `u` and the operations after it make `e`. -/
inductive Grouped : List Stratum → Expr → List (InfixOp × Expr) → Expr → Prop
  | operand : Grouped levels u [] u
  | tighter (h : Grouped levels u ops e) : Grouped (a :: levels) u ops e
  | left {op : InfixOp} {v : Expr} (mem : op ∈ a.operators) (left : a.right = false)
      (lhs : Grouped (a :: levels) u front x) (rhs : Grouped levels v back y) :
      Grouped (a :: levels) u (front ++ (op, v) :: back) (op.build x y)
  | right {op : InfixOp} {v : Expr} (mem : op ∈ a.operators) (right : a.right = true)
      (lhs : Grouped levels u front x) (rhs : Grouped (a :: levels) v back y) :
      Grouped (a :: levels) u (front ++ (op, v) :: back) (op.build x y)

def Stratum.Distinct (levels : List Stratum) : Prop :=
  levels.Pairwise fun a b => ∀ op ∈ a.operators, op ∉ b.operators

theorem Stratum.distinct_all : Distinct all := by
  unfold Distinct
  decide

theorem Stratum.Distinct.notMem {ops : List (InfixOp × Expr)} (h : Distinct (a :: levels))
    (hops : ∀ o ∈ ops, ∃ b ∈ levels, o.1 ∈ b.operators) : ∀ o ∈ ops, o.1 ∉ a.operators := by
  intro o ho ha
  obtain ⟨b, hb, hop⟩ := hops o ho
  exact (List.pairwise_cons.mp h).1 b hb o.1 ha hop

/-- No other tree follows the rules. -/
theorem Grouped.eq_stratify (h : Grouped levels u ops e) (distinct : Stratum.Distinct levels) :
    e = stratify levels u ops ∧ ∀ o ∈ ops, ∃ a ∈ levels, o.1 ∈ a.operators := by
  induction h with
  | operand => exact ⟨(stratify_nil _ _).symm, by simp⟩
  | tighter _ ih =>
    obtain ⟨rfl, hops⟩ := ih (List.Pairwise.of_cons distinct)
    exact ⟨(stratify_tighter (distinct.notMem hops)).symm, by grind⟩
  | left mem left _ _ ihl ihr =>
    obtain ⟨rfl, hfront⟩ := ihl distinct
    obtain ⟨rfl, hback⟩ := ihr (List.Pairwise.of_cons distinct)
    exact ⟨(stratify_left mem left (distinct.notMem hback)).symm, by grind⟩
  | right mem right _ _ ihl ihr =>
    obtain ⟨rfl, hfront⟩ := ihl (List.Pairwise.of_cons distinct)
    obtain ⟨rfl, hback⟩ := ihr distinct
    exact ⟨(stratify_right mem right (distinct.notMem hfront)).symm, by grind⟩

/-! ### The parser's levels -/

/-- The parser has each operator on the level that lists it, and groups it alike. -/
theorem Stratum.drop_all :
    ∀ op : InfixOp, ∃ a, all.drop (op.precedence.level - 1) = a :: all.drop op.precedence.level ∧
    op ∈ a.operators ∧ a.right = op.rightAssociative
  | .assign none => ⟨_, rfl, by decide, rfl⟩
  | .assign (some op) => by cases op <;> exact ⟨_, rfl, by decide, rfl⟩
  | .binary (.logic op) => by cases op <;> exact ⟨_, rfl, by decide, rfl⟩
  | .binary (.relation op) => by cases op <;> exact ⟨_, rfl, by decide, rfl⟩
  | .binary (.arithmetic op) => by cases op <;> exact ⟨_, rfl, by decide, rfl⟩

def GroupedAt (k : Nat) (u : Expr) (ops : List (InfixOp × Expr)) (e : Expr) : Prop :=
  Grouped (Stratum.all.drop (k - 1)) u ops e

namespace GroupedAt

theorem operand : GroupedAt k u [] u := Grouped.operand

theorem tighter (h : GroupedAt (k + 1) u ops e) : GroupedAt k u ops e := by
  cases k with
  | zero => exact h
  | succ k =>
    rw [GroupedAt, Nat.add_sub_cancel] at h ⊢
    by_cases hk : k < Stratum.all.length
    · rw [List.drop_eq_getElem_cons hk]
      exact .tighter h
    · rw [List.drop_eq_nil_of_le (by omega)] at h ⊢
      exact h

theorem looser (h : GroupedAt k u ops e) (hle : k' ≤ k) : GroupedAt k' u ops e := by
  induction hle with
  | refl => exact h
  | step _ ih => exact ih h.tighter

theorem operation {op : InfixOp} (left : GroupedAt op.precedence.leftLevel u front lhs)
    (right : GroupedAt op.precedence.rightLevel v back rhs) :
    GroupedAt op.precedence.level u (front ++ (op, v) :: back) (op.build lhs rhs) := by
  obtain ⟨a, hdrop, hmem, hright⟩ := Stratum.drop_all op
  have hassociative := op.rightAssociative_iff
  rw [Precedence.leftLevel_eq] at left
  rw [Precedence.rightLevel_eq] at right
  rw [GroupedAt] at left right ⊢
  by_cases hone : op.precedence.level = 1
  · rw [if_pos hone] at left right
    rw [hone] at hdrop ⊢
    rw [hdrop] at right ⊢
    exact .right hmem (hright.trans (hassociative.mpr hone)) left right
  · rw [if_neg hone] at left right
    rw [Nat.add_sub_cancel] at right
    rw [hdrop] at left ⊢
    exact .left hmem (hright.trans (Bool.eq_false_iff.mpr (mt hassociative.mp hone))) left right

theorem eq_stratify (h : GroupedAt k u ops e) : e = stratify (Stratum.all.drop (k - 1)) u ops :=
  (Grouped.eq_stratify h (List.Pairwise.drop Stratum.distinct_all)).1

end GroupedAt

/-! ### Climbing -/

namespace Parse

theorem peek_again {p q : Parser} (h : peek p = .ok kind q) : peek q = .ok kind q := by
  unfold peek at h
  split at h
  · next t ht =>
    cases h
    simp only [peek, ht]
  · next hahead =>
    split at h
    · next t c hnext =>
      cases h
      cases t with
      | some t => rfl
      | none => simp only [peek, Cursor.next_none hnext]
    · cases h

theorem peekInfix_again {p q : Parser} (h : peekInfix p = .ok found q) :
    peekInfix q = .ok found q := by
  obtain ⟨kind, q', hpeek, hfound⟩ := bind_ok.mp h
  have hsame : q' = q := by
    split at hfound
    · exact (pure_ok.mp hfound).2
    · cases hfound
      rfl
    · exact (pure_ok.mp hfound).2
  subst hsame
  exact bind_ok.mpr ⟨kind, q', peek_again hpeek, hfound⟩

def operations : Nat → Parse (List (InfixOp × Expr))
  | 0 => exhausted
  | n + 1 => do
    match ← peekInfix with
    | some op =>
      accept
      let v ← operand n
      return (op, v) :: (← operations n)
    | none => return []

def sequence (n : Nat) : Parse (Expr × List (InfixOp × Expr)) :=
  return (← operand n, ← operations n)

/-- The text goes on with these operations up to `r`, where it ends or no operator follows. -/
inductive Follow : Parser → List (InfixOp × Expr) → Parser → Prop
  | stop (none : peekInfix p = .ok none r) : Follow p [] r
  | more {op : InfixOp} {v : Expr} {q : Parser} (operator : peekInfix p = .ok (some op) q)
      (operand : ∃ n, operand n { q with ahead := none } = .ok v s) (rest : Follow s ops r) :
      Follow p ((op, v) :: ops) r

theorem follow_of_operations {p : Parser} (h : operations n p = .ok ops r) : Follow p ops r := by
  induction n generalizing p ops with
  | zero => cases h
  | succ n ih =>
    obtain ⟨found, q, hfound, h⟩ := bind_ok.mp h
    cases found with
    | none =>
      cases h
      exact .stop hfound
    | some op =>
      obtain ⟨_, _, hskip, h⟩ := bind_ok.mp h
      obtain rfl := modify_ok.mp hskip
      obtain ⟨v, s, hv, h⟩ := bind_ok.mp h
      obtain ⟨ops', s', hops, h⟩ := bind_ok.mp h
      cases h
      exact .more hfound ⟨n, hv⟩ (ih hops)

/-- `x` reads some of the operations that follow and stops before one that is to `stop` it. What it
makes is grouped at level `k` out of `u`, the operations `done` before and those it reads. -/
def ReadsOn (x : Nat → Parse Expr) (k : Nat) (stop : InfixOp → Prop) (u : Expr)
    (done ops : List (InfixOp × Expr)) (p r : Parser) : Prop :=
  ∃ n e q taken left, x n p = .ok e q ∧ ops = taken ++ left ∧ Follow q left r ∧
    (∃ found, peekInfix q = .ok found q) ∧
    GroupedAt k u (done ++ taken) e ∧ ∀ o ∈ left.head?, stop o.1

def ReadsBinary (ops : List (InfixOp × Expr)) : Prop :=
  ∀ (least : Precedence) lhs u done p r, Follow p ops r → GroupedAt least.level u done lhs →
    (∀ o ∈ ops.head?, least.level ≤ o.1.precedence.level →
      GroupedAt o.1.precedence.leftLevel u done lhs) →
      ReadsOn (binary · lhs least) least.level (·.precedence.level < least.level) u done ops p r

def ReadsClimb (ops : List (InfixOp × Expr)) : Prop :=
  ∀ (outer : Precedence) rhs u done p r, Follow p ops r → GroupedAt outer.rightLevel u done rhs →
    (∀ o ∈ ops.head?, o.1.continues outer = true → GroupedAt o.1.precedence.leftLevel u done rhs) →
      ReadsOn (climb · outer rhs) outer.rightLevel (·.continues outer ≠ true) u done ops p r

theorem readsBinary (ih : ∀ ops' : List (InfixOp × Expr), ops'.length < ops.length →
      ReadsBinary ops' ∧ ReadsClimb ops') :
    ReadsBinary ops := by
  intro least lhs u done p r hfollow hlhs hnext
  cases hfollow with
  | stop hnone =>
    refine ⟨1, lhs, r, [], [], bind_ok.mpr ⟨_, _, hnone, rfl⟩, rfl, .stop (peekInfix_again hnone),
      ⟨_, peekInfix_again hnone⟩, ?_, by simp⟩
    rwa [List.append_nil]
  | @more _ s ops _ op v q hop hoperand rest =>
    have hagain := peekInfix_again hop
    by_cases hlevel : least.level ≤ op.precedence.level
    · obtain ⟨n₁, hv⟩ := hoperand
      obtain ⟨n₂, rhs, s₂, taken, left, hclimb, rfl, hleft, -, hrhs, hstopped⟩ :=
        (ih ops (Nat.lt_succ_self _)).2 op.precedence v v [] s r rest .operand fun _ _ _ => .operand
      -- What stopped `climb` binds no tighter than `op`, so all up to there may be its left
      -- operand.
      have hbuilt : GroupedAt op.precedence.level u (done ++ (op, v) :: taken) (op.build lhs rhs) :=
        .operation (hnext _ rfl hlevel) hrhs
      obtain ⟨n₃, e, s₃, taken', left', hbinary, rfl, hleft', hseen, he, hstop⟩ :=
        (ih left (by rw [List.length_cons, List.length_append]; omega)).1 least (op.build lhs rhs)
          u _ s₂ r hleft
          (hbuilt.looser hlevel) fun o ho _ =>
            hbuilt.looser (InfixOp.leftLevel_le_of_not_continues (hstopped o ho))
      -- The three runs get the same allowance.
      let n := max n₁ (max n₂ n₃)
      have hv := ((expressionsWritten n₁).operand n (by omega) _).also hv
      have hclimb := ((expressionsWritten n₂).climb n (by omega) _ _ _).also hclimb
      have hbinary := ((expressionsWritten n₃).binary n (by omega) _ _ _).also hbinary
      refine ⟨n + 1, e, s₃, (op, v) :: taken ++ taken', left', bind_ok.mpr ⟨_, q, hop, ?_⟩, by simp,
        hleft', hseen, by simpa using he, hstop⟩
      simp only [if_pos hlevel]
      exact bind_ok.mpr ⟨_, _, rfl, bind_ok.mpr ⟨_, _, hv, bind_ok.mpr ⟨_, _, hclimb, hbinary⟩⟩⟩
    · refine ⟨1, lhs, q, [], (op, v) :: ops, bind_ok.mpr ⟨_, q, hop, ?_⟩, rfl,
        .more hagain hoperand rest, ⟨_, hagain⟩, ?_, ?_⟩
      · simp only [if_neg hlevel]
        rfl
      · rwa [List.append_nil]
      · simpa using hlevel

theorem readsClimb (ih : ∀ ops' : List (InfixOp × Expr), ops'.length < ops.length →
      ReadsBinary ops' ∧ ReadsClimb ops') (hbinary : ReadsBinary ops) : ReadsClimb ops := by
  intro outer rhs u done p r hfollow hrhs hnext
  cases hfollow with
  | stop hnone =>
    refine ⟨1, rhs, r, [], [], bind_ok.mpr ⟨_, _, hnone, rfl⟩, rfl, .stop (peekInfix_again hnone),
      ⟨_, peekInfix_again hnone⟩, ?_, by simp⟩
    rwa [List.append_nil]
  | @more _ s ops _ op v q hop hoperand rest =>
    have hagain := peekInfix_again hop
    by_cases hcontinues : op.continues outer = true
    · obtain ⟨hright, hlevel, hleft⟩ := InfixOp.least_of_continues hcontinues
      have hlhs := hnext _ rfl hcontinues
      obtain ⟨n₁, e, s₁, taken, left, hrun, hsplit, hfollow, -, he, hstopped⟩ :=
        hbinary (op.least outer) rhs u done q r (.more hagain hoperand rest)
          (hlhs.looser hleft) fun o ho _ => by
          obtain rfl : (op, v) = o := Option.some.inj ho
          exact hlhs
      -- The first operator is among those read, or it would have stopped the reading.
      have hlt : left.length < ((op, v) :: ops).length := by
        cases taken with
        | nil =>
          rw [List.nil_append] at hsplit
          subst hsplit
          exact absurd (hstopped _ rfl) (Nat.not_lt.mpr hlevel)
        | cons =>
          rw [hsplit, List.length_append, List.length_cons]
          omega
      obtain ⟨n₂, e', s₂, taken', left', hrun', rfl, hfollow', hseen, he', hstop⟩ :=
        (ih left hlt).2 outer e u _ s₁ r hfollow (he.looser hright)
          fun o ho _ => he.looser (InfixOp.leftLevel_le_least hcontinues (hstopped o ho))
      let n := max n₁ n₂
      have hrun := ((expressionsWritten n₁).binary n (by omega) _ _ _).also hrun
      have hrun' := ((expressionsWritten n₂).climb n (by omega) _ _ _).also hrun'
      refine ⟨n + 1, e', s₂, taken ++ taken', left', bind_ok.mpr ⟨_, q, hop, ?_⟩, by simp [hsplit],
        hfollow', hseen, by simpa using he', hstop⟩
      simp only [if_pos hcontinues]
      exact bind_ok.mpr ⟨_, _, hrun, hrun'⟩
    · refine ⟨1, rhs, q, [], (op, v) :: ops, bind_ok.mpr ⟨_, q, hop, ?_⟩, rfl,
        .more hagain hoperand rest, ⟨_, hagain⟩, ?_, ?_⟩
      · simp only [if_neg hcontinues]
        rfl
      · rwa [List.append_nil]
      · simpa using hcontinues

theorem readsBinary_and_readsClimb (ops : List (InfixOp × Expr)) :
    ReadsBinary ops ∧ ReadsClimb ops := by
  -- By the number of operations; `climb` leaves it to `binary` to read the first one.
  generalize hn : ops.length = n
  induction n using Nat.strongRecOn generalizing ops with
  | ind n ih =>
    have hshorter : ∀ ops' : List (InfixOp × Expr), ops'.length < ops.length →
        ReadsBinary ops' ∧ ReadsClimb ops' :=
      fun ops' hlt => ih _ (hn ▸ hlt) ops' rfl
    have hbinary := readsBinary hshorter
    exact ⟨hbinary, readsClimb hshorter hbinary⟩

/-- An operand and the operations after it are read as one expression, given steps enough. -/
theorem expr_of_follow {p : Parser} (first : operand n p = .ok u q) (rest : Follow q ops r) :
    ∃ e, GroupedAt 1 u ops e ∧ ∃ N, ∀ n ≥ N, expr n p = .ok e r := by
  obtain ⟨n', e, s, taken, left, hbinary, rfl, hleft, ⟨found, hseen⟩, he, hstop⟩ :=
    (readsBinary_and_readsClimb ops).1 .assignment u u [] q r rest .operand fun _ _ _ => .operand
  -- No operator is looser than assignments, so none is left.
  obtain rfl : left = [] := by
    cases left with
    | nil => rfl
    | cons o left => exact absurd (hstop o rfl) (Nat.not_lt.mpr o.1.precedence.level_pos)
  obtain rfl : s = r := by
    cases hleft with
    | stop hnone =>
      rw [hseen] at hnone
      cases hnone
      rfl
  rw [List.append_nil]
  refine ⟨e, he, max n n' + 1, fun steps hsteps => ?_⟩
  obtain ⟨steps, rfl⟩ : ∃ k, steps = k + 1 := ⟨steps - 1, by omega⟩
  have hfirst := ((expressionsWritten n).operand steps (by omega) _).also first
  have hbinary := ((expressionsWritten n').binary steps (by omega) _ _ _).also hbinary
  have hrest : within "parsing binary expression" (binary steps u .assignment) q = .ok e s := by
    simp only [within, hbinary]
  have hall : (operand steps >>= fun lhs =>
    within "parsing binary expression" (binary steps lhs .assignment)) p = .ok e s :=
    bind_ok.mpr ⟨_, _, hfirst, hrest⟩
  rw [expr, within, hall]

/-- An operand and any operations after it are read as one expression, up to where no operator
follows. It has the tree that grouping one level after the other gives, which is the only one with a
rule for each level. -/
theorem expression_stratified (h : sequence n p = .ok (u, ops) r) :
    expression p = .ok (stratify Stratum.all u ops) r ∧
      ∀ e, Grouped Stratum.all u ops e ↔ e = stratify Stratum.all u ops := by
  obtain ⟨_, q, first, h⟩ := bind_ok.mp h
  obtain ⟨_, r', rest, h⟩ := bind_ok.mp h
  cases h
  obtain ⟨e, he, N, hexpr⟩ := expr_of_follow first (follow_of_operations rest)
  obtain rfl : e = stratify Stratum.all u ops := he.eq_stratify
  refine ⟨?_, fun e => ⟨fun h => (h.eq_stratify Stratum.distinct_all).1, fun h => h ▸ he⟩⟩
  rw [← expr_of_allowance_le (Nat.le_max_right N p.allowance)]
  exact hexpr _ (Nat.le_max_left N p.allowance)

/-- After an assignment come operators of three levels and another assignment. -/
theorem expression_stratified_mixed : ∃ u ops r,
    sequence 9 (.start "a = b or c * d - e = f;".toList) = .ok (u, ops) r ∧
      ops.map (·.1) = [.assign none, .binary (.logic .or), .binary (.arithmetic .mul),
        .binary (.arithmetic .sub), .assign none] ∧
      expression (.start "a = b or c * d - e = f;".toList) =
        .ok (stratify Stratum.all u ops) r := by
  have hread : ((sequence 9).run' (.start "a = b or c * d - e = f;".toList)).map (fun s =>
    s.2.map (·.1)) =
      some [.assign none, .binary (.logic .or), .binary (.arithmetic .mul),
        .binary (.arithmetic .sub), .assign none] := by
    decide +kernel
  obtain ⟨⟨u, ops⟩, hsequence, hops⟩ := Option.map_eq_some_iff.mp hread
  obtain ⟨r, hsequence⟩ := run'_eq_some.mp hsequence
  exact ⟨u, ops, r, hsequence, hops, (expression_stratified hsequence).1⟩

end Parse

end WordScript
