import Mathlib.Data.List.Forall2
import Mathlib.Logic.Relation
import WordScript.Proofs.Assembles

/-!
# Control stays in its function

Where control can go in generated code, line by line. A statement that always returns is not run
through to its end, so a function whose body always returns needs no `return` behind it, and no path
leaves the lines of a function or runs past the `halt` behind the statements outside of functions
(`control_stays`). `Spreads` says which labels control can get to; behind a `return` it can be said
to get nowhere.
-/

namespace WordScript

/-! ### Paths -/

namespace Assembly

/-- `a.Follows i j`: control can go from line `i` to line `j`. A call comes back to the line behind
it, nothing follows `halt` or a jump to an address in a register, and a jump to a number could go
anywhere. -/
inductive Follows (a : Assembly) : Nat → Nat → Prop
  | pass (line : a[i]? = some item) (none : item.instruction? = none) : Follows a i (i + 1)
  | next (line : a[i]? = some (.instruction instr note)) (goes : instr.straight = true) :
      Follows a i (i + 1)
  | stay (line : a[i]? = some (.instruction (.branch relation target) note)) : Follows a i (i + 1)
  | branch (line : a[i]? = some (.instruction (.branch relation (.label l)) note))
      (target : a[j]? = some (.label l)) : Follows a i j
  | jump (line : a[i]? = some (.instruction (.jmp (.value (.label l))) note))
      (inside : ∀ f : FunctionName, l ≠ f.label) (target : a[j]? = some (.label l)) : Follows a i j
  | call {f : FunctionName} (line : a[i]? =
      some (.instruction (.jmp (.value (.label f.label))) note)) :
      Follows a i (i + 1)
  | branchAway (line : a[i]? = some (.instruction (.branch relation (.immediate w)) note)) :
      Follows a i j
  | jumpAway (line : a[i]? = some (.instruction (.jmp (.value (.immediate w))) note)) :
      Follows a i j

def Reaches (a : Assembly) : Nat → Nat → Prop := Relation.ReflTransGen a.Follows

/-- Control that starts at the first line of `code`, between `front` and `back`, always is in
`code`. -/
def Confines (front code back : Assembly) : Prop :=
  ∀ j, (front ++ code ++ back).Reaches front.length j →
    front.length ≤ j ∧ j < front.length + code.length

end Assembly

/-! ### Where control can be -/

def Item.passed : Item → Bool
  | .instruction i _ => i.straight
  | .label _ => false
  | .static .. | .comment _ => true

/-- `Conveys lo hi live b item b'`: if `b` says whether control can be in front of the line, `b'`
says whether it can be behind it. Labels have numbers from `lo` to `hi`, and `live` says whether
control can be there. Behind a jump anything may be said. -/
inductive Conveys (lo hi : Nat) (live : Nat → Bool) : Bool → Item → Bool → Prop
  | pass (h : item.passed = true) : Conveys lo hi live b item b
  | entry {f : FunctionName} : Conveys lo hi live b (.label f.label) b
  | label (lower : lo ≤ k) (upper : k < hi) :
      Conveys lo hi live (live k) (.label (.code k)) (live k)
  | branch (lower : lo ≤ k) (upper : k < hi) :
      Conveys lo hi live (live k) (.instruction (.branch relation (.label (.code k))) note) (live k)
  | jump (lower : lo ≤ k) (upper : k < hi) :
      Conveys lo hi live (live k) (.instruction (.jmp (.value (.label (.code k)))) note) b'
  | call {f : FunctionName} :
      Conveys lo hi live b (.instruction (.jmp (.value (.label f.label))) note) b
  | leave : Conveys lo hi live b (.instruction (.jmp (.register r)) note) b'
  | halt : Conveys lo hi live b (.instruction .halt note) b'

inductive Spreads (lo hi : Nat) (live : Nat → Bool) : Bool → Assembly → Bool → Prop
  | nil : Spreads lo hi live b [] b
  | cons (first : Conveys lo hi live b item b₁) (rest : Spreads lo hi live b₁ code b₂) :
      Spreads lo hi live b (item :: code) b₂

namespace Conveys

variable {lo hi : Nat} {live : Nat → Bool}

theorem label_of (h : live k = b) (lower : lo ≤ k) (upper : k < hi) :
    Conveys lo hi live b (.label (.code k)) b :=
  h ▸ .label lower upper

theorem branch_of (h : live k = b) (lower : lo ≤ k) (upper : k < hi) :
    Conveys lo hi live b (.instruction (.branch relation (.label (.code k))) note) b :=
  h ▸ .branch lower upper

theorem jump_of (h : live k = b) (lower : lo ≤ k) (upper : k < hi) :
    Conveys lo hi live b (.instruction (.jmp (.value (.label (.code k)))) note) b' :=
  h ▸ .jump lower upper

theorem onward (h : Conveys lo hi live b item b')
    (goes : item.instruction? = none ∨ item.passed = true) : b' = b := by
  cases h with
  | pass | entry | label | branch | call => rfl
  | jump | leave | halt => simp [Item.instruction?, Item.passed, Instruction.straight] at goes

theorem of_label (h : Conveys lo hi live b (.label (.code k)) b') :
    lo ≤ k ∧ k < hi ∧ live k = b := by
  generalize hl : Label.code k = l at h
  cases h with
  | pass h => simp [Item.passed] at h
  | entry => exact absurd hl (Label.code_ne_function k _)
  | label lower upper =>
    obtain rfl := Label.code_inj hl
    exact ⟨lower, upper, rfl⟩

theorem of_branch (h : Conveys lo hi live b (.instruction (.branch relation target) note) b') :
    b' = b ∧ ∃ k, lo ≤ k ∧ k < hi ∧ target = .label (.code k) ∧ live k = b := by
  cases h with
  | pass h => simp [Item.passed, Instruction.straight] at h
  | branch lower upper => exact ⟨rfl, _, lower, upper, rfl, rfl⟩

theorem of_jump (h : Conveys lo hi live b (.instruction (.jmp (.value v)) note) b') :
    (∃ k, lo ≤ k ∧ k < hi ∧ v = .label (.code k) ∧ live k = b) ∨
    ∃ f : FunctionName, v = .label f.label ∧ b' = b := by
  cases h with
  | pass h => simp [Item.passed, Instruction.straight] at h
  | jump lower upper => exact .inl ⟨_, lower, upper, rfl, rfl⟩
  | call => exact .inr ⟨_, rfl, rfl⟩

end Conveys

namespace Spreads

variable {lo hi : Nat} {live live' : Nat → Bool}

theorem append (h₁ : Spreads lo hi live b x b₁) (h₂ : Spreads lo hi live b₁ y b₂) :
    Spreads lo hi live b (x ++ y) b₂ := by
  induction h₁ with
  | nil => exact h₂
  | cons first _ ih => exact .cons first (ih h₂)

theorem single (h : Conveys lo hi live b item b') : Spreads lo hi live b [item] b' := .cons h .nil

theorem transfer (h : Spreads lo hi live b code b') (hlo : lo' ≤ lo) (hhi : hi ≤ hi')
    (he : ∀ k, lo ≤ k → k < hi → live' k = live k) : Spreads lo' hi' live' b code b' := by
  induction h with
  | nil => exact .nil
  | cons first _ ih =>
    refine .cons ?_ ih
    cases first with
    | pass h => exact .pass h
    | entry => exact .entry
    | label hl hu => exact .label_of (he _ hl hu) (by omega) (by omega)
    | branch hl hu => exact .branch_of (he _ hl hu) (by omega) (by omega)
    | jump hl hu => exact .jump_of (he _ hl hu) (by omega) (by omega)
    | call => exact .call
    | leave => exact .leave
    | halt => exact .halt

theorem drop_cons {code : Assembly} (h : Spreads lo hi live b (code.drop j) b')
    (hj : code[j]? = some item) :
    ∃ b₁, Conveys lo hi live b item b₁ ∧ Spreads lo hi live b₁ (code.drop (j + 1)) b' := by
  obtain ⟨hlt, rfl⟩ := List.getElem?_eq_some_iff.mp hj
  rw [List.drop_eq_getElem_cons hlt] at h
  cases h with
  | cons first rest => exact ⟨_, first, rest⟩

theorem at_label (h : Spreads lo hi live b code b') (hj : code[j]? = some (.label (.code k))) :
    Spreads lo hi live (live k) (code.drop j) b' := by
  induction h generalizing j with
  | nil => simp at hj
  | cons first rest ih =>
    cases j with
    | zero =>
      simp only [List.getElem?_cons_zero, Option.some.injEq] at hj
      subst hj
      obtain ⟨-, -, rfl⟩ := first.of_label
      exact .cons first rest
    | succ j => simpa using ih (by simpa using hj)

theorem numbered (h : Spreads lo hi live b code b') (hk : Item.label (.code k) ∈ code) :
    lo ≤ k ∧ k < hi := by
  obtain ⟨j, hj⟩ := List.getElem?_of_mem hk
  obtain ⟨_, hlabel, -⟩ := (h.at_label hj).drop_cons hj
  exact ⟨hlabel.of_label.1, hlabel.of_label.2.1⟩

theorem at_own {front code back : Assembly} (own : item ∉ front ++ back)
    (hj : (front ++ code ++ back)[j]? = some item) :
    ∃ i, j = front.length + i ∧ code[i]? = some item := by
  rw [List.append_assoc] at hj
  simp only [List.mem_append, not_or] at own
  rcases Nat.lt_or_ge j front.length with hlt | hge
  · rw [List.getElem?_append_left hlt] at hj
    exact absurd (List.mem_of_getElem? hj) own.1
  · rw [List.getElem?_append_right hge] at hj
    refine ⟨j - front.length, by omega, ?_⟩
    rcases Nat.lt_or_ge (j - front.length) code.length with hlt | hge'
    · rwa [List.getElem?_append_left hlt] at hj
    · rw [List.getElem?_append_right hge'] at hj
      exact absurd (List.mem_of_getElem? hj) own.2

/-- One step of control inside the code, whatever stands around it. -/
theorem follows {code front back : Assembly} (h : Spreads lo hi live b₀ code b')
    (own : ∀ k, lo ≤ k → k < hi → Item.label (.code k) ∉ front ++ back)
    (here : Spreads lo hi live b (code.drop i) b') (inside : i < code.length)
    (next : Assembly.Follows (front ++ code ++ back) (front.length + i) j) :
    ∃ i', j = front.length + i' ∧ i' ≤ code.length ∧ Spreads lo hi live b (code.drop i') b' := by
  have hline : (front ++ code ++ back)[front.length + i]? = code[i]? := by
    rw [List.append_assoc, List.getElem?_append_right (by omega), Nat.add_sub_cancel_left,
      List.getElem?_append_left inside]
  have htarget : ∀ k, lo ≤ k → k < hi → live k = b →
    (front ++ code ++ back)[j]? = some (.label (.code k)) →
      ∃ i', j = front.length + i' ∧ i' ≤ code.length ∧ Spreads lo hi live b (code.drop i') b' := by
    rintro k lower upper rfl hj
    obtain ⟨i', rfl, hi'⟩ := at_own (own k lower upper) hj
    have hlt := (List.getElem?_eq_some_iff.mp hi').1
    exact ⟨i', rfl, by omega, h.at_label hi'⟩
  cases next with
  | pass line none =>
    obtain ⟨_, hconveys, hrest⟩ := here.drop_cons (hline ▸ line)
    obtain rfl := hconveys.onward (.inl none)
    exact ⟨i + 1, rfl, inside, hrest⟩
  | next line goes =>
    obtain ⟨_, hconveys, hrest⟩ := here.drop_cons (hline ▸ line)
    obtain rfl := hconveys.onward (.inr goes)
    exact ⟨i + 1, rfl, inside, hrest⟩
  | stay line =>
    obtain ⟨_, hconveys, hrest⟩ := here.drop_cons (hline ▸ line)
    obtain ⟨rfl, -⟩ := hconveys.of_branch
    exact ⟨i + 1, rfl, inside, hrest⟩
  | branch line target =>
    obtain ⟨_, hconveys, -⟩ := here.drop_cons (hline ▸ line)
    obtain ⟨-, k, lower, upper, hl, hlive⟩ := hconveys.of_branch
    obtain rfl := Value.label.inj hl
    exact htarget k lower upper hlive target
  | jump line outside target =>
    obtain ⟨_, hconveys, -⟩ := here.drop_cons (hline ▸ line)
    rcases hconveys.of_jump with ⟨k, lower, upper, hl, hlive⟩ | ⟨f, hl, -⟩
    · obtain rfl := Value.label.inj hl
      exact htarget k lower upper hlive target
    · exact absurd (Value.label.inj hl) (outside f)
  | call line =>
    obtain ⟨_, hconveys, hrest⟩ := here.drop_cons (hline ▸ line)
    rcases hconveys.of_jump with ⟨k, -, -, hl, -⟩ | ⟨f, -, rfl⟩
    · exact absurd (Value.label.inj hl).symm (Label.code_ne_function k _)
    · exact ⟨i + 1, rfl, inside, hrest⟩
  | branchAway line =>
    obtain ⟨_, hconveys, -⟩ := here.drop_cons (hline ▸ line)
    obtain ⟨-, k, -, -, hl, -⟩ := hconveys.of_branch
    cases hl
  | jumpAway line =>
    obtain ⟨_, hconveys, -⟩ := here.drop_cons (hline ▸ line)
    rcases hconveys.of_jump with ⟨k, -, -, hl, -⟩ | ⟨f, hl, -⟩ <;> cases hl

/-- Control that starts in the code and cannot be behind it never gets out of it. -/
theorem reaches {code front back : Assembly} (h : Spreads lo hi live true code false)
    (own : ∀ k, lo ≤ k → k < hi → Item.label (.code k) ∉ front ++ back)
    (path : Assembly.Reaches (front ++ code ++ back) front.length j) :
    ∃ i, j = front.length + i ∧ i < code.length ∧ Spreads lo hi live true (code.drop i) false := by
  -- Behind the last line nothing is left to say that control cannot be there.
  have hbounds : ∀ i ≤ code.length, Spreads lo hi live true (code.drop i) false →
      i < code.length := by
    intro i hi hs
    rcases Nat.lt_or_eq_of_le hi with hlt | rfl
    · exact hlt
    · rw [List.drop_length] at hs
      cases hs
  induction path with
  | refl => exact ⟨0, rfl, hbounds 0 (Nat.zero_le _) h, h⟩
  | tail _ next ih =>
    obtain ⟨i, rfl, hi, hs⟩ := ih
    obtain ⟨i', rfl, hi', hs'⟩ := h.follows own hs hi next
    exact ⟨i', rfl, hbounds i' hi' hs', hs'⟩

end Spreads

/-! ### Code that control may run through, and code that it may not -/

/-- Code with labels from `n` to `n'` whose jumps stay in it. -/
structure Even (n n' : Nat) (code : Assembly) : Prop where
  mono : n ≤ n'
  spreads : ∀ b, Spreads n n' (fun _ => b) b code b

/-- Code with labels from `n` to `n'` that control does not get to the end of. -/
structure Ends (n n' : Nat) (code : Assembly) : Prop where
  mono : n ≤ n'
  spreads : ∃ live, Spreads n n' live true code false

theorem Conveys.of_passes (h : Passes lo hi depth d item d') (b : Bool) :
    Conveys lo hi (fun _ => b) b item b := by
  cases h with
  | straight h =>
    refine .pass ?_
    cases item with
    | instruction i note =>
      simp only [Item.shift?] at h
      split at h
      · assumption
      · cases h
    | label l => cases h
    | static | comment => rfl
  | label lower upper => exact .label_of rfl lower upper
  | branch lower upper => exact .branch_of rfl lower upper
  | jump lower upper => exact .jump_of rfl lower upper
  | call => exact .call
  | leave => exact .leave
  | halt => exact .halt

theorem Spreads.of_flows (h : Flows lo hi depth d code d') (b : Bool) :
    Spreads lo hi (fun _ => b) b code b := by
  induction h with
  | nil => exact .nil
  | cons first _ ih => exact .cons (.of_passes first b) ih

theorem Moves.even (h : Moves n n' code w) : Even n n' code where
  mono := h.1
  spreads b := by
    obtain ⟨depth, hflows⟩ := h.2 0
    exact .of_flows hflows b

namespace Even

theorem of_passed (h : ∀ item ∈ code, item.passed = true) : Even n n code where
  mono := Nat.le_refl n
  spreads b := by
    induction code with
    | nil => exact .nil
    | cons item code ih =>
      exact .cons (.pass (h item List.mem_cons_self)) (ih fun item hitem =>
        h item (List.mem_cons_of_mem _ hitem))

theorem append (ha : Even n n₁ x) (hb : Even n₁ n₂ y) : Even n n₂ (x ++ y) where
  mono := Nat.le_trans ha.mono hb.mono
  spreads b := ((ha.spreads b).transfer (Nat.le_refl _) hb.mono fun _ _ _ => rfl).append
    ((hb.spreads b).transfer ha.mono (Nat.le_refl _) fun _ _ _ => rfl)

theorem append_ends (ha : Even n n₁ x) (hb : Ends n₁ n₂ y) : Ends n n₂ (x ++ y) where
  mono := Nat.le_trans ha.mono hb.mono
  spreads := by
    obtain ⟨live, hy⟩ := hb.spreads
    refine ⟨fun k => if k < n₁ then true else live k, ?_⟩
    refine ((ha.spreads true).transfer (Nat.le_refl _) hb.mono fun k _ hk => ?_).append
      (hy.transfer ha.mono (Nat.le_refl _) fun k hk _ => ?_)
    · exact if_pos hk
    · exact if_neg (by omega)

end Even

/-- Code behind code that control does not get through is dead. -/
theorem Ends.append (ha : Ends n n₁ x) (hb : Even n₁ n₂ y) : Ends n n₂ (x ++ y) where
  mono := Nat.le_trans ha.mono hb.mono
  spreads := by
    obtain ⟨live, hx⟩ := ha.spreads
    refine ⟨fun k => if k < n₁ then live k else false, ?_⟩
    refine (hx.transfer (Nat.le_refl _) hb.mono fun k _ hk => ?_).append
      ((hb.spreads false).transfer ha.mono (Nat.le_refl _) fun k hk _ => ?_)
    · exact if_pos hk
    · exact if_neg (by omega)

theorem Ends.of_conveys (h : ∀ live, Conveys n n live true item false) : Ends n n [item] where
  mono := Nat.le_refl n
  spreads := ⟨fun _ => true, .single (h _)⟩

/-- Control that starts in the code stays there, whatever stands around it. -/
theorem Ends.confines {code : Assembly} (h : Ends n n' code)
    (own : ∀ k, n ≤ k → k < n' → Item.label (.code k) ∉ front ++ back) :
    Assembly.Confines front code back := by
  intro j path
  obtain ⟨live, hspreads⟩ := h.spreads
  obtain ⟨i, rfl, hi, -⟩ := hspreads.reaches own path
  omega

/-! ### Code for statements -/

namespace Emit

open Assembly (shift?_append)

def Block.alwaysReturns : Block → Bool
  | .one s | .body s => s.alwaysReturns
  | .many ss => Statement.anyReturns ss

theorem even_test (k : Nat) (type : ValueType) :
    Even n n (popCode (.general k) ++ [line (zeroTest (.general k) type)]) :=
  (Moves.straight (shift?_zeroTest k type)).even

theorem ends_leaveCode (depth : Int) (k : Nat) : Ends n n (leaveCode depth (.general k)) := by
  have hfront : Even n n (leaveCode depth (.general k)).dropLast :=
    .of_passed (by simp [leaveCode, Item.passed, line, decrease, Instruction.straight])
  exact hfront.append_ends (.of_conveys fun _ => .leave)

/-- Neither branch gets to its end, so the label behind them is dead. -/
theorem ends_ifThenElse (ht : Even (n + 1) n₁ testing) (hy : Ends n₁ n₂ yes)
    (hn : Ends (n₂ + 1) n₃ no) (k : Nat) (type : ValueType) :
    Ends n n₃ (testing ++ testCode (.general k) type .equal (.code n) ++ yes ++
      line (.jmp (labelled (.code n₂))) :: .label (.code n) :: no ++ [.label (.code n₂)]) := by
  have h₁ := ht.mono
  have h₂ := hy.mono
  have h₃ := hn.mono
  obtain ⟨liveYes, hyes⟩ := hy.spreads
  obtain ⟨liveNo, hno⟩ := hn.spreads
  -- Labels of the test and the one in front of `no` are reached, the one behind both is not.
  let live i :=
    if i < n₁ then true else if i < n₂ then liveYes i else if i = n₂ then false else liveNo i
  have hlive : live n = true := if_pos (by omega)
  have hdone : live n₂ = false := by
    simp only [live, if_neg (Nat.not_lt.mpr h₂), Nat.lt_irrefl, ↓reduceIte]
  have htesting : Spreads n n₃ live true testing true :=
    (ht.spreads true).transfer (by omega) (by omega) fun i _ hi => if_pos hi
  have hbranch : Spreads n n₃ live true (testCode (.general k) type .equal (.code n)) true :=
    (((even_test k type).spreads true).transfer (Nat.le_refl n) (by omega)
      fun i hi hi' => by omega).append
      (.single (.branch_of hlive (by omega) (by omega)))
  have hyes' : Spreads n n₃ live true yes false :=
    hyes.transfer (by omega) (by omega) fun i hi hi' => (if_neg (by omega)).trans (if_pos hi')
  have hno' : Spreads n n₃ live true no false :=
    hno.transfer (by omega) (by omega) fun i hi hi' =>
      (if_neg (by omega)).trans ((if_neg (by omega)).trans (if_neg (by omega)))
  have hrest : Spreads n n₃ live false (line (.jmp (labelled (.code n₂))) :: .label (.code n) :: no)
      false :=
    .cons (.jump_of hdone (by omega) (by omega))
      (.cons (.label_of hlive (by omega) (by omega)) hno')
  exact ⟨by omega, live, (((htesting.append hbranch).append hyes').append hrest).append
    (.single (.label_of hdone (by omega) (by omega)))⟩

/-- Control does not get through the code of what always returns. -/
theorem EmitsCode.ends (h : EmitsCode c pool frame n b code frame' n')
    (returns : b.alwaysReturns = true) : Ends n n' code := by
  induction h with
  | stop result outside => exact result.composed.moves.even.append_ends (.of_conveys fun _ => .halt)
  | @ret _ _ _ _ _ _ _ k _ slot words source result inside accepted size same position free
      freeSource =>
    exact (result.composed.append
      (.straight (shift?_resultCode _ words k source))).moves.even.append_ends (ends_leaveCode _ k)
  | expression | declare | declareZero | ifThen | loop | nil =>
    simp [Block.alwaysReturns, Statement.alwaysReturns, Statement.anyReturns] at returns
  | block body left ih =>
    have hbody := ih (by simpa [Block.alwaysReturns, Statement.alwaysReturns] using returns)
    exact hbody.append (Moves.straight (shift?_dropCode _ _)).even
  | ifThenElse test single free yes no ihYes ihNo =>
    simp only [Block.alwaysReturns, Statement.alwaysReturns, Bool.and_eq_true] at returns
    exact ends_ifThenElse test.moves.even (ihYes returns.1) (ihNo returns.2) _ _
  | cons first rest ihFirst ihRest =>
    simp only [Block.alwaysReturns, Statement.anyReturns, Bool.or_eq_true] at returns
    rcases returns with hfirst | hrest
    · exact (ihFirst hfirst).append rest.moves.even
    · exact first.moves.even.append_ends (ihRest hrest)
  | bodyBlock block ih => exact ih returns
  | bodyScoped single inner left ih =>
    exact (ih returns).append (Moves.straight (shift?_dropCode _ _)).even

theorem shift?_settleCode (words target source : Nat) (l : Label) (comment : String) :
    (settleCode words (.general target) (.general source) l comment).shift? =
      some (-.ofNat words + 0) := by
  refine shift?_append (shift?_lowerSp words) ?_
  simp [noted, line, shift?_copyWords]

theorem EmitsInits.even (h : EmitsInits c frame pool n ds code n') : Even n n' code := by
  induction h with
  | nil => exact .of_passed (by simp)
  | zero _ _ ih => exact ih
  | value present found given accepted same free freeSource rest ih =>
    exact (given.moves.even.append (Moves.straight (shift?_settleCode _ _ _ _ _)).even).append ih

theorem EmitsFunction.ends (h : EmitsFunction c statics n name decl code n') : Ends n n' code := by
  have hlabel : Even n n [.label name.label] := ⟨Nat.le_refl n, fun _ => .single .entry⟩
  cases h with
  | returning _ block returns =>
    exact hlabel.append_ends (block.ends
      (by simpa [Block.alwaysReturns, Statement.alwaysReturns] using returns))
  | ending _ _ block _ leave =>
    exact hlabel.append_ends (block.moves.even.append_ends (leave.ends rfl))

/-! ### Sections of a program -/

/-- Parts of a program, none of which control gets to the end of. Labels are numbered through all of
them. -/
inductive Sections : Nat → List Assembly → Nat → Prop
  | nil : Sections n [] n
  | cons (first : Ends n n₁ part) (rest : Sections n₁ parts n₂) : Sections n (part :: parts) n₂

namespace Sections

theorem mono (h : Sections n parts n') : n ≤ n' := by
  induction h with
  | nil => exact Nat.le_refl _
  | cons first _ ih => exact Nat.le_trans first.mono ih

theorem numbered (h : Sections n parts n') (hk : Item.label (.code k) ∈ parts.flatten) :
    n ≤ k ∧ k < n' := by
  induction h with
  | nil => simp at hk
  | cons first rest ih =>
    have hfirst := first.mono
    have hrest := rest.mono
    obtain ⟨live, hspreads⟩ := first.spreads
    rcases List.mem_append.mp (List.flatten_cons ▸ hk) with hk | hk
    · have := hspreads.numbered hk
      omega
    · have := ih hk
      omega

theorem split (h : Sections n (before ++ part :: after) n') :
    ∃ n₁ n₂, Sections n before n₁ ∧ Ends n₁ n₂ part ∧ Sections n₂ after n' := by
  induction before generalizing n with
  | nil =>
    cases h with
    | cons first rest => exact ⟨n, _, .nil, first, rest⟩
  | cons _ before ih =>
    cases h with
    | cons first rest =>
      obtain ⟨n₁, n₂, hbefore, hpart, hafter⟩ := ih rest
      exact ⟨n₁, n₂, .cons first hbefore, hpart, hafter⟩

theorem confines (h : Sections n (before ++ part :: after) n') :
    Assembly.Confines before.flatten part after.flatten := by
  obtain ⟨n₁, n₂, hbefore, hpart, hafter⟩ := h.split
  refine hpart.confines fun k lower upper hk => ?_
  rcases List.mem_append.mp hk with hk | hk
  · have := hbefore.numbered hk
    omega
  · have := hafter.numbered hk
    omega

end Sections

def IsFunctionCode (c : EmitContext) (statics : List StaticVariable)
    (d : FunctionName × FunctionDecl) (part : Assembly) : Prop :=
  part.head? = some (.label d.1.label) ∧ ∃ s s', function c statics d.1 d.2 s = .ok part s'

section
variable {c : EmitContext} {statics : List StaticVariable} {s : EmitState}

theorem functions_sections (hc : c.Sound) {ds : List (FunctionName × FunctionDecl)}
    (run : functions c statics ds ⟨frame, pool, ⟨n⟩⟩ = .ok code s) :
    ∃ parts n', code = parts.flatten ∧ List.Forall₂ (IsFunctionCode c statics) ds parts ∧
    Sections n parts n' := by
  induction ds generalizing frame pool n code s with
  | nil =>
    obtain ⟨rfl, rfl⟩ := pure_ok.mp run
    exact ⟨[], n, rfl, .nil, .nil⟩
  | cons d ds ih =>
    simp only [functions, bind_ok, pure_ok] at run
    obtain ⟨first, _, hfirst, rest, _, hrest, rfl, rfl⟩ := run
    obtain ⟨_, n₁, rfl, he⟩ := function_emits hc hfirst
    obtain ⟨parts, n', rfl, hparts, hsections⟩ := ih hrest
    obtain ⟨rest, hlabel⟩ := he.label
    exact ⟨first :: parts, n', rfl, .cons ⟨by rw [hlabel]; rfl, _, _, hfirst⟩ hparts,
      .cons he.ends hsections⟩

theorem passed_opening (structs : Structs) (strings : LiteralPool) (statics : List StaticVariable) :
    ∀ item ∈ opening structs strings statics ++ stringsCode strings, item.passed = true := by
  intro item hitem
  simp only [opening, stringsCode, fillString, List.mem_append, List.mem_map, List.mem_flatMap,
    List.mem_cons, List.not_mem_nil, or_false] at hitem
  rcases hitem with ((⟨_, -, rfl⟩ | ⟨_, -, rfl⟩) | rfl) |
    ⟨_, -, rfl | rfl | ⟨_, -, rfl | rfl⟩⟩ <;> rfl

theorem body_ends (hc : c.Sound) {p : Program}
    (run : body c statics p ⟨frame, pool, ⟨n⟩⟩ = .ok code s) :
    ∃ front n', code = front ++ [line .halt] ∧ s.labels.next = n' ∧
      Ends n n' (opening c.structs c.strings statics ++ code) := by
  obtain ⟨initsCode, bodyCode, frame', n₁, n₂, rfl, rfl, hinits, hbody⟩ := body_emits hc run
  refine ⟨_, n₂, rfl, rfl, ?_⟩
  have hopening : Even n n (opening c.structs c.strings statics ++ stringsCode c.strings) :=
    .of_passed (passed_opening _ _ _)
  have hhalt : Ends n₂ n₂ [line .halt] := .of_conveys fun _ => .halt
  simpa using (hopening.append (hinits.even.append hbody.moves.even)).append_ends hhalt

/-- The statements outside of functions, with what comes before them, and each function are a
section of the program. -/
theorem ofProgram_sections {p : Program} (hp : p.WellNamed) (h : Assembly.ofProgram p = .ok a) :
    ∃ c statics code front parts n, EmitContext.Serves c p ∧
    (∃ s s', body c statics p s = .ok code s') ∧
      code = front ++ [line .halt] ∧ List.Forall₂ (IsFunctionCode c statics) p.definitions parts ∧
      a = ((opening c.structs c.strings statics ++ code) :: parts).flatten ∧
      Sections 0 ((opening c.structs c.strings statics ++ code) :: parts) n := by
  simp only [Assembly.ofProgram, bind_eq_ok] at h
  obtain ⟨structs, hs, functions, hf, statics, -, h⟩ := h
  have serves : EmitContext.Serves ⟨structs, functions, .collect p, none⟩ p := ⟨hs, hf⟩
  split at h
  · next hrun =>
    obtain rfl := pure_eq_ok.mp h
    simp only [EStateM.run, bind_ok, pure_ok] at hrun
    obtain ⟨code, ⟨frame, pool, ⟨n⟩⟩, hbody, functionsCode, _, hfunctions, rfl, -⟩ := hrun
    obtain ⟨front, _, hcode, rfl, hends⟩ := body_ends (serves.sound hp) hbody
    obtain ⟨parts, n', rfl, hparts, hsections⟩ := functions_sections (serves.sound hp) hfunctions
    exact ⟨_, statics, code, front, parts, n', serves, ⟨_, _, hbody⟩, hcode, hparts, rfl,
      .cons hends hsections⟩
  · cases h

end

end Emit

open Emit in
/-- A compiled program is its statements outside of functions, with a `halt` behind them, and then
its functions and methods, each from its label on. Control that starts at the first line of one of
these stays in it, and control that starts in a statement that always returns stays in the code of
that statement, wherever it is. -/
theorem control_stays (parsed : Program.ofSource source = .ok p)
    (compiled : Assembly.ofSource source = .ok a) :
    ∃ c statics code front parts, EmitContext.Serves c p ∧
    (∃ s s', Emit.body c statics p s = .ok code s') ∧
      code = front ++ [line .halt] ∧ List.Forall₂ (IsFunctionCode c statics) p.definitions parts ∧
      a = ((opening c.structs c.strings statics ++ code) :: parts).flatten ∧
      (∀ before part after, (opening c.structs c.strings statics ++ code) :: parts = before ++
        part :: after →
        Assembly.Confines before.flatten part after.flatten) ∧
      ∀ returns t s code s', t.alwaysReturns = true →
      statement { c with returns := returns } t s = .ok code s' →
        ∀ front back, (∀ k, s.labels.next ≤ k → k < s'.labels.next →
          Item.label (.code k) ∉ front ++ back) →
          Assembly.Confines front code back := by
  have hp := Program.ofSource_wellNamed parsed
  obtain ⟨c, statics, code, front, parts, n, serves, hbody, hcode, hparts, ha, hsections⟩ :=
    ofProgram_sections hp (Assembly.ofProgram_of_source parsed compiled)
  refine ⟨c, statics, code, front, parts, serves, hbody, hcode, hparts, ha, ?_, ?_⟩
  · intro before part after hsplit
    exact (hsplit ▸ hsections).confines
  · rintro returns t ⟨frame, pool, ⟨n⟩⟩ code s' ht hrun front back own
    have hc : EmitContext.Sound { c with returns := returns } :=
      ⟨(serves.sound hp).structs, (serves.sound hp).functions⟩
    obtain ⟨frame', n', rfl, -, hemits⟩ := statement_emits hc t _ _ _ _ _ hrun
    exact (hemits.ends ht).confines own

def SourceText.bothReturn : SourceText := .ofString
  "func int f(int a) \x7b if (a) \x7b return 1; \x7d else return f(a - 1); \x7d func void g() \x7b \x7d while (f(3)) g();"

theorem control_stays_bothReturn :
    ∃ a top f g, Assembly.ofSource .bothReturn = .ok a ∧ a = top ++ f ++ g ∧
    top.getLast? = some (Emit.line .halt) ∧ f.head? = some (.label (FunctionName.free "f").label) ∧
    g.head? = some (.label (FunctionName.free "g").label) ∧ Assembly.Confines [] top (f ++ g) ∧
    Assembly.Confines top f g ∧ Assembly.Confines (top ++ f) g [] := by
  have hrun : (do
      let p ← (Program.ofSource .bothReturn).toOption
      let _ ← (Assembly.ofSource .bothReturn).toOption
      pure (p.definitions.map Prod.fst)) = some [.free "f", .free "g"] := by decide +kernel
  simp only [Option.bind_eq_bind, Option.bind_eq_some_iff, toOption_eq_some, Option.pure_def,
    Option.some.injEq] at hrun
  obtain ⟨p, hp, a, ha, hnames⟩ := hrun
  obtain ⟨c, statics, code, front, parts, -, -, hhalt, hparts, rfl, hstays, -⟩ :=
    control_stays hp ha
  obtain ⟨⟨_, declF⟩, ds, hds, rfl, hsecond⟩ := List.map_eq_cons_iff.mp hnames
  obtain ⟨⟨_, declG⟩, ds, rfl, rfl, hnone⟩ := List.map_eq_cons_iff.mp hsecond
  obtain rfl := List.map_eq_nil_iff.mp hnone
  rw [hds] at hparts
  obtain ⟨f, rest, hf, hrest, rfl⟩ := List.forall₂_cons_left_iff.mp hparts
  obtain ⟨g, rest, hg, hnothing, rfl⟩ := List.forall₂_cons_left_iff.mp hrest
  obtain rfl := List.forall₂_nil_left_iff.mp hnothing
  refine ⟨_, Emit.opening c.structs c.strings statics ++ code, f, g, ha, by simp,
    by rw [hhalt]; simp, hf.1, hg.1, ?_, ?_, ?_⟩
  · simpa using hstays [] _ [f, g] rfl
  · simpa using hstays [_] f [g] rfl
  · simpa using hstays [_, f] g [] rfl

end WordScript
