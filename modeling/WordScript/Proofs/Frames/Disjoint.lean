import WordScript.Proofs.Calls.Layout
import WordScript.Proofs.Emit.Course

/-!
# Variables never overlap

In every frame that the generator starts a task in or leaves by one, the variables of all scopes lie
below the stack pointer, and no word belongs to two of them. In a function that includes the return
address, the receiver, the parameters and the room for the result (`frames_separate`). While an
expression is evaluated only the depth changes, and it never gets below where it started
(`Emit.Lifts`). Between statements the depth is the number of words of the variables
(`Frame.Settled`), so that a new variable starts where the others end.
-/

namespace WordScript

/-! ### Where variables lie -/

def Variable.range? (structs : Structs) (v : Variable) : Option (Int × Nat) :=
  match v.storage with
  | .frame position => some (position, structs.words v.type)
  | .static _ => none

def Scope.ranges (structs : Structs) (s : Scope) : List (Int × Nat) :=
  s.entries.filterMap (·.2.range? structs)

def Frame.ranges (structs : Structs) (f : Frame) : List (Int × Nat) :=
  f.scopes.flatMap (Scope.ranges structs)

def Apart (r r' : Int × Nat) : Prop := ∀ z : Int, r.1 ≤ z → z < r.1 + r.2 → r'.1 ≤ z →
    ¬ z < r'.1 + r'.2

/-- Variables are below the stack pointer, apart from each other and from what else is in the frame.
-/
structure Frame.Separate (structs : Structs) (others : List (Int × Nat)) (f : Frame) : Prop where
  below : ∀ r ∈ f.ranges structs, r.1 + r.2 ≤ f.depth
  negative : ∀ name type offset, f.lookup name = some (type, .stack offset) →
    structs.words type ≠ 0 → offset < 0
  apart : (f.ranges structs ++ others).Pairwise Apart

theorem Apart.of_le {r r' : Int × Nat} (h : r.1 + r.2 ≤ r'.1) : Apart r r' :=
  fun z _ _ _ _ => by omega

theorem Apart.symm (h : Apart r r') : Apart r' r := fun z h₁ h₂ h₃ h₄ => h z h₃ h₄ h₁ h₂

namespace Frame

variable {structs : Structs} {f g : Frame}

theorem mem_ranges_of_find? (h : f.find? name = some v) (hv : v.storage = .frame z) :
    (z, structs.words v.type) ∈ f.ranges structs := by
  obtain ⟨scope, hscope, hlookup⟩ := List.exists_of_findSome?_eq_some h
  refine List.mem_flatMap.mpr
    ⟨scope, hscope, List.mem_filterMap.mpr ⟨_, mem_of_lookup_eq_some hlookup, ?_⟩⟩
  simp only [Variable.range?, hv]

theorem negative_of_below (below : ∀ r ∈ f.ranges structs, r.1 + r.2 ≤ f.depth)
    (h : f.lookup name = some (type, .stack offset)) (words : structs.words type ≠ 0) :
    offset < 0 := by
  obtain ⟨v, hfind, rfl, ⟨z, hz, hlocation⟩ | ⟨l, -, hlocation⟩⟩ := lookup_eq_some h
  · have hbelow := below _ (mem_ranges_of_find? hfind hz)
    obtain rfl := Location.stack.inj hlocation
    simp only at hbelow
    omega
  · cases hlocation

def scopesWords (scopes : List Scope) : Nat := (scopes.map Scope.words).sum

/-- The variables of each scope end within the words of that scope and those around it. -/
def Stacked (structs : Structs) : List Scope → Prop
  | [] => True
  | scope :: outer => (∀ r ∈ scope.ranges structs, r.1 + r.2 ≤ scopesWords (scope :: outer)) ∧
      Stacked structs outer

/-- A frame between statements: nothing but variables has been pushed. -/
structure Settled (structs : Structs) (others : List (Int × Nat)) (f : Frame) : Prop where
  stacked : Stacked structs f.scopes
  apart : (f.ranges structs ++ others).Pairwise Apart
  others : ∀ r ∈ others, r.1 + r.2 ≤ 0
  depth : f.depth = scopesWords f.scopes

theorem Stacked.ends {scopes : List Scope} (h : Stacked structs scopes) :
    ∀ r ∈ scopes.flatMap (Scope.ranges structs), r.1 + r.2 ≤ scopesWords scopes := by
  induction scopes with
  | nil => simp
  | cons scope outer ih =>
    intro r hr
    rcases List.mem_append.mp (List.flatMap_cons ▸ hr) with hr | hr
    · exact h.1 r hr
    · have hends := ih h.2 r hr
      simp only [scopesWords, List.map_cons, List.sum_cons] at hends ⊢
      omega

namespace Settled

variable {others : List (Int × Nat)}

theorem separate_push (h : f.Settled structs others) (n : Nat) :
    (f.push n).Separate structs others := by
  have below : ∀ r ∈ (f.push n).ranges structs, r.1 + r.2 ≤ (f.push n).depth := by
    intro r hr
    have hends := h.stacked.ends r hr
    have hdepth := h.depth
    rw [depth_push]
    omega
  exact ⟨below, fun _ _ _ => negative_of_below below, h.apart⟩

theorem enter (h : f.Settled structs others) : f.enter.Settled structs others where
  stacked := ⟨fun _ hr => (List.not_mem_nil hr).elim, h.stacked⟩
  apart := h.apart
  others := h.others
  depth := by
    have hdepth := h.depth
    simpa [Frame.enter, scopesWords, Scope.empty] using hdepth

/-- A new variable starts where the others end. -/
theorem declare (h : f.Settled structs others)
    (hg : (f.push (structs.words type)).declare structs name type = .ok g) :
    g.Settled structs others := by
  obtain ⟨scope, outer, hscopes, rfl⟩ := declare_eq_ok hg
  have hscopes : f.scopes = scope :: outer := hscopes
  obtain ⟨hstacked, hapart, hothers, hdepth⟩ := h
  have hends := hstacked.ends
  simp only [ranges, hscopes, List.flatMap_cons] at hapart hends
  rw [hscopes] at hstacked hdepth
  simp only [scopesWords, List.map_cons, List.sum_cons] at hends hdepth
  have hstart : f.depth + structs.words type - structs.words type = f.depth := by omega
  have hranges (words : Nat) :
      Scope.ranges structs ⟨(name, ⟨type, .frame f.depth⟩) :: scope.entries, words⟩ =
        (f.depth, structs.words type) :: scope.ranges structs := rfl
  simp only [depth_push, hstart]
  refine ⟨⟨?_, hstacked.2⟩, ?_, hothers, ?_⟩
  · intro r hr
    simp only [scopesWords, List.map_cons, List.sum_cons]
    rcases List.mem_cons.mp (hranges _ ▸ hr) with rfl | hr
    · simp only
      omega
    · have := hends r (List.mem_append_left _ hr)
      omega
  · simp only [ranges, List.flatMap_cons, hranges, List.cons_append, List.pairwise_cons]
    refine ⟨fun r hr => Apart.symm (Apart.of_le ?_), hapart⟩
    simp only
    rcases List.mem_append.mp hr with hr | hr
    · have := hends r hr
      omega
    · have := hothers r hr
      omega
  · simp only [scopesWords, List.map_cons, List.sum_cons]
    omega

end Settled

end Frame

theorem Typing.words_unary {structs : Structs}
    (h : unary structs op operand operandSpan span = .ok type) :
    structs.words operand = 1 ∧ structs.words type = 1 := by
  cases op with
  | negate =>
    simp only [unary] at h
    split at h
    · next hnumber =>
      obtain rfl := Except.ok.inj h
      exact ⟨Structs.words_of_isNumber hnumber, Structs.words_of_isNumber hnumber⟩
    · cases h
  | not =>
    simp only [unary, bind_eq_ok, singleWord_eq_ok, pure_eq_ok] at h
    obtain ⟨_, hwords, rfl⟩ := h
    exact ⟨hwords, rfl⟩

/-! ### Frames between statements and above them -/

namespace Frame

/-- A frame between statements in which the variables at `kept` are still there. -/
structure Rests (structs : Structs) (others kept : List (Int × Nat)) (f : Frame) : Prop where
  settled : f.Settled structs others
  kept : kept ⊆ f.ranges structs

def Raised (structs : Structs) (others kept : List (Int × Nat)) (f : Frame) : Prop :=
  ∃ g n, Rests structs others kept g ∧ f = g.push n

variable {structs : Structs} {others kept : List (Int × Nat)} {f g : Frame}

theorem Rests.raised (h : f.Rests structs others kept) : f.Raised structs others kept :=
  ⟨f, 0, h, (push_zero f).symm⟩

theorem Raised.push (h : f.Raised structs others kept) (n : Nat) :
    (f.push n).Raised structs others kept := by
  obtain ⟨g, m, hg, rfl⟩ := h
  exact ⟨g, m + n, hg, push_push g m n⟩

theorem Raised.separate (h : f.Raised structs others kept) :
    f.Separate structs others ∧ kept ⊆ f.ranges structs := by
  obtain ⟨g, n, hg, rfl⟩ := h
  exact ⟨hg.settled.separate_push n, hg.kept⟩

theorem Rests.enter (h : f.Rests structs others kept) : f.enter.Rests structs others kept :=
  ⟨h.settled.enter, h.kept⟩

theorem Rests.declare (h : f.Rests structs others kept)
    (hg : (f.push (structs.words type)).declare structs name type = .ok g) :
    g.Rests structs others kept := by
  refine ⟨h.settled.declare hg, fun r hr => ?_⟩
  obtain ⟨scope, outer, hscopes, rfl⟩ := declare_eq_ok hg
  have hmem : r ∈ scope.ranges structs ++ outer.flatMap (Scope.ranges structs) := by
    have hscopes : f.scopes = scope :: outer := hscopes
    simpa only [ranges, hscopes, List.flatMap_cons] using h.kept hr
  rcases List.mem_append.mp hmem with hr | hr
  · exact List.mem_append_left _ (List.mem_cons_of_mem _ hr)
  · exact List.mem_append_right _ hr

end Frame

namespace Emit

variable {c : EmitContext} {others kept : List (Int × Nat)}

theorem EmitsCode.rests {b : Block} (h : EmitsCode c pool f n b code g n')
    (hf : f.Rests c.structs others kept) : g.Rests c.structs others kept := by
  induction h with
  | declare _ _ _ _ declared | declareZero _ declared => exact hf.declare declared
  | cons _ _ first rest => exact rest (first hf)
  | _ => exact hf

/-! ### Expressions -/

/-- Between statements the frame rests and no register is in use. -/
structure Rests (c : EmitContext) (others kept : List (Int × Nat)) (s : EmitState) : Prop where
  frame : s.frame.Rests c.structs others kept
  idle : s.registers = .empty

/-- The task is started in a frame that rests, with words pushed on it unless it is a statement, and
leaves such a frame. -/
structure Sits (c : EmitContext) (others kept : List (Int × Nat)) (k : Task) (s : EmitState) :
    Prop where
  start : s.frame.Raised c.structs others kept
  rests : k.isStatement = true → Rests c others kept s
  done : ∀ t, k.run c s = .ok () t → t.frame.Raised c.structs others kept

/-- The tasks can be run with `a` words on top of `f`, and never get below `f`. -/
def Lifts (c : EmitContext) (others kept : List (Int × Nat)) (f : Frame) (ks : List Task)
    (a : Nat) : Prop :=
  f.Raised c.structs others kept → ∀ s, s.frame = f.push a → Along c (Sits c others kept) ks s

namespace Lifts

theorem nil : Lifts c others kept f [] a := fun _ _ _ => trivial

theorem cons (hk : k.isStatement = false)
    (hrun : ∀ s t, s.frame = f.push a → k.run c s = .ok () t → t.frame = f.push b)
    (h : Lifts c others kept f ks b) : Lifts c others kept f (k :: ks) a := by
  intro hf s hs
  refine ⟨⟨hs ▸ hf.push a, fun hstatement => ?_, fun t run => hrun s t hs run ▸ hf.push b⟩,
    fun t run => h hf t (hrun s t hs run)⟩
  rw [hk] at hstatement
  cases hstatement

theorem value (hc : c.Sound) (typed : Typing.typeOf (c.at f) e = .ok type)
    (h : Lifts c others kept f ks (a + c.structs.words type)) :
    Lifts c others kept f (.value e :: ks) a := by
  refine cons rfl (fun s t hs run => ?_) h
  obtain ⟨code, hrun⟩ := of_only run
  obtain ⟨frame, pool, ⟨n⟩⟩ := s
  subst hs
  obtain ⟨n', rfl, -⟩ := (expr_emits hc e).run typed hrun
  rfl

theorem word (hc : c.Sound) (typed : Typing.typeOf (c.at f) e = .ok type)
    (single : c.structs.words type = 1)
    (h : Lifts c others kept f ks (a + 1)) : Lifts c others kept f (.value e :: ks) a :=
  value hc typed (single ▸ h)

theorem place (hc : c.Sound) (h : Lifts c others kept f ks a) :
    Lifts c others kept f (.place e :: ks) a := by
  refine cons rfl (fun s t hs run => ?_) h
  obtain ⟨⟨code, r⟩, hrun⟩ := of_only run
  obtain ⟨type, typed⟩ := place_typed hrun
  obtain ⟨frame, pool, ⟨n⟩⟩ := s
  obtain ⟨k, n', -, -, rfl, -⟩ := place_emits hc e _ _ _ _ _ _ _ typed hrun
  exact hs

theorem push (h : Lifts c others kept f ks (a + n)) : Lifts c others kept f (.push n :: ks) a :=
  cons rfl (fun s t hs run => by
    cases run
    exact (congrArg (·.push n) hs).trans (Frame.push_push f a n)) h

theorem pop (hn : n ≤ a) (h : Lifts c others kept f ks (a - n)) :
    Lifts c others kept f (.pop n :: ks) a :=
  cons rfl (fun s t hs run => by
    cases run
    exact (congrArg (·.pop n) hs).trans (Frame.pop_push f hn)) h

theorem check {y : Typing.Check Unit} (h : y = .ok () → Lifts c others kept f ks a) :
    Lifts c others kept f (.check y :: ks) a := by
  intro hf s hs
  refine ⟨⟨hs ▸ hf.push a, fun hstatement => (Bool.false_ne_true hstatement).elim, fun t run => ?_⟩,
    fun t run => ?_⟩
  · obtain ⟨-, rfl⟩ := ofCheck_ok.mp run
    exact hs ▸ hf.push a
  · obtain ⟨hy, rfl⟩ := ofCheck_ok.mp run
    exact h hy hf _ hs

theorem checked_append {y : Typing.Check α} {rest : α → List Task}
    (h : ∀ x, y = .ok x → Lifts c others kept f (rest x ++ ks) a) :
    Lifts c others kept f (checked y rest ++ ks) a := by
  refine check fun hy => ?_
  cases y with
  | ok x => exact h x rfl
  | error e => cases hy

theorem checked {y : Typing.Check α} {rest : α → List Task}
    (h : ∀ x, y = .ok x → Lifts c others kept f (rest x) a) :
    Lifts c others kept f (checked y rest) a := by
  refine check fun hy => ?_
  cases y with
  | ok x => exact h x rfl
  | error e => cases hy

end Lifts

def Task.quiet : Task → Bool
  | .find .. | .acquire _ | .release _ | .label | .typed _ | .size .. | .copyResult ..
  | .leaveFunction _ => true
  | _ => false

theorem sizeWords_ok (h : sizeWords c span e s = .ok n t) : t = s := by
  cases hsize : Typing.namedSize? c.structs (.sizeOf span e) with
  | some words =>
    simp only [sizeWords, hsize, pure_ok] at h
    exact h.2.symm
  | none =>
    simp only [sizeWords, hsize, bind_ok, typeHere_ok, pure_ok] at h
    obtain ⟨_, _, ⟨-, rfl⟩, -, rfl⟩ := h
    rfl

theorem frame_of_quiet {k : Task} (hk : k.quiet = true) (run : k.run c s = .ok () t) :
    t.frame = s.frame := by
  cases k with
  | find name span =>
    obtain ⟨location, hrun⟩ := of_only run
    obtain ⟨type, -, rfl⟩ := findVariable_ok hrun
    rfl
  | acquire span =>
    obtain ⟨r, hrun⟩ := of_only run
    obtain ⟨k, -, -, rfl⟩ := acquire_ok.mp hrun
    rfl
  | release r =>
    obtain rfl := modify_ok.mp run
    rfl
  | label =>
    obtain ⟨l, hrun⟩ := of_only run
    obtain ⟨-, rfl⟩ := freshLabel_ok.mp hrun
    rfl
  | typed e =>
    obtain ⟨type, hrun⟩ := of_only run
    obtain ⟨-, rfl⟩ := typeHere_ok.mp hrun
    rfl
  | size span e =>
    obtain ⟨words, hrun⟩ := of_only run
    obtain rfl := sizeWords_ok hrun
    rfl
  | copyResult words span =>
    obtain ⟨code, hrun⟩ := of_only run
    obtain ⟨-, -, -, -, -, -, rfl⟩ := copyResult_ok hrun
    rfl
  | leaveFunction span =>
    obtain ⟨code, hrun⟩ := of_only run
    obtain ⟨-, -, -, rfl⟩ := leaveFunction_ok hrun
    rfl
  | _ => cases hk

namespace Lifts

theorem quiet (hk : k.quiet = true) (h : Lifts c others kept f ks a) :
    Lifts c others kept f (k :: ks) a :=
  cons (by cases k <;> first | rfl | cases hk) (fun _ _ hs run =>
    (frame_of_quiet hk run).trans hs) h

theorem pushEach {rs : List Register} (h : Lifts c others kept f ks (a + rs.length)) :
    Lifts c others kept f (rs.map (fun _ => .push 1) ++ ks) a := by
  induction rs generalizing a with
  | nil => exact h
  | cons r rs ih => exact push (ih (by rwa [Nat.add_assoc, Nat.add_comm 1]))

theorem popEach {rs : List Register} (hlength : rs.length ≤ a)
    (h : Lifts c others kept f ks (a - rs.length)) :
    Lifts c others kept f (rs.map (fun _ => .pop 1) ++ ks) a := by
  induction rs generalizing a with
  | nil => exact h
  | cons r rs ih =>
    simp only [List.length_cons] at hlength h
    exact pop (by omega) (ih (by omega) (by rwa [Nat.sub_sub, Nat.add_comm 1]))

theorem receiver (hc : c.Sound) (resolved : Typing.callTarget (c.at f) callee = .ok target)
    (h : Lifts c others kept f ks (a + receiverWords target.receiver)) :
    Lifts c others kept f (receiverTasks pool callee ++ ks) a := by
  cases callee with
  | field span base name =>
    obtain ⟨-, -, -, -, hreceiver⟩ := Typing.callTarget_field resolved
    rw [hreceiver] at h
    exact place hc (push (quiet rfl h))
  | _ =>
    obtain ⟨-, -, -, hreceiver⟩ := Typing.callTarget_other (by simp) resolved
    rw [hreceiver] at h
    exact h

theorem arguments (hc : c.Sound) {es : List Expr}
    (fits : Typing.checkArgs (c.at f) es params = .ok ()) (hlength : es.length = params.length)
    (h : Lifts c others kept f ks (a + (params.map fun p => c.structs.words p.2).sum)) :
    Lifts c others kept f (es.map .value ++ ks) a := by
  induction es generalizing params a with
  | nil =>
    obtain rfl : params = [] := by simpa using hlength.symm
    exact h
  | cons e es ih =>
    cases params with
    | nil => simp at hlength
    | cons param params =>
      obtain ⟨found, hfirst, haccepts, hrest⟩ := Typing.checkArgs_cons fits
      have hwords : c.structs.words param.2 = c.structs.words found :=
        Structs.words_of_accepts hc.structs haccepts
      refine value hc hfirst (ih hrest (by simpa using hlength) ?_)
      rwa [List.map_cons, List.sum_cons, ← Nat.add_assoc, hwords] at h

theorem popParams {params : List (String × ValueType)}
    (hsum : (params.map fun p => c.structs.words p.2).sum ≤ a)
    (h : Lifts c others kept f ks (a - (params.map fun p => c.structs.words p.2).sum)) :
    Lifts c others kept f ((params.map fun p => .pop (c.structs.words p.2)) ++ ks) a := by
  induction params generalizing a with
  | nil => exact h
  | cons p params ih =>
    simp only [List.map_cons, List.sum_cons] at hsum h
    exact pop (by omega) (ih (by omega) (by rwa [Nat.sub_sub]))

theorem slide (hlength : saved.length ≤ a) :
    Lifts c others kept f (slideTasks pool span saved words) a := by
  simp only [slideTasks]
  split
  · exact nil
  · refine popEach (by simpa using hlength) ?_
    split
    · exact nil
    · exact quiet rfl (quiet rfl nil)

/-- A call leaves room for its result on top of the registers that it saved. -/
theorem call (hc : c.Sound) (resolved : Typing.callTarget (c.at f) callee = .ok target)
    (fits : Typing.checkArgs (c.at f) es target.signature.params = .ok ())
    (hlength : es.length = target.signature.params.length) :
    Lifts c others kept f (callTasks c pool span target (receiverTasks pool callee) (es.map .value))
      0 := by
  have hmethod := (receiver_isSome hc resolved).2
  have hsum : (target.signature.params.reverse.map fun p => c.structs.words p.2).sum =
      (target.signature.params.map fun p => c.structs.words p.2).sum := by simp [List.sum_reverse]
  have hthis :
      receiverWords target.receiver = if target.signature.receiver.isSome then 1 else 0 := by
    rw [receiverWords, hmethod]
  refine pushEach (push (receiver hc resolved
    (arguments hc fits hlength (quiet rfl (popParams ?_ (pop ?_ (slide ?_)))))))
  all_goals omega

end Lifts

/-! ### The parts of a task -/

theorem value_lifts (hc : c.Sound) (e : Expr) (s : EmitState) :
    Lifts c others kept s.frame (valueTasks c s e) 0 := by
  cases e with
  | integer | float => exact .push .nil
  | string span content =>
    simp only [valueTasks]
    split
    · exact .push .nil
    · exact .check fun h => by cases h
  | var span name => exact .checked fun _ _ => .quiet rfl (.quiet rfl (.push (.quiet rfl .nil)))
  | call span callee args =>
    refine .checked fun _ typed => .checked fun target resolved => ?_
    obtain ⟨target', resolved', -, hlength, hargs, -⟩ := Typing.typeOf_call typed
    obtain rfl := Except.ok.inj (resolved.symm.trans resolved')
    exact .call hc resolved hargs hlength
  | binary span op lhs rhs =>
    refine .checked fun _ typed => ?_
    obtain ⟨left, right, hlhs, hrhs, hleft, hright, -⟩ := Typing.typeOf_binary typed
    cases op with
    | arithmetic op =>
      exact .word hc hlhs hleft (.word hc hrhs hright
        (.quiet rfl (.quiet rfl (.pop (by omega) (.pop (by omega)
        (.push (.quiet rfl (.quiet rfl .nil))))))))
    | relation relation =>
      exact .quiet rfl (.word hc hlhs hleft
        (.word hc hrhs hright (.quiet rfl (.quiet rfl (.pop (by omega) (.pop (by omega)
        (.quiet rfl (.quiet rfl (.quiet rfl (.quiet rfl (.push .nil)))))))))))
    | logic op =>
      exact .quiet rfl (.quiet rfl
        (.quiet rfl (.word hc hlhs hleft (.pop (by omega) (.quiet rfl (.quiet rfl (.quiet rfl
        (.word hc hrhs hright (.pop (by omega) (.quiet rfl (.quiet rfl (.push .nil))))))))))))
  | unary span op operand =>
    refine .checked fun _ typed => ?_
    obtain ⟨inner, hoperand, hunary⟩ := Typing.typeOf_unary typed
    have hinner : c.structs.words inner = 1 := (Typing.words_unary hunary).1
    cases op with
    | negate => exact .word hc hoperand hinner (.pop (by omega)
        (.quiet rfl (.push (.quiet rfl .nil))))
    | not =>
      exact .word hc hoperand hinner
        (.quiet rfl (.pop (by omega) (.quiet rfl (.quiet rfl (.quiet rfl (.quiet rfl
        (.push .nil)))))))
  | assign span op target value =>
    refine .checked fun _ typed => ?_
    cases op with
    | none =>
      obtain ⟨-, found, -, hvalue, -⟩ := Typing.typeOf_assign typed
      exact .place hc (.value hc hvalue (.quiet rfl .nil))
    | some op =>
      obtain ⟨-, place, found, -, hvalue, -, hfound, -⟩ := Typing.typeOf_update typed
      exact .place hc (.word hc hvalue hfound
        (.pop (by omega) (.quiet rfl (.quiet rfl (.push (.quiet rfl (.quiet rfl
        (.quiet rfl .nil))))))))
  | field span base name =>
    refine .checked fun _ _ => .checked fun type typed => .checked fun field _ => ?_
    exact .value hc typed (.pop (by omega) (.quiet rfl (.push (.quiet rfl .nil))))
  | addressOf span inner => exact .checked fun _ _ => .place hc (.push (.quiet rfl .nil))
  | dereference span inner =>
    refine .checked fun type typed =>
      .word hc (Typing.typeOf_dereference typed) (Structs.words_reference ..) ?_
    exact .pop (by omega) (.quiet rfl (.push (.quiet rfl .nil)))
  | sizeOf span inner => exact .checked fun _ _ => .quiet rfl (.push .nil)

theorem place_lifts (hc : c.Sound) (e : Expr) (s : EmitState) :
    Lifts c others kept s.frame (placeTasks c s e) 0 := by
  cases e with
  | var span name => exact .quiet rfl (.quiet rfl .nil)
  | field span base name =>
    simp only [placeTasks]
    split
    · exact .checked fun _ _ => .checked fun _ _ => .place hc .nil
    · exact .check fun h => by cases h
  | dereference span inner =>
    refine .checked fun type typed => ?_
    cases type with
    | reference pointee =>
      exact .word hc typed (Structs.words_reference ..) (.pop (by omega) (.quiet rfl .nil))
    | _ => exact .check fun h => by cases h
  | _ => exact .check fun h => by cases h

theorem words_of_acceptance (hc : c.Sound) (h : acceptance c type found span = .ok ()) :
    c.structs.words type = c.structs.words found := by
  simp only [acceptance] at h
  split at h
  · next haccepts => exact Structs.words_of_accepts hc.structs haccepts
  · cases h

theorem valueFor_lifts (hc : c.Sound) (h : Lifts c others kept s.frame ks (c.structs.words type)) :
    Lifts c others kept s.frame (valueForTasks c s type e ++ ks) 0 := by
  refine .checked_append fun found typed => .check fun haccepts => .value hc typed ?_
  rw [Nat.zero_add, ← words_of_acceptance hc haccepts]
  exact h

theorem return_lifts (hc : c.Sound) :
    Lifts c others kept f (returnTasks c type valueSpan span) (c.structs.words type) := by
  simp only [returnTasks]
  split
  · exact .pop (Nat.le_refl _) .nil
  · refine .check fun haccepts => .quiet rfl (.quiet rfl (.pop ?_ .nil))
    rw [words_of_acceptance hc haccepts]

theorem condition_lifts (hc : c.Sound) (e : Expr) (l : Label) (s : EmitState) :
    Lifts c others kept s.frame ((Task.condition e l).parts c s) 0 :=
  .checked fun _ typed => .check fun hsingle =>
    .word hc typed (Typing.singleWord_eq_ok.mp hsingle)
      (.pop (by omega) (.quiet rfl (.quiet rfl .nil)))

theorem initialise_lifts (hc : c.Sound) (name : String) (e : Expr) (s : EmitState) :
    Lifts c others kept s.frame ((Task.initialise name e).parts c s) 0 := by
  simp only [Task.parts]
  split
  · exact valueFor_lifts hc (.pop (Nat.le_refl _)
      (.quiet rfl (.quiet rfl (.quiet rfl (.quiet rfl .nil)))))
  · exact .check fun h => by cases h

/-- The words on top of a frame that rests become a variable of it. -/
theorem Lifts.declare (hf : f.Rests c.structs others kept) :
    Lifts c others kept f [.declare name type] (c.structs.words type) := by
  intro _ s hs
  refine ⟨⟨hs ▸ hf.raised.push _, fun hstatement => (Bool.false_ne_true hstatement).elim,
    fun t run => ?_⟩, fun _ _ => trivial⟩
  obtain ⟨frame, hdeclare, rfl⟩ := declareTop_ok run
  exact (hf.declare (hs ▸ hdeclare)).raised

/-! ### Statements -/

theorem Lifts.along (h : Lifts c others kept s.frame ks 0)
    (hs : s.frame.Raised c.structs others kept) :
    Along c (Sits c others kept) ks s := h hs s (Frame.push_zero _).symm

theorem along_cons (hs : Rests c others kept s)
    (hrun : ∀ t, k.run c s = .ok () t → Rests c others kept t)
    (h : ∀ t, k.run c s = .ok () t → Along c (Sits c others kept) ks t) :
    Along c (Sits c others kept) (k :: ks) s :=
  ⟨⟨hs.frame.raised, fun _ => hs, fun t run => (hrun t run).frame.raised⟩, h⟩

/-- Tasks between statements that leave nothing on the stack and declare nothing. -/
def Task.steady : Task → Bool
  | .label | .condition .. | .initialise .. | .branch _ | .fillStrings => true
  | _ => false

theorem rests_of_steady (hc : c.Sound) {k : Task} (hk : k.steady = true)
    (hs : Rests c others kept s) (run : k.run c s = .ok () t) : Rests c others kept t := by
  obtain ⟨frame, pool, ⟨n⟩⟩ := s
  obtain ⟨hframe, rfl⟩ : frame.Rests c.structs others kept ∧ pool = .empty := ⟨hs.frame, hs.idle⟩
  cases k with
  | label =>
    cases run
    exact ⟨hframe, rfl⟩
  | condition e l =>
    obtain ⟨code, hrun⟩ := of_only run
    obtain ⟨-, -, -, -, -, -, -, rfl, -⟩ := condition_emits hc hrun
    exact ⟨hframe, rfl⟩
  | initialise name e =>
    obtain ⟨code, hrun⟩ := of_only run
    obtain ⟨-, -, -, -, -, -, -, -, -, -, -, -, -, rfl, -⟩ := initialise_emits hc hrun
    exact ⟨hframe, rfl⟩
  | branch st =>
    obtain ⟨code, hrun⟩ := of_only run
    obtain ⟨-, rfl, -⟩ := asBody_emits (statement_emits hc st) hrun
    exact ⟨hframe, rfl⟩
  | fillStrings =>
    obtain ⟨code, hrun⟩ := of_only run
    obtain ⟨-, rfl⟩ := fillStrings_ok hrun
    exact ⟨hframe, rfl⟩
  | _ => cases hk

theorem along_steady (hc : c.Sound) (hk : k.steady = true) (hs : Rests c others kept s)
    (h : ∀ t, Rests c others kept t → Along c (Sits c others kept) ks t) :
    Along c (Sits c others kept) (k :: ks) s :=
  along_cons hs (fun _ run => rests_of_steady hc hk hs run)
    fun t run => h t (rests_of_steady hc hk hs run)

theorem statement_rests (hc : c.Sound) (hs : Rests c others kept s)
    (run : statement c st s = .ok code t) : s.frame.Extends t.frame ∧ Rests c others kept t := by
  obtain ⟨frame, pool, ⟨n⟩⟩ := s
  obtain ⟨frame', n', rfl, hextends, he⟩ := statement_emits hc st _ _ _ _ _ run
  exact ⟨hextends, he.rests hs.frame, hs.idle⟩

theorem statements_along (hc : c.Sound) (ss : List Statement) (hs : Rests c others kept s)
    (h : ∀ t, Rests c others kept t → s.frame.Extends t.frame → Along c (Sits c others kept) ks t) :
    Along c (Sits c others kept) (ss.map .statement ++ ks) s := by
  induction ss generalizing s with
  | nil => exact h s hs (.refl _)
  | cons st ss ih =>
    have hrun : ∀ t, (Task.statement st).run c s = .ok () t →
        s.frame.Extends t.frame ∧ Rests c others kept t := by
      intro t run
      obtain ⟨code, hrun⟩ := of_only run
      exact statement_rests hc hs hrun
    refine along_cons hs (fun t run => (hrun t run).2) fun t run => ?_
    exact ih (hrun t run).2 fun u hu hextends => h u hu ((hrun t run).1.trans hextends)

/-- At the end of a scope the frame is the one it was entered in. -/
theorem scope_along (hc : c.Sound) (ss : List Statement) (hs : Rests c others kept s) :
    Along c (Sits c others kept) (.enter :: (ss.map .statement ++ [.leave])) s := by
  have henter : Rests c others kept { s with frame := s.frame.enter } := ⟨hs.frame.enter, hs.idle⟩
  refine along_cons hs (fun t run => ?_) fun t run => ?_
  · cases run
    exact henter
  · cases run
    refine statements_along hc ss henter fun u hu hextends => ?_
    refine along_cons hu (fun v run' => ?_) fun _ _ => trivial
    cases run'
    refine ⟨?_, hu.idle⟩
    show (Frame.leave u.frame).2.Rests c.structs others kept
    rw [Frame.leave_of_extends_enter hextends]
    exact hs.frame

theorem statement_along (hc : c.Sound) (st : Statement) (hs : Rests c others kept s) :
    Along c (Sits c others kept) (statementTasks c s st) s := by
  have hraised := hs.frame.raised
  cases st with
  | ret span value =>
    cases value with
    | none => exact Lifts.along (return_lifts hc) hraised
    | some e =>
      refine Lifts.along (.checked fun type typed => .value hc typed ?_) hraised
      rw [Nat.zero_add]
      exact return_lifts hc
  | expression span e =>
    exact Lifts.along (.checked fun _ typed => .value hc typed (.pop (by omega) .nil)) hraised
  | declare span written name init =>
    refine Lifts.along (.checked fun type _ => ?_) hraised
    cases init with
    | none => exact .push (by rw [Nat.zero_add]; exact .declare hs.frame)
    | some e => exact valueFor_lifts hc (.declare hs.frame)
  | block span ss => exact scope_along hc ss hs
  | ifThen span test yes =>
    refine along_steady hc rfl hs fun t ht => along_steady hc rfl ht fun t ht => ?_
    exact along_steady hc rfl ht fun _ _ => trivial
  | ifThenElse span test yes no =>
    refine along_steady hc rfl hs fun t ht => along_steady hc rfl ht fun t ht => ?_
    refine along_steady hc rfl ht fun t ht => along_steady hc rfl ht fun t ht => ?_
    exact along_steady hc rfl ht fun _ _ => trivial
  | loop span test repeated =>
    refine along_steady hc rfl hs fun t ht => along_steady hc rfl ht fun t ht => ?_
    refine along_steady hc rfl ht fun t ht => along_steady hc rfl ht fun _ _ => trivial

theorem parts_along (hc : c.Sound) (k : Task) (s : EmitState) (h : Sits c others kept k s) :
    Along c (Sits c others kept) (k.parts c s) s := by
  cases k with
  | value e => exact (value_lifts hc e s).along h.start
  | place e => exact (place_lifts hc e s).along h.start
  | condition e l => exact (condition_lifts hc e l s).along h.start
  | initialise name e => exact (initialise_lifts hc name e s).along h.start
  | statement st => exact statement_along hc st (h.rests rfl)
  | branch st =>
    cases st with
    | block span ss => exact ⟨⟨h.start, h.rests, h.done⟩, fun _ _ => trivial⟩
    | _ => exact scope_along hc [_] (h.rests rfl)
  | _ => exact ⟨h, fun _ _ => trivial⟩

/-- Whatever task is started in a frame that rests and wherever it gets, variables are separate. -/
theorem subrun?_separate (hc : c.Sound) (first : Along c (Sits c others kept) ks s)
    (h : subrun? c path ks s = some (k, t)) (u : EmitState) (hu : u = t ∨ k.run c t = .ok () u) :
    u.frame.Separate c.structs others ∧ kept ⊆ u.frame.ranges c.structs := by
  have hsits := subrun?_keeps first (parts_along hc) h
  rcases hu with rfl | run
  · exact hsits.start.separate
  · exact (hsits.done u run).separate

theorem body_along (hc : c.Sound) (p : Program) (hs : Rests c others kept s) :
    Along c (Sits c others kept) (bodyTasks p) s := by
  refine along_steady hc rfl hs fun t ht => ?_
  induction p.statics generalizing t with
  | nil =>
    have hbody : Along c (Sits c others kept) (p.body.map .statement ++ []) t :=
      statements_along hc p.body ht fun _ _ _ => trivial
    simpa using hbody
  | cons d ds ih =>
    rw [List.flatMap_cons, List.append_assoc]
    cases d.init with
    | none => exact ih t ht
    | some e => exact along_steady hc rfl ht ih

theorem function_along (hc : c.Sound) (decl : FunctionDecl) (hs : Rests c others kept s) :
    Along c (Sits c others kept) (functionTasks decl) s := by
  simp only [functionTasks]
  split
  · exact statements_along hc [_] hs fun _ _ _ => trivial
  · exact statements_along hc [_, _] hs fun _ _ _ => trivial

end Emit

/-! ### Frames at the start -/

namespace Frame

variable {structs : Structs} {statics : List StaticVariable} {s : Signature}

theorem ranges_staticScope : (staticScope statics).ranges structs = [] := by
  refine List.filterMap_eq_nil_iff.mpr fun e he => ?_
  obtain ⟨v, -, rfl⟩ := List.mem_map.mp (List.mem_reverse.mp he)
  rfl

theorem settled_topLevel (statics : List StaticVariable) :
    (topLevel statics).Settled structs [] where
  stacked := ⟨fun _ hr => (List.not_mem_nil hr).elim,
    fun _ hr => (List.not_mem_nil (ranges_staticScope ▸ hr)).elim, trivial⟩
  apart := by
    have hranges : (topLevel statics).ranges structs = [] := by
      simp only [ranges, topLevel, List.flatMap_cons, List.flatMap_nil, ranges_staticScope]
      rfl
    simp [hranges]
  others := by simp
  depth := rfl

/-- What a function finds in its frame that is no variable: the return address and the room for the
result. -/
def fixedRanges (structs : Structs) (s : Signature) : List (Int × Nat) :=
  [(-1, 1), ((s.layout structs).slot, structs.words s.returns)]

theorem ranges_placeParams {z : Int} {params : List (String × ValueType)}
    (hz : z = -1 - structs.totalWords (params.map Prod.snd)) :
    Scope.ranges structs ⟨placeParams structs z params, 0⟩ =
      (paramOffsets structs params).zip (params.map fun p => structs.words p.2) := by
  induction params generalizing z with
  | nil => rfl
  | cons p rest ih =>
    obtain ⟨name, type⟩ := p
    have hnext : z + structs.words type = -1 - structs.totalWords (rest.map Prod.snd) := by
      simp only [List.map_cons, Structs.totalWords] at hz
      omega
    have hrest := congrArg ((z, structs.words type) :: ·) (ih hnext)
    exact hrest.trans (by rw [hz]; rfl)

theorem ranges_ofSignature (statics : List StaticVariable)
    (receiver : ∀ type, s.receiver = some type → structs.words type = 1) :
    ∃ params, (ofSignature structs statics s).ranges structs =
      ((s.layout structs).this.toList.map fun z => (z, 1)) ++ params ∧
      params.Perm ((s.layout structs).params.zip (s.params.map fun p => structs.words p.2)) := by
  have hparams : (Scope.ranges structs
    ⟨(placeParams structs (-1 - s.argumentWords structs) s.params).reverse, 0⟩).Perm
      ((paramOffsets structs s.params).zip (s.params.map fun p => structs.words p.2)) := by
    rw [← ranges_placeParams rfl]
    exact (List.reverse_perm _).filterMap _
  refine ⟨_, ?_, hparams⟩
  cases hs : s.receiver with
  | none =>
    simp only [ranges, ofSignature, hs, List.flatMap_cons, List.flatMap_nil, ranges_staticScope,
      List.append_nil, Signature.layout, Option.map_none, Option.toList_none, List.map_nil,
      List.nil_append]
  | some type =>
    simp only [ranges, ofSignature, hs, List.flatMap_cons, List.flatMap_nil, ranges_staticScope,
      List.append_nil, Signature.layout, Option.map_some, Option.toList_some, List.map_cons,
      List.map_nil]
    rw [← receiver type hs]
    rfl

/-- The frame of a function holds the ranges that its signature asks for. -/
theorem ranges_ofSignature_perm (statics : List StaticVariable)
    (receiver : ∀ type, s.receiver = some type → structs.words type = 1) :
    ((ofSignature structs statics s).ranges structs ++ fixedRanges structs s).Perm
      ((s.layout structs).ranges structs s) := by
  obtain ⟨params, hranges, hperm⟩ := ranges_ofSignature statics receiver
  rw [hranges, fixedRanges, EntryLayout.ranges]
  refine ((hperm.append_left _).append_right _).trans ?_
  have hlast := List.perm_append_singleton ((s.layout structs).slot, structs.words s.returns)
    (((s.layout structs).this.toList.map fun z => (z, 1)) ++
      (s.layout structs).params.zip (s.params.map fun p => structs.words p.2) ++ [(-1, 1)])
  simpa using hlast

theorem scopes_ofSignature (structs : Structs) (statics : List StaticVariable) (s : Signature) :
    ∃ entries, (ofSignature structs statics s).scopes = [⟨entries, 0⟩, staticScope statics] := by
  cases hs : s.receiver with
  | none => exact ⟨_, by simp only [ofSignature, hs]; rfl⟩
  | some type => exact ⟨_, by simp only [ofSignature, hs]; rfl⟩

theorem layout_ranges_le (structs : Structs) (s : Signature) :
    ∀ r ∈ (s.layout structs).ranges structs s, r.1 + r.2 ≤ 0 := by
  intro r hr
  have hordered := (EntryLayout.contiguous_layout structs s).disjoint
  simp only [EntryLayout.ranges] at hr hordered
  rcases List.mem_append.mp hr with hr | hr
  · have := (List.pairwise_append.mp hordered).2.2 r hr (-1, 1) (List.mem_singleton_self _)
    simp only at this
    omega
  · rw [List.mem_singleton.mp hr]
    decide

theorem settled_ofSignature (statics : List StaticVariable)
    (receiver : ∀ type, s.receiver = some type → structs.words type = 1) :
    (ofSignature structs statics s).Settled structs (fixedRanges structs s) := by
  have hperm := ranges_ofSignature_perm statics receiver
  have hordered := (EntryLayout.contiguous_layout structs s).disjoint
  have hlow : ∀ r ∈ (ofSignature structs statics s).ranges structs ++ fixedRanges structs s,
      r.1 + r.2 ≤ 0 :=
    fun r hr => layout_ranges_le structs s r (hperm.mem_iff.mp hr)
  obtain ⟨entries, hscopes⟩ := scopes_ofSignature structs statics s
  refine ⟨?_, ?_, fun r hr => hlow r (List.mem_append_right _ hr), ?_⟩
  · rw [hscopes]
    refine ⟨fun r hr => ?_, fun _ hr => (List.not_mem_nil (ranges_staticScope ▸ hr)).elim, trivial⟩
    refine hlow r (List.mem_append_left _ ?_)
    rw [ranges, hscopes]
    exact List.mem_append_left _ hr
  · have hapart := hordered.imp (S := Apart) fun h => Apart.of_le h
    exact (hperm.pairwise_iff fun h => Apart.symm h).mpr hapart
  · rw [hscopes]
    cases hs : s.receiver with
    | none => simp only [ofSignature, hs]; rfl
    | some type => simp only [ofSignature, hs]; rfl

end Frame

/-! ### Every frame of a program -/

/-- Where a variable is found: static, or in the words of the frame that are its own, below the
stack pointer. -/
def Frame.Locates (structs : Structs) (f : Frame) (v : Variable) : Location → Prop
  | .static l => v.storage = .static l
  | .stack offset => ∃ r, v.range? structs = some r ∧ r ∈ f.ranges structs ∧
      offset = r.1 - f.depth ∧ r.1 + r.2 ≤ f.depth

theorem Emit.findVariable_locates (h : t.frame.Separate structs others)
    (run : Emit.findVariable name span t = .ok location u) :
    ∃ v, t.frame.variables.lookup name = some v ∧ t.frame.Locates structs v location := by
  obtain ⟨type, hlookup, rfl⟩ := Emit.findVariable_ok run
  obtain ⟨v, hfind, -, ⟨z, hz, rfl⟩ | ⟨l, hl, rfl⟩⟩ := Frame.lookup_eq_some hlookup
  · have hmem : (z, structs.words v.type) ∈ Frame.ranges structs _ :=
      Frame.mem_ranges_of_find? hfind hz
    refine ⟨v, Frame.find?_eq_lookup .. ▸ hfind, _, ?_, hmem, rfl, h.below _ hmem⟩
    simp only [Variable.range?, hz]
  · exact ⟨v, Frame.find?_eq_lookup .. ▸ hfind, hl⟩

theorem Emit.body_rests (c : EmitContext) (statics : List StaticVariable) (labels : LabelSupply) :
    Rests c [] [] ⟨.topLevel statics, .empty, labels⟩ :=
  ⟨⟨Frame.settled_topLevel statics, List.nil_subset _⟩, rfl⟩

theorem Emit.function_rests {c : EmitContext} {signature : Signature}
    (receiver : ∀ type ∈ signature.receiver, c.structs.words type = 1)
    (statics : List StaticVariable) (labels : LabelSupply) :
    Rests (c.inside signature) (Frame.fixedRanges c.structs signature)
      ((Frame.ofSignature c.structs statics signature).ranges c.structs)
      ⟨.ofSignature c.structs statics signature, .empty, labels⟩ :=
  ⟨⟨Frame.settled_ofSignature statics receiver, List.Subset.refl _⟩, rfl⟩

open Emit in
/-- The generator works through the tasks of a program and their parts. In whatever frame it starts
on one of them or has run it, variables lie below the stack pointer and apart from each other,
whether or not they are hidden by others, and a variable that is looked up is found in its own
words. In a function they also lie apart from the room for the result and the return address, and
its receiver and parameters are still where the caller put them. At the end of a scope the frame is
the one that the scope was entered in. -/
theorem frames_separate (parsed : Program.ofSource source = .ok p) (serves : EmitContext.Serves c p)
    (statics : List StaticVariable) :
    (∀ s, Divides c (Emit.body c statics p) (.start (.topLevel statics) :: bodyTasks p) s) ∧
    (∀ returns k s, Divides { c with returns := returns } (Task.run { c with returns := returns } k)
      (k.parts { c with returns := returns } s) s) ∧
    (∀ path labels k t,
      subrun? c path (bodyTasks p) ⟨.topLevel statics, .empty, labels⟩ = some (k, t) →
      ∀ u, u = t ∨ k.run c t = .ok () u → u.frame.Separate c.structs [] ∧
        ∀ name span location v, findVariable name span u = .ok location v →
          ∃ x, u.frame.variables.lookup name = some x ∧ u.frame.Locates c.structs x location) ∧
    (∀ name decl signature, c.functions.get? name = some signature →
      (¬(signature.returns ≠ .void ∧ !Statement.anyReturns decl.body) → ∀ s,
        Divides (c.inside signature) (function c statics name decl)
          (.start (.ofSignature c.structs statics signature) :: functionTasks decl) s) ∧
      ∀ path labels k t, subrun? (c.inside signature) path (functionTasks decl)
          ⟨.ofSignature c.structs statics signature, .empty, labels⟩ = some (k, t) →
        ∀ u, u = t ∨ k.run (c.inside signature) t = .ok () u →
          u.frame.Separate c.structs (Frame.fixedRanges c.structs signature) ∧
          (∀ r ∈ (signature.layout c.structs).ranges c.structs signature,
            r ∈ u.frame.ranges c.structs ++ Frame.fixedRanges c.structs signature) ∧
          ∀ name span location v, findVariable name span u = .ok location v →
            ∃ x, u.frame.variables.lookup name = some x ∧ u.frame.Locates c.structs x location) ∧
    (∀ returns comment ss s code s',
      inScope comment (statements { c with returns := returns } ss) s = .ok code s' →
      s'.frame = s.frame ∧ ∀ name, s'.frame.lookup name = s.frame.lookup name) ∧
    ∀ returns st s code s', asBody st (statement { c with returns := returns } st) s = .ok code s' →
      s'.frame = s.frame ∧ ∀ name, s'.frame.lookup name = s.frame.lookup name := by
  have hc := serves.sound (Program.ofSource_wellNamed parsed)
  have hreturns : ∀ returns, EmitContext.Sound { c with returns := returns } :=
    fun _ => ⟨hc.structs, hc.functions⟩
  refine ⟨body_divides p statics, fun _ k s => k.divides s, ?_, ?_, ?_, ?_⟩
  · intro path labels k t h u hu
    obtain ⟨hseparate, -⟩ :=
      subrun?_separate hc (body_along hc p (body_rests c statics labels)) h u hu
    exact ⟨hseparate, fun _ _ _ _ => findVariable_locates hseparate⟩
  · intro name decl signature known
    refine ⟨fun returns s => function_divides known returns statics s,
      fun path labels k t h u hu => ?_⟩
    have hreceiver := hc.functions.receiver_words known c.structs
    have hinside := hc.inside signature
    have hrests := function_rests hreceiver statics labels
    obtain ⟨hseparate, hkept⟩ :=
      subrun?_separate hinside (function_along hinside decl hrests) h u hu
    refine ⟨hseparate, fun r hr => ?_, fun _ _ _ _ => findVariable_locates hseparate⟩
    have hperm := Frame.ranges_ofSignature_perm statics hreceiver
    rcases List.mem_append.mp (hperm.mem_iff.mpr hr) with hr | hr
    · exact List.mem_append_left _ (hkept hr)
    · exact List.mem_append_right _ hr
  · rintro returns comment ss ⟨frame, pool, ⟨n⟩⟩ code s' run
    obtain ⟨_, _, _, _, -, rfl, -, -⟩ := inScope_emits (statements_emits (hreturns returns) ss) run
    exact ⟨rfl, fun _ => rfl⟩
  · rintro returns st ⟨frame, pool, ⟨n⟩⟩ code s' run
    obtain ⟨_, rfl, -⟩ := asBody_emits (statement_emits (hreturns returns) st) run
    exact ⟨rfl, fun _ => rfl⟩

def SourceText.hidesVariable : SourceText := .ofString
  "struct P \x7b int a; func int m(int n) \x7b int x = n; \x7b int x = 2; return x + n; \x7d \x7d \x7d static P p; p.m(1);"

/-- Where the inner block reads `n`, the value of `x` has been pushed. -/
theorem frames_separate_hidesVariable :
    ∃ p c name decl signature t, Program.ofSource .hidesVariable = .ok p ∧
    EmitContext.Serves c p ∧ (name, decl) ∈ p.definitions ∧ c.functions.get? name = some signature ∧
    (∃ k, Emit.subrun? (c.inside signature) [0, 2, 2, 1, 2] (Emit.functionTasks decl)
      ⟨.ofSignature c.structs [] signature, .empty, .start⟩ = some (k, t)) ∧ t.frame.depth = 3 ∧
    t.frame.ranges c.structs = [(1, 1), (0, 1), (-3, 1), (-2, 1)] ∧
    (t.frame.lookup "n").map Prod.snd = some (.stack (-5)) ∧
    Frame.fixedRanges c.structs signature = [(-1, 1), (-4, 1)] ∧
    t.frame.Separate c.structs (Frame.fixedRanges c.structs signature) := by
  have hrun : (do
      let p ← (Program.ofSource .hidesVariable).toOption
      let structs ← (Structs.ofDecls p.structs).toOption
      let functions ← (Functions.ofProgram structs p).toOption
      let c : EmitContext := ⟨structs, functions, .collect p, none⟩
      let d ← p.definitions.head?
      let signature ← functions.get? d.1
      let r ← Emit.subrun? (c.inside signature) [0, 2, 2, 1, 2] (Emit.functionTasks d.2)
        ⟨.ofSignature structs [] signature, .empty, .start⟩
      pure (r.2.frame.depth, r.2.frame.ranges structs, (r.2.frame.lookup "n").map Prod.snd,
        Frame.fixedRanges structs signature)) =
      some (3, [(1, 1), (0, 1), (-3, 1), (-2, 1)], some (.stack (-5)), [(-1, 1), (-4, 1)]) := by
    decide +kernel
  obtain ⟨p, hp, hrun⟩ := of_toOption_bind hrun
  obtain ⟨structs, hs, hrun⟩ := of_toOption_bind hrun
  obtain ⟨functions, hf, hrun⟩ := of_toOption_bind hrun
  obtain ⟨⟨name, decl⟩, hd, hrun⟩ := Option.bind_eq_some_iff.mp hrun
  obtain ⟨signature, known, hrun⟩ := Option.bind_eq_some_iff.mp hrun
  obtain ⟨⟨k, t⟩, hsubrun, hrun⟩ := Option.bind_eq_some_iff.mp hrun
  obtain ⟨hdepth, hrun⟩ := Prod.mk.inj (Option.some.inj hrun)
  obtain ⟨hranges, hrun⟩ := Prod.mk.inj hrun
  obtain ⟨hlookup, hfixed⟩ := Prod.mk.inj hrun
  have serves : EmitContext.Serves ⟨structs, functions, .collect p, none⟩ p := ⟨hs, hf⟩
  obtain ⟨-, -, -, hfunctions, -⟩ := frames_separate hp serves []
  obtain ⟨hseparate, -⟩ := (hfunctions name decl signature known).2 _ _ k t hsubrun t (.inl rfl)
  exact ⟨p, _, name, decl, signature, t, hp, serves, List.mem_of_mem_head? hd, known, ⟨k, hsubrun⟩,
    hdepth, hranges, hlookup, hfixed, hseparate⟩

end WordScript
