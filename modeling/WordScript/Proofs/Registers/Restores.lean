import WordScript.Proofs.StackDiscipline

/-!
# Saved registers

A call pushes the registers in use and pops them in the opposite order behind the function's return.
Whatever the code between does with `sp`, each of them is read from the word that it was written to
(`SavingCall.Mirrored`). For the saves this holds since nothing jumps into straight code, and for
the restores since all that is left behind them is straight and ends where the call has to end.
-/

namespace WordScript

/-! ### Getting through code -/

theorem Item.shift?_of_none {item : Item} (h : item.instruction? = none)
    (hw : item.shift? = some w) : w = 0 := by
  cases item with
  | instruction => cases h
  | label => cases hw
  | static | comment => exact (Option.some.inj hw).symm

namespace Assembly

variable {a b : Assembly} {item : Item} {i j : Nat}

theorem getElem?_append_some (h : a[i]? = some item) : (a ++ b)[i]? = some item :=
  (List.getElem?_append_left (List.getElem?_eq_some_iff.mp h).1).trans h

theorem getElem?_length_add (a b : Assembly) (i : Nat) : (a ++ b)[a.length + i]? = b[i]? := by
  rw [List.getElem?_append_right (Nat.le_add_right _ _), Nat.add_sub_cancel_left]

theorem Edge.append (h : Edge a i j w) : Edge (a ++ b) i j w := by
  cases h with
  | pass line none => exact .pass (getElem?_append_some line) none
  | next line goes moves => exact .next (getElem?_append_some line) goes moves
  | stay line => exact .stay (getElem?_append_some line)
  | branch line target => exact .branch (getElem?_append_some line) (getElem?_append_some target)
  | jump line inside target =>
    exact .jump (getElem?_append_some line) inside (getElem?_append_some target)
  | call line => exact .call (getElem?_append_some line)

theorem Edge.behind (h : Edge b i j w) : Edge (a ++ b) (a.length + i) (a.length + j) w := by
  have there : ∀ {i item}, b[i]? = some item → (a ++ b)[a.length + i]? = some item := fun h =>
    (getElem?_length_add a b _).trans h
  cases h with
  | pass line none => exact .pass (there line) none
  | next line goes moves => exact .next (there line) goes moves
  | stay line => exact .stay (there line)
  | branch line target => exact .branch (there line) (there target)
  | jump line inside target => exact .jump (there line) inside (there target)
  | call line => exact .call (there line)

theorem Path.append (h : Path a i d) : Path (a ++ b) i d := by
  induction h with
  | start => exact .start
  | step before edge ih => exact .step ih edge.append

theorem Path.behind (ha : Path a a.length d) (hb : Path b j d') :
    Path (a ++ b) (a.length + j) (d + d') := by
  induction hb with
  | start => simpa using ha.append
  | step before edge ih => simpa [Int32.add_assoc] using Path.step ih edge.behind

theorem Path.single (h : item.shift? = some w) : Path [item] 1 w := by
  have hedge : Edge [item] 0 1 w := by
    cases item with
    | instruction instr comment =>
      simp only [Item.shift?, Option.ite_none_right_eq_some] at h
      exact .next rfl h.1 h.2
    | label l => cases h
    | static | comment =>
      cases h
      exact .pass rfl rfl
  simpa using Path.step .start hedge

/-- Straight code can be passed, and moves `sp` as its lines say. -/
theorem Path.straight (h : shift? a = some w) : Path a a.length w := by
  induction a generalizing w with
  | nil =>
    cases h
    exact .start
  | cons item a ih =>
    simp only [shift?_cons, Option.bind_eq_some_iff, Option.map_eq_some_iff] at h
    obtain ⟨w₁, h₁, w₂, h₂, rfl⟩ := h
    simpa [Nat.add_comm] using (Path.single h₁).behind (ih h₂)

def Passable (a : Assembly) : Prop := ∃ d, a.Path a.length d

namespace Passable

theorem straight (h : shift? a = some w) : Passable a := ⟨w, .straight h⟩

theorem append (ha : Passable a) (hb : Passable b) : Passable (a ++ b) := by
  obtain ⟨d, ha⟩ := ha
  obtain ⟨d', hb⟩ := hb
  exact ⟨d + d', by simpa using ha.behind hb⟩

end Passable

theorem shift?_take_succ (h : shift? (a.take i) = some w) (hi : a[i]? = some item)
    (hitem : item.shift? = some w') : shift? (a.take (i + 1)) = some (w + w') := by
  rw [List.take_add_one, hi]
  exact shift?_append h (by simp [hitem])

theorem shift?_of_getElem? (h : shift? a = some w) (hi : a[i]? = some item) :
    ∃ w', item.shift? = some w' := by
  induction a generalizing i w with
  | nil => cases hi
  | cons first a ih =>
    simp only [shift?_cons, Option.bind_eq_some_iff, Option.map_eq_some_iff] at h
    obtain ⟨w₁, h₁, w₂, h₂, -⟩ := h
    cases i with
    | zero =>
      cases hi
      exact ⟨w₁, h₁⟩
    | succ i => exact ih h₂ hi

/-- There is one way into straight code in front of everything else: from above, line by line. -/
theorem Path.shift?_take (straight : shift? a = some w) (h : Path (a ++ b) j d)
    (hj : j < a.length) : shift? (a.take j) = some d := by
  induction h with
  | start => rfl
  | @step i d j w' before edge ih =>
    have hline : ∀ {i item}, i < a.length → (a ++ b)[i]? = some item →
        a[i]? = some item ∧ ∃ v, item.shift? = some v := by
      intro i item hi h
      rw [List.getElem?_append_left hi] at h
      exact ⟨h, shift?_of_getElem? straight h⟩
    cases edge with
    | pass line none =>
      obtain ⟨hi, v, hv⟩ := hline (by omega) line
      exact shift?_take_succ (ih (by omega)) hi (Item.shift?_of_none none hv ▸ hv)
    | next line goes moves =>
      obtain ⟨hi, -⟩ := hline (by omega) line
      exact shift?_take_succ (ih (by omega)) hi (by simp [Item.shift?, goes, moves])
    -- Straight code neither branches nor calls, and has no label that could be jumped to.
    | stay line =>
      obtain ⟨-, v, hv⟩ := hline (by omega) line
      cases hv
    | branch line target | jump line inside target =>
      obtain ⟨-, v, hv⟩ := hline hj target
      cases hv
    | call line =>
      obtain ⟨-, v, hv⟩ := hline (by omega) line
      cases hv

/-- Control can get to line `i`, and `sp` has always moved by `w` then. -/
def Finds (a : Assembly) (i : Nat) (w : Word) : Prop := ∀ d, a.Path i d ↔ d = w

theorem finds_straight (straight : shift? a = some w) (hitem : item.shift? = some w') :
    Finds (a ++ item :: b) a.length w := by
  intro d
  constructor
  · intro h
    rw [← List.singleton_append, ← List.append_assoc] at h
    have hitem : shift? [item] = some w' := by simp [hitem]
    have htake := h.shift?_take (shift?_append straight hitem) (by simp)
    rw [List.take_left, straight] at htake
    exact (Option.some.inj htake).symm
  · rintro rfl
    exact (Path.straight straight).append

end Assembly

theorem Flows.eq_of_shift? (h : Flows lo hi depth d code d')
    (straight : Assembly.shift? code = some w) : d' = d + w := by
  induction h generalizing w with
  | nil =>
    cases straight
    simp
  | @cons d item d₁ code d₂ first rest ih =>
    simp only [Assembly.shift?_cons, Option.bind_eq_some_iff, Option.map_eq_some_iff] at straight
    obtain ⟨w₁, h₁, w₂, h₂, rfl⟩ := straight
    -- Labels could be reached with another depth, but straight code has none.
    have hfirst : d₁ = d + w₁ := by
      cases item with
      | instruction instr comment =>
        simp only [Item.shift?, Option.ite_none_right_eq_some] at h₁
        obtain ⟨v, hv, hd⟩ := first.of_instruction
        obtain rfl := Option.some.inj (hv.symm.trans h₁.2)
        exact hd h₁.1
      | label l => cases h₁
      | static | comment =>
        cases h₁
        simpa using first.of_other rfl
    rw [ih h₂, hfirst, Int32.add_assoc]

namespace Emit

open Assembly (Passable Path Edge)

theorem passable_relationCode (relation : Relation) (n : Nat) :
    (relationCode relation (.code n) (.code (n + 1))).Passable := by
  have hend : Path (relationCode relation (.code n) (.code (n + 1))) 7
      (((((0 + 0) + 0) + 0) + 0) + 1) :=
    .step (i := 6) (.step (i := 5)
      (.step (i := 2) (.step (i := 1) (.step .start (.stay rfl)) (.next rfl rfl rfl))
      (.jump rfl (fun f => Label.code_ne_function _ f) rfl)) (.pass rfl rfl)) (.next rfl rfl rfl)
  exact ⟨_, hend⟩

theorem passable_logicCode (op : LogicOp) (n : Nat) :
    (logicCode op (.code n) (.code (n + 1))).Passable := by
  have hend : Path (logicCode op (.code n) (.code (n + 1))) 6 ((((0 + 0) + 0) + 0) + 1) :=
    .step (i := 5) (.step (i := 4) (.step (i := 1) (.step .start (.next rfl rfl rfl))
      (.jump rfl (fun f => Label.code_ne_function _ f) rfl)) (.pass rfl rfl)) (.next rfl rfl rfl)
  exact ⟨_, hend⟩

theorem passable_enterCode (back : Label) (f : FunctionName) : (enterCode back f).Passable := by
  have hend : Path (enterCode back f) 4 ((((0 + 0) + 1) + -1) + 0) :=
    .step (i := 3) (.step (i := 2)
      (.step (i := 1) (.step .start (.next rfl rfl rfl)) (.next rfl rfl rfl)) (.call rfl))
      (.pass rfl rfl)
  exact ⟨_, hend⟩

theorem passable_testCode (k : Nat) (type : ValueType) (relation : Relation) (l : Label) :
    (testCode (.general k) type relation l).Passable := by
  have hbranch : Path [line (.branch relation (.label l))] 1 (0 + 0) := .step .start (.stay rfl)
  simpa [testCode] using (Passable.straight (shift?_zeroTest k type)).append ⟨_, hbranch⟩

/-- No piece of code stops control for good. -/
theorem Composed.passable (h : Composed n n' code w) : code.Passable := by
  induction h with
  | straight h => exact .straight h
  | append _ _ iha ihb => exact iha.append ihb
  | relation => exact passable_relationCode _ _
  | logic _ _ ihl ihr =>
    exact ((ihl.append (passable_testCode _ _ _ _)).append
      (ihr.append (passable_testCode _ _ _ _))).append
      (passable_logicCode _ _)
  | enter => exact passable_enterCode _ _

end Emit

/-! ### Calls -/

/-- The code of a call, as far as it is about registers: they are saved, the result, the receiver
and the arguments are passed, and behind the function's return the words that were passed are
dropped, the registers restored and the result moved to where they were. -/
structure SavingCall where
  live : List Register
  passing : Assembly
  back : Label
  function : FunctionName
  dropping : Assembly
  sliding : Assembly

namespace SavingCall

open Emit

variable (x : SavingCall)

def front : Assembly := saveCode x.live ++ x.passing ++ enterCode x.back x.function ++ x.dropping

def code : Assembly := x.front ++ restoreCode x.live.reverse ++ x.sliding

def saveLine (i : Nat) : Nat := 2 * i

def jumpLine : Nat := (saveCode x.live ++ x.passing).length + 2

def restoreLine (i : Nat) : Nat := x.front.length + (2 * (x.live.length - 1 - i) + 1)

/-- Each register is read from the word it was written to: `i` words above where `sp` was at the
start of the call. Registers are saved going up, and restored going down, with the jump between. -/
structure Mirrored : Prop where
  distinct : x.live.Nodup
  saves : ∀ i r, x.live[i]? = some r →
    (∃ note, x.code[saveLine i]? = some (noted (.memWrite .sp (.register r)) note)) ∧
    x.code.Finds (saveLine i) (.ofNat i)
  jump : ∃ note, x.code[x.jumpLine]? = some (noted (.jmp (labelled x.function.label)) note)
  restores : ∀ i r, x.live[i]? = some r →
    (∃ note, x.code[x.restoreLine i]? = some (noted (.memRead r .sp) note)) ∧
    x.code.Finds (x.restoreLine i) (.ofNat i)
  order : ∀ i j, i < j → j < x.live.length → saveLine i < saveLine j ∧
    x.restoreLine j < x.restoreLine i
  between : ∀ i, i < x.live.length → saveLine i < x.jumpLine ∧ x.jumpLine < x.restoreLine i

theorem saveCode_append (a b : List Register) : saveCode (a ++ b) = saveCode a ++ saveCode b :=
  List.flatMap_append

theorem restoreCode_append (a b : List Register) :
    restoreCode (a ++ b) = restoreCode a ++ restoreCode b := List.flatMap_append

theorem saveCode_cons (r : Register) (live : List Register) : saveCode (r :: live) =
    noted (.memWrite .sp (.register r)) s!"save {r.text}" :: line (increase .sp (count 1)) ::
      saveCode live := rfl

theorem restoreCode_cons (r : Register) (live : List Register) : restoreCode (r :: live) =
    line (decrease .sp (count 1)) :: noted (.memRead r .sp) s!"restore {r.text}" ::
      restoreCode live := rfl

theorem length_saveCode (live : List Register) : (saveCode live).length = 2 * live.length := by
  induction live with
  | nil => rfl
  | cons r live ih =>
    rw [saveCode_cons, List.length_cons, List.length_cons, ih, List.length_cons]
    omega

theorem length_restoreCode (live : List Register) :
    (restoreCode live).length = 2 * live.length := by
  induction live with
  | nil => rfl
  | cons r live ih =>
    rw [restoreCode_cons, List.length_cons, List.length_cons, ih, List.length_cons]
    omega

variable {x : SavingCall}

/-- The saves are the first lines of the code, and straight. -/
theorem save_found {below above : List Register} (hlive : x.live = below ++ r :: above) :
    (∃ note, x.code[saveLine below.length]? = some (noted (.memWrite .sp (.register r)) note)) ∧
      x.code.Finds (saveLine below.length) (.ofNat below.length) := by
  obtain ⟨rest, hcode⟩ : ∃ rest, x.code = saveCode below ++ noted (.memWrite .sp (.register r))
    s!"save {r.text}" :: rest := by
    simp only [code, front, hlive, saveCode_append, saveCode_cons, List.append_assoc,
      List.cons_append]
    exact ⟨_, rfl⟩
  have hlength : saveLine below.length = (saveCode below).length := (length_saveCode below).symm
  rw [hcode, hlength]
  exact ⟨⟨s!"save {r.text}", by simp⟩, Assembly.finds_straight (shift?_saveCode below) rfl⟩

/-- What is left behind a restore is straight, and ends where the call has to end. -/
theorem restore_found {below above : List Register} (hlive : x.live = below ++ r :: above)
    (general : ∀ r ∈ x.live, r ≠ .sp) (passing : x.passing.Passable)
    (dropping : Assembly.shift? x.dropping = some v)
    (sliding : Assembly.shift? x.sliding = some w) (moves : Moves n n' x.code w) :
    (∃ note, x.code[x.restoreLine below.length]? = some (noted (.memRead r .sp) note)) ∧
      x.code.Finds (x.restoreLine below.length) (.ofNat below.length) := by
  let before := x.front ++ restoreCode above.reverse ++ [line (decrease .sp (count 1))]
  let rest := noted (.memRead r .sp) s!"restore {r.text}" ::
    (restoreCode below.reverse ++ x.sliding)
  have hcode : x.code = before ++ rest := by
    simp only [before, rest, code, hlive, List.reverse_append, List.reverse_cons,
      restoreCode_append, List.append_assoc]
    rfl
  have hlength : x.restoreLine below.length = before.length := by
    simp only [restoreLine, before, hlive, List.length_append, length_restoreCode, List.length_cons,
      List.length_nil, List.length_reverse]
    omega
  have hbelow : ∀ r ∈ below.reverse, r ≠ .sp :=
    fun r hr => general r (by simp [hlive, List.mem_reverse.mp hr])
  have habove : ∀ r ∈ above.reverse, r ≠ .sp :=
    fun r hr => general r (by simp [hlive, List.mem_reverse.mp hr])
  have hpassable : before.Passable :=
    (((((Assembly.Passable.straight (shift?_saveCode _)).append passing).append
      (passable_enterCode _ _)).append
      (.straight dropping)).append (.straight (shift?_restoreCode habove))).append (.straight rfl)
  have hrest : Assembly.shift? rest = some (-.ofNat below.length + w) := by
    have hread : (noted (.memRead r .sp) s!"restore {r.text}").shift? = some 0 := by
      cases r with
      | sp => exact absurd rfl (general _ (by simp [hlive]))
      | general k => rfl
    have hend := Assembly.shift?_append (shift?_restoreCode hbelow) sliding
    simp only [rest, Assembly.shift?_cons, hread, hend, Option.bind_some, Option.map_some,
      List.length_reverse, Int32.zero_add]
  -- The depth is found from behind: the arguments before it may branch, what follows it is
  -- straight.
  have honly : ∀ d, x.code.Path before.length d → d = .ofNat below.length := by
    intro d hpath
    obtain ⟨depth, hflow⟩ := moves.2 0
    have hdrop := hflow.drop_path hpath
    rw [hcode, List.drop_left] at hdrop
    have hend := hdrop.eq_of_shift? hrest
    grind
  rw [hlength]
  refine ⟨⟨s!"restore {r.text}", by rw [hcode]; simp [rest]⟩, fun d => ⟨honly d, ?_⟩⟩
  rintro rfl
  -- Some path leads there, and it can have no other depth.
  obtain ⟨d, hpath⟩ := hpassable
  have hthere : x.code.Path before.length d := hcode ▸ hpath.append
  exact honly d hthere ▸ hthere

theorem split_of_getElem? {l : List Register} (h : l[i]? = some r) :
    ∃ below above, l = below ++ r :: above ∧ below.length = i := by
  obtain ⟨hlt, rfl⟩ := List.getElem?_eq_some_iff.mp h
  exact ⟨l.take i, l.drop (i + 1), by simp, by simp; omega⟩

theorem mirrored (distinct : x.live.Nodup) (general : ∀ r ∈ x.live, r ≠ .sp)
    (passing : x.passing.Passable) (dropping : Assembly.shift? x.dropping = some v)
    (sliding : x.live ≠ [] → Assembly.shift? x.sliding = some w)
    (moves : Moves n n' x.code w) : x.Mirrored where
  distinct := distinct
  saves i r hi := by
    obtain ⟨below, above, hlive, rfl⟩ := split_of_getElem? hi
    exact save_found hlive
  jump := by
    refine ⟨s!"call {x.function.text}", ?_⟩
    simp only [code, front, List.append_assoc]
    rw [← List.append_assoc, jumpLine, Assembly.getElem?_length_add]
    rfl
  restores i r hi := by
    obtain ⟨below, above, hlive, rfl⟩ := split_of_getElem? hi
    exact restore_found hlive general passing dropping (sliding (by simp [hlive])) moves
  order i j hij hj := by
    simp only [saveLine, restoreLine]
    omega
  between i hi := by
    simp only [saveLine, restoreLine, jumpLine, front, List.length_append, length_saveCode,
      enterCode, List.length_cons]
    omega

end SavingCall

end WordScript
