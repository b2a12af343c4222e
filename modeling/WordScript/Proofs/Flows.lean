import WordScript.Proofs.Emit.Statements
import WordScript.Proofs.Machine.Image

/-!
# Paths through code

`Assembly.Path` follows code as control does, and says how far `sp` has moved. A call goes on behind
its jump with `sp` one lower, since the callee pops the return address. `Flows` assigns a
displacement of `sp` to every label, so it says how far `sp` has moved on every path, and `Composed`
describes code for pieces of expressions by the few forms that it is made of.
-/

namespace WordScript

/-! ### Labels -/

namespace Label

theorem code_inj {a b : Nat} (h : code a = code b) : a = b := by
  have hrepr : a.repr = b.repr := by simpa [code] using h
  rw [Nat.repr_eq_ofList_toDigits, Nat.repr_eq_ofList_toDigits, String.ofList_inj] at hrepr
  rw [← Nat.ofDigitChars_ten_toDigits (n := a), hrepr, Nat.ofDigitChars_ten_toDigits]

theorem code_ne_function (k : Nat) (f : FunctionName) : code k ≠ f.label := by
  intro h
  have htext := congrArg (fun l => l.name.toList.head?) h
  cases f <;> simp [code, FunctionName.label, function, method, toString] at htext

end Label

/-! ### Paths -/

def Instruction.target? : Instruction → Option Register
  | .mov r _ | .arith _ _ r _ | .memRead r _ => some r
  | .halt | .cmp .. | .jmp _ | .branch .. | .memWrite .. | .memCopy .. => none

def Instruction.addend? : Instruction → Option Word
  | .arith .integer op _ (.value (.immediate w)) => match op with
    | .add => some w
    | .sub => some (-w)
    | .mul | .div => none
  | _ => none

/-- What an instruction adds to `sp`; none if it changes `sp` but not by a given number. -/
def Instruction.displacement? (i : Instruction) : Option Word :=
  if i.target? = some .sp then i.addend? else some 0

namespace Assembly

/-- `a.Edge i j w`: control can go from line `i` to line `j`, and `sp` changes by `w` on the way. -/
inductive Edge (a : Assembly) : Nat → Nat → Word → Prop
  | pass (line : a[i]? = some item) (none : item.instruction? = none) : Edge a i (i + 1) 0
  | next (line : a[i]? = some (.instruction instr comment)) (goes : instr.straight = true)
      (moves : instr.displacement? = some w) : Edge a i (i + 1) w
  | stay (line : a[i]? = some (.instruction (.branch relation target) comment)) : Edge a i (i + 1) 0
  | branch (line : a[i]? = some (.instruction (.branch relation (.label l)) comment))
      (target : a[j]? = some (.label l)) : Edge a i j 0
  | jump (line : a[i]? = some (.instruction (.jmp (.value (.label l))) comment))
      (inside : ∀ f : FunctionName, l ≠ f.label) (target : a[j]? = some (.label l)) : Edge a i j 0
  | call {f : FunctionName} (line : a[i]? =
      some (.instruction (.jmp (.value (.label f.label))) comment)) :
      Edge a i (i + 1) (-1)

/-- `a.Path i d`: control that starts at the first line can get to line `i` with `sp` moved by `d`.
-/
inductive Path (a : Assembly) : Nat → Word → Prop
  | start : Path a 0 0
  | step (before : Path a i d) (edge : Edge a i j w) : Path a j (d + w)

end Assembly

/-! ### Displacements of labels -/

def Item.shift? : Item → Option Word
  | .instruction i _ => if i.straight then i.displacement? else none
  | .label _ => none
  | .static .. | .comment _ => some 0

/-- `Passes lo hi depth d item d'`: with `sp` moved by `d` before the line, it is moved by `d'`
behind it. Labels have numbers from `lo` to `hi`, and `depth` says by how much `sp` has moved there.
Behind a jump anything goes. -/
inductive Passes (lo hi : Nat) (depth : Nat → Word) : Word → Item → Word → Prop
  | straight (h : item.shift? = some w) : Passes lo hi depth d item (d + w)
  | label (lower : lo ≤ k) (upper : k < hi) :
      Passes lo hi depth (depth k) (.label (.code k)) (depth k)
  | branch (lower : lo ≤ k) (upper : k < hi) :
      Passes lo hi depth (depth k) (.instruction (.branch relation (.label (.code k))) comment)
        (depth k)
  | jump (lower : lo ≤ k) (upper : k < hi) :
      Passes lo hi depth (depth k) (.instruction (.jmp (.value (.label (.code k)))) comment) d'
  | call {f : FunctionName} :
      Passes lo hi depth (d + 1) (.instruction (.jmp (.value (.label f.label))) comment) d
  | leave : Passes lo hi depth d (.instruction (.jmp (.register r)) comment) d'
  | halt : Passes lo hi depth d (.instruction .halt comment) d'

inductive Flows (lo hi : Nat) (depth : Nat → Word) : Word → Assembly → Word → Prop
  | nil : Flows lo hi depth d [] d
  | cons (first : Passes lo hi depth d item d₁) (rest : Flows lo hi depth d₁ code d₂) :
      Flows lo hi depth d (item :: code) d₂

namespace Passes

variable {lo hi : Nat} {depth : Nat → Word}

theorem still (h : item.shift? = some 0) : Passes lo hi depth d item d := by
  simpa using Passes.straight h

theorem label_of (h : depth k = d) (lower : lo ≤ k) (upper : k < hi) :
    Passes lo hi depth d (.label (.code k)) d := h ▸ .label lower upper

theorem branch_of (h : depth k = d) (lower : lo ≤ k) (upper : k < hi) :
    Passes lo hi depth d (.instruction (.branch relation (.label (.code k))) comment) d :=
  h ▸ .branch lower upper

theorem jump_of (h : depth k = d) (lower : lo ≤ k) (upper : k < hi) :
    Passes lo hi depth d (.instruction (.jmp (.value (.label (.code k)))) comment) d' :=
  h ▸ .jump lower upper

theorem of_instruction (h : Passes lo hi depth d (.instruction i comment) d') :
    ∃ w, i.displacement? = some w ∧ (i.straight = true → d' = d + w) := by
  cases h with
  | straight h =>
    simp only [Item.shift?] at h
    split at h
    · exact ⟨_, h, fun _ => rfl⟩
    · simp at h
  | branch | jump | call | leave | halt =>
    exact ⟨0, rfl, fun h => by simp [Instruction.straight] at h⟩

theorem of_other (h : Passes lo hi depth d item d') (hnone : item.instruction? = none) :
    d' = d := by
  cases h with
  | straight h => cases item <;> simp_all [Item.shift?, Item.instruction?]
  | label => rfl
  | branch | jump | call | leave | halt => simp [Item.instruction?] at hnone

theorem of_branch (h : Passes lo hi depth d (.instruction (.branch relation target) comment) d') :
    d' = d ∧ ∃ k, target = .label (.code k) ∧ depth k = d := by
  cases h with
  | straight h => simp [Item.shift?, Instruction.straight] at h
  | branch => exact ⟨rfl, _, rfl, rfl⟩

theorem of_jump (h : Passes lo hi depth d (.instruction (.jmp (.value (.label l))) comment) d') :
    (∃ k, l = .code k ∧ depth k = d) ∨ ∃ f : FunctionName, l = f.label ∧ d = d' + 1 := by
  cases h with
  | straight h => simp [Item.shift?, Instruction.straight] at h
  | jump => exact .inl ⟨_, rfl, rfl⟩
  | call => exact .inr ⟨_, rfl, rfl⟩

end Passes

namespace Flows

variable {lo hi : Nat} {depth : Nat → Word}

theorem append (h₁ : Flows lo hi depth d a d₁) (h₂ : Flows lo hi depth d₁ b d₂) :
    Flows lo hi depth d (a ++ b) d₂ := by
  induction h₁ with
  | nil => exact h₂
  | cons first _ ih => exact .cons first (ih h₂)

/-- Only the labels in the range count. -/
theorem transfer {depth' : Nat → Word} (h : Flows lo hi depth d code d') (hlo : lo' ≤ lo)
    (hhi : hi ≤ hi')
    (he : ∀ k, lo ≤ k → k < hi → depth' k = depth k) : Flows lo' hi' depth' d code d' := by
  induction h with
  | nil => exact .nil
  | cons first _ ih =>
    refine .cons ?_ ih
    cases first with
    | straight h => exact .straight h
    | label hl hu => exact he _ hl hu ▸ .label (by omega) (by omega)
    | branch hl hu => exact he _ hl hu ▸ .branch (by omega) (by omega)
    | jump hl hu => exact he _ hl hu ▸ .jump (by omega) (by omega)
    | call => exact .call
    | leave => exact .leave
    | halt => exact .halt

/-- A label is reached with the displacement it was assigned. -/
theorem at_label (h : Flows lo hi depth d code d') (hj : code[j]? = some (.label (.code k))) :
    Flows lo hi depth (depth k) (code.drop j) d' := by
  induction h generalizing j with
  | nil => simp at hj
  | cons first rest ih =>
    cases j with
    | zero =>
      simp only [List.getElem?_cons_zero, Option.some.injEq] at hj
      subst hj
      generalize hl : Label.code k = l at first
      cases first with
      | straight h => simp [Item.shift?] at h
      | label hlo hhi =>
        obtain rfl := Label.code_inj hl
        simpa [hl] using Flows.cons (.label hlo hhi) rest
    | succ j => simpa using ih (by simpa using hj)

theorem moves (h : Flows lo hi depth d code d') (hmem : i ∈ code.instructions) :
    ∃ w, i.displacement? = some w := by
  obtain ⟨item, hitem, hinstr⟩ := List.mem_filterMap.mp hmem
  clear hmem
  induction h with
  | nil => simp at hitem
  | cons first _ ih =>
    rcases List.mem_cons.mp hitem with rfl | hitem
    · cases item <;> simp only [Item.instruction?, Option.some.injEq, reduceCtorEq] at hinstr
      subst hinstr
      obtain ⟨w, hw, -⟩ := first.of_instruction
      exact ⟨w, hw⟩
    · exact ih hitem

theorem drop_cons {code : Assembly} (h : Flows lo hi depth d (code.drop j) d')
    (hj : code[j]? = some item) :
    ∃ d₁, Passes lo hi depth d item d₁ ∧ Flows lo hi depth d₁ (code.drop (j + 1)) d' := by
  obtain ⟨hlt, rfl⟩ := List.getElem?_eq_some_iff.mp hj
  rw [List.drop_eq_getElem_cons hlt] at h
  cases h with
  | cons first rest => exact ⟨_, first, rest⟩

/-- Control that has come to line `j` arrives at the end as the lines from there say. -/
theorem drop_path (h : Flows lo hi depth 0 code d') (p : Assembly.Path code j d) :
    Flows lo hi depth d (code.drop j) d' := by
  induction p with
  | start => exact h
  | step before edge ih =>
    cases edge with
    | pass hline hnone =>
      obtain ⟨_, hpass, hrest⟩ := ih.drop_cons hline
      obtain rfl := hpass.of_other hnone
      simpa using hrest
    | next hline hgoes hmoves =>
      obtain ⟨_, hpass, hrest⟩ := ih.drop_cons hline
      obtain ⟨w, hw, hd⟩ := hpass.of_instruction
      obtain rfl : w = _ := by simpa [hw] using hmoves
      exact hd hgoes ▸ hrest
    | stay hline =>
      obtain ⟨_, hpass, hrest⟩ := ih.drop_cons hline
      obtain ⟨rfl, -⟩ := hpass.of_branch
      simpa using hrest
    | branch hline htarget =>
      obtain ⟨_, hpass, hrest⟩ := ih.drop_cons hline
      obtain ⟨-, k, hk, rfl⟩ := hpass.of_branch
      obtain rfl : _ = Label.code k := by simpa using hk
      simpa using h.at_label htarget
    | jump hline hinside htarget =>
      obtain ⟨_, hpass, hrest⟩ := ih.drop_cons hline
      rcases hpass.of_jump with ⟨k, rfl, rfl⟩ | ⟨f, rfl, -⟩
      · simpa using h.at_label htarget
      · exact absurd rfl (hinside f)
    | call hline =>
      obtain ⟨_, hpass, hrest⟩ := ih.drop_cons hline
      rcases hpass.of_jump with ⟨k, hk, -⟩ | ⟨g, -, rfl⟩
      · exact absurd hk.symm (Label.code_ne_function k _)
      · simpa [Int32.add_assoc, Int32.add_right_neg] using hrest

theorem path_end (h : Flows lo hi depth 0 code d') (p : Assembly.Path code code.length d) :
    d = d' := by
  have hend := h.drop_path p
  rw [List.drop_length] at hend
  cases hend
  rfl

theorem single (h : Passes lo hi depth d item d') : Flows lo hi depth d [item] d' := .cons h .nil

end Flows

/-! ### Straight code -/

namespace Item

variable {comment : Option String}

@[simp] theorem shift?_raise :
    (instruction (.arith .integer .add .sp (.value (.immediate w))) comment).shift? = some w :=
  rfl

@[simp] theorem shift?_lower :
    (instruction (.arith .integer .sub .sp (.value (.immediate w))) comment).shift? = some (-w) :=
  rfl

@[simp] theorem shift?_mov : (instruction (.mov (.general k) source) comment).shift? = some 0 := rfl

@[simp] theorem shift?_arith :
    (instruction (.arith kind op (.general k) rhs) comment).shift? = some 0 := rfl

@[simp] theorem shift?_cmp : (instruction (.cmp kind r rhs) comment).shift? = some 0 := rfl

@[simp] theorem shift?_memRead : (instruction (.memRead (.general k) r) comment).shift? = some 0 :=
  rfl

@[simp] theorem shift?_memWrite : (instruction (.memWrite r source) comment).shift? = some 0 := rfl

@[simp] theorem shift?_memCopy : (instruction (.memCopy target source) comment).shift? = some 0 :=
  rfl

end Item

namespace Assembly

def shift? : Assembly → Option Word
  | [] => some 0
  | item :: rest => item.shift?.bind fun w => (shift? rest).map (w + ·)

@[simp] theorem shift?_nil : shift? [] = some 0 := rfl

@[simp] theorem shift?_cons : shift? (item :: rest) = item.shift?.bind fun w =>
    (shift? rest).map (w + ·) := rfl

theorem shift?_append (ha : shift? a = some w) (hb : shift? b = some w') :
    shift? (a ++ b) = some (w + w') := by
  induction a generalizing w with
  | nil =>
    obtain rfl : 0 = w := by simpa using ha
    simpa using hb
  | cons item a ih =>
    simp only [shift?_cons, Option.bind_eq_some_iff, Option.map_eq_some_iff] at ha
    obtain ⟨w₁, h₁, w₂, h₂, rfl⟩ := ha
    simp [h₁, ih h₂, Int32.add_assoc]

theorem shift?_replicate {block : Assembly} (h : shift? block = some w) (n : Nat) :
    shift? (List.replicate n block).flatten = some (Int32.ofNat n * w) := by
  induction n with
  | zero => simp
  | succ n ih =>
    rw [List.replicate_succ, List.flatten_cons, shift?_append h ih]
    congr 1
    rw [Int32.ofNat_add]
    grind

theorem flows_of_shift? (h : shift? code = some w) (d : Word) :
    Flows lo hi depth d code (d + w) := by
  induction code generalizing w d with
  | nil =>
    obtain rfl : 0 = w := by simpa using h
    simpa using Flows.nil
  | cons item code ih =>
    simp only [shift?_cons, Option.bind_eq_some_iff, Option.map_eq_some_iff] at h
    obtain ⟨w₁, h₁, w₂, h₂, rfl⟩ := h
    simpa [Int32.add_assoc] using Flows.cons (.straight h₁) (ih h₂ (d + w₁))

end Assembly

namespace Emit

open Assembly (shift? shift?_append shift?_replicate)

theorem shift?_lowerSp (n : Nat) : shift? (lowerSp n) = some (-.ofNat n) := by
  by_cases h : n = 0
  · simp [lowerSp, h]
  · simp [lowerSp, h, line, decrease, count, word]

theorem shift?_pushCode (v : Arg) : shift? (pushCode v) = some 1 := by
  simp [pushCode, line, increase, count, word]

theorem shift?_popCode (k : Nat) : shift? (popCode (.general k)) = some (-1) := by
  simp [popCode, line, decrease, count, word]

theorem shift?_pushCopyCode (k n : Nat) :
    shift? (pushCopyCode (.general k) n) = some (.ofNat n) := by
  refine (shift?_replicate (w := 1) ?_ n).trans (by simp)
  simp [line, increase, word]

theorem shift?_copyWords (target source : Nat) (n : Nat) :
    shift? (copyWords (.general target) (.general source) n) = some 0 := by
  refine (shift?_replicate (w := 0) ?_ n).trans (by simp)
  simp [line, increase, word]

theorem shift?_copyWords_sp (source n : Nat) :
    shift? (copyWords .sp (.general source) n) = some (.ofNat n) := by
  refine (shift?_replicate (w := 1) ?_ n).trans (by simp)
  simp [line, increase, word]

theorem shift?_store (k n : Nat) : shift? (store n (.general k)) = some 0 := by
  have hcopy : shift? (copyWords (.general k) .sp n) = some (.ofNat n) := by
    refine (shift?_replicate (w := 1) ?_ n).trans (by simp)
    simp [line, increase, word]
  simp [store, hcopy, line, decrease, count, word, Int32.add_left_neg]

theorem shift?_pointAt (k : Nat) (location : Location) (comment : String) :
    shift? (pointAt (.general k) location comment) = some 0 := by
  cases location <;>
    simp [pointAt, line, noted, increase, word]

theorem shift?_saveCode (saved : List Register) :
    shift? (saveCode saved) = some (.ofNat saved.length) := by
  induction saved with
  | nil => rfl
  | cons r saved ih =>
    have hr : shift? [noted (.memWrite .sp (.register r)) s!"save {r.text}",
      line (increase .sp (count 1))] =
        some 1 := by
      simp [line, noted, increase, count, word]
    rw [saveCode, List.flatMap_cons, ← saveCode, shift?_append hr ih]
    simp [Int32.ofNat_add, Int32.add_comm]

theorem shift?_restoreCode {saved : List Register} (h : ∀ r ∈ saved, r ≠ .sp) :
    shift? (restoreCode saved) = some (-.ofNat saved.length) := by
  induction saved with
  | nil => rfl
  | cons r saved ih =>
    have hr : shift? [line (decrease .sp (count 1)), noted (.memRead r .sp) s!"restore {r.text}"] =
        some (-1) := by
      cases r with
      | sp => simp at h
      | general k => simp [line, noted, decrease, count, word]
    rw [restoreCode, List.flatMap_cons, ← restoreCode,
      shift?_append hr (ih fun r hr => h r (by simp [hr]))]
    simp only [List.length_cons, Int32.ofNat_add, Option.some.injEq]
    grind

end Emit

/-! ### Code for expressions -/

/-- Code whose labels have numbers from `n` to `n'` and which moves `sp` by `w`, wherever it starts.
-/
def Moves (n n' : Nat) (code : Assembly) (w : Word) : Prop :=
  n ≤ n' ∧ ∀ d, ∃ depth, Flows n n' depth d code (d + w)

namespace Moves

theorem straight (h : Assembly.shift? code = some w) : Moves n n code w :=
  ⟨Nat.le_refl n, fun d => ⟨fun _ => 0, Assembly.flows_of_shift? h d⟩⟩

theorem append (h₁ : Moves n₁ n₂ a w₁) (h₂ : Moves n₂ n₃ b w₂) :
    Moves n₁ n₃ (a ++ b) (w₁ + w₂) := by
  obtain ⟨hn₁, h₁⟩ := h₁
  obtain ⟨hn₂, h₂⟩ := h₂
  refine ⟨by omega, fun d => ?_⟩
  obtain ⟨depth₁, f₁⟩ := h₁ d
  obtain ⟨depth₂, f₂⟩ := h₂ (d + w₁)
  refine ⟨fun k => if k < n₂ then depth₁ k else depth₂ k, ?_⟩
  rw [← Int32.add_assoc]
  exact (f₁.transfer (Nat.le_refl _) hn₂ (by grind)).append
    (f₂.transfer hn₁ (Nat.le_refl _) (by grind))

theorem cast (h : Moves n n' code w) (hw : w = w') : Moves n n' code w' := hw ▸ h

end Moves

namespace Emit

open Assembly (shift? shift?_append)

def Piece.words (s : Structs) : Piece → Nat
  | .value _ type => s.words type
  | .address .. => 0
  | .receiver e => receiverWords e
  | .arguments _ types => (types.map s.words).sum

theorem moves_relationCode (relation : Relation) (n : Nat) :
    Moves n (n + 2) (relationCode relation (.code n) (.code (n + 1))) 1 := by
  refine ⟨by omega, fun d => ⟨fun _ => d, ?_⟩⟩
  exact .cons (.branch (by omega) (by omega)) <| .cons (.still rfl) <|
    .cons (.jump (by omega) (by omega)) <|
    .cons (.label (by omega) (by omega)) <| .cons (.still rfl) <|
    .cons (.label (by omega) (by omega)) <|
      .single (.straight rfl)

theorem moves_enterCode (n : Nat) (f : FunctionName) :
    Moves n (n + 1) (enterCode (.code n) f) 0 := by
  refine ⟨by omega, fun d => ⟨fun _ => d, ?_⟩⟩
  rw [Int32.add_zero]
  exact .cons (.still rfl) <| .cons (.straight rfl) <| .cons .call <|
    .single (.label (by omega) (by omega))

theorem shift?_slideCode {saved : List Register} (h : ∀ r ∈ saved, r ≠ .sp) (words k : Nat) :
    shift? (slideCode saved words (.general k)) = some (-.ofNat saved.length) := by
  by_cases hs : saved = []
  · simp [slideCode, hs]
  have hrestore := @shift?_restoreCode saved.reverse (by simpa using h)
  have hdown := shift?_append (shift?_lowerSp words) hrestore
  by_cases hw : words = 0
  · simpa [slideCode, hs, hw] using hdown
  · have hmove : shift? [line (.mov (.general k) (.register .sp)),
        line (increase (.general k) (count saved.length))] = some 0 := by
      simp [line, increase]
    have hslide := shift?_append hdown (shift?_append hmove (shift?_copyWords_sp k words))
    simp only [slideCode, hs, hw, ↓reduceIte]
    refine hslide.trans ?_
    simp only [List.length_reverse, Option.some.injEq]
    grind

theorem shift?_selectCode (structWords : Nat) (field : Field) (k words : Nat) :
    shift? (selectCode structWords field (.general k) words) =
      some (-.ofNat structWords + .ofNat words) := by
  have hmove : shift? (noted (.mov (.general k) (.register .sp)) s!".{field.name}" ::
      (if field.offset = 0 then [] else [line (increase (.general k) (count field.offset))])) =
      some 0 := by
    split <;> simp [line, noted, increase]
  have hselect :=
    shift?_append (shift?_append (shift?_lowerSp structWords) hmove) (shift?_pushCopyCode k words)
  simpa [selectCode] using hselect

theorem shift?_flatMap_lowerSp (sizes : List Nat) :
    shift? (sizes.flatMap lowerSp) = some (-.ofNat sizes.sum) := by
  induction sizes with
  | nil => rfl
  | cons n sizes ih =>
    rw [List.flatMap_cons, shift?_append (shift?_lowerSp n) ih, List.sum_cons, Int32.ofNat_add,
      Option.some.injEq]
    grind

theorem live_ne_sp {pool : RegisterPool} (h : r ∈ pool.live) : r ≠ .sp := by
  obtain ⟨k, -, -, rfl⟩ := RegisterPool.mem_live.mp h
  simp

theorem Constant.words (h : Constant c frame e value type) : c.structs.words type = 1 := by
  cases h <;> rfl

theorem shift?_arithmeticCode (kind : NumKind) (op : ArithmeticOp) (l r : Nat) :
    shift? (arithmeticCode kind op (.general l) (.general r)) = some (-1) := by
  simp [arithmeticCode, popCode, pushCode, line, decrease, increase, count, word]

theorem shift?_compareCode (kind : NumKind) (l r : Nat) :
    shift? (popCode (.general r) ++ popCode (.general l) ++
      [line (.cmp kind (.general l) (.register (.general r)))]) = some (-2) := by
  simp [popCode, line, decrease, count, word]

theorem shift?_zeroTest (k : Nat) (type : ValueType) :
    shift? (popCode (.general k) ++ [line (zeroTest (.general k) type)]) = some (-1) := by
  simp [popCode, zeroTest, line, decrease, count, word]

theorem shift?_negateCode (type : ValueType) (k : Nat) :
    shift? (negateCode type (.general k)) = some 0 := by
  simp [negateCode, popCode, pushCode, line, decrease, increase, count, word]

theorem shift?_updateCode (kind : NumKind) (op : ArithmeticOp) (k operand result : Nat) :
    shift? (updateCode kind op (.general k) (.general operand) (.general result)) = some 0 := by
  simp [updateCode, popCode, pushCode, line, decrease, increase, count, word]

theorem shift?_fieldCode (name : String) (offset k : Nat) :
    shift? (fieldCode name offset (.general k)) = some 0 := by
  by_cases h : offset = 0
  · simp [fieldCode, h]
  · simp [fieldCode, h, noted, increase]

theorem shift?_roomCode (words : Nat) (type : String) :
    shift? (roomCode words type) = some (.ofNat words) := by
  by_cases h : words = 0
  · simp [roomCode, h]
  · simp [roomCode, h, noted, increase, count, word]

/-- A test pops its operand on both ways out. -/
theorem flows_testCode {depth : Nat → Word} (h : depth l = d) (lower : lo ≤ l)
    (upper : l < hi) (k : Nat) (type : ValueType) (relation : Relation) :
    Flows lo hi depth (d + 1) (testCode (.general k) type relation (.code l)) d := by
  have hpop : Flows lo hi depth (d + 1)
      (popCode (.general k) ++ [line (zeroTest (.general k) type)]) d := by
    simpa [Int32.add_assoc, Int32.add_right_neg] using
      Assembly.flows_of_shift? (shift?_zeroTest k type) (d + 1)
  simpa [testCode, line] using hpop.append (.single (.branch_of h lower upper))

/-- Both operands are popped where `and` or `or` is decided, so all its labels are where it started.
-/
theorem moves_logicCode (hl : Moves (n + 2) n₁ left 1) (hr : Moves n₁ n₂ right 1) (k : Nat)
    (a b : ValueType) (op : LogicOp) :
    Moves n n₂ (left ++ testCode (.general k) a (deciding op) (.code n) ++
      (right ++ testCode (.general k) b (deciding op) (.code n)) ++ logicCode op (.code n)
      (.code (n + 1))) 1 := by
  obtain ⟨h₁, hl⟩ := hl
  obtain ⟨h₂, hr⟩ := hr
  refine ⟨by omega, fun d => ?_⟩
  obtain ⟨depthLeft, hl⟩ := hl d
  obtain ⟨depthRight, hr⟩ := hr d
  let depth : Nat → Word := fun j => if j < n + 2 then d else if j < n₁ then depthLeft j
    else depthRight j
  have hdecided : depth n = d := by simp [depth]
  have hdone : depth (n + 1) = d := by simp [depth]
  have hend : Flows n n₂ depth d (logicCode op (.code n) (.code (n + 1))) (d + 1) :=
    .cons (.still rfl) <| .cons (.jump_of hdone (by omega) (by omega)) <|
      .cons (.label_of hdecided (by omega) (by omega)) <| .cons (.still rfl) <|
        .cons (.label_of hdone (by omega) (by omega)) <| .single (.straight rfl)
  have htest : ∀ type, Flows n n₂ depth (d + 1) (testCode (.general k) type (deciding op) (.code n))
      d :=
    fun type => flows_testCode hdecided (by omega) (by omega) k type (deciding op)
  exact ⟨depth, (((hl.transfer (by omega) (by omega) (by grind)).append (htest a)).append
    ((hr.transfer (by omega) (by omega) (by grind)).append (htest b))).append hend⟩

/-- Code for pieces is composed of straight parts, comparisons, `and` and `or`, and jumps to
functions. Its labels have numbers from `n` to `n'`, and it moves `sp` by `w`. -/
inductive Composed : Nat → Nat → Assembly → Word → Prop
  | straight (h : shift? code = some w) : Composed n n code w
  | append (front : Composed n n₁ a w₁) (back : Composed n₁ n₂ b w₂) :
      Composed n n₂ (a ++ b) (w₁ + w₂)
  | relation : Composed n (n + 2) (relationCode relation (.code n) (.code (n + 1))) 1
  | logic (left : Composed (n + 2) n₁ a 1) (right : Composed n₁ n₂ b 1) :
      Composed n n₂ (a ++ testCode (.general k) type (deciding op) (.code n) ++
        (b ++ testCode (.general k) type' (deciding op) (.code n)) ++ logicCode op (.code n)
        (.code (n + 1))) 1
  | enter : Composed n (n + 1) (enterCode (.code n) f) 0

theorem Composed.cast (h : Composed n n' code w) (hw : w = w') : Composed n n' code w' := hw ▸ h

theorem Composed.moves (h : Composed n n' code w) : Moves n n' code w := by
  induction h with
  | straight h => exact .straight h
  | append _ _ iha ihb => exact iha.append ihb
  | relation => exact moves_relationCode _ _
  | logic _ _ ihl ihr => exact moves_logicCode ihl ihr _ _ _ _
  | enter => exact moves_enterCode _ _

theorem Emits.composed (h : Emits c frame pool n piece code n') :
    Composed n n' code (.ofNat (piece.words c.structs)) := by
  induction h with
  | constant h =>
    exact (Composed.straight (shift?_pushCode _)).cast (by simp [Piece.words, h.words])
  | var found free =>
    exact (Composed.straight (shift?_append (shift?_pointAt _ _ _) (shift?_pushCopyCode _ _))).cast
      (by simp [Piece.words])
  | arithmetic left right leftWords rightWords typed freeLeft freeRight ihl ihr =>
    obtain rfl := Typing.arithmetic_type typed
    exact ((ihl.append ihr).append (.straight (shift?_arithmeticCode _ _ _ _))).cast
      (by simp [Piece.words, leftWords, rightWords])
  | relation left right leftWords rightWords typed freeLeft freeRight ihl ihr =>
    exact (((ihl.append ihr).append (.straight (shift?_compareCode _ _ _))).append .relation).cast
      (by simp [Piece.words, leftWords, rightWords])
  | logic left right leftWords rightWords free ihl ihr =>
    exact .logic (ihl.cast (by simp [Piece.words, leftWords]))
      (ihr.cast (by simp [Piece.words, rightWords]))
  | negate operand number free ih =>
    exact (ih.append (.straight (shift?_negateCode _ _))).cast (by simp [Piece.words])
  | not operand words free ih =>
    exact ((ih.append (.straight (shift?_zeroTest _ _))).append .relation).cast
      (by simp [Piece.words, words])
  | assign place value accepted same ihp ihv =>
    exact ((ihp.append ihv).append (.straight (shift?_store _ _))).cast
      (by simp [Piece.words, same])
  | update place value placeWords valueWords typed freeOperand freeResult ihp ihv =>
    obtain rfl := Typing.arithmetic_type typed
    exact ((ihp.append ihv).append (.straight (shift?_updateCode _ _ _ _ _))).cast
      (by simp [Piece.words, placeWords, valueWords])
  | field base found free ih =>
    exact (ih.append (.straight (shift?_selectCode _ _ _ _))).cast
      (by simp only [Piece.words]; grind)
  | addressOf place ih =>
    exact (ih.append (.straight (shift?_pushCode _))).cast (by simp [Piece.words])
  | dereference pointer free ih =>
    exact (ih.append (.straight (shift?_append (shift?_popCode _) (shift?_pushCopyCode _ _)))).cast
      (by simp only [Piece.words, Structs.words_reference]; grind)
  | call resolved signature live result this args fits method free iht iha =>
    subst live result
    exact (((((((Composed.straight (shift?_saveCode _)).append
      (.straight (shift?_roomCode _ _))).append iht).append
      iha).append .enter).append (.straight (shift?_flatMap_lowerSp _))).append
      (.straight (shift?_lowerSp _))).append
      (.straight (shift?_slideCode (fun _ h => live_ne_sp h) _ _)) |>.cast (by
        simp only [Piece.words, List.map_reverse, List.sum_reverse, fits]
        grind)
  | addressVar found free => exact .straight (shift?_pointAt _ _ _)
  | addressField base found ih =>
    exact (ih.append (.straight (shift?_fieldCode _ _ _))).cast (by simp [Piece.words])
  | addressDereference pointer free ih =>
    exact (ih.append (.straight (shift?_popCode _))).cast (by simp [Piece.words])
  | noReceiver => exact .straight rfl
  | receiver place ih =>
    exact (ih.append (.straight rfl)).cast (by simp [Piece.words, receiverWords])
  | noArguments => exact .straight rfl
  | argument first rest ihf ihr =>
    exact (ihf.append ihr).cast (by simp [Piece.words, Int32.ofNat_add])

/-- Code for a piece moves `sp` by its words. -/
theorem Emits.moves (h : Emits c frame pool n piece code n') :
    Moves n n' code (.ofNat (piece.words c.structs)) :=
  h.composed.moves

/-! ### Code for statements -/

theorem EmitsResult.composed (h : EmitsResult c frame pool n value type code n') :
    Composed n n' code (.ofNat (c.structs.words type)) := by
  cases h with
  | none => exact .straight rfl
  | some value => exact value.composed

theorem shift?_resultCode (slot : Int) (words target source : Nat) :
    shift? (resultCode slot words (.general target) (.general source)) = some 0 := by
  by_cases h : words = 0
  · simp [resultCode, h]
  · have hcopy := shift?_copyWords target source words
    simp [resultCode, h, hcopy, line, noted, increase, decrease]

theorem shift?_zerosCode (n : Nat) : shift? (zerosCode n) = some (.ofNat n) := by
  refine (Assembly.shift?_replicate (w := 1) ?_ n).trans (by simp)
  simp [line, increase, word]

theorem shift?_dropCode (comment : Option String) (n : Nat) :
    shift? (dropCode comment n) = some (-.ofNat n) := by
  by_cases h : n = 0
  · simp [dropCode, h]
  · simp [dropCode, h, decrease, count, word]

end Emit

end WordScript
