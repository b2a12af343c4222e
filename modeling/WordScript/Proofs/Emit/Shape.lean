import WordScript.Proofs.Emit.Run
import WordScript.Proofs.Declared

/-!
# The shape of expression code

`Emits` describes the code of expressions, places and arguments by rules, one for each form, with
the frame, the registers and the label number it was emitted at. The generator follows these rules
whenever it succeeds (`expr_emits`). It then leaves the frame raised by the words of the value, and
the registers as they were, so the rules need not mention the state after. Whatever is to be shown
of generated code is shown by induction on the rules.
-/

namespace WordScript

structure EmitContext.Sound (c : EmitContext) : Prop where
  structs : c.structs.Sound
  functions : c.functions.Sound

namespace Emit

/-! ### Code of the parts -/

def testCode (r : Register) (type : ValueType) (relation : Relation) (l : Label) : Assembly :=
  popCode r ++ [line (zeroTest r type), line (.branch relation (.label l))]

def deciding : LogicOp → Relation
  | .and => .equal
  | .or => .notEqual

def decidedValue : LogicOp → Word
  | .and => 0
  | .or => 1

def undecidedValue : LogicOp → Word
  | .and => 1
  | .or => 0

def logicCode (op : LogicOp) (decided done : Label) : Assembly :=
  [line (.memWrite .sp (word (undecidedValue op))), line (.jmp (labelled done)), .label decided,
    line (.memWrite .sp (word (decidedValue op))), .label done, line (increase .sp (count 1))]

def arithmeticCode (kind : NumKind) (op : ArithmeticOp) (l r : Register) : Assembly :=
  popCode r ++ popCode l ++ line (.arith kind op l (.register r)) :: pushCode (.register l)

def minusOne (type : ValueType) : Word := if type = .float then .ofFloat (-1) else -1

def negateCode (type : ValueType) (r : Register) : Assembly :=
  popCode r ++ line (.arith (numKind type) .mul r (word (minusOne type))) :: pushCode (.register r)

def updateCode (kind : NumKind) (op : ArithmeticOp) (address operand result : Register) :
    Assembly :=
  popCode operand ++ ([line (.memRead result address),
    line (.arith kind op result (.register operand)),
    line (.memWrite address (.register result))] ++ pushCode (.register result))

def selectCode (structWords : Nat) (field : Field) (cursor : Register) (words : Nat) : Assembly :=
  lowerSp structWords ++ noted (.mov cursor (.register .sp)) s!".{field.name}" ::
    (if field.offset = 0 then [] else [line (increase cursor (count field.offset))]) ++
    pushCopyCode cursor words

def fieldCode (name : String) (offset : Nat) (address : Register) : Assembly :=
  if offset = 0 then [] else [noted (increase address (count offset)) s!".{name}"]

/-! ## Calls -/

def saveCode (saved : List Register) : Assembly :=
  saved.flatMap fun r =>
    [noted (.memWrite .sp (.register r)) s!"save {r.text}", line (increase .sp (count 1))]

def restoreCode (saved : List Register) : Assembly :=
  saved.flatMap fun r =>
    [line (decrease .sp (count 1)), noted (.memRead r .sp) s!"restore {r.text}"]

def roomCode (words : Nat) (type : String) : Assembly :=
  if words = 0 then [] else [noted (increase .sp (count words)) s!"room for {type}"]

def thisCode (address : Register) : Assembly :=
  [noted (.memWrite .sp (.register address)) "this", line (increase .sp (count 1))]

def enterCode (back : Label) (function : FunctionName) : Assembly :=
  [line (.memWrite .sp (labelled back)), line (increase .sp (word 1)),
    noted (.jmp (labelled function.label)) s!"call {function.text}", .label back]

def slideCode (saved : List Register) (words : Nat) (cursor : Register) : Assembly :=
  if saved = [] then []
  else lowerSp words ++ restoreCode saved.reverse ++
    if words = 0 then []
    else line (.mov cursor (.register .sp)) :: line (increase cursor (count saved.length)) ::
      copyWords .sp cursor words

def receiverWords (receiver : Option Expr) : Nat := if receiver.isSome then 1 else 0

/-! ### The rules -/

/-- What a run of code is for: a value on the stack, an address in the register with this number, a
receiver or arguments on the stack. -/
inductive Piece
  | value (e : Expr) (type : ValueType)
  | address (e : Expr) (type : ValueType) (register : Nat)
  | receiver (e : Option Expr)
  | arguments (es : List Expr) (types : List ValueType)

inductive Constant (c : EmitContext) (frame : Frame) : Expr → Arg → ValueType → Prop
  | integer : Constant c frame (.integer span value) (word value) .int
  | float : Constant c frame (.float span bits) (word bits) .float
  | string : c.strings.label? content = some l →
      Constant c frame (.string span content) (labelled l) (.reference .int)
  | typeSize : Typing.namedSize? c.structs (.sizeOf span e) = some words →
      Constant c frame (.sizeOf span e) (count words) .int
  | valueSize : Typing.namedSize? c.structs (.sizeOf span e) = none →
      Typing.typeOf (c.at frame) e = .ok type →
      Constant c frame (.sizeOf span e) (count (c.structs.words type)) .int

/-- `Emits c frame pool n piece code n'`: in this frame, with these registers taken, `code` is code
for the piece. Its labels have the numbers from `n` to `n'`. -/
inductive Emits (c : EmitContext) : Frame → RegisterPool → Nat → Piece → Assembly → Nat → Prop
  | constant (h : Constant c frame e value type) :
      Emits c frame pool n (.value e type) (pushCode value) n
  | var (found : frame.lookup name = some (type, location)) (free : pool.lowestFree? = some k) :
      Emits c frame pool n (.value (.var span name) type)
        (pointAt (.general k) location s!"read {name}" ++
          pushCopyCode (.general k) (c.structs.words type)) n
  | arithmetic (left : Emits c frame pool n (.value lhs a) leftCode n₁)
      (right : Emits c (frame.push 1) pool n₁ (.value rhs b) rightCode n₂)
      (leftWords : c.structs.words a = 1) (rightWords : c.structs.words b = 1)
      (typed : Typing.arithmetic c.structs op a b span = .ok type)
      (freeLeft : pool.lowestFree? = some l) (freeRight : (pool.take l).lowestFree? = some r) :
      Emits c frame pool n (.value (.binary span (.arithmetic op) lhs rhs) type)
        (leftCode ++ rightCode ++ arithmeticCode (numKind type) op (.general l) (.general r)) n₂
  | relation (left : Emits c frame pool n (.value lhs a) leftCode n₁)
      (right : Emits c (frame.push 1) pool n₁ (.value rhs b) rightCode n₂)
      (leftWords : c.structs.words a = 1) (rightWords : c.structs.words b = 1)
      (typed : c.structs.accepts a b = true)
      (freeLeft : pool.lowestFree? = some l) (freeRight : (pool.take l).lowestFree? = some r) :
      Emits c frame pool n (.value (.binary span (.relation rel) lhs rhs) .int)
        (leftCode ++ rightCode ++ (popCode (.general r) ++ popCode (.general l) ++
          [line (.cmp (numKind a) (.general l) (.register (.general r)))]) ++
          relationCode rel (.code n₂) (.code (n₂ + 1))) (n₂ + 2)
  | logic (left : Emits c frame pool (n + 2) (.value lhs a) leftCode n₁)
      (right : Emits c frame pool n₁ (.value rhs b) rightCode n₂)
      (leftWords : c.structs.words a = 1) (rightWords : c.structs.words b = 1)
      (free : pool.lowestFree? = some k) :
      Emits c frame pool n (.value (.binary span (.logic op) lhs rhs) .int)
        (leftCode ++ testCode (.general k) a (deciding op) (.code n) ++
          (rightCode ++ testCode (.general k) b (deciding op) (.code n)) ++
          logicCode op (.code n) (.code (n + 1))) n₂
  | negate (operand : Emits c frame pool n (.value e type) code n₁) (number : type.isNumber = true)
      (free : pool.lowestFree? = some k) :
      Emits c frame pool n (.value (.unary span .negate e) type)
        (code ++ negateCode type (.general k)) n₁
  | not (operand : Emits c frame pool n (.value e a) code n₁) (words : c.structs.words a = 1)
      (free : pool.lowestFree? = some k) :
      Emits c frame pool n (.value (.unary span .not e) .int)
        (code ++ (popCode (.general k) ++ [line (zeroTest (.general k) a)]) ++
          relationCode .equal (.code n₁) (.code (n₁ + 1))) (n₁ + 2)
  | assign (place : Emits c frame pool n (.address target type k) placeCode n₁)
      (value : Emits c frame (pool.take k) n₁ (.value e found) valueCode n₂)
      (accepted : c.structs.accepts type found = true)
      (same : c.structs.words type = c.structs.words found) :
      Emits c frame pool n (.value (.assign span none target e) type)
        (placeCode ++ valueCode ++ store (c.structs.words type) (.general k)) n₂
  | update (place : Emits c frame pool n (.address target a k) placeCode n₁)
      (value : Emits c frame (pool.take k) n₁ (.value e b) valueCode n₂)
      (placeWords : c.structs.words a = 1) (valueWords : c.structs.words b = 1)
      (typed : Typing.arithmetic c.structs op a b span = .ok type)
      (freeOperand : (pool.take k).lowestFree? = some operand)
      (freeResult : ((pool.take k).take operand).lowestFree? = some result) :
      Emits c frame pool n (.value (.assign span (some op) target e) type)
        (placeCode ++ valueCode ++
          updateCode (numKind type) op (.general k) (.general operand) (.general result)) n₂
  | field (base : Emits c frame pool n (.value e whole) code n₁)
      (found : Typing.fieldOf c.structs whole name = .ok field) (free : pool.lowestFree? = some k) :
      Emits c frame pool n (.value (.field span e name) field.type)
        (code ++ selectCode (c.structs.words whole) field (.general k) (c.structs.words field.type))
          n₁
  | addressOf (place : Emits c frame pool n (.address e type k) code n₁) :
      Emits c frame pool n (.value (.addressOf span e) (.reference type))
        (code ++ pushCode (.register (.general k))) n₁
  | dereference (pointer : Emits c frame pool n (.value e (.reference type)) code n₁)
      (free : pool.lowestFree? = some k) :
      Emits c frame pool n (.value (.dereference span e) type)
        (code ++ (popCode (.general k) ++ pushCopyCode (.general k) (c.structs.words type))) n₁
  | call {target : CallTarget} {saved : List Register} {words : Nat}
      (resolved : Typing.callTarget (c.at frame) callee = .ok target)
      (signature : c.functions.get? target.function = some target.signature)
      (live : saved = pool.live) (result : words = c.structs.words target.signature.returns)
      (this : Emits c (frame.push (saved.length + words)) pool n (.receiver target.receiver)
        receiverCode n₁)
      (args : Emits c (frame.push (saved.length + words + receiverWords target.receiver)) pool n₁
        (.arguments es types) argsCode n₂)
      (fits : types.map c.structs.words = target.signature.params.map fun p => c.structs.words p.2)
      (method : target.signature.receiver.isSome = target.receiver.isSome)
      (free : saved ≠ [] → words ≠ 0 → pool.lowestFree? = some k) :
      Emits c frame pool n (.value (.call span callee es) target.signature.returns)
        (saveCode saved ++ roomCode words (c.structs.text target.signature.returns) ++
          receiverCode ++
          argsCode ++ enterCode (.code n₂) target.function ++
          (target.signature.params.reverse.map fun p => c.structs.words p.2).flatMap lowerSp ++
          lowerSp (receiverWords target.receiver) ++ slideCode saved words (.general k)) (n₂ + 1)
  | addressVar (found : frame.lookup name = some (type, location))
      (free : pool.lowestFree? = some k) :
      Emits c frame pool n (.address (.var span name) type k)
        (pointAt (.general k) location s!"&{name}") n
  | addressField (base : Emits c frame pool n (.address e whole k) code n₁)
      (found : Typing.fieldOf c.structs whole name = .ok field) :
      Emits c frame pool n (.address (.field span e name) field.type k)
        (code ++ fieldCode name.text field.offset (.general k)) n₁
  | addressDereference (pointer : Emits c frame pool n (.value e (.reference type)) code n₁)
      (free : pool.lowestFree? = some k) :
      Emits c frame pool n (.address (.dereference span e) type k) (code ++ popCode (.general k)) n₁
  | noReceiver : Emits c frame pool n (.receiver none) [] n
  | receiver (place : Emits c frame pool n (.address e type k) code n₁) :
      Emits c frame pool n (.receiver (some e)) (code ++ thisCode (.general k)) n₁
  | noArguments : Emits c frame pool n (.arguments [] []) [] n
  | argument (first : Emits c frame pool n (.value e type) code n₁)
      (rest : Emits c (frame.push (c.structs.words type)) pool n₁ (.arguments es types)
        restCode n₂) :
      Emits c frame pool n (.arguments (e :: es) (type :: types)) (code ++ restCode) n₂

/-! ### The generator follows the rules -/

def EmitsValue (c : EmitContext) (e : Expr) (emit : Emit Assembly) : Prop :=
  ∀ frame pool n code s, emit ⟨frame, pool, ⟨n⟩⟩ = .ok code s →
    ∃ type n', Typing.typeOf (c.at frame) e = .ok type ∧
      s = ⟨frame.push (c.structs.words type), pool, ⟨n'⟩⟩ ∧
      Emits c frame pool n (.value e type) code n'

/-- `emit` emits code for the address of `e`, and holds the register that it is in. -/
def EmitsPlace (c : EmitContext) (e : Expr) (emit : Emit (Assembly × Register)) : Prop :=
  ∀ frame pool n code r s type, Typing.typeOf (c.at frame) e = .ok type →
    emit ⟨frame, pool, ⟨n⟩⟩ = .ok (code, r) s →
    ∃ k n', r = .general k ∧ pool.lowestFree? = some k ∧ s = ⟨frame, pool.take k, ⟨n'⟩⟩ ∧
      Emits c frame pool n (.address e type k) code n'

section
variable {c : EmitContext} {s s' : EmitState}

theorem typeOf_push (frame : Frame) (n : Nat) (e : Expr) :
    Typing.typeOf (c.at (frame.push n)) e = Typing.typeOf (c.at frame) e :=
  Typing.typeOf_congr (frame.scopes_push n) e

theorem EmitsValue.run {emit : Emit Assembly} (h : EmitsValue c e emit)
    (typed : Typing.typeOf (c.at frame) e = .ok type)
    (run : emit ⟨frame.push m, pool, ⟨n⟩⟩ = .ok code s) :
    ∃ n', s = ⟨frame.push (m + c.structs.words type), pool, ⟨n'⟩⟩ ∧
      Emits c (frame.push m) pool n (.value e type) code n' := by
  obtain ⟨found, n', ht, rfl, he⟩ := h _ _ _ _ _ run
  rw [typeOf_push, typed, Except.ok.injEq] at ht
  subst ht
  exact ⟨n', by rw [Frame.push_push], he⟩

theorem operandTest_emits {emit : Emit Assembly} (h : EmitsValue c e emit)
    (run : operandTest c e emit relation l ⟨frame, pool, ⟨n⟩⟩ = .ok code s)
    (typed : Typing.typeOf (c.at frame) e = .ok type) (words : c.structs.words type = 1) :
    ∃ k n' value, s = ⟨frame, pool, ⟨n'⟩⟩ ∧ pool.lowestFree? = some k ∧
      code = value ++ testCode (.general k) type relation l ∧
      Emits c frame pool n (.value e type) value n' := by
  simp only [operandTest, bind_ok, typeHere_ok, withPopped_ok, pure_ok] at run
  obtain ⟨found, t, ⟨ht, rfl⟩, value, t, hv, test, u, ⟨k, rest, t', hk, ⟨rfl, rfl⟩, rfl, rfl⟩,
    rfl, rfl⟩ := run
  rw [typed, Except.ok.injEq] at ht
  subst ht
  obtain ⟨n', rfl, he⟩ := h.run (m := 0) typed (by simpa using hv)
  simp only [words, Nat.zero_add, Frame.push_zero, Frame.pop_push_self] at *
  exact ⟨k, n', value, by rw [RegisterPool.release_take hk], hk, rfl, he⟩

theorem logic_emits {left right : Emit Assembly} (hl : EmitsValue c lhs left)
    (hr : EmitsValue c rhs right)
    (run : logic c op lhs rhs left right ⟨frame, pool, ⟨n⟩⟩ = .ok code s)
    (typed : Typing.typeOf (c.at frame) (.binary span (.logic op) lhs rhs) = .ok type) :
    ∃ n', s = ⟨frame.push (c.structs.words type), pool, ⟨n'⟩⟩ ∧
      Emits c frame pool n (.value (.binary span (.logic op) lhs rhs) type) code n' := by
  obtain ⟨a, b, ha, hb, haw, hbw, htype⟩ := Typing.typeOf_binary typed
  obtain rfl : ValueType.int = type := by simpa [Typing.binary] using htype
  simp only [logic, bind_ok, freshLabel_ok, pushWords_ok, pure_ok] at run
  obtain ⟨_, _, ⟨rfl, rfl⟩, _, _, ⟨rfl, rfl⟩, leftCode, t, hleft, rightCode, u, hright,
    _, _, ⟨rfl, rfl⟩, rfl, rfl⟩ := run
  obtain ⟨k, n₁, leftValue, rfl, hk, rfl, el⟩ := operandTest_emits hl hleft ha haw
  obtain ⟨k', n₂, rightValue, rfl, hk', rfl, er⟩ := operandTest_emits hr hright hb hbw
  obtain rfl : k = k' := by simpa [hk] using hk'
  refine ⟨n₂, rfl, ?_⟩
  have he : Emits c frame pool n (.value (.binary span (.logic op) lhs rhs) .int) _ n₂ :=
    .logic el er haw hbw hk
  cases op <;> simpa [logicCode, raiseSp, deciding, decidedValue, undecidedValue] using he

theorem unary_emits {emit : Emit Assembly} (h : EmitsValue c e emit)
    (run : unary c op type e emit ⟨frame, pool, ⟨n⟩⟩ = .ok code s)
    (typed : Typing.typeOf (c.at frame) (.unary span op e) = .ok type) :
    ∃ n', s = ⟨frame.push (c.structs.words type), pool, ⟨n'⟩⟩ ∧
      Emits c frame pool n (.value (.unary span op e) type) code n' := by
  obtain ⟨inner, hi, htype⟩ := Typing.typeOf_unary typed
  simp only [unary, bind_ok] at run
  obtain ⟨value, t, hv, run⟩ := run
  obtain ⟨n₁, rfl, he⟩ := h.run (m := 0) hi (by simpa using hv)
  simp only [Nat.zero_add, Frame.push_zero] at *
  cases op with
  | negate =>
    have hn : inner.isNumber = true ∧ inner = type := by
      simp only [Typing.unary] at htype
      split at htype <;> simp_all
    obtain ⟨hn, rfl⟩ := hn
    have hw : c.structs.words inner = 1 := Structs.words_of_isNumber hn
    simp only [bind_ok, withPopped_ok, pushValue_ok, pure_ok] at run
    obtain ⟨_, _, ⟨k, _, _, hk, ⟨_, _, ⟨rfl, rfl⟩, rfl, rfl⟩, rfl, rfl⟩, rfl, rfl⟩ := run
    have hfree := RegisterPool.release_take hk
    exact ⟨n₁, by simp [hw, hfree], Emits.negate he hn hk⟩
  | not =>
    have hw : c.structs.words inner = 1 ∧ type = .int := by
      simp only [Typing.unary, bind_eq_ok, Typing.singleWord_eq_ok,
        pure_eq_ok, EmitContext.at_structs] at htype
      grind
    obtain ⟨hw, rfl⟩ := hw
    simp only [bind_ok, typeHere_ok, withPopped_ok, pushRelation_ok, pure_ok] at run
    obtain ⟨found, _, ⟨hf, rfl⟩, _, _, ⟨k, _, _, hk, ⟨rfl, rfl⟩, rfl, rfl⟩, _, _, ⟨rfl, rfl⟩,
      rfl, rfl⟩ := run
    rw [typeOf_push, hi, Except.ok.injEq] at hf
    subst hf
    have hfree := RegisterPool.release_take hk
    exact ⟨n₁ + 2, by simp [hw, hfree], Emits.not he hw hk⟩

theorem binary_emits {left right : Emit Assembly} (hl : EmitsValue c lhs left)
    (hr : EmitsValue c rhs right)
    (run : binary c op type lhs rhs left right ⟨frame, pool, ⟨n⟩⟩ = .ok code s)
    (typed : Typing.typeOf (c.at frame) (.binary span op lhs rhs) = .ok type) :
    ∃ n', s = ⟨frame.push (c.structs.words type), pool, ⟨n'⟩⟩ ∧
      Emits c frame pool n (.value (.binary span op lhs rhs) type) code n' := by
  obtain ⟨a, b, ha, hb, haw, hbw, htype⟩ := Typing.typeOf_binary typed
  simp only [EmitContext.at_structs] at haw hbw htype
  cases op with
  | arithmetic op =>
    simp only [binary, bind_ok, withOperands_ok, pushValue_ok, pure_ok] at run
    obtain ⟨leftCode, _, hleft, rightCode, _, hright, _, _,
      ⟨l, r, _, _, hfl, hfr, ⟨_, _, ⟨rfl, rfl⟩, rfl, rfl⟩, rfl, rfl⟩, rfl, rfl⟩ := run
    obtain ⟨n₁, rfl, el⟩ := hl.run (m := 0) ha (by simpa using hleft)
    obtain ⟨n₂, rfl, er⟩ := hr.run (m := 1) hb (by simpa [haw] using hright)
    obtain rfl := Typing.arithmetic_type htype
    simp only [Nat.zero_add, Frame.push_zero] at *
    have hl' := RegisterPool.release_take hfl
    have hr' := RegisterPool.release_take hfr
    refine ⟨n₂, ?_, by simpa [arithmeticCode] using Emits.arithmetic el er haw hbw htype hfl hfr⟩
    simp [haw, hbw, hl', hr', Frame.pop_push]
  | relation rel =>
    have hac : c.structs.accepts a b = true ∧ type = .int := by
      simp only [Typing.binary] at htype
      split at htype <;> simp_all
    obtain ⟨hac, rfl⟩ := hac
    simp only [binary, bind_ok, typeHere_ok, withOperands_ok, pushRelation_ok, pure_ok] at run
    obtain ⟨found, _, ⟨hf, rfl⟩, leftCode, _, hleft, rightCode, _, hright, _, _,
      ⟨l, r, _, _, hfl, hfr, ⟨rfl, rfl⟩, rfl, rfl⟩, _, _, ⟨rfl, rfl⟩, rfl, rfl⟩ := run
    rw [ha, Except.ok.injEq] at hf
    subst hf
    obtain ⟨n₁, rfl, el⟩ := hl.run (m := 0) ha (by simpa using hleft)
    obtain ⟨n₂, rfl, er⟩ := hr.run (m := 1) hb (by simpa [haw] using hright)
    simp only [Nat.zero_add, Frame.push_zero] at *
    have hl' := RegisterPool.release_take hfl
    have hr' := RegisterPool.release_take hfr
    refine ⟨n₂ + 2, ?_, by simpa using Emits.relation el er haw hbw hac hfl hfr⟩
    simp [hbw, hl', hr', Frame.pop_push]
  | logic op => exact logic_emits hl hr run typed

theorem EmitsPlace.run {emit : Emit (Assembly × Register)} (h : EmitsPlace c e emit)
    (typed : Typing.typeOf (c.at frame) e = .ok type)
    (run : emit ⟨frame, pool, ⟨n⟩⟩ = .ok (code, r) s) :
    ∃ k n', r = .general k ∧ pool.lowestFree? = some k ∧ (pool.take k).release (.general k) = pool ∧
      s = ⟨frame, pool.take k, ⟨n'⟩⟩ ∧ Emits c frame pool n (.address e type k) code n' := by
  obtain ⟨k, n', hr, hk, hs, he⟩ := h _ _ _ _ _ _ _ typed run
  exact ⟨k, n', hr, hk, RegisterPool.release_take hk, hs, he⟩

theorem assign_emits (hc : c.Sound) {place : Emit (Assembly × Register)} {emit : Emit Assembly}
    (hp : EmitsPlace c target place) (hv : EmitsValue c e emit)
    (run : assign c op type target e place emit ⟨frame, pool, ⟨n⟩⟩ = .ok code s)
    (typed : Typing.typeOf (c.at frame) (.assign span op target e) = .ok type) :
    ∃ n', s = ⟨frame.push (c.structs.words type), pool, ⟨n'⟩⟩ ∧
      Emits c frame pool n (.value (.assign span op target e) type) code n' := by
  simp only [assign, bind_ok, holding_ok, Prod.exists] at run
  obtain ⟨placeCode, r, _, hplace, _, ⟨valueCode, _, hvalue, run⟩, rfl⟩ := run
  cases op with
  | none =>
    obtain ⟨_, found, ht, hf, hac⟩ := Typing.typeOf_assign typed
    obtain ⟨k, n₁, rfl, hk, hfree, rfl, ep⟩ := hp.run ht hplace
    obtain ⟨n₂, rfl, ev⟩ := hv.run (m := 0) hf (by simpa using hvalue)
    have hw := Structs.words_of_accepts hc.structs hac
    simp only [pure_ok] at run
    obtain ⟨rfl, rfl⟩ := run
    simp only [Nat.zero_add, Frame.push_zero, EmitContext.at_structs] at *
    exact ⟨n₂, by simp [hw, hfree], by simpa using Emits.assign ep ev hac hw⟩
  | some op =>
    obtain ⟨_, a, b, ha, hb, haw, hbw, htype⟩ := Typing.typeOf_update typed
    obtain ⟨k, n₁, rfl, hk, hfree, rfl, ep⟩ := hp.run ha hplace
    obtain ⟨n₂, rfl, ev⟩ := hv.run (m := 0) hb (by simpa using hvalue)
    simp only [bind_ok, update, withPopped_ok, withRegister_ok, pushValue_ok, pure_ok] at run
    obtain ⟨_, _, ⟨operand, _, _, hop, ⟨result, _, hre, ⟨_, _, ⟨rfl, rfl⟩, rfl, rfl⟩, rfl⟩, rfl,
      rfl⟩, rfl, rfl⟩ := run
    have hop' := RegisterPool.release_take hop
    have hre' := RegisterPool.release_take hre
    simp only [Nat.zero_add, Frame.push_zero, EmitContext.at_structs] at *
    refine ⟨n₂, ?_, by simpa [updateCode] using Emits.update ep ev haw hbw htype hop hre⟩
    obtain rfl := Typing.arithmetic_type htype
    simp [haw, hbw, hfree, hop', hre']

/-! ### Calls -/

theorem saveAll_ok (h : saveAll saved s = .ok code s') :
    code = saveCode saved ∧ s' = { s with frame := s.frame.push saved.length } := by
  induction saved generalizing s code with
  | nil =>
    obtain ⟨rfl, rfl⟩ := pure_ok.mp h
    simp [saveCode]
  | cons r rest ih =>
    simp only [saveAll, bind_ok, pushWords_ok, pure_ok] at h
    obtain ⟨_, _, ⟨rfl, rfl⟩, saves, _, hrest, rfl, rfl⟩ := h
    obtain ⟨rfl, rfl⟩ := ih hrest
    simp [saveCode, raiseSp, Nat.add_comm]

theorem restoreAll_ok (h : restoreAll saved s = .ok code s') :
    code = restoreCode saved ∧ s' = { s with frame := s.frame.pop saved.length } := by
  induction saved generalizing s code with
  | nil =>
    obtain ⟨rfl, rfl⟩ := pure_ok.mp h
    simp [restoreCode]
  | cons r rest ih =>
    simp only [restoreAll, bind_ok, popWords_ok, pure_ok] at h
    obtain ⟨_, _, ⟨rfl, rfl⟩, restores, _, hrest, rfl, rfl⟩ := h
    obtain ⟨rfl, rfl⟩ := ih hrest
    simp [restoreCode, lowerSp, Nat.add_comm]

theorem popEach_ok (h : popEach sizes s = .ok code s') :
    code = sizes.flatMap lowerSp ∧ s' = { s with frame := s.frame.pop sizes.sum } := by
  induction sizes generalizing s code with
  | nil =>
    obtain ⟨rfl, rfl⟩ := pure_ok.mp h
    simp
  | cons words rest ih =>
    simp only [popEach, bind_ok, popWords_ok, pure_ok] at h
    obtain ⟨_, _, ⟨rfl, rfl⟩, pops, _, hrest, rfl, rfl⟩ := h
    obtain ⟨rfl, rfl⟩ := ih hrest
    simp

theorem reserve_ok (h : reserve words type s = .ok code s') :
    code = roomCode words type ∧ s' = { s with frame := s.frame.push words } := by
  by_cases hw : words = 0
  · subst hw
    obtain ⟨rfl, rfl⟩ := pure_ok.mp h
    simp [roomCode]
  · simp only [reserve, hw, ↓reduceIte, bind_ok, modifyFrame_ok, pure_ok] at h
    obtain ⟨_, _, rfl, rfl, rfl⟩ := h
    simp [roomCode, hw]

theorem slideResult_ok (h : slideResult span saved words s = .ok code s') :
    ∃ k, (saved ≠ [] → words ≠ 0 → s.registers.lowestFree? = some k) ∧
      code = slideCode saved words (.general k) ∧
      s' = { s with frame := s.frame.pop saved.length } := by
  by_cases hs : saved = []
  · subst hs
    obtain ⟨rfl, rfl⟩ := pure_ok.mp h
    exact ⟨0, by simp [slideCode]⟩
  simp only [slideResult, hs, ↓reduceIte, bind_ok] at h
  obtain ⟨restores, _, hr, h⟩ := h
  obtain ⟨rfl, rfl⟩ := restoreAll_ok hr
  by_cases hw : words = 0
  · subst hw
    obtain ⟨rfl, rfl⟩ := pure_ok.mp h
    exact ⟨0, by simp [slideCode, hs, lowerSp]⟩
  · simp only [hw, ↓reduceIte, withRegister_ok, pure_ok] at h
    obtain ⟨k, _, hk, ⟨rfl, rfl⟩, rfl⟩ := h
    have hfree := RegisterPool.release_take hk
    exact ⟨k, fun _ _ => hk, by simp [slideCode, hs, hw, lowerSp], by simp [hfree]⟩

def EmitsReceiver (c : EmitContext) (callee : Expr) (emit : Emit (Option (Assembly × Register))) :
    Prop :=
  ∀ frame pool n result s target, Typing.callTarget (c.at frame) callee = .ok target →
    emit ⟨frame, pool, ⟨n⟩⟩ = .ok result s →
    target.receiver = none ∧ result = none ∧ s = ⟨frame, pool, ⟨n⟩⟩ ∨
    ∃ e type code k n', target.receiver = some e ∧ result = some (code, .general k) ∧
      pool.lowestFree? = some k ∧ s = ⟨frame, pool.take k, ⟨n'⟩⟩ ∧
      Emits c frame pool n (.address e type k) code n'

def EmitsArguments (c : EmitContext) (es : List Expr) (emit : Emit Assembly) : Prop :=
  ∀ frame pool n code s params, Typing.checkArgs (c.at frame) es params = .ok () →
    es.length = params.length → emit ⟨frame, pool, ⟨n⟩⟩ = .ok code s →
    ∃ types n', types.map c.structs.words = params.map (fun p => c.structs.words p.2) ∧
      s = ⟨frame.push (params.map fun p => c.structs.words p.2).sum, pool, ⟨n'⟩⟩ ∧
      Emits c frame pool n (.arguments es types) code n'

theorem pushReceiver_emits {emit : Emit (Option (Assembly × Register))}
    (hr : EmitsReceiver c callee emit)
    (resolved : Typing.callTarget (c.at frame) callee = .ok target)
    (run : pushReceiver emit ⟨frame, pool, ⟨n⟩⟩ = .ok code s) :
    ∃ n', s = ⟨frame.push (receiverWords target.receiver), pool, ⟨n'⟩⟩ ∧
      Emits c frame pool n (.receiver target.receiver) code n' := by
  simp only [pushReceiver, bind_ok] at run
  obtain ⟨result, t, hrun, run⟩ := run
  rcases hr _ _ _ _ _ _ resolved hrun with ⟨hno, rfl, rfl⟩ |
    ⟨e, type, code, k, n', hsome, rfl, hk, rfl, he⟩
  · obtain ⟨rfl, rfl⟩ := pure_ok.mp run
    exact ⟨n, by simp [receiverWords, hno], hno ▸ .noReceiver⟩
  · simp only [holding_ok, bind_ok, pushWords_ok, pure_ok] at run
    obtain ⟨_, ⟨_, _, ⟨rfl, rfl⟩, rfl, rfl⟩, rfl⟩ := run
    have hfree := RegisterPool.release_take hk
    exact ⟨n', by simp [receiverWords, hsome, hfree], hsome ▸ .receiver he⟩

theorem callTarget_push (frame : Frame) (n : Nat) (e : Expr) :
    Typing.callTarget (c.at (frame.push n)) e = Typing.callTarget (c.at frame) e :=
  Typing.callTarget_congr (frame.scopes_push n) e

theorem checkArgs_push (frame : Frame) (n : Nat) (es : List Expr)
    (params : List (String × ValueType)) :
    Typing.checkArgs (c.at (frame.push n)) es params = Typing.checkArgs (c.at frame) es params :=
  Typing.checkArgs_congr (frame.scopes_push n) es params

/-- Methods and only methods are called on something. -/
theorem receiver_isSome (hc : c.Sound) (h : Typing.callTarget (c.at frame) callee = .ok target) :
    c.functions.get? target.function = some target.signature ∧
      target.signature.receiver.isSome = target.receiver.isSome := by
  by_cases hf : ∃ span base name, callee = .field span base name
  · obtain ⟨span, base, name, rfl⟩ := hf
    obtain ⟨id, _, hs, hname, hr⟩ := Typing.callTarget_field h
    have := hc.functions _ _ hs
    cases hsig : target.signature.receiver with
    | none => rw [hsig] at this; cases this
    | some type => exact ⟨hname ▸ hs, by simp [hr]⟩
  · obtain ⟨name, hs, hname, hr⟩ := Typing.callTarget_other (by grind) h
    have := hc.functions _ _ hs
    cases hsig : target.signature.receiver with
    | none => exact ⟨hname ▸ hs, by simp [hr]⟩
    | some type => rw [hsig] at this; cases this

theorem call_emits (hc : c.Sound) {receiver : Emit (Option (Assembly × Register))}
    {args : Emit Assembly} (hr : EmitsReceiver c callee receiver) (ha : EmitsArguments c es args)
    (resolved : Typing.callTarget (c.at frame) callee = .ok target)
    (run : call c span target receiver args ⟨frame, pool, ⟨n⟩⟩ = .ok code s)
    (typed : Typing.typeOf (c.at frame) (.call span callee es) = .ok type) :
    ∃ n', s = ⟨frame.push (c.structs.words type), pool, ⟨n'⟩⟩ ∧
      Emits c frame pool n (.value (.call span callee es) type) code n' := by
  obtain ⟨_, ht, _, hlen, hargs, rfl⟩ := Typing.typeOf_call typed
  rw [resolved, Except.ok.injEq] at ht
  subst ht
  obtain ⟨hsig, hmethod⟩ := receiver_isSome hc resolved
  simp only [call, bind_ok, get_ok, pure_ok, freshLabel_ok, popWords_ok] at run
  obtain ⟨_, _, ⟨rfl, rfl⟩, saves, _, hsaves, room, _, hroom, this, _, hthis, argsCode, _, hargsRun,
    _, _, ⟨rfl, rfl⟩, popArgs, _, hpop, _, _, ⟨rfl, rfl⟩, result, _, hslide, rfl, rfl⟩ := run
  obtain ⟨rfl, rfl⟩ := saveAll_ok hsaves
  obtain ⟨rfl, rfl⟩ := reserve_ok hroom
  simp only [Frame.push_push] at hthis
  obtain ⟨n₁, rfl, ethis⟩ := pushReceiver_emits hr (by rwa [callTarget_push]) hthis
  simp only [Frame.push_push] at hargsRun
  obtain ⟨types, n₂, hwords, rfl, eargs⟩ := ha _ _ _ _ _ _ (by rwa [checkArgs_push]) hlen hargsRun
  obtain ⟨rfl, rfl⟩ := popEach_ok hpop
  obtain ⟨k, hk, rfl, rfl⟩ := slideResult_ok hslide
  refine ⟨n₂ + 1, ?_, ?_⟩
  · have hsum : (target.signature.params.reverse.map fun p => c.structs.words p.2).sum =
        (target.signature.params.map fun p => c.structs.words p.2).sum := by
      rw [List.map_reverse, List.sum_reverse]
    simp only [Frame.push_push, Frame.pop_pop, hsum, hmethod, EmitState.mk.injEq, and_true]
    rw [Frame.pop_push _ (by simp only [receiverWords]; split <;> omega)]
    congr 1
    simp only [receiverWords]
    split <;> omega
  · have he : Emits c frame pool n (.value (.call span callee es) target.signature.returns) _
      (n₂ + 1) :=
      .call resolved hsig rfl rfl ethis eargs hwords hmethod hk
    simpa [enterCode, lowerSp, hmethod, receiverWords] using he

/-! ### Expressions and places -/

theorem findVariable_ok (h : findVariable name span s = .ok location s') :
    ∃ type, s.frame.lookup name = some (type, location) ∧ s' = s := by
  simp only [findVariable, bind_ok, get_ok] at h
  obtain ⟨_, t, ⟨rfl, rfl⟩, h⟩ := h
  cases hl : t.frame.lookup name with
  | none => simp [hl] at h
  | some found =>
    obtain ⟨type, found⟩ := found
    simp only [hl, pure_ok] at h
    obtain ⟨rfl, rfl⟩ := h
    exact ⟨type, rfl, rfl⟩

theorem var_emits : EmitsValue c (.var span name) (expr c (.var span name)) := by
  intro frame pool n code s run
  simp only [expr, bind_ok, typeHere_ok, withRegister_ok, pushCopy_ok, pure_ok] at run
  obtain ⟨type, _, ⟨typed, rfl⟩, location, _, hv, k, _, hk, ⟨_, _, ⟨rfl, rfl⟩, rfl, rfl⟩, rfl⟩ :=
    run
  obtain ⟨found, hl, rfl⟩ := findVariable_ok hv
  obtain ⟨_, hl'⟩ := Typing.typeOf_var typed
  obtain rfl : found = type := (by simpa [hl] using hl' : found = type ∧ _).1
  have hfree := RegisterPool.release_take hk
  exact ⟨found, n, typed, by simp [hfree], .var hl hk⟩

theorem field_emits (ih : EmitsValue c e (expr c e)) :
    EmitsValue c (.field span e name) (expr c (.field span e name)) := by
  intro frame pool n code s run
  simp only [expr, selectField, bind_ok, typeHere_ok, ofCheck_ok, popWords_ok, withRegister_ok,
    pushCopy_ok, pure_ok] at run
  obtain ⟨type, _, ⟨typed, rfl⟩, inner, _, ⟨hinner, rfl⟩, field, _, ⟨hfield, rfl⟩,
    baseCode, _, hbase,
    _, _, ⟨_, _, ⟨rfl, rfl⟩, k, _, hk, ⟨_, _, ⟨rfl, rfl⟩, rfl, rfl⟩, rfl⟩, rfl, rfl⟩ := run
  obtain ⟨n₁, rfl, eb⟩ := ih.run (m := 0) hinner (by simpa using hbase)
  obtain ⟨inner', field', hinner', hfield', rfl⟩ := Typing.typeOf_field typed
  obtain rfl : inner = inner' := by simpa [hinner] using hinner'
  obtain rfl : field = field' := by simpa [hfield] using hfield'
  have hfree := RegisterPool.release_take hk
  simp only [Nat.zero_add, Frame.push_zero] at *
  refine ⟨_, n₁, typed, by simp [hfree], ?_⟩
  simpa [selectCode] using @Emits.field _ _ _ _ _ _ _ _ _ _ _ span eb hfield hk

theorem addressOf_emits (ih : EmitsPlace c e (place c e)) :
    EmitsValue c (.addressOf span e) (expr c (.addressOf span e)) := by
  intro frame pool n code s run
  simp only [expr, bind_ok, typeHere_ok, holding_ok, pushValue_ok, pure_ok, Prod.exists] at run
  obtain ⟨type, _, ⟨typed, rfl⟩, placeCode, r, _, hplace, _, ⟨_, _, ⟨rfl, rfl⟩, rfl, rfl⟩, rfl⟩ :=
    run
  obtain ⟨_, inner, hinner, rfl⟩ := Typing.typeOf_addressOf typed
  obtain ⟨k, n₁, rfl, hk, hfree, rfl, ep⟩ := ih.run hinner hplace
  exact ⟨_, n₁, typed, by simp [hfree], .addressOf ep⟩

theorem dereference_emits (ih : EmitsValue c e (expr c e)) :
    EmitsValue c (.dereference span e) (expr c (.dereference span e)) := by
  intro frame pool n code s run
  simp only [expr, bind_ok, typeHere_ok, withPopped_ok, pushCopy_ok, pure_ok] at run
  obtain ⟨type, _, ⟨typed, rfl⟩, pointerCode, _, hpointer, _, _,
    ⟨k, _, _, hk, ⟨rfl, rfl⟩, rfl, rfl⟩, rfl, rfl⟩ := run
  obtain ⟨n₁, rfl, ep⟩ :=
    ih.run (m := 0) (Typing.typeOf_dereference typed) (by simpa using hpointer)
  have hfree := RegisterPool.release_take hk
  simp only [Nat.zero_add, Frame.push_zero] at *
  exact ⟨type, n₁, typed, by simp [hfree], .dereference ep hk⟩

theorem sizeOf_emits : EmitsValue c (.sizeOf span e) (expr c (.sizeOf span e)) := by
  intro frame pool n code s run
  simp only [expr, bind_ok, typeHere_ok, pushValue_ok] at run
  obtain ⟨type, _, ⟨typed, rfl⟩, words, t, hsize, rfl, rfl⟩ := run
  obtain rfl := Typing.typeOf_sizeOf typed
  simp only [sizeWords] at hsize
  cases hnamed : Typing.namedSize? c.structs (.sizeOf span e) with
  | some words =>
    simp only [hnamed, pure_ok] at hsize
    obtain ⟨rfl, rfl⟩ := hsize
    exact ⟨.int, n, typed, rfl, .constant (.typeSize hnamed)⟩
  | none =>
    simp only [hnamed, bind_ok, typeHere_ok, pure_ok] at hsize
    obtain ⟨inner, _, ⟨hinner, rfl⟩, rfl, rfl⟩ := hsize
    exact ⟨.int, n, typed, rfl, .constant (.valueSize hnamed hinner)⟩

theorem string_emits : EmitsValue c (.string span content) (expr c (.string span content)) := by
  intro frame pool n code s run
  simp only [expr] at run
  cases hl : c.strings.label? content with
  | none => simp [hl] at run
  | some l =>
    simp only [hl, pushValue_ok] at run
    obtain ⟨rfl, rfl⟩ := run
    exact ⟨_, n, rfl, rfl, .constant (.string hl)⟩

theorem placeVar_emits : EmitsPlace c (.var span name) (place c (.var span name)) := by
  intro frame pool n code r s type typed run
  simp only [place, bind_ok, acquire_ok, pure_ok, Prod.mk.injEq] at run
  obtain ⟨location, _, hv, _, _, ⟨k, hk, rfl, rfl⟩, ⟨rfl, rfl⟩, rfl⟩ := run
  obtain ⟨found, hl, rfl⟩ := findVariable_ok hv
  obtain ⟨_, hl'⟩ := Typing.typeOf_var typed
  obtain rfl : found = type := (by simpa [hl] using hl' : found = type ∧ _).1
  exact ⟨k, n, rfl, hk, rfl, .addressVar hl hk⟩

theorem placeField_emits (ih : EmitsPlace c e (place c e)) :
    EmitsPlace c (.field span e name) (place c (.field span e name)) := by
  intro frame pool n code r s type typed run
  obtain ⟨inner, field, hinner, hfield, rfl⟩ := Typing.typeOf_field typed
  simp only [place] at run
  cases ha : e.addressable with
  | false => simp [ha, bind_ok] at run
  | true =>
    simp only [ha, ↓reduceIte, bind_ok, typeHere_ok, ofCheck_ok, pure_ok, Prod.exists,
      Prod.mk.injEq] at run
    obtain ⟨_, _, ⟨hi, rfl⟩, _, _, ⟨hf, rfl⟩, baseCode, r, _, hbase, ⟨rfl, rfl⟩, rfl⟩ := run
    obtain rfl := Except.ok.inj (hinner.symm.trans hi)
    obtain rfl := Except.ok.inj (hfield.symm.trans hf)
    obtain ⟨k, n₁, rfl, hk, -, rfl, ep⟩ := ih.run hinner hbase
    exact ⟨k, n₁, rfl, hk, rfl, by simpa [fieldCode] using .addressField ep hfield⟩

theorem placeDereference_emits (ih : EmitsValue c e (expr c e)) :
    EmitsPlace c (.dereference span e) (place c (.dereference span e)) := by
  intro frame pool n code r s type typed run
  have hinner := Typing.typeOf_dereference typed
  simp only [place, bind_ok, typeHere_ok] at run
  obtain ⟨pointer, _, ⟨hp, rfl⟩, run⟩ := run
  obtain rfl : pointer = .reference type := by simpa [hinner] using hp.symm
  simp only [bind_ok, Prod.exists, popHeld_ok, pure_ok, Prod.mk.injEq] at run
  obtain ⟨pointerCode, _, hpointer, _, _, _, ⟨k, hk, rfl, rfl, rfl⟩, ⟨rfl, rfl⟩, rfl⟩ := run
  obtain ⟨n₁, rfl, ep⟩ := ih.run (m := 0) hinner (by simpa using hpointer)
  simp only [Nat.zero_add, Frame.push_zero] at *
  exact ⟨k, n₁, rfl, hk, by simp, .addressDereference ep hk⟩

mutual

theorem expr_emits (hc : c.Sound) : ∀ e, EmitsValue c e (expr c e)
  | .integer span value => fun frame pool n code s run => by
    obtain ⟨rfl, rfl⟩ := pushValue_ok.mp run
    exact ⟨_, n, rfl, rfl, .constant .integer⟩
  | .float span bits => fun frame pool n code s run => by
    obtain ⟨rfl, rfl⟩ := pushValue_ok.mp run
    exact ⟨_, n, rfl, rfl, .constant .float⟩
  | .string span content => string_emits
  | .var span name => var_emits
  | .call span callee args => fun frame pool n code s run => by
    simp only [expr, bind_ok, typeHere_ok, typing_ok, ofCheck_ok] at run
    obtain ⟨type, _, ⟨typed, rfl⟩, _, _, ⟨rfl, rfl⟩, target, _, ⟨resolved, rfl⟩, run⟩ := run
    obtain ⟨n', hs, he⟩ :=
      call_emits hc (receiver_emits hc callee) (arguments_emits hc args) resolved run typed
    exact ⟨type, n', typed, hs, he⟩
  | .binary span op lhs rhs => fun frame pool n code s run => by
    simp only [expr, bind_ok, typeHere_ok] at run
    obtain ⟨type, _, ⟨typed, rfl⟩, run⟩ := run
    obtain ⟨n', hs, he⟩ := binary_emits (expr_emits hc lhs) (expr_emits hc rhs) run typed
    exact ⟨type, n', typed, hs, he⟩
  | .unary span op operand => fun frame pool n code s run => by
    simp only [expr, bind_ok, typeHere_ok] at run
    obtain ⟨type, _, ⟨typed, rfl⟩, run⟩ := run
    obtain ⟨n', hs, he⟩ := unary_emits (expr_emits hc operand) run typed
    exact ⟨type, n', typed, hs, he⟩
  | .assign span op target value => fun frame pool n code s run => by
    simp only [expr, bind_ok, typeHere_ok] at run
    obtain ⟨type, _, ⟨typed, rfl⟩, run⟩ := run
    obtain ⟨n', hs, he⟩ := assign_emits hc (place_emits hc target) (expr_emits hc value) run typed
    exact ⟨type, n', typed, hs, he⟩
  | .field span base name => field_emits (expr_emits hc base)
  | .addressOf span inner => addressOf_emits (place_emits hc inner)
  | .dereference span inner => dereference_emits (expr_emits hc inner)
  | .sizeOf span inner => sizeOf_emits

theorem place_emits (hc : c.Sound) : ∀ e, EmitsPlace c e (place c e)
  | .var span name => placeVar_emits
  | .field span base name => placeField_emits (place_emits hc base)
  | .dereference span inner => placeDereference_emits (expr_emits hc inner)
  | .integer .. | .float .. | .string .. | .call .. | .binary .. | .unary .. | .assign ..
  | .addressOf .. | .sizeOf .. => fun _ _ _ _ _ _ _ _ run => by simp [place] at run

theorem receiver_emits (hc : c.Sound) : ∀ e, EmitsReceiver c e (receiver c e)
  | .field span base name => fun frame pool n result s target resolved run => by
    obtain ⟨id, hbase, _, _, hr⟩ := Typing.callTarget_field resolved
    simp only [receiver, bind_ok, pure_ok, Prod.exists] at run
    obtain ⟨code, r, _, hplace, rfl, rfl⟩ := run
    obtain ⟨k, n₁, rfl, hk, hs, he⟩ := place_emits hc base _ _ _ _ _ _ _ hbase hplace
    exact .inr ⟨base, _, code, k, n₁, hr, rfl, hk, hs, he⟩
  | .var .. | .integer .. | .float .. | .string .. | .call .. | .binary .. | .unary .. | .assign ..
  | .addressOf .. | .dereference ..
  | .sizeOf .. => fun frame pool n result s target resolved run => by
    obtain ⟨_, _, _, hr⟩ := Typing.callTarget_other (by simp) resolved
    obtain ⟨rfl, rfl⟩ := pure_ok.mp run
    exact .inl ⟨hr, rfl, rfl⟩

theorem arguments_emits (hc : c.Sound) : ∀ es, EmitsArguments c es (arguments c es)
  | [] => fun frame pool n code s params checked hlen run => by
    obtain rfl : params = [] := by simpa using hlen.symm
    obtain ⟨rfl, rfl⟩ := pure_ok.mp run
    exact ⟨[], n, rfl, by simp, .noArguments⟩
  | e :: es => fun frame pool n code s params checked hlen run => by
    cases params with
    | nil => simp at hlen
    | cons param params =>
    obtain ⟨type, typed, hac, hrest⟩ := Typing.checkArgs_cons checked
    have hw := Structs.words_of_accepts hc.structs hac
    simp only [arguments, bind_ok, pure_ok] at run
    obtain ⟨first, _, hfirst, rest, _, hrestRun, rfl, rfl⟩ := run
    obtain ⟨n₁, rfl, ef⟩ := (expr_emits hc e).run (m := 0) typed (by simpa using hfirst)
    obtain ⟨types, n₂, hwords, rfl, er⟩ := arguments_emits hc es _ _ _ _ _ _
      (by rwa [checkArgs_push]) (by simpa using hlen) hrestRun
    simp only [Nat.zero_add, Frame.push_zero] at *
    exact ⟨type :: types, n₂, by simp [hwords, hw], by simp [hw], .argument ef er⟩

end

/-- An address is in the lowest register that was free. -/
theorem Emits.free_of_address (h : Emits c frame pool n (.address e type k) code n') :
    pool.lowestFree? = some k := by
  generalize hpiece : Piece.address e type k = piece at h
  induction h generalizing e type with
  | addressVar found free | addressDereference pointer free =>
    cases hpiece
    exact free
  | addressField base found ih =>
    cases hpiece
    exact ih rfl
  | _ => cases hpiece

end

end Emit

end WordScript
