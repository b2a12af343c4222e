import WordScript.Proofs.Values.Meaning

/-!
# Code for values and places

Code for an expression that changes nothing comes to what the expression means: its words on the
stack, or its address in a register. Nothing below the stack pointer changes on the way, and no
register in use.
-/

namespace WordScript

namespace Emit

/-! ### Types of pieces -/

def Piece.effectFree : Piece → Bool
  | .value e _ | .address e _ _ => e.effectFree
  | .receiver _ | .arguments .. => false

def Piece.Typed (c : EmitContext) (frame : Frame) : Piece → Prop
  | .value e type => Typing.typeOf (c.at frame) e = .ok type
  | .address e type _ => e.addressable = true ∧ Typing.typeOf (c.at frame) e = .ok type
  | .receiver _ | .arguments .. => True

theorem Emits.typed {c : EmitContext} (h : Emits c frame pool n piece code n')
    (quiet : piece.effectFree = true) : piece.Typed c frame := by
  induction h with
  | constant h =>
    cases h with
    | integer | float | string => rfl
    | typeSize h => simp [Piece.Typed, Typing.typeOf, h, pure, Except.pure]
    | valueSize h typed =>
      simp only [Piece.Typed, Typing.typeOf, EmitContext.at_structs, h, Option.isNone_none,
        ↓reduceIte, bind_eq_ok]
      exact ⟨_, typed, rfl⟩
  | var found => simp [Piece.Typed, Typing.typeOf, found]
  | arithmetic left right leftWords rightWords typed freeLeft freeRight ihl ihr =>
    obtain ⟨hl, hr⟩ := Bool.and_eq_true_iff.mp quiet
    simp only [Piece.Typed, Typing.typeOf, bind_eq_ok, Typing.singleWord_eq_ok]
    exact ⟨_, ihl hl, _, (typeOf_push _ _ _).symm.trans (ihr hr), (), leftWords, (),
      rightWords, typed⟩
  | relation left right leftWords rightWords typed freeLeft freeRight ihl ihr =>
    obtain ⟨hl, hr⟩ := Bool.and_eq_true_iff.mp quiet
    simp only [Piece.Typed, Typing.typeOf, bind_eq_ok, Typing.singleWord_eq_ok]
    exact ⟨_, ihl hl, _, (typeOf_push _ _ _).symm.trans (ihr hr), (), leftWords, (),
      rightWords, if_pos typed⟩
  | logic left right leftWords rightWords free ihl ihr =>
    obtain ⟨hl, hr⟩ := Bool.and_eq_true_iff.mp quiet
    simp only [Piece.Typed, Typing.typeOf, bind_eq_ok, Typing.singleWord_eq_ok]
    exact ⟨_, ihl hl, _, ihr hr, (), leftWords, (), rightWords, rfl⟩
  | negate operand number free ih =>
    simp only [Piece.Typed, Typing.typeOf, bind_eq_ok]
    exact ⟨_, ih quiet, if_pos number⟩
  | not operand words free ih =>
    simp only [Piece.Typed, Typing.typeOf, Typing.unary, bind_eq_ok, Typing.singleWord_eq_ok]
    exact ⟨_, ih quiet, (), words, rfl⟩
  | assign | update | call => cases quiet
  | field base found free ih =>
    simp only [Piece.Typed, Typing.typeOf, bind_eq_ok]
    exact ⟨_, ih quiet, _, found, rfl⟩
  | addressOf place ih =>
    obtain ⟨addressable, typed⟩ := ih quiet
    simp only [Piece.Typed, Typing.typeOf, addressable, ↓reduceIte, bind_eq_ok]
    exact ⟨_, typed, rfl⟩
  | dereference pointer free ih =>
    simp only [Piece.Typed, Typing.typeOf, bind_eq_ok]
    exact ⟨_, ih quiet, rfl⟩
  | addressVar found free => exact ⟨rfl, by simp [Typing.typeOf, found]⟩
  | addressField base found ih =>
    obtain ⟨addressable, typed⟩ := ih quiet
    refine ⟨addressable, ?_⟩
    simp only [Typing.typeOf, bind_eq_ok]
    exact ⟨_, typed, _, found, rfl⟩
  | addressDereference pointer free ih =>
    refine ⟨rfl, ?_⟩
    simp only [Typing.typeOf, bind_eq_ok]
    exact ⟨_, ih quiet, rfl⟩
  | noReceiver | receiver | noArguments | argument => cases quiet

end Emit

/-! ### Objects copied as a whole -/

namespace Image

open Emit

variable {img : Image} {s : Store} {z a : Int} {n : Nat}

/-- An object pushed from the address in a register. One without words may have any address. -/
theorem wp_pushObject (hsp : s.registers .sp = .ofInt z) (hk : s.registers (.general k) = .ofInt a)
    (fits : img.Fits z n) (inside : n = 0 ∨ 0 ≤ a ∧ a + n ≤ z)
    (h : ∀ s', s.Pushes s' z n [.general k] → wordsAt s'.memory z n = wordsAt s.memory a n → Q s') :
    img.wp ok (pushCopyCode (.general k) n) Q s := by
  rcases inside with rfl | ⟨nonneg, below⟩
  · exact h s ⟨by simpa using hsp, fun _ _ _ => rfl, fun _ _ => rfl⟩ rfl
  have small := fits.small
  have inside := fits.inside
  refine wp_pushCopyCode hsp hk ⟨fits.nonneg, by omega⟩ ⟨nonneg, by omega⟩ (.inl ⟨inside, by omega⟩)
    (h _ Store.pushes_moved ?_)
  exact wordsAt_congr fun i hi => copied_inside hi (.inr below)

theorem wp_storeObject (hsp : s.registers .sp = .ofInt (z + n))
    (hk : s.registers (.general k) = .ofInt a)
    (fits : img.Fits z n) (inside : n = 0 ∨ 0 ≤ a ∧ a + n ≤ z)
    (h : ∀ s', s'.registers .sp = .ofInt (z + n) →
      (∀ r, r ≠ .sp → r ≠ .general k → s'.registers r = s.registers r) →
      wordsAt s'.memory a n = wordsAt s.memory z n →
      (∀ b, b < a ∨ a + n ≤ b → s'.memory b = s.memory b) → Q s') :
    img.wp ok (store n (.general k)) Q s := by
  rcases inside with rfl | ⟨nonneg, below⟩
  · have hcode : store 0 (.general k) = [line (decrease .sp (count 0))] := rfl
    have hdown : s.registers .sp - .ofNat 0 = s.registers .sp := by simp
    simp only [hcode, line, decrease, count, word, wp_sub, operand_immediate, hdown, wp_nil,
      Store.set_self rfl]
    exact h s hsp (fun _ _ _ => rfl) rfl (fun _ _ => rfl)
  have small := fits.small
  have inside := fits.inside
  refine wp_store hsp hk ⟨fits.nonneg, by omega⟩ ⟨nonneg, by omega⟩ (.inl ⟨by omega, inside⟩)
    (h _ (by simp [Store.moved]) (fun r hr hk => by simp [Store.moved, hr, hk]) ?_ fun b hb =>
      copied_outside hb)
  exact wordsAt_congr fun i hi => copied_inside hi (.inl (by omega))

end Image

/-! ### What code leaves -/

structure Undisturbed (pool : RegisterPool) (z : Int) (s s' : Store) : Prop where
  live : ∀ r ∈ pool.live, s'.registers r = s.registers r
  below : ∀ a < z, s'.memory a = s.memory a

namespace Undisturbed

open Emit (live_ne_sp)

variable {pool : RegisterPool} {z z' : Int} {s s₁ s₂ : Store}

theorem refl : Undisturbed pool z s s := ⟨fun _ _ => rfl, fun _ _ => rfl⟩

theorem trans (h₁ : Undisturbed pool z s s₁) (h₂ : Undisturbed pool z' s₁ s₂) (hle : z ≤ z') :
    Undisturbed pool z s s₂ where
  live r hr := (h₂.live r hr).trans (h₁.live r hr)
  below a ha := (h₂.below a (by omega)).trans (h₁.below a ha)

theorem fewer (h : Undisturbed (pool.take k) z s s₁) : Undisturbed pool z s s₁ :=
  ⟨fun r hr => h.live r (RegisterPool.live_take hr), h.below⟩

theorem pushes (h : Undisturbed pool z s s₁) (hpush : s₁.Pushes s₂ z n used)
    (hfree : ∀ r ∈ used, r ∉ pool.live) : Undisturbed pool z s s₂ where
  live r hr := by rw [hpush.registers r (live_ne_sp hr) fun hused => hfree r hused hr, h.live r hr]
  below a ha := by rw [hpush.memory a (.inl ha), h.below a ha]

theorem set (h : Undisturbed pool z s s₁) (hr : r ∉ pool.live) :
    Undisturbed pool z s (s₁.set r w) where
  live q hq := by
    have hne : q ≠ r := fun heq => hr (heq ▸ hq)
    simp [hne, h.live q hq]
  below := h.below

end Undisturbed

structure Pushed (pool : RegisterPool) (z : Int) (ws : List Word) (s s' : Store) :
    Prop extends Undisturbed pool z s s' where
  sp : s'.registers .sp = .ofInt (z + ws.length)
  words : wordsAt s'.memory z ws.length = ws

structure Pointed (pool : RegisterPool) (k : Nat) (z a : Int) (s s' : Store) :
    Prop extends Undisturbed pool z s s' where
  sp : s'.registers .sp = .ofInt z
  address : s'.registers (.general k) = .ofInt a

namespace Pushed

variable {pool : RegisterPool} {z : Int} {w : Word} {s s₁ s₂ : Store}

theorem one (h : Undisturbed pool z s s₁) (hpush : s₁.Pushes s₂ z 1 used)
    (hfree : ∀ r ∈ used, r ∉ pool.live) (hvalue : s₂.memory z = w) : Pushed pool z [w] s s₂ :=
  ⟨h.pushes hpush hfree, hpush.sp, by simp [hvalue]⟩

theorem object {memory : Int → Word} (h : Undisturbed pool z s s₁) (hpush : s₁.Pushes s₂ z n used)
    (hfree : ∀ r ∈ used, r ∉ pool.live) (hwords : wordsAt s₂.memory z n = wordsAt memory a n) :
    Pushed pool z (wordsAt memory a n) s s₂ :=
  ⟨h.pushes hpush hfree, by simpa using hpush.sp, by simpa using hwords⟩

theorem top (h : Pushed pool z [w] s s₁) : s₁.memory z = w := by simpa using h.words

end Pushed

/-! ### Stores and views -/

namespace View

def height (v : View) (e : Expr) : Nat :=
  e.height v.context.structs v.context.functions v.frame.scopes 0

def placeHeight (v : View) (e : Expr) : Nat :=
  e.placeHeight v.context.structs v.context.functions v.frame.scopes 0

/-- The store agrees with the view, in a frame with more words on the stack, which ends at `z`. -/
structure Sees (v : View) (frame : Frame) (z : Int) (s : Store) : Prop where
  depth : z - frame.depth = v.sp - v.frame.depth
  above : v.sp ≤ z
  sp : s.registers .sp = .ofInt z
  memory : ∀ a < v.sp, s.memory a = v.memory a

variable {v : View} {frame : Frame} {z a : Int} {s s' : Store} {n : Nat}

theorem height_dereference (typed : v.typeOf (.dereference span e) = some type) :
    v.height (.dereference span e) = max (v.height e) (v.context.structs.words type) := by
  have hsame : Typing.typeOf ⟨v.context.structs, v.context.functions, ⟨v.frame.scopes, 0, none⟩⟩
      (.dereference span e) = .ok type :=
    (Typing.typeOf_congr (f := ⟨v.frame.scopes, 0, none⟩) (g := v.frame) rfl _).trans
      (typeOf_eq_some.mp typed)
  rw [height, Expr.height, hsame]
  rfl

theorem words_le_height (sound : v.context.structs.Sound) :
    ∀ {e : Expr} {type : ValueType}, e.effectFree = true →
    v.typeOf e = some type → v.context.structs.words type ≤ v.height e
  | .integer .., _, _, typed | .float .., _, _, typed | .string .., _, _, typed => by
    cases typed
    exact Nat.le_refl 1
  | .sizeOf .., _, _, typed => by
    cases Typing.typeOf_sizeOf (typeOf_eq_some.mp typed)
    exact Nat.le_refl 1
  | .var .., _, _, typed => by
    obtain ⟨location, found⟩ := Typing.typeOf_var (typeOf_eq_some.mp typed)
    exact Nat.le_of_eq (Frame.variableWords_eq found).symm
  | .binary _ (.arithmetic _) _ rhs, _, _, typed => by
    obtain ⟨left, right, -, -, leftWords, -, htype⟩ :=
      Typing.typeOf_binary (typeOf_eq_some.mp typed)
    obtain rfl := Typing.arithmetic_type htype
    rw [EmitContext.at_structs] at leftWords
    exact leftWords ▸ Nat.le_trans (Nat.le_add_right 1 (v.height rhs)) (Nat.le_max_right ..)
  | .binary _ (.relation _) _ rhs, type, _, typed => by
    obtain ⟨left, right, -, -, -, -, htype⟩ := Typing.typeOf_binary (typeOf_eq_some.mp typed)
    obtain rfl : ValueType.int = type := by
      simp only [Typing.binary] at htype
      split at htype <;> simp_all
    exact Nat.le_trans (Nat.le_add_right 1 (v.height rhs)) (Nat.le_max_right ..)
  | .binary _ (.logic _) lhs rhs, type, quiet, typed => by
    obtain ⟨left, right, hleft, -, leftWords, -, htype⟩ :=
      Typing.typeOf_binary (typeOf_eq_some.mp typed)
    obtain rfl : ValueType.int = type := by simpa [Typing.binary] using htype
    have hle := words_le_height sound (e := lhs) (Bool.and_eq_true_iff.mp quiet).1
      (typeOf_eq_some.mpr hleft)
    rw [← EmitContext.at_structs v.context v.frame, leftWords] at hle
    exact Nat.le_trans hle (Nat.le_max_left ..)
  | .unary _ .negate e, type, quiet, typed => by
    obtain ⟨inner, hinner, htype⟩ := Typing.typeOf_unary (typeOf_eq_some.mp typed)
    obtain rfl : inner = type := by
      simp only [Typing.unary] at htype
      split at htype <;> simp_all
    exact words_le_height sound (e := e) quiet (typeOf_eq_some.mpr hinner)
  | .unary _ .not e, type, quiet, typed => by
    obtain ⟨inner, hinner, htype⟩ := Typing.typeOf_unary (typeOf_eq_some.mp typed)
    simp only [Typing.unary, bind_eq_ok, Typing.singleWord_eq_ok, pure_eq_ok,
      EmitContext.at_structs] at htype
    obtain ⟨-, words, rfl⟩ := htype
    have hle := words_le_height sound (e := e) quiet (typeOf_eq_some.mpr hinner)
    rw [words] at hle
    exact hle
  | .field _ base _, _, quiet, typed => by
    obtain ⟨whole, field, hbase, hfield, rfl⟩ := Typing.typeOf_field (typeOf_eq_some.mp typed)
    have hle := words_le_height sound (e := base) quiet (typeOf_eq_some.mpr hbase)
    have hpart := sound.fieldOf_fits hfield
    exact Nat.le_trans (by omega) hle
  | .addressOf .., _, _, typed => by
    obtain ⟨-, place, -, rfl⟩ := Typing.typeOf_addressOf (typeOf_eq_some.mp typed)
    exact Nat.le_max_left ..
  | .dereference .., _, _, typed => by
    rw [height_dereference typed]
    exact Nat.le_max_right ..

theorem Inside.mono (h : v.Inside a n) (hle : v.sp ≤ z) : n = 0 ∨ 0 ≤ a ∧ a + n ≤ z := by
  simp only [Inside] at h
  omega

namespace Sees

theorem again (sees : v.Sees frame z s) (h : Undisturbed pool z s s')
    (hsp : s'.registers .sp = .ofInt z) : v.Sees frame z s' :=
  ⟨sees.depth, sees.above, hsp, fun a ha =>
    (h.below a (Int.lt_of_lt_of_le ha sees.above)).trans (sees.memory a ha)⟩

theorem push (sees : v.Sees frame z s) (h : Undisturbed pool z s s')
    (hsp : s'.registers .sp = .ofInt (z + n)) : v.Sees (frame.push n) (z + n) s' where
  depth := by
    have := sees.depth
    rw [Frame.depth_push]
    omega
  above := by
    have := sees.above
    omega
  sp := hsp
  memory a ha := (h.below a (Int.lt_of_lt_of_le ha sees.above)).trans (sees.memory a ha)

theorem wordsAt_eq (sees : v.Sees frame z s) (inside : v.Inside a n) :
    wordsAt s.memory a n = wordsAt v.memory a n := by
  refine wordsAt_congr fun i hi => sees.memory _ ?_
  simp only [Inside] at inside
  omega

theorem wp_pointAt (sees : v.Sees frame z s) (scopes : frame.scopes = v.frame.scopes)
    (found : frame.lookup name = some (type, location)) :
    ∃ there, v.frame.lookup name = some (type, there) ∧
      ∀ ok comment, v.image.wp ok (Emit.pointAt (.general k) location comment)
        (fun s' => s' = s.set (.general k) (.ofInt (v.locate there))) s := by
  obtain ⟨x, hx, rfl, hplace⟩ := Frame.lookup_eq_some found
  have hx' : v.frame.find? name = some x := by rw [← hx, Frame.find?, Frame.find?, scopes]
  rcases hplace with ⟨position, hstorage, rfl⟩ | ⟨l, hstorage, rfl⟩
  · refine ⟨.stack (position - v.frame.depth), by simp [Frame.lookup, hx', hstorage],
      fun ok comment => ?_⟩
    refine Image.wp_pointAt_stack sees.sp ?_
    have hdepth := sees.depth
    rw [show z + (position - frame.depth : Int) = v.locate (.stack (position - v.frame.depth)) by
      simp only [locate]
      omega]
  · refine ⟨.static l, by simp [Frame.lookup, hx', hstorage], fun ok comment =>
      Image.wp_pointAt_static ?_⟩
    rw [locate, Int32.ofInt_toInt]

end Sees

/-! ### The rules do what expressions mean -/

open Emit

/-- From wherever the store agrees with the view, the code leaves the words that the expression
means. The expression has a meaning, or none for a reason that it `may` have. -/
def Reads (v : View) (may : Mishap → Prop) (G : State → Prop) (frame : Frame)
    (pool : RegisterPool) (e : Expr) (type : ValueType) (code : Assembly) : Prop :=
  ∀ z s, v.Sees frame z s → v.image.Fits z (v.height e) →
    (∀ reason, v.eval e = .error reason → may reason) → v.image.Leads G code
      (fun s' => ∃ x, v.eval e = .ok x ∧
        Pushed pool z (v.words (v.context.structs.words type) x) s s') s

/-- From wherever the store agrees with the view, the code leaves the address of the place that the
expression means, which is below the stack pointer. -/
def Points (v : View) (may : Mishap → Prop) (G : State → Prop) (frame : Frame)
    (pool : RegisterPool) (e : Expr) (type : ValueType) (k : Nat) (code : Assembly) : Prop :=
  ∀ z s, v.Sees frame z s → v.image.Fits z (v.placeHeight e) →
    (∀ reason, v.eval e = .error reason → may reason) →
    v.image.Leads G code (fun s' => ∃ a, v.eval e = .ok (.place a) ∧
      v.Inside a (v.context.structs.words type) ∧
      Pointed pool k z a s s') s

variable {may : Mishap → Prop} {G : State → Prop} {pool : RegisterPool} {e lhs rhs : Expr}
  {code leftCode rightCode : Assembly}

theorem eval_constant (scopes : frame.scopes = v.frame.scopes)
    (h : Constant v.context frame e value type) :
    ∃ w, v.eval e = .ok (.word w) ∧ ∀ s, v.image.operand s value = w := by
  cases h with
  | integer | float => exact ⟨_, rfl, fun _ => rfl⟩
  | @string content l _ found =>
    refine ⟨v.image.value l, ?_, fun _ => rfl⟩
    rw [eval_string, found]
    rfl
  | @typeSize _ _ words h =>
    exact ⟨.ofNat words, by rw [eval_sizeOf, h, Option.getD_some], fun _ => rfl⟩
  | valueSize h typed =>
    have typed := typeOf_eq_some.mpr ((Typing.typeOf_congr scopes.symm _).trans typed)
    exact ⟨.ofNat _, by rw [eval_sizeOf, h, Option.getD_none, size_eq typed], fun _ => rfl⟩

namespace Reads

variable {a b : ValueType} (hG : v.image.Closed (fun t => t = .division ∧ may .division) G)
include hG

theorem constant (scopes : frame.scopes = v.frame.scopes)
    (h : Constant v.context frame e value type)
    (one : 1 ≤ v.height e) : v.Reads may G frame pool e type (pushCode value) := by
  intro z s sees fits _
  obtain ⟨w, heval, hw⟩ := eval_constant scopes h
  have hlt := fits.lt one
  refine hG.leads (Image.wp_pushCode sees.sp (fits.addressable one) (fun _ => ⟨_, heval, ?_⟩)
    fun hno => by omega)
  rw [h.words, words_one, hw]
  exact .one .refl Store.pushes_pushed (by simp) (by simp [word])

omit hG in
theorem operands (left : v.Reads may G frame pool lhs a leftCode)
    (right : v.Reads may G (frame.push 1) pool rhs b rightCode)
    (leftWords : v.context.structs.words a = 1) (rightWords : v.context.structs.words b = 1)
    (sees : v.Sees frame z s) (fits : v.image.Fits z (max (v.height lhs) (1 + v.height rhs)))
    (hleft : ∀ reason, v.eval lhs = .error reason → may reason)
    (hright : ∀ x reason, v.eval lhs = .ok x → v.eval rhs = .error reason → may reason) :
    v.image.Leads G (leftCode ++ rightCode) (fun s₂ => ∃ x y, v.eval lhs = .ok x ∧
      v.eval rhs = .ok y ∧
      Undisturbed pool z s s₂ ∧ s₂.registers .sp = .ofInt (z + 2) ∧ s₂.memory z = v.word x ∧
      s₂.memory (z + 1) = v.word y) s := by
  refine (left z s sees (fits.mono (by omega)) hleft).append ?_
  rintro s₁ ⟨x, hx, h₁⟩
  rw [leftWords, words_one] at h₁
  refine (right (z + 1) s₁ (sees.push h₁.toUndisturbed h₁.sp) (fits.push (m := 1) (by omega))
    fun reason => hright x reason hx).imp ?_
  rintro s₂ ⟨y, hy, h₂⟩
  rw [rightWords, words_one] at h₂
  refine ⟨x, y, hx, hy, h₁.trans h₂.toUndisturbed (by omega), ?_, ?_, h₂.top⟩
  · rw [h₂.sp, Int.add_assoc]
    rfl
  · rw [h₂.below z (by omega), h₁.top]

theorem arithmetic (left : v.Reads may G frame pool lhs a leftCode)
    (right : v.Reads may G (frame.push 1) pool rhs b rightCode)
    (leftWords : v.context.structs.words a = 1)
    (rightWords : v.context.structs.words b = 1) (typed : v.typeOf lhs = some a)
    (freeLeft : pool.lowestFree? = some l)
    (freeRight : (pool.take l).lowestFree? = some r) (one : 1 ≤ v.height rhs) :
    v.Reads may G frame pool (.binary span (.arithmetic op) lhs rhs) a
      (leftCode ++ rightCode ++ arithmeticCode (numKind a) op (.general l) (.general r)) := by
  intro z s sees fits hstop
  have fits₂ : v.image.Fits z 2 :=
    fits.mono (Nat.le_trans (Nat.add_le_add_left one 1) (Nat.le_max_right ..))
  have hfree := RegisterPool.not_live_of_mem_pair freeLeft freeRight
  refine (operands left right leftWords rightWords sees fits (fun reason h => hstop reason ?_)
    fun x reason hx h => hstop reason ?_).append ?_
  · rw [eval_arithmetic, h]
    rfl
  · rw [eval_arithmetic, hx, h]
    rfl
  rintro s₂ ⟨x, y, hx, hy, h₂, hsp, hleft, hright⟩
  refine hG.leads (Image.wp_arithmeticCode (RegisterPool.ne_of_free_take freeLeft freeRight) hsp
    ⟨fits₂.nonneg, Int.le_of_lt fits₂.small⟩ (.inl fits₂.inside) (fun s₃ w hw hpush hvalue => ?_)
    fun hnone => ⟨rfl, hstop _ ?_⟩)
  · rw [hleft, hright] at hw
    refine ⟨.word w, ?_, .one h₂ hpush hfree hvalue⟩
    simp only [eval_arithmetic, hx, hy, kind_eq typed, bind, Except.bind, hw, Mishap.ifNone_some]
    rfl
  · rw [hleft, hright] at hnone
    simp only [eval_arithmetic, hx, hy, kind_eq typed, bind, Except.bind, hnone]
    rfl

theorem relation (hp : v.image.Proper) (left : v.Reads may G frame pool lhs a leftCode)
    (right : v.Reads may G (frame.push 1) pool rhs b rightCode)
    (leftWords : v.context.structs.words a = 1)
    (rightWords : v.context.structs.words b = 1) (typed : v.typeOf lhs = some a)
    (freeLeft : pool.lowestFree? = some l)
    (freeRight : (pool.take l).lowestFree? = some r) (one : 1 ≤ v.height rhs) :
    v.Reads may G frame pool (.binary span (.relation rel) lhs rhs) .int
      (leftCode ++ rightCode ++ (popCode (.general r) ++ popCode (.general l) ++
        [line (.cmp (numKind a) (.general l) (.register (.general r)))]) ++
        relationCode rel yes done) := by
  intro z s sees fits hstop
  have fits₂ : v.image.Fits z 2 :=
    fits.mono (Nat.le_trans (Nat.add_le_add_left one 1) (Nat.le_max_right ..))
  have hfree := RegisterPool.not_live_of_mem_pair freeLeft freeRight
  rw [List.append_assoc]
  refine (operands left right leftWords rightWords sees fits (fun reason h => hstop reason ?_)
    fun x reason hx h => hstop reason ?_).append ?_
  · rw [eval_relation, h]
    rfl
  · rw [eval_relation, hx, h]
    rfl
  rintro s₂ ⟨x, y, hx, hy, h₂, hsp, hleft, hright⟩
  refine (hG.pushComparison hp (RegisterPool.ne_of_free_take freeLeft freeRight) hsp
    ⟨fits₂.nonneg, Int.le_of_lt fits₂.small⟩ (.inl fits₂.inside)).imp ?_
  rintro s₃ ⟨hpush, hvalue⟩
  refine ⟨.word _, ?_, .one h₂ hpush hfree hvalue⟩
  rw [eval_relation, hx, hy, kind_eq typed, hleft, hright]
  rfl

theorem logic (hp : v.image.Proper) (left : v.Reads may G frame pool lhs a leftCode)
    (right : v.Reads may G frame pool rhs b rightCode) (leftWords : v.context.structs.words a = 1)
    (rightWords : v.context.structs.words b = 1) (typedLeft : v.typeOf lhs = some a)
    (typedRight : v.typeOf rhs = some b)
    (free : pool.lowestFree? = some k) (one : 1 ≤ v.height lhs) :
    v.Reads may G frame pool (.binary span (.logic op) lhs rhs) .int
      (leftCode ++ testCode (.general k) a (deciding op) l ++
        (rightCode ++ testCode (.general k) b (deciding op) l) ++
        logicCode op l done) := by
  intro z s sees fits hstop
  have hfree := RegisterPool.not_live_of_mem_free free
  have fits₁ : v.image.Fits z (v.height lhs) := fits.mono (Nat.le_max_left ..)
  have fits₂ : v.image.Fits z (v.height rhs) := fits.mono (Nat.le_max_right ..)
  -- The word that is pushed in the end replaces that of the operand tested last.
  have hresult : ∀ (w w' : Word) {s₁ s₂ : Store}, Pushed pool z [w] s s₁ →
    s₁.Pushes s₂ z 0 [.general k] →
      Pushed pool z [w'] s (s₂.pushed z w') := fun w w' s₁ s₂ h₁ hpop =>
    .one (h₁.pushes hpop hfree) Store.pushes_pushed (by simp) (by simp)
  refine hG.logic hp (z := z) (a := a) (b := b)
    (P := fun s₁ => ∃ x, v.eval lhs = .ok x ∧ Pushed pool z [v.word x] s s₁)
    (R := fun s₁ => ∃ x y, v.eval lhs = .ok x ∧ v.decides op lhs x = false ∧ v.eval rhs = .ok y ∧
      Pushed pool z [v.word y] s s₁) ?_ ?_ ?_ ?_ (fits₁.addressable one)
      (.inl (fits₁.lt one)) ?_ ?_ ?_
  · refine (left z s sees fits₁ fun reason h => hstop reason ?_).imp ?_
    · rw [eval_logic, h]
      rfl
    · rintro s₁ ⟨x, hx, h₁⟩
      rw [leftWords, words_one] at h₁
      exact ⟨x, hx, h₁⟩
  · rintro s₁ ⟨x, -, h₁⟩
    exact h₁.sp
  · rintro s₁ s₂ ⟨x, hx, h₁⟩ hpop hd
    rw [h₁.top, ← kind_eq typedLeft] at hd
    have h₂ := h₁.pushes hpop hfree
    refine (right z s₂ (sees.again h₂ (by simpa using hpop.sp)) fits₂ fun reason h =>
      hstop reason ?_).imp ?_
    · rw [eval_logic_undecided hx hd, h]
      rfl
    · rintro s₃ ⟨y, hy, h₃⟩
      rw [rightWords, words_one] at h₃
      exact ⟨x, y, hx, hd, hy, ⟨h₂.trans h₃.toUndisturbed (Int.le_refl z), h₃.sp, h₃.words⟩⟩
  · rintro s₁ ⟨-, y, -, -, -, h₁⟩
    exact h₁.sp
  · rintro s₁ s₂ ⟨x, hx, h₁⟩ hpop hd
    rw [h₁.top, ← kind_eq typedLeft] at hd
    exact ⟨_, eval_logic_decided hx hd, hresult _ _ h₁ hpop⟩
  · rintro s₁ s₂ ⟨x, y, hx, hdx, hy, h₁⟩ hpop hd
    rw [h₁.top, ← kind_eq typedRight] at hd
    refine ⟨.word (decidedValue op), ?_, hresult _ _ h₁ hpop⟩
    simp only [eval_logic_undecided hx hdx, hy, bind, Except.bind, decides, hd, ↓reduceIte]
    rfl
  · rintro s₁ s₂ ⟨x, y, hx, hdx, hy, h₁⟩ hpop hd
    rw [h₁.top, ← kind_eq typedRight] at hd
    refine ⟨.word (undecidedValue op), ?_, hresult _ _ h₁ hpop⟩
    simp only [eval_logic_undecided hx hdx, hy, bind, Except.bind, decides, hd,
      Bool.false_eq_true, ↓reduceIte]
    rfl

theorem negate (operand : v.Reads may G frame pool e a code) (words : v.context.structs.words a = 1)
    (typed : v.typeOf e = some a) (free : pool.lowestFree? = some k) (one : 1 ≤ v.height e) :
    v.Reads may G frame pool (.unary span .negate e) a (code ++ negateCode a (.general k)) := by
  intro z s sees fits hstop
  have hfree := RegisterPool.not_live_of_mem_free free
  refine (operand z s sees fits fun reason h => hstop reason ?_).append ?_
  · rw [eval_negate typed, h]
    rfl
  rintro s₁ ⟨x, hx, h₁⟩
  rw [words, words_one] at h₁
  refine hG.leads (Image.wp_negateCode h₁.sp (fits.addressable one) (.inl (fits.lt one))
    fun s₂ w hw hpush hvalue => ?_)
  rw [h₁.top] at hw
  refine ⟨.word w, ?_, .one h₁.toUndisturbed hpush hfree hvalue⟩
  simp only [eval_negate typed, hx, kind_eq typed, bind, Except.bind, hw, Mishap.ifNone_some]
  rfl

theorem not (hp : v.image.Proper) (operand : v.Reads may G frame pool e a code)
    (words : v.context.structs.words a = 1)
    (typed : v.typeOf e = some a) (free : pool.lowestFree? = some k) (one : 1 ≤ v.height e) :
    v.Reads may G frame pool (.unary span .not e) .int
      (code ++ (popCode (.general k) ++ [line (zeroTest (.general k) a)]) ++
        relationCode .equal yes done) := by
  intro z s sees fits hstop
  have hfree := RegisterPool.not_live_of_mem_free free
  rw [List.append_assoc]
  refine (operand z s sees fits fun reason h => hstop reason ?_).append ?_
  · rw [eval_not, h]
    rfl
  rintro s₁ ⟨x, hx, h₁⟩
  rw [words, words_one] at h₁
  refine (hG.pushTest hp h₁.sp (fits.addressable one) (.inl (fits.lt one))).imp ?_
  rintro s₂ ⟨hpush, hvalue⟩
  refine ⟨.word _, ?_, .one h₁.toUndisturbed hpush hfree hvalue⟩
  rw [eval_not, hx, kind_eq typed, h₁.top]
  rfl

/-- The whole struct is pushed, and the field then moved to where it starts. -/
theorem field {f : Field} (sound : v.context.structs.Sound)
    (base : v.Reads may G frame pool e a code)
    (typed : v.typeOf e = some a) (found : Typing.fieldOf v.context.structs a name = .ok f)
    (free : pool.lowestFree? = some k) (room : v.context.structs.words a ≤ v.height e) :
    v.Reads may G frame pool (.field span e name) f.type
      (code ++ selectCode (v.context.structs.words a) f (.general k)
        (v.context.structs.words f.type)) := by
  intro z s sees fits hstop
  have hfree := RegisterPool.not_live_of_mem_free free
  have hpart := sound.fieldOf_fits found
  refine (base z s sees fits fun reason h => hstop reason ?_).append ?_
  · rw [eval_field, h]
    rfl
  rintro s₁ ⟨x, hx, h₁⟩
  obtain ⟨id, -, rfl, -⟩ := Typing.fieldOf_eq_ok found
  obtain ⟨address, rfl⟩ := eval_struct typed hx
  have hsmall := fits.small
  have hinside := fits.inside
  have hheight : v.height (.field span e name) = v.height e := rfl
  refine hG.leads (Image.wp_selectCode (by simpa [View.words] using h₁.sp) fits.nonneg (by omega)
    (.inl (by omega)) ?_)
  refine ⟨.place (address + f.offset), ?_, .object h₁.toUndisturbed Store.pushes_moved hfree ?_⟩
  · rw [eval_field, hx, field?_eq typed found]
    rfl
  · have hwhole : wordsAt s₁.memory z (v.context.structs.words (.struct id)) =
        wordsAt v.memory address (v.context.structs.words (.struct id)) := by
      simpa [View.words] using h₁.words
    refine wordsAt_congr fun i hi => (copied_inside hi (.inl (by omega))).trans ?_
    simpa only [Int.natCast_add, ← Int.add_assoc] using eq_of_wordsAt hwhole
      (i := f.offset + i) (by omega)

theorem addressOf (place : v.Points may G frame pool e a k code) :
    v.Reads may G frame pool (.addressOf span e) (.reference a)
      (code ++ pushCode (.register (.general k))) := by
  intro z s sees fits hstop
  have one : 1 ≤ v.height (.addressOf span e) := Nat.le_max_left ..
  have hlt := fits.lt one
  refine (place z s sees (fits.mono (Nat.le_max_right ..)) fun reason h =>
    hstop reason ?_).append ?_
  · rw [eval_addressOf, h]
    rfl
  rintro s₁ ⟨address, heval, -, h₁⟩
  refine hG.leads (Image.wp_pushCode h₁.sp (fits.addressable one) (fun _ => ?_) fun hno => by omega)
  refine ⟨.word (.ofInt address), ?_,
    .one h₁.toUndisturbed Store.pushes_pushed (by simp) (by simp [h₁.address])⟩
  rw [eval_addressOf, heval]
  rfl

theorem of_points (place : v.Points may G frame pool e a k code) (free : pool.lowestFree? = some k)
    (placeRoom : v.placeHeight e ≤ v.height e) (room : v.context.structs.words a ≤ v.height e) :
    v.Reads may G frame pool e a
      (code ++ pushCopyCode (.general k) (v.context.structs.words a)) := by
  intro z s sees fits hstop
  have hfree := RegisterPool.not_live_of_mem_free free
  refine (place z s sees (fits.mono placeRoom) hstop).append ?_
  rintro s₁ ⟨address, heval, inside, h₁⟩
  refine hG.leads (Image.wp_pushObject h₁.sp h₁.address (fits.mono room) (inside.mono sees.above)
    fun s₂ hpush hwords => ?_)
  refine ⟨_, heval, .object h₁.toUndisturbed hpush hfree ?_⟩
  rw [hwords, (sees.again h₁.toUndisturbed h₁.sp).wordsAt_eq inside]

end Reads

namespace Points

variable (hG : v.image.Closed (fun t => t = .division ∧ may .division) G)
include hG

theorem var (consistent : v.Consistent) (scopes : frame.scopes = v.frame.scopes)
    (found : frame.lookup name = some (type, location)) (free : pool.lowestFree? = some k) :
    v.Points may G frame pool (.var span name) type k (pointAt (.general k) location comment) := by
  intro z s sees _ _
  obtain ⟨there, hthere, hpoint⟩ := sees.wp_pointAt (k := k) scopes found
  refine (hG.leads (hpoint _ _)).imp ?_
  rintro s₁ rfl
  refine ⟨v.locate there, by rw [eval_var, hthere]; rfl, consistent _ _ _ hthere,
    .set .refl (RegisterPool.not_live_of_free free), by simpa using sees.sp, by simp⟩

theorem field {f : Field} {whole : ValueType} (sound : v.context.structs.Sound)
    (base : v.Points may G frame pool e whole k code) (typed : v.typeOf e = some whole)
    (found : Typing.fieldOf v.context.structs whole name = .ok f)
    (free : pool.lowestFree? = some k) :
    v.Points may G frame pool (.field span e name) f.type k
      (code ++ fieldCode text f.offset (.general k)) := by
  intro z s sees fits hstop
  refine (base z s sees fits fun reason h => hstop reason ?_).append ?_
  · rw [eval_field, h]
    rfl
  rintro s₁ ⟨a, heval, inside, h₁⟩
  refine hG.leads (Image.wp_fieldCode h₁.address
    ⟨a + f.offset, ?_, inside.part (sound.fieldOf_fits found), ?_⟩)
  · rw [eval_field, heval, field?_eq typed found]
    rfl
  · exact ⟨h₁.set (RegisterPool.not_live_of_free free), by simpa using h₁.sp, by simp⟩

theorem dereference (stray : ¬may .stray)
    (pointer : v.Reads may G frame pool e (.reference type) code)
    (typed : v.typeOf (.dereference span e) = some type) (free : pool.lowestFree? = some k)
    (one : 1 ≤ v.height e) :
    v.Points may G frame pool (.dereference span e) type k (code ++ popCode (.general k)) := by
  intro z s sees fits hstop
  have fits : v.image.Fits z (v.height e) := fits
  refine (pointer z s sees fits fun reason h => hstop reason ?_).append ?_
  · rw [eval_dereference, h]
    rfl
  rintro s₁ ⟨x, hx, h₁⟩
  rw [Structs.words_reference, words_one] at h₁
  -- What the word points at is below the stack pointer, or there would be no meaning.
  have heval : v.eval (.dereference span e) =
    if v.Inside (v.word x).toInt (v.context.structs.words type) then
      .ok (.place (v.word x).toInt) else .error .stray := by
    rw [eval_dereference, hx, size_eq typed]
    rfl
  have inside : v.Inside (v.word x).toInt (v.context.structs.words type) := by
    by_contra hno
    exact stray (hstop _ (heval.trans (if_neg hno)))
  have hlt := fits.lt one
  refine hG.leads (Image.wp_popCode h₁.sp (fits.addressable one) (fun _ => ?_) fun hno => by omega)
  have hpop : s₁.Pushes (s₁.popped z (.general k)) z 0 [.general k] :=
    ⟨by simp, by simp +contextual, fun _ _ => rfl⟩
  refine ⟨_, heval.trans (if_pos inside), inside,
    h₁.pushes hpop (RegisterPool.not_live_of_mem_free free), by simp, by simp [h₁.top]⟩

end Points

def Means (v : View) (may : Mishap → Prop) (G : State → Prop) (frame : Frame)
    (pool : RegisterPool) : Emit.Piece → Assembly → Prop
  | .value e type, code => v.Reads may G frame pool e type code
  | .address e type k, code => v.Points may G frame pool e type k code
  | .receiver _, _ | .arguments .., _ => True

theorem typeOf_value (h : Emits v.context frame pool n (.value e type) code n')
    (scopes : frame.scopes = v.frame.scopes)
    (quiet : e.effectFree = true) : v.typeOf e = some type :=
  typeOf_eq_some.mpr ((Typing.typeOf_congr scopes.symm e).trans (h.typed quiet))

theorem typeOf_address (h : Emits v.context frame pool n (.address e type k) code n')
    (scopes : frame.scopes = v.frame.scopes)
    (quiet : e.effectFree = true) : v.typeOf e = some type :=
  typeOf_eq_some.mpr ((Typing.typeOf_congr scopes.symm e).trans (h.typed quiet).2)

/-- Code by the rules does what expressions mean. -/
theorem means_of_emits (may : Mishap → Prop)
    (hG : v.image.Closed (fun t => t = .division ∧ may .division) G)
    (hp : v.image.Proper) (sound : v.context.structs.Sound) (consistent : v.Consistent)
    (stray : ¬may .stray)
    (h : Emits v.context frame pool n piece code n') (scopes : frame.scopes = v.frame.scopes)
    (quiet : piece.effectFree = true) : v.Means may G frame pool piece code := by
  induction h with
  | constant h => exact .constant hG scopes h (by cases h <;> exact Nat.le_refl 1)
  | var found free =>
    exact .of_points hG (Points.var hG consistent scopes found free) free (Nat.zero_le _)
      (words_le_height sound quiet (typeOf_value (n := 0) (.var found free) scopes quiet))
  | arithmetic left right leftWords rightWords typed freeLeft freeRight ihl ihr =>
    obtain ⟨quietLeft, quietRight⟩ := Bool.and_eq_true_iff.mp quiet
    obtain rfl := Typing.arithmetic_type typed
    have one := rightWords ▸ words_le_height sound quietRight (typeOf_value right scopes quietRight)
    exact .arithmetic hG (ihl scopes quietLeft) (ihr scopes quietRight) leftWords rightWords
      (typeOf_value left scopes quietLeft) freeLeft freeRight one
  | relation left right leftWords rightWords typed freeLeft freeRight ihl ihr =>
    obtain ⟨quietLeft, quietRight⟩ := Bool.and_eq_true_iff.mp quiet
    have one := rightWords ▸ words_le_height sound quietRight (typeOf_value right scopes quietRight)
    exact .relation hG hp (ihl scopes quietLeft) (ihr scopes quietRight) leftWords rightWords
      (typeOf_value left scopes quietLeft) freeLeft freeRight one
  | logic left right leftWords rightWords free ihl ihr =>
    obtain ⟨quietLeft, quietRight⟩ := Bool.and_eq_true_iff.mp quiet
    have typedLeft := typeOf_value left scopes quietLeft
    exact .logic hG hp (ihl scopes quietLeft) (ihr scopes quietRight) leftWords rightWords typedLeft
      (typeOf_value right scopes quietRight) free
      (leftWords ▸ words_le_height sound quietLeft typedLeft)
  | negate operand number free ih =>
    have typed := typeOf_value operand scopes quiet
    have words : v.context.structs.words _ = 1 := Structs.words_of_isNumber number
    exact .negate hG (ih scopes quiet) words typed free (words ▸ words_le_height sound quiet typed)
  | not operand words free ih =>
    have typed := typeOf_value operand scopes quiet
    exact .not hG hp (ih scopes quiet) words typed free (words ▸ words_le_height sound quiet typed)
  | assign | update | call => cases quiet
  | field base found free ih =>
    have typed := typeOf_value base scopes quiet
    exact .field hG sound (ih scopes quiet) typed found free (words_le_height sound quiet typed)
  | addressOf place ih => exact .addressOf hG (ih scopes quiet)
  | @dereference _ _ _ e type _ _ _ span pointer free ih =>
    have typed : v.typeOf (.dereference span e) = some type :=
      typeOf_value (.dereference pointer free) scopes quiet
    have one : 1 ≤ v.height e :=
        words_le_height (e := e) sound quiet (typeOf_value pointer scopes quiet)
    have place := Points.dereference hG stray (ih scopes quiet) typed free one
    rw [Means, ← List.append_assoc]
    refine .of_points hG place free ?_ (words_le_height sound quiet typed)
    rw [height_dereference typed]
    exact Nat.le_max_left ..
  | addressVar found free => exact Points.var hG consistent scopes found free
  | addressField base found ih =>
    exact Points.field hG sound (ih scopes quiet) (typeOf_address base scopes quiet) found
      base.free_of_address
  | @addressDereference _ _ _ e type _ _ _ span pointer free ih =>
    have typed : v.typeOf (.dereference span e) = some type :=
      typeOf_address (.addressDereference pointer free) scopes quiet
    have one : 1 ≤ v.height e :=
        words_le_height (e := e) sound quiet (typeOf_value pointer scopes quiet)
    exact Points.dereference hG stray (ih scopes quiet) typed free one
  | noReceiver | receiver | noArguments | argument => cases quiet

end View

end WordScript
