import WordScript.Proofs.Safety.Activation

/-!
# Expressions are safe

Code for an expression without dereferences runs from any state of an activation to one in which its
value is on the stack and nothing guarded has changed, or into a tolerable failure. A call takes a
step into the callee, so what is assumed of functions is their safety for fewer steps.
-/

namespace WordScript

/-! ### Expressions without dereferences -/

mutual

def Expr.plain : Expr → Bool
  | .integer .. | .float .. | .string .. | .var .. => true
  | .call _ callee args => callee.plain && Expr.allPlain args
  | .binary _ _ lhs rhs => lhs.plain && rhs.plain
  | .assign _ _ target value => target.plain && value.plain
  | .field _ inner _ | .unary _ _ inner | .addressOf _ inner | .sizeOf _ inner => inner.plain
  | .dereference .. => false

def Expr.allPlain : List Expr → Bool
  | [] => true
  | e :: rest => e.plain && Expr.allPlain rest

end

namespace Emit.Piece

def Plain : Piece → Prop
  | .value e _ | .address e _ _ => e.plain = true
  | .receiver e => e.all Expr.plain = true
  | .arguments es _ => Expr.allPlain es = true

def height (structs : Structs) (functions : Functions) (scopes : List Scope) (held : Nat) :
    Piece → Nat
  | .value e _ => e.height structs functions scopes held
  | .address e _ _ => e.placeHeight structs functions scopes held
  | .receiver e => max (receiverWords e) (e.elim 0 (·.placeHeight structs functions scopes held))
  | .arguments es types => Expr.argumentsHeight structs functions scopes held
      (types.map structs.words) es

/-- What the register of an address points at: words that belong to the activation. -/
def Leaves (act : Activation) (top : Int) (structs : Structs) (s : Store) : Piece → Prop
  | .address _ type k => ∃ a, s.registers (.general k) = .ofInt a ∧
      act.Owns top a (structs.words type)
  | .value .. | .receiver _ | .arguments .. => True

end Emit.Piece

/-! ### What safety rests on -/

def Image.StaticArea (img : Image) (statics : Nat) (l : Label) (n : Nat) : Prop :=
  ∃ z : Nat, img.value l = .ofNat z ∧ z + n ≤ statics

def Signature.slot (structs : Structs) (s : Signature) : Int :=
  -1 - s.argumentWords structs - (if s.receiver.isSome then 1 else 0) - structs.words s.returns

theorem Signature.slot_neg (structs : Structs) (s : Signature) : s.slot structs ≤ -1 := by
  simp only [slot]
  split <;> omega

/-- Calls are safe for `n` steps: from the entry of any function, with a return address below the
stack pointer, if it is safe to come back there with all words below the return slot unchanged. -/
def Image.CallsSafe (img : Image) (c : EmitContext) (statics n : Nat) : Prop :=
  ∀ f signature pc b (s : Store) back, c.functions.get? f = some signature →
    img.code.At pc [.label f.label] → statics ≤ b + signature.slot c.structs → b ≤ 2 ^ 30 →
    s.registers .sp = .ofInt b → s.memory (b - 1) = .ofNat back → back ≤ img.code.size →
    (∀ s' : Store, s'.registers .sp = .ofInt (b - 1) →
      (∀ a : Int, statics ≤ a → a < b + signature.slot c.structs → s'.memory a = s.memory a) →
      img.Safe n ⟨back, s'⟩) →
    img.Safe n ⟨pc, s⟩

/-- An image of a program with these tables, small enough for addresses to be words. -/
structure Image.Serves (img : Image) (c : EmitContext) : Prop where
  proper : img.Proper
  sound : c.Sound
  small : img.memoryWords < 2 ^ 30
  functions : ∀ f signature, c.functions.get? f = some signature →
    ∃ pc, img.code.At pc [.label f.label]

/-! ### Sizes and heights -/

theorem Structs.totalWords_eq (structs : Structs) (types : List ValueType) :
    structs.totalWords types = (types.map structs.words).sum := by
  induction types with
  | nil => rfl
  | cons type types ih => simp [totalWords, ih]

theorem Structs.Sound.fieldOf_fits {structs : Structs} (hs : structs.Sound)
    (h : Typing.fieldOf structs whole name = .ok field) :
    field.offset + structs.words field.type ≤ structs.words whole := by
  obtain ⟨id, t, rfl, ht, hfield⟩ := Typing.fieldOf_eq_ok h
  have hwords : structs.words (.struct id) = t.words := by simp [Structs.words, ht]
  rw [hwords]
  exact hs.fit t (List.mem_of_getElem? ht) field (List.mem_of_find?_eq_some hfield)

theorem Frame.variableWords_eq {frame : Frame} {structs : Structs}
    (h : frame.lookup name = some (type, location)) :
    structs.variableWords frame.scopes name = structs.words type := by
  obtain ⟨v, hv, rfl, -⟩ := lookup_eq_some h
  have hfind : Frame.find? ⟨frame.scopes, 0, none⟩ name = some v := hv
  rw [Structs.variableWords, hfind]
  rfl

namespace Emit

variable {c : EmitContext} {frame : Frame} {pool : RegisterPool}

theorem receiverHeight_eq {functions : Functions} (h : Typing.callTarget t callee = .ok target) :
    callee.receiverHeight structs functions scopes held =
      target.receiver.elim 0 (·.placeHeight structs functions scopes held) := by
  cases callee with
  | field span base name =>
    obtain ⟨_, -, -, -, hr⟩ := Typing.callTarget_field h
    rw [hr]
    rfl
  | _ =>
    obtain ⟨_, -, -, hr⟩ := Typing.callTarget_other (by simp) h
    rw [hr]
    rfl

theorem plain_receiver (h : Typing.callTarget t callee = .ok target) (plain : callee.plain = true) :
    (Piece.receiver target.receiver).Plain := by
  cases callee with
  | field span base name =>
    obtain ⟨_, -, -, -, hr⟩ := Typing.callTarget_field h
    rw [hr]
    exact plain
  | _ =>
    obtain ⟨_, -, -, hr⟩ := Typing.callTarget_other (by simp) h
    rw [hr]
    rfl

theorem height_call (h : Typing.callTarget (c.at frame) callee = .ok target) :
    Expr.height c.structs c.functions frame.scopes held (.call span callee es) =
      held + c.structs.words target.signature.returns +
        max (target.receiver.elim 0 (·.placeHeight c.structs c.functions frame.scopes held))
          (receiverWords target.receiver + Expr.argumentsHeight c.structs c.functions
            frame.scopes held
            (target.signature.params.map fun p => c.structs.words p.2) es) := by
  have hsame : Typing.callTarget ⟨c.structs, c.functions, ⟨frame.scopes, 0, none⟩⟩ callee =
      .ok target := h ▸
    Typing.callTarget_congr (f := ⟨frame.scopes, 0, none⟩) (g := frame) rfl callee
  rw [Expr.height, hsame, receiverHeight_eq h]

theorem Emits.words_le_height (hs : c.structs.Sound) (h : Emits c frame pool n piece code n')
    (plain : piece.Plain) :
    piece.words c.structs ≤ piece.height c.structs c.functions frame.scopes pool.live.length := by
  induction h with
  | constant h => cases h <;> simp [Piece.words, Piece.height, Expr.height]
  | var found free => simp [Piece.words, Piece.height, Expr.height, Frame.variableWords_eq found]
  | arithmetic left right leftWords rightWords typed freeLeft freeRight ihl ihr =>
    obtain rfl := Typing.arithmetic_type typed
    simp only [Piece.words, Piece.height, Expr.height, leftWords]
    omega
  | relation =>
    simp only [Piece.words, Piece.height, Expr.height, Structs.words_int]
    omega
  | logic left right leftWords rightWords free ihl ihr =>
    have := ihl (by simp_all [Piece.Plain, Expr.plain])
    simp only [Piece.words, Piece.height, Expr.height, leftWords, Structs.words_int] at this ⊢
    omega
  | negate operand number free ih => exact ih plain
  | not operand words free ih =>
    have := ih plain
    simp only [Piece.words, Piece.height, Expr.height, words, Structs.words_int] at this ⊢
    exact this
  | assign place value accepted same ihp ihv =>
    have := ihv (by simp_all [Piece.Plain, Expr.plain])
    simp only [Piece.words, Piece.height, Expr.height, same,
      RegisterPool.length_live_take place.free_of_address] at this ⊢
    omega
  | update place value placeWords valueWords typed freeOperand freeResult ihp ihv =>
    obtain rfl := Typing.arithmetic_type typed
    have := ihv (by simp_all [Piece.Plain, Expr.plain])
    simp only [Piece.words, Piece.height, Expr.height, placeWords, valueWords,
      RegisterPool.length_live_take place.free_of_address] at this ⊢
    omega
  | field base found free ih =>
    have := ih plain
    have := hs.fieldOf_fits found
    simp only [Piece.words, Piece.height, Expr.height] at *
    omega
  | addressOf place ih =>
    simp only [Piece.words, Piece.height, Expr.height, Structs.words_reference]
    omega
  | dereference pointer free ih => cases plain
  | call resolved signature live result this args fits method free iht iha =>
    subst live result
    simp only [Piece.words, Piece.height, height_call resolved]
    omega
  | addressVar | addressField | addressDereference => exact Nat.zero_le _
  | noReceiver => exact Nat.zero_le _
  | receiver place ih =>
    simp only [Piece.words, Piece.height]
    omega
  | noArguments => exact Nat.zero_le _
  | argument first rest ihf ihr =>
    have hrest := ihr (by simp_all [Piece.Plain, Expr.allPlain])
    simp only [Piece.words, Piece.height, Expr.argumentsHeight, List.map_cons, List.sum_cons,
      Frame.scopes_push] at hrest ⊢
    omega

theorem Emits.arguments_lt_height (h : Emits c frame pool n (.arguments es types) code n') :
    (types.map c.structs.words).sum < Expr.argumentsHeight c.structs c.functions frame.scopes
      pool.live.length (types.map c.structs.words) es := by
  generalize hpiece : Piece.arguments es types = piece at h
  induction h generalizing es types with
  | noArguments =>
    cases hpiece
    simp [Expr.argumentsHeight]
  | argument first rest ihf ihr =>
    cases hpiece
    have := ihr rfl
    simp only [List.map_cons, List.sum_cons, Expr.argumentsHeight, Frame.scopes_push] at this ⊢
    omega
  | _ => cases hpiece

/-! ### The rules are safe -/

/-- Code for a piece has run: its words are on the stack, and its register points at what it should.
-/
def Piece.Done (c : EmitContext) (act : Activation) (top : Int) (frame : Frame)
    (pool : RegisterPool) (piece : Piece) (s s' : Store) : Prop :=
  act.Evaluated top frame.depth pool (piece.words c.structs) s s' ∧
    piece.Leaves act top c.structs s'

/-- Wherever the frame is as expected, the code safely leads to what the piece is for. -/
def Piece.Safe (img : Image) (c : EmitContext) (act : Activation) (top : Int) (m : Nat)
    (frame : Frame) (pool : RegisterPool) (piece : Piece) (code : Assembly) : Prop :=
  ∀ s : Store, s.registers .sp = .ofInt (act.base + frame.depth) →
    img.Leads (img.Safe m) code (piece.Done c act top frame pool s) s

open Activation

section
variable {img : Image} {act : Activation} {top : Int} {m : Nat} {s s₁ : Store}

theorem wp_pointAt (fits : frame.Fits c.structs (img.StaticArea act.statics) act.low top)
    (found : frame.lookup name = some (type, location))
    (hsp : s.registers .sp = .ofInt (act.base + frame.depth)) :
    img.wp ok (pointAt (.general k) location comment)
      (fun s' => ∃ a, s' = s.set (.general k) (.ofInt a) ∧ act.Owns top a (c.structs.words type))
        s := by
  obtain ⟨v, hv, rfl, hplace⟩ := Frame.lookup_eq_some found
  have hfits := fits.find? hv
  rcases hplace with ⟨position, hstorage, rfl⟩ | ⟨l, hstorage, rfl⟩
  · refine Image.wp_pointAt_stack hsp ⟨act.base + position, ?_, ?_⟩
    · congr 2
      omega
    · simp only [Variable.Fits, hstorage] at hfits
      simp only [Owns]
      omega
  · simp only [Variable.Fits, hstorage] at hfits
    obtain ⟨z, hz, hle⟩ := hfits
    refine Image.wp_pointAt_static ⟨z, ?_, ?_⟩
    · rw [hz, Int32.ofInt_eq_ofNat]
    · simp only [Owns]
      omega

namespace Piece.Safe

variable (hp : img.Proper)
include hp

theorem constant (h : Constant c frame e v type) (room : Room top frame.depth 1) :
    Safe img c act top m frame pool (.value e type) (pushCode v) := by
  intro s hsp
  refine (hp.safe m).leads (Image.wp_pushCode hsp (room.addressable act (by omega))
    (fun _ => ⟨?_, trivial⟩)
    (fun _ => trivial))
  rw [Piece.words, h.words]
  exact (Evaluated.refl hsp).pushes Store.pushes_pushed (by simp) ⟨room.nonneg, room.le⟩

theorem var (fits : frame.Fits c.structs (img.StaticArea act.statics) act.low top)
    (found : frame.lookup name = some (type, location)) (free : pool.lowestFree? = some k)
    (room : Room top frame.depth (c.structs.words type)) :
    Safe img c act top m frame pool (.value (.var span name) type)
      (pointAt (.general k) location comment ++ pushCopyCode (.general k)
        (c.structs.words type)) := by
  intro s hsp
  refine (hp.safe m).leads (Image.wp_append.mpr (Image.wp_mono ?_ (wp_pointAt fits found hsp)))
  rintro s' ⟨a, rfl, howns⟩
  have hroom := room.addresses act
  have hsource := howns.addressable (by have := room.le; have := room.small; omega)
  refine Image.wp_pushCopyCode (by simpa using hsp)
    (Store.registers_set.trans (if_pos rfl)) hroom hsource
    (.inr trivial) ⟨?_, trivial⟩
  rw [Store.moved_set (.inr rfl)]
  exact (Evaluated.refl hsp).pushes Store.pushes_moved (RegisterPool.not_live_of_mem_free free)
    ⟨room.nonneg, room.le⟩

omit hp in
theorem andThen (first : Safe img c act top m frame pool (.value e type) code)
    (second : Safe img c act top m (frame.push (c.structs.words type)) pool piece code')
    (hsp : s.registers .sp = .ofInt (act.base + frame.depth)) :
    img.Leads (img.Safe m) (code ++ code')
      (act.Evaluated top frame.depth pool (c.structs.words type + piece.words c.structs) s) s := by
  refine (first s hsp).append fun s₁ h₁ => (second s₁ ?_).imp fun s₂ h₂ => h₁.1.trans h₂.1
  rw [h₁.1.sp, Frame.depth_push, Int.add_assoc]
  rfl

theorem arithmetic (left : Safe img c act top m frame pool (.value lhs a) leftCode)
    (right : Safe img c act top m (frame.push 1) pool (.value rhs b) rightCode)
    (leftWords : c.structs.words a = 1) (rightWords : c.structs.words b = 1)
    (freeLeft : pool.lowestFree? = some l) (freeRight : (pool.take l).lowestFree? = some r)
    (room : Room top frame.depth 2) :
    Safe img c act top m frame pool (.value (.binary span (.arithmetic op) lhs rhs) a)
      (leftCode ++ rightCode ++ arithmeticCode kind op (.general l) (.general r)) := by
  intro s hsp
  refine (left.andThen (leftWords ▸ right) hsp).append fun s₂ h₂ => (hp.safe m).leads ?_
  simp only [Piece.words, leftWords, rightWords] at h₂
  refine Image.wp_arithmeticCode (RegisterPool.ne_of_free_take freeLeft freeRight) h₂.sp
    (room.addresses act) (.inr trivial) (fun s₃ _ _ hpush _ => ⟨?_, trivial⟩) (fun _ => trivial)
  rw [Piece.words, leftWords]
  exact h₂.pushes hpush (RegisterPool.not_live_of_mem_pair freeLeft freeRight)
    ⟨room.nonneg, room.le⟩

theorem relation (left : Safe img c act top m frame pool (.value lhs a) leftCode)
    (right : Safe img c act top m (frame.push 1) pool (.value rhs b) rightCode)
    (leftWords : c.structs.words a = 1) (rightWords : c.structs.words b = 1)
    (freeLeft : pool.lowestFree? = some l) (freeRight : (pool.take l).lowestFree? = some r)
    (room : Room top frame.depth 2) :
    Safe img c act top m frame pool (.value (.binary span (.relation rel) lhs rhs) .int)
      (leftCode ++ rightCode ++ (popCode (.general r) ++ popCode (.general l) ++
        [line (.cmp kind (.general l) (.register (.general r)))]) ++
        relationCode rel yes done) := by
  intro s hsp
  rw [List.append_assoc]
  refine (left.andThen (leftWords ▸ right) hsp).append fun s₂ h₂ => ?_
  simp only [Piece.words, leftWords, rightWords] at h₂
  refine ((hp.safe m).pushComparison hp (RegisterPool.ne_of_free_take freeLeft freeRight) h₂.sp
    (room.addresses act)
    (.inr trivial)).imp fun s₃ h₃ => ⟨?_, trivial⟩
  exact h₂.pushes h₃.1 (RegisterPool.not_live_of_mem_pair freeLeft freeRight) ⟨room.nonneg, room.le⟩

theorem logic (left : Safe img c act top m frame pool (.value lhs a) leftCode)
    (right : Safe img c act top m frame pool (.value rhs b) rightCode)
    (leftWords : c.structs.words a = 1) (rightWords : c.structs.words b = 1)
    (free : pool.lowestFree? = some k) (room : Room top frame.depth 1) :
    Safe img c act top m frame pool (.value (.binary span (.logic op) lhs rhs) .int)
      (leftCode ++ testCode (.general k) a (deciding op) l ++
        (rightCode ++ testCode (.general k) b (deciding op) l) ++ logicCode op l done) := by
  intro s hsp
  have htop : 0 ≤ top ∧ top ≤ frame.depth := ⟨room.nonneg, room.le⟩
  have hfree := RegisterPool.not_live_of_mem_free free
  have hresult : ∀ {s₁ s₂ : Store} (w : Word), act.Evaluated top frame.depth pool 1 s s₁ →
      s₁.Pushes s₂ (act.base + frame.depth) 0 [.general k] →
      Piece.Done c act top frame pool (.value (.binary span (.logic op) lhs rhs) .int) s
        (s₂.pushed (act.base + frame.depth) w) := fun w h₁ hpop =>
    ⟨(h₁.pushes hpop hfree htop).pushes Store.pushes_pushed (by simp) htop, trivial⟩
  refine (hp.safe m).logic hp
    (P := act.Evaluated top frame.depth pool 1 s) (R := act.Evaluated top frame.depth pool 1 s)
    ((left s hsp).imp fun s₁ h₁ => ?_) (fun s₁ h₁ => h₁.sp) ?_ (fun s₁ h₁ => h₁.sp)
    (room.addressable act (by omega)) (.inr trivial) (fun s₁ s₂ h₁ hpop _ => hresult _ h₁ hpop)
    (fun s₁ s₂ h₁ hpop _ => hresult _ h₁ hpop) (fun s₁ s₂ h₁ hpop _ => hresult _ h₁ hpop)
  · simpa only [Piece.words, leftWords] using h₁.1
  · intro s₁ s₂ h₁ hpop _
    have h₂ := h₁.pushes hpop hfree htop
    refine (right s₂ (by simpa using h₂.sp)).imp fun s₃ h₃ => ?_
    have h₃ : act.Evaluated top (frame.depth + (0 : Nat)) pool 1 s₂ s₃ := by
      simpa [Piece.words, rightWords] using h₃.1
    simpa using h₂.trans h₃

theorem negate (operand : Safe img c act top m frame pool (.value e type) code)
    (words : c.structs.words type = 1) (free : pool.lowestFree? = some k)
    (room : Room top frame.depth 1) :
    Safe img c act top m frame pool (.value (.unary span .negate e) type)
      (code ++ negateCode type (.general k)) := by
  intro s hsp
  refine (operand s hsp).append fun s₁ h₁ => (hp.safe m).leads ?_
  obtain ⟨h₁, -⟩ := h₁
  simp only [Piece.words, words] at h₁
  refine Image.wp_negateCode h₁.sp (room.addressable act (by omega)) (.inr trivial)
    (fun s₂ _ _ hpush _ => ⟨?_, trivial⟩)
  rw [Piece.words, words]
  exact h₁.pushes hpush (RegisterPool.not_live_of_mem_free free) ⟨room.nonneg, room.le⟩

theorem not (operand : Safe img c act top m frame pool (.value e type) code)
    (words : c.structs.words type = 1) (free : pool.lowestFree? = some k)
    (room : Room top frame.depth 1) :
    Safe img c act top m frame pool (.value (.unary span .not e) .int)
      (code ++ (popCode (.general k) ++ [line (zeroTest (.general k) type)]) ++
        relationCode .equal yes done) := by
  intro s hsp
  rw [List.append_assoc]
  refine (operand s hsp).append fun s₁ h₁ => ?_
  obtain ⟨h₁, -⟩ := h₁
  simp only [Piece.words, words] at h₁
  refine ((hp.safe m).pushTest hp h₁.sp (room.addressable act (by omega))
    (.inr trivial)).imp fun s₂ h₂ =>
    ⟨h₁.pushes h₂.1 (RegisterPool.not_live_of_mem_free free) ⟨room.nonneg, room.le⟩, trivial⟩

omit hp in
theorem held (place : Safe img c act top m frame pool (.address target type k) placeCode)
    (value : Safe img c act top m frame (pool.take k) (.value e found) valueCode)
    (free : pool.lowestFree? = some k) (hsp : s.registers .sp = .ofInt (act.base + frame.depth)) :
    img.Leads (img.Safe m) (placeCode ++ valueCode)
      (fun s' => act.Evaluated top frame.depth pool (c.structs.words found) s s' ∧
        ∃ a, s'.registers (.general k) = .ofInt a ∧ act.Owns top a (c.structs.words type)) s := by
  refine (place s hsp).append fun s₁ h₁ => ?_
  obtain ⟨h₁, a, ha, howns⟩ := h₁
  refine (value s₁ (by simpa [Piece.words] using h₁.sp)).imp fun s₂ h₂ => ⟨?_, a, ?_, howns⟩
  · have h₂ : act.Evaluated top frame.depth pool (c.structs.words found) s₁ s₂ :=
      h₂.1.fewer fun _ hr => RegisterPool.live_take hr
    simpa [Piece.words] using h₁.trans (by simpa [Piece.words] using h₂)
  · rw [h₂.1.live _ (RegisterPool.taken_live free), ha]

theorem assign (place : Safe img c act top m frame pool (.address target type k) placeCode)
    (value : Safe img c act top m frame (pool.take k) (.value e found) valueCode)
    (same : c.structs.words type = c.structs.words found) (free : pool.lowestFree? = some k)
    (room : Room top frame.depth (c.structs.words type)) :
    Safe img c act top m frame pool (.value (.assign span none target e) type)
      (placeCode ++ valueCode ++ store (c.structs.words type) (.general k)) := by
  intro s hsp
  refine (place.held value free hsp).append fun s₁ h₁ => (hp.safe m).leads ?_
  obtain ⟨h₁, a, ha, howns⟩ := h₁
  rw [← same] at h₁
  have htarget := howns.addressable (by have := room.le; have := room.small; omega)
  refine Image.wp_store h₁.sp ha (room.addresses act) htarget (.inr trivial) ⟨?_, trivial⟩
  refine h₁.writes ?_ (fun r hr => ?_) howns (fun z _ hz => copied_outside hz)
    ⟨room.nonneg, room.le⟩
  · simp [h₁.sp]
  · have hk : r ≠ .general k := fun he => RegisterPool.not_live_of_free free (he ▸ hr)
    simp [hk, live_ne_sp hr]

theorem update (place : Safe img c act top m frame pool (.address target a k) placeCode)
    (value : Safe img c act top m frame (pool.take k) (.value e b) valueCode)
    (placeWords : c.structs.words a = 1) (valueWords : c.structs.words b = 1)
    (free : pool.lowestFree? = some k) (freeOperand : (pool.take k).lowestFree? = some operand)
    (freeResult : ((pool.take k).take operand).lowestFree? = some result)
    (room : Room top frame.depth 1) :
    Safe img c act top m frame pool (.value (.assign span (some op) target e) a)
      (placeCode ++ valueCode ++ updateCode kind op (.general k) (.general operand)
        (.general result)) := by
  intro s hsp
  have hko : k ≠ operand := RegisterPool.ne_of_free_take free freeOperand
  have hor : operand ≠ result := RegisterPool.ne_of_free_take freeOperand freeResult
  have hkr : k ≠ result := by
    rintro rfl
    exact RegisterPool.not_live_of_free_take freeResult (RegisterPool.taken_live free)
  refine (place.held value free hsp).append fun s₁ h₁ => (hp.safe m).leads ?_
  obtain ⟨h₁, z, hz, howns⟩ := h₁
  rw [valueWords] at h₁
  rw [placeWords] at howns
  have htarget := howns.addressable (by have := room.le; have := room.small; omega)
  refine Image.wp_updateCode hko hkr hor h₁.sp (room.addressable act (by omega)) hz
    ⟨htarget.1, by omega⟩
    (.inr trivial) (fun s₂ _ _ hsp₂ hregs _ _ hmem => ⟨?_, trivial⟩) (fun _ => trivial)
  rw [Piece.words, placeWords]
  refine h₁.writes (by rw [hsp₂, h₁.sp]; rfl) (fun r hr => hregs r (live_ne_sp hr) ?_ ?_) howns
    (fun x hlt hx => hmem x (by omega) (by omega)) ⟨room.nonneg, room.le⟩
  · rintro rfl
    exact RegisterPool.not_live_of_free_take freeOperand hr
  · rintro rfl
    exact RegisterPool.not_live_of_free_take freeResult (RegisterPool.live_take hr)

theorem field (base : Safe img c act top m frame pool (.value e whole) code) {field : Field}
    (fits : field.offset + c.structs.words field.type ≤ c.structs.words whole)
    (free : pool.lowestFree? = some k) (room : Room top frame.depth (c.structs.words whole)) :
    Safe img c act top m frame pool (.value (.field span e name) field.type)
      (code ++ selectCode (c.structs.words whole) field (.general k)
        (c.structs.words field.type)) := by
  intro s hsp
  refine (base s hsp).append fun s₁ h₁ => (hp.safe m).leads ?_
  have hroom := room.addresses act
  refine Image.wp_selectCode h₁.1.sp hroom.1 (by omega) (.inr trivial) ⟨?_, trivial⟩
  exact h₁.1.pushes Store.pushes_moved (RegisterPool.not_live_of_mem_free free)
    ⟨room.nonneg, room.le⟩

theorem addressOf (place : Safe img c act top m frame pool (.address e type k) code)
    (room : Room top frame.depth 1) :
    Safe img c act top m frame pool (.value (.addressOf span e) (.reference type))
      (code ++ pushCode (.register (.general k))) := by
  intro s hsp
  refine (place s hsp).append fun s₁ h₁ => (hp.safe m).leads ?_
  refine Image.wp_pushCode (by simpa [Piece.words] using h₁.1.sp) (room.addressable act (by omega))
    (fun _ => ⟨?_, trivial⟩) (fun _ => trivial)
  exact h₁.1.pushes Store.pushes_pushed (by simp) ⟨room.nonneg, room.le⟩

theorem addressVar (fits : frame.Fits c.structs (img.StaticArea act.statics) act.low top)
    (found : frame.lookup name = some (type, location)) (free : pool.lowestFree? = some k) :
    Safe img c act top m frame pool (.address (.var span name) type k)
      (pointAt (.general k) location comment) := by
  intro s hsp
  refine (hp.safe m).leads (Image.wp_mono ?_ (wp_pointAt fits found hsp))
  rintro s' ⟨a, rfl, howns⟩
  refine ⟨⟨by simpa [Piece.words] using hsp, fun r hr => ?_, fun _ _ => rfl⟩, a,
    Store.registers_set.trans (if_pos rfl), howns⟩
  have hk : r ≠ .general k := fun he => RegisterPool.not_live_of_free free (he ▸ hr)
  simp [hk]

theorem addressField (base : Safe img c act top m frame pool (.address e whole k) code)
    {field : Field} (fits : field.offset + c.structs.words field.type ≤ c.structs.words whole)
    (free : pool.lowestFree? = some k) :
    Safe img c act top m frame pool (.address (.field span e name) field.type k)
      (code ++ fieldCode text field.offset (.general k)) := by
  intro s hsp
  refine (base s hsp).append fun s₁ h₁ => (hp.safe m).leads ?_
  obtain ⟨h₁, a, ha, howns⟩ := h₁
  refine Image.wp_fieldCode ha ⟨⟨by simpa [Piece.words] using h₁.sp, fun r hr => ?_, h₁.kept⟩,
    a + field.offset, Store.registers_set.trans (if_pos rfl), howns.part fits⟩
  have hk : r ≠ .general k := fun he => RegisterPool.not_live_of_free free (he ▸ hr)
  simp [hk, h₁.live r hr]

theorem receiver (place : Safe img c act top m frame pool (.address e type k) code)
    (room : Room top frame.depth 1) :
    Safe img c act top m frame pool (.receiver (some e)) (code ++ thisCode (.general k)) := by
  intro s hsp
  refine (place s hsp).append fun s₁ h₁ => (hp.safe m).leads ?_
  refine Image.wp_push (by simpa [Piece.words] using h₁.1.sp) (room.addressable act (by omega))
    (fun _ => ⟨?_, trivial⟩) (fun _ => trivial)
  exact h₁.1.pushes Store.pushes_pushed (by simp) ⟨room.nonneg, room.le⟩

omit hp in
theorem nothing (words : piece.words c.structs = 0)
    (leaves : ∀ s, piece.Leaves act top c.structs s) :
    Safe img c act top m frame pool piece [] := fun s hsp =>
  .nil ⟨words ▸ Evaluated.refl hsp, leaves s⟩

omit hp in
theorem argument (first : Safe img c act top m frame pool (.value e type) code)
    (rest : Safe img c act top m (frame.push (c.structs.words type)) pool
      (.arguments es types) restCode) :
    Safe img c act top m frame pool (.arguments (e :: es) (type :: types)) (code ++ restCode) :=
  fun _ hsp => (first.andThen rest hsp).imp fun _ h => ⟨h, trivial⟩

end Piece.Safe

theorem leads_enterCode (hs : img.Serves c) (hcalls : ∀ k < m, img.CallsSafe c act.statics k)
    (signature : c.functions.get? f = some t) (above : act.statics ≤ z + 1 + t.slot c.structs)
    (hsp : s.registers .sp = .ofInt z) (hz : Addressable z) :
    img.Leads (img.Safe m) (enterCode back f) (fun s' => s'.registers .sp = .ofInt z ∧
      ∀ a : Int, act.statics ≤ a → a < z + 1 + t.slot c.structs → s'.memory a = s.memory a) s := by
  intro pc here h
  obtain ⟨entry, hentry⟩ := hs.functions f t signature
  refine (hs.proper.safe m).enter hs.proper here hentry hsp hz (fun hlt x hstep => ?_)
    (fun _ => trivial)
  cases m with
  | zero => exact .zero
  | succ k =>
    have := hs.small
    refine .step hs.proper hstep
      (hcalls k (by omega) f t entry (z + 1) _ _ signature hentry above (by omega)
      (by simp) (by simp) here.size_le fun s' hsp' hmem => (h s' ⟨?_, fun a ha hbelow => ?_⟩).pred)
    · rw [hsp', Int.add_sub_cancel]
    · have := t.slot_neg c.structs
      rw [hmem a ha hbelow, Store.memory_pushed, if_neg (by omega)]

/-- Where a call leaves room for the result is where the function has its return slot. -/
theorem slot_eq {target : CallTarget} {types : List ValueType}
    (fits : types.map c.structs.words = target.signature.params.map fun p => c.structs.words p.2)
    (method : target.signature.receiver.isSome = target.receiver.isSome) :
    target.signature.slot c.structs = -1 - (types.map c.structs.words).sum - receiverWords
      target.receiver - c.structs.words target.signature.returns := by
  simp only [Signature.slot, Signature.argumentWords, Structs.totalWords_eq, List.map_map, fits,
    method, receiverWords]
  split <;> rfl

theorem Piece.Safe.call {target : CallTarget} (hs : img.Serves c)
    (hcalls : ∀ k < m, img.CallsSafe c act.statics k)
    (signature : c.functions.get? target.function = some target.signature)
    (this : Safe img c act top m
      (frame.push (pool.live.length + c.structs.words target.signature.returns)) pool
      (.receiver target.receiver) receiverCode) (args : Safe img c act top m
      (frame.push (pool.live.length + c.structs.words target.signature.returns +
      receiverWords target.receiver)) pool (.arguments es types) argsCode)
    (fits : types.map c.structs.words = target.signature.params.map fun p => c.structs.words p.2)
    (method : target.signature.receiver.isSome = target.receiver.isSome)
    (free : pool.live ≠ [] → c.structs.words target.signature.returns ≠ 0 →
      pool.lowestFree? = some k)
    (room : Room top frame.depth (pool.live.length + c.structs.words target.signature.returns +
      receiverWords target.receiver + (types.map c.structs.words).sum + 1)) :
    Safe img c act top m frame pool (.value (.call span callee es) target.signature.returns)
      (saveCode pool.live ++ roomCode (c.structs.words target.signature.returns) comment ++
        receiverCode ++
        argsCode ++ enterCode back target.function ++
        (target.signature.params.reverse.map fun p => c.structs.words p.2).flatMap lowerSp ++
        lowerSp (receiverWords target.receiver) ++
        slideCode pool.live (c.structs.words target.signature.returns) (.general k)) := by
  intro s hsp
  have hp := hs.proper
  have hroom := room.addresses act
  have htop : 0 ≤ top ∧ top ≤ frame.depth := ⟨room.nonneg, room.le⟩
  have hslot := slot_eq fits method
  have hsum : (target.signature.params.reverse.map fun p => c.structs.words p.2).sum =
      (types.map c.structs.words).sum := by rw [fits, List.map_reverse, List.sum_reverse]
  have hfree : pool.live ≠ [] → c.structs.words target.signature.returns ≠ 0 →
      .general k ∉ pool.live :=
    fun h h' => RegisterPool.not_live_of_free (free h h')
  have hbelow : ∀ {a}, act.Guards top frame.depth a → a < act.base + frame.depth := fun ha => by
    have := act.low_nonpos
    simp only [Guards] at ha
    omega
  generalize hn : c.structs.words target.signature.returns = n at *
  generalize hw : receiverWords target.receiver = w at *
  generalize ht : (types.map c.structs.words).sum = t at *
  simp only [List.append_assoc]
  -- Each stage leaves the saved registers in place and the stack pointer further up: registers,
  -- room, receiver, arguments.
  refine .append (P := act.Calling top frame.depth pool s
    (act.base + frame.depth + pool.live.length))
    ((hp.safe m).leads (Image.wp_saveCode hsp (by omega) (.inr trivial) (fun r hr => live_ne_sp hr)
      fun s₁ hsp₁ _ hsaved hmem => ⟨hsp₁, hsaved, fun a ha => hmem a (hbelow ha)⟩)) fun s₁ h₁ => ?_
  refine .append (P := act.Calling top frame.depth pool s
    (act.base + (frame.push (pool.live.length + n)).depth))
    ((hp.safe m).leads (Image.wp_roomCode h₁.sp (Calling.cast
      (h₁.next (Store.registers_set.trans (if_pos rfl)) (fun _ _ => rfl) htop) ?_))) fun s₂ h₂ => ?_
  · simp only [Frame.depth_push]
    omega
  refine .append (P := act.Calling top frame.depth pool s
    (act.base + (frame.push (pool.live.length + n + w)).depth))
    ((this s₂ h₂.sp).imp fun s₃ h₃ => (h₂.evaluated h₃.1 ?_ htop).cast ?_) fun s₃ h₃ => ?_
  · simp only [Frame.depth_push]
    omega
  · simp only [Frame.depth_push, Piece.words, hw]
    omega
  refine .append (P := act.Calling top frame.depth pool s
    (act.base + frame.depth + pool.live.length + n + w + t))
    ((args s₃ h₃.sp).imp fun s₄ h₄ => (h₃.evaluated h₄.1 ?_ htop).cast ?_) fun s₄ h₄ => ?_
  · simp only [Frame.depth_push]
    omega
  · simp only [Frame.depth_push, Piece.words, ht]
    omega
  -- The callee runs for fewer steps and gives the stack back at the height of the call.
  refine .append (P := act.Calling top frame.depth pool s
    (act.base + frame.depth + pool.live.length + n + w + t))
    ((leads_enterCode hs hcalls signature ?_ h₄.sp ⟨by omega, by omega⟩).imp fun s₅ h₅ =>
      h₄.next h₅.1 (fun a ha => h₅.2 a ha.1 ?_) htop) fun s₅ h₅ => ?_
  · have := act.above
    have := act.low_nonpos
    omega
  · have := act.low_nonpos
    simp only [Guards] at ha
    omega
  -- The arguments and the receiver are dropped, and the result slides over the saved registers.
  refine (hp.safe m).leads (Image.wp_append.mpr (Image.wp_flatMap_lowerSp (hsum ▸ h₅.sp)
    (Image.wp_append.mpr (Image.wp_lowerSp (Store.registers_set.trans (if_pos rfl))
    (Image.wp_slideCode (Store.registers_set.trans (if_pos rfl)) (fun _ => by omega)
      (fun _ => .inr trivial)
      (fun r hr => live_ne_sp hr) hfree h₅.saved fun s₆ hsp₆ hlive hmem _ =>
        ⟨⟨?_, hlive, fun a ha => ?_⟩, trivial⟩)))))
  · rw [hsp₆, Piece.words, hn]
  · rw [hmem a (hbelow ha)]
    exact h₅.kept a ha

/-- The code for a piece without dereferences is safe, if functions are safe for fewer steps. -/
theorem Emits.safe (hs : img.Serves c) (hcalls : ∀ k < m, img.CallsSafe c act.statics k)
    (h : Emits c frame pool n piece code n') (plain : piece.Plain)
    (fits : frame.Fits c.structs (img.StaticArea act.statics) act.low top)
    (room : Room top frame.depth
      (piece.height c.structs c.functions frame.scopes pool.live.length)) :
    piece.Safe img c act top m frame pool code := by
  have hp := hs.proper
  have hsound := hs.sound.structs
  have hwords := h.words_le_height hsound plain
  -- Each operand fits below the height of the whole, with the words of those before it on the
  -- stack.
  induction h with
  | constant h => exact .constant hp h (room.mono (by simpa [Piece.words, h.words] using hwords))
  | var found free => exact .var hp fits found free (room.mono hwords)
  | arithmetic left right leftWords rightWords typed freeLeft freeRight ihl ihr =>
    obtain rfl := Typing.arithmetic_type typed
    simp only [Piece.Plain, Expr.plain, Bool.and_eq_true] at plain
    have hl := left.words_le_height hsound plain.1
    have hr := right.words_le_height hsound plain.2
    simp only [Piece.words, Piece.height, Expr.height, leftWords, rightWords, Frame.scopes_push]
      at hl hr room ihl ihr
    exact .arithmetic hp (ihl plain.1 fits (room.mono (by omega)) hl)
      (ihr plain.2 fits (room.push (by omega)) hr)
      leftWords rightWords freeLeft freeRight (room.mono (by omega))
  | relation left right leftWords rightWords typed freeLeft freeRight ihl ihr =>
    simp only [Piece.Plain, Expr.plain, Bool.and_eq_true] at plain
    have hl := left.words_le_height hsound plain.1
    have hr := right.words_le_height hsound plain.2
    simp only [Piece.words, Piece.height, Expr.height, leftWords, rightWords, Frame.scopes_push]
      at hl hr room ihl ihr
    exact .relation hp (ihl plain.1 fits (room.mono (by omega)) hl)
      (ihr plain.2 fits (room.push (by omega)) hr)
      leftWords rightWords freeLeft freeRight (room.mono (by omega))
  | logic left right leftWords rightWords free ihl ihr =>
    simp only [Piece.Plain, Expr.plain, Bool.and_eq_true] at plain
    have hl := left.words_le_height hsound plain.1
    have hr := right.words_le_height hsound plain.2
    simp only [Piece.words, Piece.height, Expr.height, leftWords, rightWords] at hl hr room ihl ihr
    exact .logic hp (ihl plain.1 fits (room.mono (by omega)) hl)
      (ihr plain.2 fits (room.mono (by omega)) hr)
      leftWords rightWords free (room.mono (by omega))
  | negate operand number free ih =>
    have words : c.structs.words _ = 1 := Structs.words_of_isNumber number
    exact .negate hp (ih plain fits room hwords) words free (room.mono (words ▸ hwords))
  | not operand words free ih =>
    have ho := operand.words_le_height hsound plain
    exact .not hp (ih plain fits room ho) words free (room.mono (words ▸ ho))
  | assign place value accepted same ihp ihv =>
    simp only [Piece.Plain, Expr.plain, Bool.and_eq_true] at plain
    have hv := value.words_le_height hsound plain.2
    have free := place.free_of_address
    simp only [Piece.height, Expr.height, RegisterPool.length_live_take free] at hv room ihp ihv
    exact .assign hp (ihp plain.1 fits (room.mono (by omega)) (Nat.zero_le _))
      (ihv plain.2 fits (room.mono (by omega)) hv) same free (room.mono hwords)
  | update place value placeWords valueWords typed freeOperand freeResult ihp ihv =>
    obtain rfl := Typing.arithmetic_type typed
    simp only [Piece.Plain, Expr.plain, Bool.and_eq_true] at plain
    have hv := value.words_le_height hsound plain.2
    have free := place.free_of_address
    simp only [Piece.words, placeWords] at hwords
    simp only [Piece.height, Expr.height, RegisterPool.length_live_take free] at hv room ihp ihv
    exact .update hp (ihp plain.1 fits (room.mono (by omega)) (Nat.zero_le _))
      (ihv plain.2 fits (room.mono (by omega)) hv) placeWords valueWords free freeOperand freeResult
      (room.mono hwords)
  | field base found free ih =>
    have hb := base.words_le_height hsound plain
    exact .field hp (ih plain fits room hb) (hsound.fieldOf_fits found) free (room.mono hb)
  | addressOf place ih =>
    simp only [Piece.height, Expr.height] at room ih
    exact .addressOf hp (ih plain fits (room.mono (by omega)) (Nat.zero_le _))
      (room.mono (by omega))
  | dereference pointer free ih => cases plain
  | call resolved signature live result this args argsFit method free iht iha =>
    subst live result
    simp only [Piece.Plain, Expr.plain, Bool.and_eq_true] at plain
    have hthis := this.words_le_height hsound (plain_receiver resolved plain.1)
    have hargs := args.words_le_height hsound plain.2
    have hlt := args.arguments_lt_height
    simp only [Piece.height, height_call resolved, argsFit, Frame.scopes_push]
      at room hthis hargs hlt iht iha
    exact .call hs hcalls signature
      (iht (plain_receiver resolved plain.1) fits (room.push (by omega)) hthis)
      (iha plain.2 fits (room.push (by omega)) hargs) argsFit method free
      (room.mono (by rw [argsFit]; omega))
  | addressVar found free => exact .addressVar hp fits found free
  | addressField base found ih =>
    exact .addressField hp (ih plain fits room (Nat.zero_le _)) (hsound.fieldOf_fits found)
      base.free_of_address
  | addressDereference pointer free ih => cases plain
  | noReceiver | noArguments => exact .nothing rfl fun _ => trivial
  | receiver place ih =>
    simp only [Piece.height, Option.elim_some] at room ih
    exact .receiver hp (ih plain fits (room.mono (by omega)) (Nat.zero_le _)) (room.mono hwords)
  | argument first rest ihf ihr =>
    simp only [Piece.Plain, Expr.allPlain, Bool.and_eq_true] at plain
    have hf := first.words_le_height hsound plain.1
    have hr := rest.words_le_height hsound plain.2
    simp only [Piece.height, Expr.argumentsHeight, List.map_cons, Frame.scopes_push]
      at room hf hr ihf ihr
    exact .argument (ihf plain.1 fits (room.mono (by omega)) hf)
      (ihr plain.2 fits (room.push (by omega)) hr)

end

end Emit

end WordScript
