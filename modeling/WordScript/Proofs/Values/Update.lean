import WordScript.Proofs.Values.Assignment

/-!
# Compound assignment

Code for `d op= e` keeps the address of `d` in a register, reads the word there, combines it with
`e` and writes it back. Code for `d = d op e` goes to `d` twice: for the address, and for the word,
which is on the stack while `e` is computed. The two have the same type. Whatever `e` reads, `d`
itself included, they leave the same stack and the same memory below it, or both divide by zero
(`update_means_assignment`).
-/

namespace WordScript

open Emit

/-! ### Types -/

theorem Structs.accepts_self (s : Structs) (type : ValueType) : s.accepts type type = true := by
  have same : s.same type type = true := by
    induction type with
    | void | int | float | ptr => rfl
    | struct => simp [Structs.same]
    | reference type ih => exact ih
  simp [Structs.accepts, same]

namespace Typing

variable {c : TypeContext} {structs : Structs} {op : ArithmeticOp} {target e : Expr}
  {lhs rhs type : ValueType} {span span₁ span₂ : Span}

theorem arithmetic_elsewhere (h : arithmetic structs op lhs rhs span = .ok type) :
    arithmetic structs op lhs rhs span₁ = .ok type := by
  simp only [arithmetic] at h ⊢
  split at h
  · next known => rwa [if_pos known]
  · split at h <;> simp at h

/-- `d op= e` has the type of `d = d op e`. -/
theorem typeOf_update_iff : typeOf c (.assign span (some op) target e) = .ok type ↔
    typeOf c (.assign span₁ none target (.binary span₂ (.arithmetic op) target e)) = .ok type := by
  constructor
  · intro h
    obtain ⟨addressable, place, found, hplace, hfound, placeWords, foundWords, result⟩ :=
      typeOf_update h
    obtain rfl := arithmetic_type result
    have hvalue : typeOf c (.binary span₂ (.arithmetic op) target e) = .ok type := by
      simp only [typeOf, bind_eq_ok, singleWord_eq_ok]
      exact ⟨_, hplace, found, hfound, (), placeWords, (), foundWords, arithmetic_elsewhere result⟩
    rw [typeOf, if_pos addressable]
    simp only [bind_eq_ok]
    exact ⟨_, hplace, _, hvalue, if_pos (Structs.accepts_self _ _)⟩
  · intro h
    obtain ⟨addressable, result, hplace, hvalue, -⟩ := typeOf_assign h
    obtain ⟨place, found, hplace', hfound, placeWords, foundWords, hresult⟩ := typeOf_binary hvalue
    obtain rfl := Except.ok.inj (hplace.symm.trans hplace')
    obtain rfl := arithmetic_type hresult
    rw [typeOf, if_pos addressable]
    simp only [bind_eq_ok, singleWord_eq_ok]
    exact ⟨_, hplace, found, hfound, (), placeWords, (), foundWords, arithmetic_elsewhere hresult⟩

end Typing

/-! ### Meanings in other images -/

/-- Both images have the statics of the frame and the strings of the program at the same addresses.
-/
structure Image.Agrees (img img' : Image) (c : EmitContext) (frame : Frame) : Prop where
  statics : ∀ name type l, frame.lookup name = some (type, .static l) → img'.value l = img.value l
  strings : ∀ content l, c.strings.label? content = some l → img'.value l = img.value l

theorem Image.Agrees.refl {img : Image} {c : EmitContext} {frame : Frame} :
    img.Agrees img c frame :=
  ⟨fun _ _ _ _ => rfl, fun _ _ _ => rfl⟩

namespace View

def withImage (v : View) (img : Image) : View := { v with image := img }

variable {v : View} {img : Image}

@[simp] theorem context_withImage : (v.withImage img).context = v.context := rfl

@[simp] theorem frame_withImage : (v.withImage img).frame = v.frame := rfl

@[simp] theorem typeOf_withImage : (v.withImage img).typeOf e = v.typeOf e := rfl

@[simp] theorem kind_withImage : (v.withImage img).kind e = v.kind e := rfl

@[simp] theorem size_withImage : (v.withImage img).size e = v.size e := rfl

@[simp] theorem field?_withImage : (v.withImage img).field? e name = v.field? e name := rfl

@[simp] theorem word_withImage : (v.withImage img).word x = v.word x := by cases x <;> rfl

@[simp] theorem decides_withImage : (v.withImage img).decides op e x = v.decides op e x := by
  simp only [decides, kind_withImage, word_withImage]

@[simp] theorem inside_withImage : (v.withImage img).Inside a n ↔ v.Inside a n := .rfl

theorem eval_negate_typeOf : v.eval (.unary span .negate e) = (do
    let a ← v.eval e
    let type ← Mishap.senseless.ifNone (v.typeOf e)
    return .word (← Mishap.division.ifNone
      (Word.arithmetic? (v.kind e) .mul (v.word a) (minusOne type)))) := rfl

theorem eval_string_withImage (agrees : v.image.Agrees img v.context v.frame) :
    (v.withImage img).eval (.string span content) = v.eval (.string span content) := by
  rw [eval_string, eval_string, context_withImage]
  cases found : v.context.strings.label? content with
  | none => simp only [Mishap.ifNone, bind, Except.bind]
  | some l =>
    have same : (v.withImage img).image.value l = v.image.value l := agrees.strings content l found
    simp only [Mishap.ifNone_some, bind, Except.bind, same]

theorem locate_withImage (agrees : v.image.Agrees img v.context v.frame)
    (found : v.frame.lookup name = some (type, location)) :
    (v.withImage img).locate location = v.locate location := by
  cases location with
  | stack => rfl
  | static l =>
    rw [locate, locate]
    exact congrArg Int32.toInt (agrees.statics name type l found)

theorem eval_var_withImage (agrees : v.image.Agrees img v.context v.frame) :
    (v.withImage img).eval (.var span name) = v.eval (.var span name) := by
  rw [eval_var, eval_var, frame_withImage]
  cases found : v.frame.lookup name with
  | none => simp only [Mishap.ifNone, bind, Except.bind]
  | some entry => simp only [Mishap.ifNone_some, bind, Except.bind, locate_withImage agrees found]

/-- Of its image, an expression knows the addresses of statics and strings only. -/
theorem eval_withImage (agrees : v.image.Agrees img v.context v.frame) :
    ∀ e, (v.withImage img).eval e = v.eval e
  | .integer .. | .float .. | .call .. | .assign .. => rfl
  | .sizeOf .. => by
    rw [eval_sizeOf, eval_sizeOf]
    rfl
  | .string .. => eval_string_withImage agrees
  | .var .. => eval_var_withImage agrees
  | .binary _ (.arithmetic _) lhs rhs => by
    simp only [eval_arithmetic, eval_withImage agrees lhs, eval_withImage agrees rhs,
      kind_withImage, word_withImage]
  | .binary _ (.relation _) lhs rhs => by
    simp only [eval_relation, eval_withImage agrees lhs, eval_withImage agrees rhs, kind_withImage,
      word_withImage]
  | .binary _ (.logic _) lhs rhs => by
    simp only [eval_logic, eval_withImage agrees lhs, eval_withImage agrees rhs, decides_withImage]
  | .unary _ .negate e => by
    simp only [eval_negate_typeOf, eval_withImage agrees e, typeOf_withImage, kind_withImage,
      word_withImage]
  | .unary _ .not e => by
    simp only [eval_not, eval_withImage agrees e, kind_withImage, word_withImage]
  | .field _ base _ => by simp only [eval_field, eval_withImage agrees base, field?_withImage]
  | .addressOf _ e => by simp only [eval_addressOf, eval_withImage agrees e]
  | .dereference _ e => by simp only [eval_dereference, eval_withImage agrees e, word_withImage,
      size_withImage, inside_withImage]

theorem eval_arithmetic_word (h : v.eval (.binary span (.arithmetic op) lhs rhs) = .ok x) :
    ∃ w, x = .word w := by
  simp only [eval_arithmetic, bind_eq_ok, pure_eq_ok] at h
  obtain ⟨-, -, -, -, w, -, rfl⟩ := h
  exact ⟨w, rfl⟩

theorem eval_arithmetic_ne_stray (left : v.eval lhs ≠ .error .stray)
    (right : v.eval rhs ≠ .error .stray) :
    v.eval (.binary span (.arithmetic op) lhs rhs) ≠ .error .stray := by
  intro h
  simp only [eval_arithmetic, bind_eq_error, Mishap.ifNone_eq_error] at h
  obtain h | ⟨_, -, h | ⟨_, -, ⟨-, h⟩ | ⟨_, -, h⟩⟩⟩ := h
  · exact left h
  · exact right h
  · cases h
  · cases h

theorem height_le_arithmetic : v.height rhs ≤ v.height (.binary span (.arithmetic op) lhs rhs) :=
  Nat.le_trans (Nat.le_add_left _ 1) (Nat.le_max_right ..)

/-! ### Updates -/

variable {frame : Frame} {z : Int} {s : Store} {may : Mishap → Prop} {G : State → Prop}
  {pool : RegisterPool} {target e : Expr} {type found : ValueType} {placeCode valueCode : Assembly}

/-- The word at the place is replaced by what `target op e` means, and so is that of `e` on the
stack. -/
theorem updates (hG : v.image.Closed (fun t => t = .division ∧ may .division) G)
    (place : v.Points may G frame pool target type k placeCode)
    (value : v.Reads may G frame (pool.take k) e found valueCode)
    (placeWords : v.context.structs.words type = 1) (valueWords : v.context.structs.words found = 1)
    (typed : v.typeOf target = some type) (free : pool.lowestFree? = some k)
    (freeOperand : (pool.take k).lowestFree? = some operand)
    (freeResult : ((pool.take k).take operand).lowestFree? = some result) (one : 1 ≤ v.height e)
    (sees : v.Sees frame z s) (fits : v.image.Fits z (max (v.placeHeight target) (v.height e)))
    (hstop : ∀ reason, v.eval (.binary span (.arithmetic op) target e) = .error reason →
      may reason) :
    v.image.Leads G (placeCode ++ valueCode ++ updateCode (numKind type) op (.general k)
      (.general operand) (.general result))
      (fun s' => ∃ a w, v.eval target = .ok (.place a) ∧
        v.eval (.binary span (.arithmetic op) target e) = .ok (.word w) ∧
        v.Inside a 1 ∧ Stored pool z a [w] s s') s := by
  have fitsValue : v.image.Fits z (v.height e) := fits.mono (Nat.le_max_right ..)
  have hko : k ≠ operand := RegisterPool.ne_of_free_take free freeOperand
  have hor : operand ≠ result := RegisterPool.ne_of_free_take freeOperand freeResult
  have hkr : k ≠ result := by
    rintro rfl
    exact RegisterPool.not_live_of_free_take freeResult (RegisterPool.taken_live free)
  rw [List.append_assoc]
  refine (place z s sees (fits.mono (Nat.le_max_left ..)) fun reason h => hstop reason ?_).append ?_
  · rw [eval_arithmetic, h]
    rfl
  rintro s₁ ⟨a, ha, inside, h₁⟩
  rw [placeWords] at inside
  refine (value z s₁ (sees.again h₁.toUndisturbed h₁.sp) fitsValue fun reason h =>
    hstop reason ?_).append ?_
  · rw [eval_arithmetic, ha, h]
    rfl
  rintro s₂ ⟨x, hx, h₂⟩
  rw [valueWords, words_one] at h₂
  have haddress : s₂.registers (.general k) = .ofInt a :=
    (h₂.live _ (RegisterPool.taken_live free)).trans h₁.address
  have hkept : Undisturbed pool z s s₂ := h₁.trans h₂.fewer (Int.le_refl z)
  obtain ⟨nonneg, below⟩ : 0 ≤ a ∧ a + 1 ≤ v.sp := inside.resolve_left (by omega)
  have habove := sees.above
  have hsmall := fitsValue.small
  have hinside := fitsValue.inside
  -- The place is below the stack pointer, so the value has left it alone.
  have hold : s₂.memory a = v.memory a := by rw [hkept.below a (by omega), sees.memory a (by omega)]
  have heval : v.eval (.binary span (.arithmetic op) target e) = (do
      return .word (← Mishap.division.ifNone
        (Word.arithmetic? (numKind type) op (s₂.memory a) (s₂.memory z)))) := by
    rw [eval_arithmetic, ha, hx, kind_eq typed, hold, h₂.top]
    rfl
  -- Only the division can end the update early, and then `target op e` divides by zero as well.
  refine hG.leads (Image.wp_updateCode hko hkr hor h₂.sp (fitsValue.addressable one) haddress
    ⟨nonneg, by omega⟩
    (.inl ⟨by omega, by omega⟩) (fun s₃ w hw hsp hregs hz hw' hothers => ?_) fun hnone =>
      ⟨rfl, hstop _ ?_⟩)
  · rw [hw] at heval
    refine ⟨a, w, ha, heval, inside, hsp, fun r hr => ?_, by simpa using hz, by simpa using hw',
      fun b hb hout => ?_⟩
    · have hro : r ≠ .general operand :=
        fun heq => RegisterPool.not_live_of_free_take freeOperand (heq ▸ hr)
      have hrr : r ≠ .general result := fun heq =>
        RegisterPool.not_live_of_free_take freeResult (RegisterPool.live_take (heq ▸ hr))
      rw [hregs r (live_ne_sp hr) hro hrr, hkept.live r hr]
    · have hne : b ≠ a := by
        rintro rfl
        simp only [List.length_singleton] at hout
        omega
      rw [hothers b (by omega) hne, hkept.below b hb]
  · rw [heval, hnone]
    rfl

end View

/-! ### Machines -/

namespace Machine

structure Ends (m : Machine) (pc : Nat) (top : Word) (contents : Word → Option Word) : Prop where
  pc : m.pc = pc
  sp : m.sp = top
  below : ∀ b < top, m.word? b = contents b

def written (m : Machine) (a w : Word) (b : Word) : Option Word :=
  if b = m.sp ∨ b = a then some w else m.word? b

/-- From `pc` on the machine writes the word that `value` means to the place that `target` means,
and leaves it on the stack. Where `value` divides by zero, so does the machine. -/
structure Settles (m : Machine) (v : View) (pc back : Nat) (target value : Expr) : Prop where
  ends : ∀ a w, v.eval target = .ok (.place a) → v.eval value = .ok (.word w) →
    (m.moveTo pc).Arrives (·.Ends back (m.sp + 1) (m.written (.ofInt a) w))
  divides : v.eval value = .error .division → (m.moveTo pc).Divides

variable {m m' : Machine} {pc : Nat}

theorem written_congr (sp : m'.sp = m.sp) (memory : m'.memory = m.memory) :
    m'.written a w = m.written a w := by
  have hword : m'.word? = m.word? := by
    cases m
    cases m'
    cases memory
    rfl
  funext b
  rw [written, written, sp, hword]

theorem Assigned.ends {a w : Word} {live : List Register} (h : m.Assigned m' pc a [w] live)
    (nonneg : 0 ≤ m.sp.toInt)
    (small : m.sp.toInt + 1 < 2 ^ 31) : m'.Ends pc (m.sp + 1) (m.written a w) where
  pc := h.pc
  sp := h.sp
  below b hb := by
    have hsp : m.sp + .ofNat 0 = m.sp := by simp
    have ha : a + .ofNat 0 = a := by simp
    rw [Machine.written]
    by_cases htop : b = m.sp
    · have := h.top 0 (by simp)
      rw [if_pos (.inl htop), htop, ← hsp, this]
      rfl
    by_cases hplace : b = a
    · have := h.written 0 (by simp)
      rw [if_pos (.inr hplace), hplace, ← ha, this]
      rfl
    rw [if_neg (by simp [htop, hplace])]
    refine h.others b ?_ fun i hi => ?_
    · have hnext : (m.sp + 1).toInt = m.sp.toInt + 1 := toInt_add_ofNat (i := 1) nonneg small
      rw [Int32.lt_iff_toInt_lt] at hb ⊢
      have hne : b.toInt ≠ m.sp.toInt := fun heq => htop (Int32.toInt_inj.mp heq)
      omega
    · obtain rfl : i = 0 := by simpa using hi
      rwa [ha]

/-- The machine runs an image that has code for the expression at `pc`. The variables of the frame
are below its stack pointer. -/
structure Faces (m : Machine) (img : Image) (c : EmitContext) (frame : Frame) (pc : Nat) (e : Expr)
    (code : Assembly) :
    Prop where
  proper : img.Proper
  carries : m.Carries img c frame
  generated : ∃ pool labels st, expr c e ⟨frame, pool, labels⟩ = .ok code st
  here : img.code.At pc code

namespace Carries

variable {img : Image} {c : EmitContext} {frame : Frame} {target value e : Expr} {type : ValueType}
  {code : Assembly} {pool : RegisterPool} {n n' back : Nat}

theorem settles (pool : RegisterPool) (carries : m.Carries img c frame)
    (fits : img.Fits m.sp.toInt 1) (h : ∀ (may : Mishap → Prop) (P : Machine ⊕ Ending → Prop),
      (may .division → ∀ pc, P (.inr (.error (.divisionByZero pc)))) →
      ¬may .stray → (∀ reason, (View.of img c frame m).eval value = .error reason → may reason) →
      (∀ a w s' m', (View.of img c frame m).eval target = .ok (.place a) →
        (View.of img c frame m).eval value = .ok (.word w) →
        (View.of img c frame m).Inside a 1 → Stored pool m.sp.toInt a [w] m.store s' →
        m'.Shows img ⟨back, s'⟩ → P (.inl m')) →
      (m.moveTo pc).Comes P) :
    m.Settles (View.of img c frame m) pc back target value where
  ends a w ha hw := by
    -- Where there is a value, nothing may go wrong; where it divides by zero, nothing else may.
    refine h (fun _ => False) _ (fun h => h.elim) id (fun reason h => ?_) ?_
    · cases hw.symm.trans h
    · intro a' w' s' m' ha' hw' inside hstored hm'
      obtain rfl := Seen.place.inj (Except.ok.inj (ha.symm.trans ha'))
      obtain rfl := Seen.word.inj (Except.ok.inj (hw.symm.trans hw'))
      exact ⟨m', rfl, (hstored.assigned carries.shows hm' fits inside).ends fits.nonneg fits.small⟩
  divides hdivision := by
    refine h (· = .division) _ (fun _ pc => ⟨pc, rfl⟩) (by simp) (fun reason h => ?_) ?_
    · exact Except.error.inj (h.symm.trans hdivision)
    · intro a w s' m' _ hw
      cases hdivision.symm.trans hw

variable (carries : m.Carries img c frame) (proper : img.Proper) (sound : c.Sound)
include carries proper sound

/-- Code for `d op= e` does what `d = d op e` means. -/
theorem update_settles (emits : Emits c frame pool n
      (.value (.assign span (some op) target e) type) code n')
    (path : target.isPath = true) (quiet : e.effectFree = true) (fits : img.Fits m.sp.toInt
      (max ((View.of img c frame m).placeHeight target) ((View.of img c frame m).height e)))
    (here : img.code.At pc code) :
    m.Settles (View.of img c frame m) pc (pc + code.size) target
      (.binary span' (.arithmetic op) target e) := by
  let v := View.of img c frame m
  cases emits with
  | constant known => cases known
  | update place value placeWords valueWords typed freeOperand freeResult =>
    obtain rfl := Typing.arithmetic_type typed
    have quietTarget := Expr.effectFree_of_isPath path
    have typedTarget : v.typeOf target = some type := View.typeOf_address place rfl quietTarget
    have typedValue : v.typeOf e = some _ := View.typeOf_value value rfl quiet
    have one : c.structs.words _ ≤ v.height e := View.words_le_height sound.structs quiet typedValue
    rw [valueWords] at one
    refine carries.settles pool (fits.mono (Nat.le_trans one (Nat.le_max_right ..)))
      fun may P hP stray hstop h => ?_
    have hG := proper.eventually_or_division hP
    have points := View.means_of_emits (v := v) may hG proper sound.structs carries.consistent stray
      place rfl quietTarget
    have reads := View.means_of_emits (v := v) may hG proper sound.structs carries.consistent stray
      value rfl quiet
    refine (View.updates hG points reads placeWords valueWords typedTarget place.free_of_address
      freeOperand freeResult one
      View.of_sees fits hstop).comes here (carries.shows_moveTo pc) ?_
    rintro s' m' ⟨a, w, ha, hw, inside, hstored⟩ hm'
    exact h a w s' m' ha hw inside hstored hm'

theorem expanded_settles (emits : Emits c frame pool n
      (.value (.assign span none target (.binary span' (.arithmetic op) target e)) type) code n')
    (path : target.isPath = true) (quiet : e.effectFree = true) (words : c.structs.words type = 1)
    (fits : img.Fits m.sp.toInt (max ((View.of img c frame m).placeHeight target)
      ((View.of img c frame m).height (.binary span' (.arithmetic op) target e))))
      (here : img.code.At pc code) :
    m.Settles (View.of img c frame m) pc (pc + code.size) target
      (.binary span' (.arithmetic op) target e) := by
  have quietValue : Expr.effectFree (.binary span' (.arithmetic op) target e) = true :=
    Bool.and_eq_true_iff.mpr ⟨Expr.effectFree_of_isPath path, quiet⟩
  have one : 1 ≤ (View.of img c frame m).height (.binary span' (.arithmetic op) target e) :=
    Nat.le_trans (Nat.le_add_right 1 _) (Nat.le_max_right ..)
  refine carries.settles pool (fits.mono (Nat.le_trans one (Nat.le_max_right ..)))
    fun may P hP stray hstop h => ?_
  refine carries.assignment_comes proper sound may hP stray emits path quietValue fits
    (fun reason h => hstop reason ?_) hstop here ?_
  · rw [View.eval_arithmetic, h]
    rfl
  · intro a x s' m' ha hx inside hstored hm'
    obtain ⟨w, rfl⟩ := View.eval_arithmetic_word hx
    rw [words] at inside hstored
    exact h a w s' m' ha hx inside hstored hm'

theorem expanded_meaning (emits : Emits c frame pool n
      (.value (.assign span none target (.binary span' (.arithmetic op) target e)) type) code n')
    (path : target.isPath = true) (quiet : e.effectFree = true)
    (fits : img.Fits m.sp.toInt (max ((View.of img c frame m).placeHeight target)
      ((View.of img c frame m).height (.binary span' (.arithmetic op) target e))))
    (belowTarget : (View.of img c frame m).eval target ≠ .error .stray)
    (belowValue : (View.of img c frame m).eval e ≠ .error .stray) (here : img.code.At pc code) :
    (∃ a w, (View.of img c frame m).eval target = .ok (.place a) ∧
        (View.of img c frame m).eval (.binary span' (.arithmetic op) target e) = .ok (.word w)) ∨
      (View.of img c frame m).eval (.binary span' (.arithmetic op) target e) =
        .error .division := by
  cases emits with
  | constant known => cases known
  | assign place value accepted same =>
    -- The address is read first, so it has a meaning even if the value divides by zero.
    obtain ⟨a, ha, -⟩ := carries.locates proper sound place path (fits.mono (Nat.le_max_left ..))
      belowTarget here.left.left
    refine (carries.meaning proper sound value
      (Bool.and_eq_true_iff.mpr ⟨Expr.effectFree_of_isPath path, quiet⟩)
      (fits.mono (Nat.le_max_right ..)) (View.eval_arithmetic_ne_stray belowTarget belowValue)
      here.left.right).imp_left ?_
    rintro ⟨x, hx⟩
    obtain ⟨w, rfl⟩ := View.eval_arithmetic_word hx
    exact ⟨a, w, ha, hx⟩

end Carries

end Machine

/-- `d op= e` has a type where `d = d op e` has it, and the same one. From machines with the same
stack and the same memory, the codes of both divide by zero, or both end with the same stack pointer
and the same memory below it. -/
theorem update_means_assignment (path : Expr.isPath target = true)
    (quiet : Expr.effectFree e = true) :
    (∀ c type, Typing.typeOf c (.assign span (some op) target e) = .ok type ↔
      Typing.typeOf c (.assign span₁ none target (.binary span₂ (.arithmetic op) target e)) =
      .ok type) ∧
    ∀ {source p c frame img img' m m' pc pc' code code'}, Program.ofSource source = .ok p →
    EmitContext.Serves c p → Machine.Faces m img c frame pc (.assign span (some op) target e) code →
      Machine.Faces m' img' c frame pc'
        (.assign span₁ none target (.binary span₂ (.arithmetic op) target e)) code' →
      img.Agrees img' c frame → m'.sp = m.sp → m'.memory = m.memory →
      img.Fits m.sp.toInt (max ((View.of img c frame m).placeHeight target)
        ((View.of img c frame m).height (.binary span₂ (.arithmetic op) target e))) →
      (View.of img c frame m).eval target ≠ .error .stray →
      (View.of img c frame m).eval e ≠ .error .stray →
      (m.moveTo pc).Divides ∧ (m'.moveTo pc').Divides ∨
        ∃ top contents, (m.moveTo pc).Arrives (·.Ends (pc + code.size) top contents) ∧
          (m'.moveTo pc').Arrives (·.Ends (pc' + code'.size) top contents) := by
  refine ⟨fun c type => Typing.typeOf_update_iff, ?_⟩
  intro source p c frame img img' m m' pc pc' code code' parsed serves update expanded agrees hsp
    hmemory fits belowTarget belowValue
  have sound := serves.sound (Program.ofSource_wellNamed parsed)
  obtain ⟨pool, labels, st, generated⟩ := update.generated
  obtain ⟨pool', labels', st', generated'⟩ := expanded.generated
  obtain ⟨type, n, typed, -, emits⟩ := expr_emits sound _ _ _ _ _ _ generated
  obtain ⟨type', n', typed', -, emits'⟩ := expr_emits sound _ _ _ _ _ _ generated'
  obtain rfl := Except.ok.inj (typed'.symm.trans (Typing.typeOf_update_iff.mp typed))
  have words : c.structs.words type' = 1 := by
    obtain ⟨-, place, found, -, -, placeWords, -, result⟩ := Typing.typeOf_update typed
    exact Typing.arithmetic_type result ▸ placeWords
  -- The second machine is seen as the first one, whose image has the same addresses.
  have hview : View.of img' c frame m' = (View.of img c frame m).withImage img' := by
    simp only [View.of, View.withImage, Machine.store, hsp, hmemory]
  have heval : ∀ e, (View.of img' c frame m').eval e = (View.of img c frame m).eval e := fun e => by
    rw [hview, View.eval_withImage agrees]
  have fits' : img'.Fits m'.sp.toInt (max ((View.of img' c frame m').placeHeight target)
      ((View.of img' c frame m').height (.binary span₂ (.arithmetic op) target e))) := by
    have hsize : img'.memoryWords = img.memoryWords := by
      rw [← expanded.carries.size, hmemory, update.carries.size]
    exact ⟨hsp ▸ fits.nonneg, hsp ▸ fits.small, hsp ▸ hsize ▸ fits.inside⟩
  have settles : m.Settles (View.of img c frame m) pc (pc + code.size) target
      (.binary span₂ (.arithmetic op) target e) :=
    update.carries.update_settles update.proper sound emits path quiet
      (fits.mono (Nat.max_le.mpr ⟨Nat.le_max_left ..,
        Nat.le_trans View.height_le_arithmetic (Nat.le_max_right ..)⟩)) update.here
  have settles' := expanded.carries.expanded_settles expanded.proper sound emits' path quiet words
    fits' expanded.here
  have meaning := expanded.carries.expanded_meaning expanded.proper sound emits' path quiet fits'
    (heval _ ▸ belowTarget) (heval _ ▸ belowValue) expanded.here
  rw [heval, heval] at meaning
  rcases meaning with ⟨a, w, ha, hw⟩ | hdivision
  · refine .inr ⟨m.sp + 1, m.written (.ofInt a) w, settles.ends a w ha hw, ?_⟩
    rw [← hsp, ← Machine.written_congr hsp hmemory]
    exact settles'.ends a w ((heval _).trans ha) ((heval _).trans hw)
  · exact .inl ⟨settles.divides hdivision, settles'.divides ((heval _).trans hdivision)⟩

def SourceText.scalesField : SourceText := .ofString
  ("struct S \x7b int k; int x; \x7d static S o; static S& p; " ++
    "p = o&; o.x = 5; p@.x *= o.x - 2; p@.x = p@.x * (o.x - 2);")

open Assembly in
theorem update_means_assignment_scalesField :
    ∃ p c target e frame code code', ∃ img : Image, ∃ m : Machine, ∃ pc pc',
    Program.ofSource .scalesField = .ok p ∧ EmitContext.Serves c p ∧ Expr.isPath target = true ∧
    Expr.effectFree e = true ∧
    Typing.typeOf (c.at frame) (.assign ⟨0, 0⟩ (some .mul) target e) = .ok .int ∧
    Typing.typeOf (c.at frame)
      (.assign ⟨0, 0⟩ none target (.binary ⟨0, 0⟩ (.arithmetic .mul) target e)) = .ok .int ∧
    m.Faces img c frame pc (.assign ⟨0, 0⟩ (some .mul) target e) code ∧
    m.Faces img c frame pc' (.assign ⟨0, 0⟩ none target
      (.binary ⟨0, 0⟩ (.arithmetic .mul) target e)) code' ∧
    img.Fits m.sp.toInt (max ((View.of img c frame m).placeHeight target)
      ((View.of img c frame m).height (.binary ⟨0, 0⟩ (.arithmetic .mul) target e))) ∧
    (View.of img c frame m).eval target = .ok (.place 1) ∧
    (View.of img c frame m).eval e = .ok (.word 3) ∧
    ((m.moveTo pc).Divides ∧ (m.moveTo pc').Divides ∨
      ∃ top contents, (m.moveTo pc).Arrives (·.Ends (pc + code.size) top contents) ∧
        (m.moveTo pc').Arrives (·.Ends (pc' + code'.size) top contents)) := by
  have hrun : (do
      let build ← Build.ofSource? .scalesField
      let c := build.context
      let target : Expr :=
        .field ⟨0, 0⟩ (.dereference ⟨0, 0⟩ (.var ⟨0, 0⟩ "p")) ⟨"x", ⟨0, 0⟩, ⟨0, 0⟩⟩
      let e : Expr :=
        .binary ⟨0, 0⟩ (.arithmetic .sub) (.field ⟨0, 0⟩ (.var ⟨0, 0⟩ "o") ⟨"x", ⟨0, 0⟩, ⟨0, 0⟩⟩)
        (.integer ⟨0, 0⟩ 2)
      let value : Expr := .binary ⟨0, 0⟩ (.arithmetic .mul) target e
      let st : EmitState := ⟨.topLevel build.statics, .empty, .start⟩
      let updated ← (expr c (.assign ⟨0, 0⟩ (some .mul) target e)).result? st
      let assigned ← (expr c (.assign ⟨0, 0⟩ none target value)).result? st
      let a := build.code
      let img : Image := ⟨a, a.value, 20⟩
      ((Machine.load (Bytecode.ofList (a.words a.value)) ⟨20, none⟩).runFor 20).getLeft?.filter
        fun (m : Machine) => let v := View.of img c st.frame m
        decide ((Typing.typeOf (c.at st.frame) (.assign ⟨0, 0⟩ (some .mul) target e)).toOption =
          some ValueType.int ∧
          a.size < 2 ^ 31 ∧ (a.drop 21).take updated.1.length = updated.1 ∧
          (a.drop 58).take assigned.1.length = assigned.1 ∧ v.Consistent ∧
          img.Fits m.sp.toInt (max (v.placeHeight target) (v.height value)) ∧
          (v.eval target).toOption = some (Seen.place 1) ∧
          (v.eval e).toOption = some (Seen.word 3))).isSome = true := by
    decide +kernel
  obtain ⟨m, hrun⟩ := Option.isSome_iff_exists.mp hrun
  obtain ⟨⟨p, c, statics, a⟩, hbuild, hrun⟩ := Option.bind_eq_some_iff.mp hrun
  dsimp only at hrun
  obtain ⟨updated, hupdated, hrun⟩ := of_result?_bind hrun
  obtain ⟨assigned, hassigned, hrun⟩ := of_result?_bind hrun
  obtain ⟨hm, hrun⟩ := Option.filter_eq_some_iff.mp hrun
  rw [Sum.getLeft?_eq_some_iff] at hm
  obtain ⟨typed, hsize, hereUpdated, hereAssigned, consistent, fits, hplace, hvalue⟩ :=
    of_decide_eq_true hrun
  rw [toOption_eq_some] at typed hplace hvalue
  obtain ⟨parsed, serves, -, complete⟩ := Build.of_some hbuild
  have proper : Image.Proper ⟨a, a.value, 20⟩ := complete.proper rfl hsize
  have hb := (Machine.Bounded.load _ _).runFor hm
  have carries : m.Carries ⟨a, a.value, 20⟩ _ _ := ⟨by rw [hb.code]; rfl, hb.memory, consistent⟩
  have update :=
    Machine.Faces.mk proper carries ⟨_, _, _, hupdated⟩ (Assembly.At.of_slice hereUpdated)
  have expanded :=
    Machine.Faces.mk proper carries ⟨_, _, _, hassigned⟩ (Assembly.At.of_slice hereAssigned)
  exact ⟨p, _, _, _, _, _, _, _, m, _, _, parsed, serves, rfl, rfl, typed,
    ((update_means_assignment (by rfl) (by rfl)).1 _ _).mp typed, update, expanded, fits,
    hplace, hvalue,
    (update_means_assignment (by rfl) (by rfl)).2 parsed serves update expanded .refl rfl rfl fits
      (fun h => by cases hplace.symm.trans h) fun h => by cases hvalue.symm.trans h⟩

end WordScript
