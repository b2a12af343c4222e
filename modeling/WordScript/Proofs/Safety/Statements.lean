import WordScript.Proofs.Safety.Expressions

/-!
# Statements are safe

Code for statements keeps the frame where the activation has it. Control leaves it at its end,
unless every path returns, or by way of the return address, which no statement changes. A loop takes
a step each time around, so its safety for `n` steps follows from its safety for fewer.
-/

namespace WordScript

open Emit Activation

/-! ### Statements without dereferences -/

mutual

def Statement.plain : Statement → Bool
  | .ret _ value => value.all Expr.plain
  | .expression _ e => e.plain
  | .declare _ _ _ init => init.all Expr.plain
  | .block _ ss => Statement.allPlain ss
  | .ifThen _ test yes => test.plain && yes.plain
  | .ifThenElse _ test yes no => test.plain && yes.plain && no.plain
  | .loop _ test repeated => test.plain && repeated.plain

def Statement.allPlain : List Statement → Bool
  | [] => true
  | s :: rest => s.plain && Statement.allPlain rest

end

namespace Emit.Block

def plain : Block → Bool
  | .one s | .body s => s.plain
  | .many ss => Statement.allPlain ss

def returns : Block → Bool
  | .one s | .body s => s.alwaysReturns
  | .many ss => Statement.anyReturns ss

def height (structs : Structs) (functions : Functions) (frame : Frame) : Block → Nat
  | .one s => s.height structs functions frame
  | .many ss => Statement.allHeight structs functions frame ss
  | .body s => s.height structs functions (s.bodyFrame frame)

end Emit.Block

/-! ### Frames -/

/-- A frame of the activation, between two statements: its variables lie below its depth. -/
structure Frame.Within (structs : Structs) (static : Label → Nat → Prop) (act : Activation)
    (f : Frame) : Prop where
  fits : f.Fits structs static act.low f.depth
  nonneg : 0 ≤ f.depth
  slot : ∀ position, f.returnSlot = some position → position = act.low

namespace Frame.Within

variable {structs : Structs} {static : Label → Nat → Prop} {act : Activation} {f g : Frame}

theorem enter (h : f.Within structs static act) : f.enter.Within structs static act :=
  ⟨h.fits.enter, h.nonneg, h.slot⟩

theorem declare (h : f.Within structs static act)
    (hd : (f.push (structs.words type)).declare structs name type = .ok g) :
    g.Within structs static act := by
  obtain ⟨scope, outer, hs, rfl⟩ := declare_eq_ok hd
  simp only [scopes_push] at hs
  have hfits : f.Fits structs static act.low (f.depth + structs.words type) :=
    h.fits.mono (by omega)
  have := h.nonneg
  refine ⟨fun scope' hscope entry hentry => ?_, by simp only [depth_push]; omega, h.slot⟩
  rcases List.mem_cons.mp hscope with rfl | hscope
  · rcases List.mem_cons.mp hentry with rfl | hentry
    · simp only [Variable.Fits, depth_push]
      omega
    · exact hfits scope (by simp [hs]) entry hentry
  · exact hfits scope' (by simp [hs, hscope]) entry hentry

end Frame.Within

theorem Emit.EmitsCode.next (h : EmitsCode c pool frame n (.one s) code frame' n') :
    frame' = s.next c.structs frame := by
  cases h with
  | declare resolved _ _ _ declared | declareZero resolved declared =>
    simp only [Statement.next, resolved, declared]
  | _ => rfl

theorem Emit.EmitsCode.within (h : EmitsCode c pool frame n (.one s) code frame' n')
    (within : frame.Within c.structs static act) : frame'.Within c.structs static act := by
  cases h with
  | declare _ _ _ _ declared | declareZero _ declared => exact within.declare declared
  | _ => exact within

/-! ### Running and returning -/

/-- Between two statements: `sp` is at this depth, and what the activation must not change is as in
`memory`. -/
structure Activation.Running (act : Activation) (memory : Int → Word) (depth : Int) (s : Store) :
    Prop where
  sp : s.registers .sp = .ofInt (act.base + depth)
  kept : ∀ a, act.Guards 0 0 a → s.memory a = memory a

namespace Activation.Running

variable {act : Activation} {memory : Int → Word} {depth : Int} {s s' : Store}

theorem evaluated (h : act.Running memory depth s) (he : act.Evaluated depth depth pool n s s') :
    act.Running memory (depth + n) s' where
  sp := by rw [he.sp, Int.add_assoc]
  kept a ha := by
    rw [he.kept a ?_, h.kept a ha]
    simp only [Guards] at ha ⊢
    omega

theorem lowered (h : act.Running memory (depth + n) s) :
    act.Running memory depth (s.set .sp (.ofInt (act.base + depth))) :=
  ⟨Store.registers_set.trans (if_pos rfl), h.kept⟩

end Activation.Running

/-- It is safe to return: to the return address, if there is one, with `sp` on it and all words
below the return slot unchanged. -/
def Image.ReturnsSafe (img : Image) (c : EmitContext) (act : Activation) (memory : Int → Word)
    (m : Nat) : Prop :=
  ∀ type, c.returns = some type → act.low + c.structs.words type ≤ -1 ∧
    ∃ back, memory (act.base - 1) = .ofNat back ∧ back ≤ img.code.size ∧
      ∀ s : Store, s.registers .sp = .ofInt (act.base - 1) →
        (∀ a : Int, act.statics ≤ a → a < act.base + act.low → s.memory a = memory a) →
        img.Safe m ⟨back, s⟩

theorem Image.ReturnsSafe.mono {img : Image} (h : img.ReturnsSafe c act memory m) (hk : k ≤ m) :
    img.ReturnsSafe c act memory k := by
  intro type htype
  obtain ⟨hlow, back, hback, hle, hsafe⟩ := h type htype
  exact ⟨hlow, back, hback, hle, fun s hsp hmem => (hsafe s hsp hmem).mono hk⟩

namespace Activation.Running

variable {act : Activation} {memory : Int → Word} {depth : Int} {s s' : Store}

theorem popped (h : act.Running memory (depth + 1) s)
    (hpop : s.Pushes s' (act.base + depth) 0 used) : act.Running memory depth s' where
  sp := by simpa using hpop.sp
  kept a ha := by rw [hpop.memory a (by omega), h.kept a ha]

end Activation.Running

/-! ### The rules are safe -/

namespace Emit

variable {img : Image} {c : EmitContext} {act : Activation} {memory : Int → Word}
  {frame frame' : Frame} {pool : RegisterPool} {m : Nat} {s : Store}

/-- The code safely leads from a frame to the next, unless it returns. -/
def Block.Safe (img : Image) (c : EmitContext) (act : Activation) (memory : Int → Word)
    (frame : Frame) (b : Block) (code : Assembly) (frame' : Frame) : Prop :=
  ∀ m s, (∀ k < m, img.CallsSafe c act.statics k) → img.ReturnsSafe c act memory m →
    act.Running memory frame.depth s →
    img.Leads (img.Safe m) code (fun s' => b.returns = false ∧ act.Running memory frame'.depth s') s

theorem Emits.safe_running (hs : img.Serves c) (hcalls : ∀ k < m, img.CallsSafe c act.statics k)
    (h : Emits c frame pool n (.value e type) code n') (live : pool.live = [])
    (plain : e.plain = true) (within : frame.Within c.structs (img.StaticArea act.statics) act)
    (room : frame.depth + e.height c.structs c.functions frame.scopes 0 ≤ 2 ^ 30)
    (hrun : act.Running memory frame.depth s) :
    img.Leads (img.Safe m) code (act.Running memory (frame.depth + c.structs.words type)) s := by
  have room : Room frame.depth frame.depth
      ((Piece.value e type).height c.structs c.functions frame.scopes pool.live.length) :=
    ⟨within.nonneg, Int.le_refl _, by simpa [live, Piece.height] using room⟩
  exact (h.safe hs hcalls plain within.fits room s hrun.sp).imp fun s' h' => hrun.evaluated h'.1

theorem EmitsResult.safe_running (hs : img.Serves c)
    (hcalls : ∀ k < m, img.CallsSafe c act.statics k)
    (h : EmitsResult c frame pool n value type code n') (live : pool.live = [])
    (plain : value.all Expr.plain = true)
    (within : frame.Within c.structs (img.StaticArea act.statics) act)
    (room : frame.depth + value.elim 0 (·.height c.structs c.functions frame.scopes 0) ≤ 2 ^ 30)
    (hrun : act.Running memory frame.depth s) :
    img.Leads (img.Safe m) code (act.Running memory (frame.depth + c.structs.words type)) s := by
  cases h with
  | none => exact .nil (by simpa using hrun)
  | some value => exact value.safe_running hs hcalls live plain within room hrun

namespace Block.Safe

theorem stop (hp : img.Proper) (hresult : ∀ m s, (∀ k < m, img.CallsSafe c act.statics k) →
      act.Running memory frame.depth s → img.Leads (img.Safe m) code P s) :
    Safe img c act memory frame (.one (.ret span value)) (code ++ [line .halt]) frame := by
  intro m s hcalls _ hrun pc here _
  exact hresult m s hcalls hrun pc here.left fun s' _ => .halt hp (.halt here.right)

theorem ret (hp : img.Proper) (inside : c.returns = some type)
    (hresult : ∀ m s, (∀ k < m, img.CallsSafe c act.statics k) → act.Running memory frame.depth s →
      img.Leads (img.Safe m) code (act.Running memory (frame.depth + c.structs.words type)) s)
    (within : frame.Within c.structs (img.StaticArea act.statics) act)
    (position : c.structs.words type ≠ 0 → frame.returnSlot = some slot)
    (room : frame.depth + c.structs.words type ≤ 2 ^ 30)
    (different : c.structs.words type ≠ 0 → k ≠ source) :
    Safe img c act memory frame (.one (.ret span value))
      (code ++ resultCode (slot - (frame.depth + c.structs.words type))
        (c.structs.words type) (.general k)
        (.general source) ++ leaveCode (frame.depth + c.structs.words type)
        (.general k)) frame := by
  intro m s hcalls hreturns hrun pc here _
  obtain ⟨hlow, back, hback, hinside, hsafe⟩ := hreturns type inside
  have := act.above
  have := act.low_nonpos
  have := act.small
  have := within.nonneg
  generalize c.structs.words type = n at *
  have hslot : n ≠ 0 → slot = act.low := fun hn => within.slot slot (position hn)
  refine hresult m s hcalls hrun pc here.left.left fun s₁ h₁ => ?_
  refine (hp.safe m).run here.left.right
    (Image.wp_resultCode (z := act.base + (frame.depth + n)) different h₁.sp
    (by omega) (fun hn => by have := hslot hn; omega) (fun _ => .inr trivial) fun s₂ hsp₂ hmem =>
      ?_)
  -- The copy writes the return slot only, which lies between the words kept for the caller.
  have hkept : ∀ a, a < act.base + act.low ∨ a = act.base - 1 → s₂.memory a = s₁.memory a := by
    intro a ha
    rw [hmem]
    by_cases hn : n = 0
    · subst hn
      rfl
    · have := hslot hn
      exact copied_outside (by omega)
  have hend := here.right
  rw [Assembly.size_append, ← Nat.add_assoc] at hend
  -- So the return address is the one that the caller wrote.
  have hreturn : s₂.memory (act.base - 1) = .ofNat back := by
    rw [hkept _ (.inr rfl), h₁.kept _ ⟨by omega, .inr (.inl rfl)⟩, hback]
  refine (hp.safe m).leave hend hsp₂ ⟨by omega, by omega⟩ hreturn hinside (fun s₃ hsp₃ _ hmem₃ =>
    ?_) (fun _ => trivial)
  refine hsafe s₃ hsp₃ fun a ha hlt => ?_
  rw [hmem₃, hkept a (.inl hlt), h₁.kept a ⟨ha, .inl hlt⟩]

theorem expression (hp : img.Proper) (hvalue : ∀ m s, (∀ k < m, img.CallsSafe c act.statics k) →
      act.Running memory frame.depth s →
      img.Leads (img.Safe m) code (act.Running memory (frame.depth + (words : Nat))) s) :
    Safe img c act memory frame (.one (.expression span e)) (code ++ lowerSp words) frame := by
  intro m s hcalls _ hrun
  refine (hvalue m s hcalls hrun).append fun s₁ h₁ => (hp.safe m).leads ?_
  exact Image.wp_lowerSp (by rw [h₁.sp, Int.add_assoc]) ⟨rfl, h₁.lowered⟩

theorem declareZero (hp : img.Proper)
    (within : frame.Within c.structs (img.StaticArea act.statics) act)
    (room : frame.depth + (words : Nat) ≤ 2 ^ 30) (hdepth : frame'.depth = frame.depth + words) :
    Safe img c act memory frame (.one (.declare span written name none))
      (zerosCode words) frame' := by
  intro m s _ _ hrun
  have := act.above
  have := act.low_nonpos
  have := act.small
  have := within.nonneg
  refine (hp.safe m).leads (Image.wp_zerosCode hrun.sp (by omega) (.inr trivial)
    fun s' hsp _ hmem => ⟨rfl, ?_, ?_⟩)
  · rw [hsp, hdepth, Int.add_assoc]
  · intro a ha
    rw [hmem a ?_, hrun.kept a ha]
    simp only [Guards] at ha
    omega

theorem dropped (hp : img.Proper) (h : Safe img c act memory frame.enter b code frame₁)
    (left : frame₁.leave = (words, frame)) (hreturns : b'.returns = b.returns) :
    Safe img c act memory frame b' (code ++ dropCode comment words) frame := by
  intro m s hcalls hsafe hrun
  have hdepth : frame₁.depth = frame.depth + words := by
    have := depth_leave left
    simp only [Frame.enter] at this
    omega
  refine (h m s hcalls hsafe hrun).append fun s₁ h₁ => (hp.safe m).leads ?_
  obtain ⟨hgoes, h₁⟩ := h₁
  rw [hdepth] at h₁
  exact Image.wp_dropCode (by rw [h₁.sp, Int.add_assoc]) ⟨hreturns.trans hgoes, h₁.lowered⟩

section
variable (hp : img.Proper) (within : frame.Within c.structs (img.StaticArea act.statics) act)
  (room : frame.depth + 1 ≤ 2 ^ 30)
  (htest : ∀ m s, (∀ k < m, img.CallsSafe c act.statics k) → act.Running memory frame.depth s →
    img.Leads (img.Safe m) testing (act.Running memory (frame.depth + 1)) s)
include hp within room htest

omit hp htest in
theorem addressable : Addressable (act.base + frame.depth) := by
  have := act.above
  have := act.low_nonpos
  have := act.small
  have := within.nonneg
  exact ⟨by omega, by omega⟩

theorem ifThen (hyes : Safe img c act memory frame (.body yes) yesCode frame) :
    Safe img c act memory frame (.one (.ifThen span e yes))
      (testing ++ testCode (.general k) type .equal l ++ yesCode ++ [.label l]) frame := by
  intro m s hcalls hreturns hrun
  refine (hp.safe m).ifThen hp (htest m s hcalls hrun) (fun s₁ h₁ => by rw [h₁.sp, Int.add_assoc])
    (addressable within room) (.inr trivial) (fun s₁ s₂ h₁ hpop _ => ?_) (fun s₁ s₂ h₁ hpop _ =>
      ⟨rfl, h₁.popped hpop⟩)
  exact (hyes m s₂ hcalls hreturns (h₁.popped hpop)).imp fun s₃ h₃ => ⟨rfl, h₃.2⟩

theorem ifThenElse (hyes : Safe img c act memory frame (.body yes) yesCode frame)
    (hno : Safe img c act memory frame (.body no) noCode frame) :
    Safe img c act memory frame (.one (.ifThenElse span e yes no))
      (testing ++ testCode (.general k) type .equal l ++ yesCode ++
        line (.jmp (labelled done)) :: .label l :: noCode ++ [.label done]) frame := by
  intro m s hcalls hreturns hrun
  refine (hp.safe m).ifThenElse hp (htest m s hcalls hrun)
    (fun s₁ h₁ => by rw [h₁.sp, Int.add_assoc])
    (addressable within room) (.inr trivial) (fun s₁ s₂ h₁ hpop _ => ?_) (fun s₁ s₂ h₁ hpop _ => ?_)
  · refine (hyes m s₂ hcalls hreturns (h₁.popped hpop)).imp fun s₃ h₃ => ⟨?_, h₃.2⟩
    exact Bool.and_eq_false_iff.mpr (.inl h₃.1)
  · refine (hno m s₂ hcalls hreturns (h₁.popped hpop)).imp fun s₃ h₃ => ⟨?_, h₃.2⟩
    exact Bool.and_eq_false_iff.mpr (.inr h₃.1)

theorem loop (hrepeated : Safe img c act memory frame (.body repeated) repeatedCode frame) :
    Safe img c act memory frame (.one (.loop span e repeated))
      (.label start :: (testing ++ testCode (.general k) type .equal done ++ repeatedCode ++
        [line (.jmp (labelled start)), .label done])) frame := by
  intro m
  -- The jump back is a step, so what is left of the run is shorter.
  induction m with
  | zero => exact fun _ _ _ _ _ _ _ => .zero
  | succ m ih =>
    intro s hcalls hreturns hrun pc here h
    refine (hp.safe (m + 1)).loop hp here (htest (m + 1) s hcalls hrun)
      (fun s₁ h₁ => by rw [h₁.sp, Int.add_assoc]) (addressable within room) (.inr trivial)
      (fun s₁ s₂ h₁ hpop _ => hrepeated (m + 1) s₂ hcalls hreturns (h₁.popped hpop))
      (fun s₃ h₃ x hstep => .step hp hstep ?_) (fun s₁ s₂ h₁ hpop _ => h s₂ ⟨rfl, h₁.popped hpop⟩)
    exact ih s₃ (fun k hk => hcalls k (by omega)) (hreturns.mono (by omega)) h₃.2 pc here
      fun s' hs' => (h s' hs').pred

end

end Block.Safe

theorem Emits.words_le (hs : c.structs.Sound) (h : Emits c frame pool n (.value e type) code n')
    (live : pool.live = []) (plain : e.plain = true) :
    c.structs.words type ≤ e.height c.structs c.functions frame.scopes 0 := by
  simpa [Piece.words, Piece.height, live] using h.words_le_height hs plain

theorem EmitsResult.words_le (hs : c.structs.Sound)
    (h : EmitsResult c frame pool n value type code n')
    (live : pool.live = []) (plain : value.all Expr.plain = true) :
    c.structs.words type ≤ value.elim 0 (·.height c.structs c.functions frame.scopes 0) := by
  cases h with
  | none => exact Nat.le_refl 0
  | some value => exact value.words_le hs live plain

theorem height_ret {functions : Functions} {frame : Frame} {value : Option Expr} :
    (Statement.ret span value).height structs functions frame =
      value.elim 0 (·.height structs functions frame.scopes 0) := by
  cases value <;> rfl

theorem bodyFrame_of_single {st : Statement} (single : ∀ span ss, st ≠ .block span ss) :
    st.bodyFrame frame = frame.enter := by
  cases st with
  | block span ss => exact absurd rfl (single span ss)
  | _ => rfl

/-- The code for statements without dereferences is safe, if functions are safe for fewer steps. -/
theorem EmitsCode.safe (hs : img.Serves c) (live : pool.live = [])
    (h : EmitsCode c pool frame n b code frame' n') (plain : b.plain = true)
    (within : frame.Within c.structs (img.StaticArea act.statics) act)
    (room : frame.depth + b.height c.structs c.functions frame ≤ 2 ^ 30) :
    b.Safe img c act memory frame code frame' := by
  have hp := hs.proper
  have hsound := hs.sound.structs
  induction h with
  | stop result outside =>
    simp only [Block.height, height_ret] at room
    exact .stop hp fun m s hcalls hrun => result.safe_running hs hcalls live plain within room hrun
  | ret result inside accepted size same position free freeSource =>
    subst size
    have hwords := result.words_le hsound live plain
    simp only [Block.height, height_ret] at room
    refine .ret hp inside (fun m s hcalls hrun => ?_) within position (by omega)
      fun hn => RegisterPool.ne_of_free_take free (freeSource hn)
    rw [same]
    exact result.safe_running hs hcalls live plain within room hrun
  | expression value =>
    exact .expression hp fun m s hcalls hrun =>
      value.safe_running hs hcalls live plain within room hrun
  | declare resolved value accepted same declared =>
    intro m s hcalls _ hrun
    have hdepth := depth_declare declared
    refine (value.safe_running hs hcalls live plain within room hrun).imp fun s' h' => ⟨rfl, ?_⟩
    rwa [Int.sub_eq_iff_eq_add'.mp hdepth, same]
  | declareZero resolved declared =>
    have hdepth := depth_declare declared
    simp only [Block.height, Statement.height, resolved] at room
    exact .declareZero hp within room (by omega)
  | block body left ih => exact .dropped hp (ih plain within.enter room) left rfl
  | ifThen test single free yes ih =>
    simp only [Block.plain, Statement.plain, Bool.and_eq_true] at plain
    simp only [Block.height, Statement.height] at room ih
    have hwords := test.words_le hsound live plain.1
    refine .ifThen hp within (by omega) (fun m s hcalls hrun => ?_) (ih plain.2 within (by omega))
    simpa [single] using test.safe_running hs hcalls live plain.1 within (by omega) hrun
  | ifThenElse test single free yes no ihy ihn =>
    simp only [Block.plain, Statement.plain, Bool.and_eq_true] at plain
    simp only [Block.height, Statement.height] at room ihy ihn
    have hwords := test.words_le hsound live plain.1.1
    refine .ifThenElse hp within (by omega) (fun m s hcalls hrun => ?_)
      (ihy plain.1.2 within (by omega))
      (ihn plain.2 within (by omega))
    simpa [single] using test.safe_running hs hcalls live plain.1.1 within (by omega) hrun
  | loop test single free body ih =>
    simp only [Block.plain, Statement.plain, Bool.and_eq_true] at plain
    simp only [Block.height, Statement.height] at room ih
    have hwords := test.words_le hsound live plain.1
    refine .loop hp within (by omega) (fun m s hcalls hrun => ?_) (ih plain.2 within (by omega))
    simpa [single] using test.safe_running hs hcalls live plain.1 within (by omega) hrun
  | nil => exact fun m s _ _ hrun => .nil ⟨rfl, hrun⟩
  | cons first rest ihf ihr =>
    simp only [Block.plain, Statement.allPlain, Bool.and_eq_true] at plain
    simp only [Block.height, Statement.allHeight] at room ihf ihr
    have hdepth := first.depth
    have hfirst := ihf plain.1 within (by omega)
    have hrest := ihr plain.2 (first.within within) (by rw [first.next] at hdepth ⊢; omega)
    intro m s hcalls hreturns hrun
    -- A statement that comes to its end has not returned, so the next one runs.
    refine (hfirst m s hcalls hreturns hrun).append fun s₁ h₁ => ?_
    refine (hrest m s₁ hcalls hreturns h₁.2).imp fun s₂ h₂ => ⟨?_, h₂.2⟩
    exact Bool.or_eq_false_iff.mpr ⟨h₁.1, h₂.1⟩
  | bodyBlock block ih => exact ih plain within room
  | bodyScoped single inner left ih =>
    simp only [Block.height, bodyFrame_of_single single] at room
    exact .dropped hp (ih plain within.enter room) left rfl

end Emit

end WordScript
