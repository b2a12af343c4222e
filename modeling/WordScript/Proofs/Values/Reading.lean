import WordScript.Proofs.Calls.Convention
import WordScript.Proofs.Machine.Steps
import WordScript.Proofs.Values.Code

/-!
# Reading through values and through addresses

There are two ways to a variable, a field or what a reference points at. Code for the value copies a
whole object to the stack and slides each field down over the struct it is part of. Code for the
address adds up offsets. Both mean the same place: what the first one leaves on the stack is what
memory holds where the second one points (`value_eq_words_at_address`).
-/

namespace WordScript

open Emit

/-! ### Machines in a frame -/

def View.of (img : Image) (c : EmitContext) (frame : Frame) (m : Machine) : View :=
  ⟨img, c, frame, m.sp.toInt, m.store.memory⟩

namespace Machine

def moveTo (m : Machine) (pc : Nat) : Machine := { m with pc }

structure Carries (m : Machine) (img : Image) (c : EmitContext) (frame : Frame) : Prop where
  code : m.code.words.toList = img.code.words img.value
  size : m.memory.size = img.memoryWords
  consistent : (View.of img c frame m).Consistent

/-- From `m` to `m'` an address has got into a register, and memory below the stack pointer has not
changed. -/
structure Located (m m' : Machine) (pc : Nat) (r : Register) (a : Word) : Prop where
  pc : m'.pc = pc
  address : m'.register r.toSlot = a
  sp : m'.sp = m.sp
  below : ∀ b < m.sp, m'.word? b = m.word? b

/-- From `m` to `m'` words have got onto the stack, and memory below them has not changed. -/
structure Valued (m m' : Machine) (pc : Nat) (ws : List Word) : Prop where
  pc : m'.pc = pc
  sp : m'.sp = m.sp + .ofNat ws.length
  words : ∀ i < ws.length, m'.word? (m.sp + .ofNat i) = ws[i]?
  below : ∀ b < m.sp, m'.word? b = m.word? b

def Divides (m : Machine) : Prop := m.Comes fun r => ∃ pc, r = .inr (.error (.divisionByZero pc))

section
variable {m m' : Machine} {img : Image} {x y : State}

theorem Shows.word?_ofInt (h : m.Shows img x) (hz : Addressable z) (hlt : z < img.memoryWords) :
    m.word? (.ofInt z) = some (x.store.memory z) := by
  rw [h.word?, if_pos ((Image.holds_ofInt hz).mpr hlt), hz.toInt]

theorem Shows.word?_eq (h : m.Shows img x) (h' : m'.Shows img y) (b : Word)
    (same : y.store.memory b.toInt = x.store.memory b.toInt) : m'.word? b = m.word? b := by
  rw [h.word?, h'.word?, same]

theorem Shows.word?_wordsAt {a : Int} {n i : Nat} (h : m.Shows img x) (nonneg : 0 ≤ a)
    (small : a + n ≤ 2 ^ 31) (inside : a + n ≤ img.memoryWords) (hi : i < n) :
    m.word? (.ofInt a + .ofNat i) = (wordsAt x.store.memory a n)[i]? := by
  rw [ofInt_add_ofNat, h.word?_ofInt ⟨by omega, by omega⟩ (by omega), getElem?_wordsAt hi]

end

end Machine

section
variable {m m' : Machine} {img : Image} {c : EmitContext} {frame : Frame} {pool : RegisterPool}
  {s : Store} {pc : Nat}

theorem Pushed.valued (h : Pushed pool m.sp.toInt ws m.store s) (hm : m.Shows img ⟨m.pc, m.store⟩)
    (hm' : m'.Shows img ⟨pc, s⟩) (fits : img.Fits m.sp.toInt ws.length) : m.Valued m' pc ws where
  pc := hm'.pc
  sp := by rw [hm'.sp, h.sp, add_ofNat_eq]
  words i hi := by
    have hword := hm'.word?_wordsAt fits.nonneg (Int.le_of_lt fits.small) fits.inside hi
    rwa [Int32.ofInt_toInt, h.words] at hword
  below b hb := hm.word?_eq hm' b (h.below _ (Int32.lt_iff_toInt_lt.mp hb))

theorem Pointed.located {a : Int} (h : Pointed pool k m.sp.toInt a m.store s)
    (hm : m.Shows img ⟨m.pc, m.store⟩)
    (hm' : m'.Shows img ⟨pc, s⟩) (free : pool.lowestFree? = some k) :
    m.Located m' pc (.general k) (.ofInt a) where
  pc := hm'.pc
  address := (hm'.register (RegisterPool.slot_lt_of_free free)).trans h.address
  sp := by rw [hm'.sp, h.sp, Int32.ofInt_toInt]
  below b hb := hm.word?_eq hm' b (h.below _ (Int32.lt_iff_toInt_lt.mp hb))

theorem Image.Proper.eventually_or_division {may : Mishap → Prop} {P : Machine ⊕ Ending → Prop}
    (proper : img.Proper) (hP : may .division → ∀ pc, P (.inr (.error (.divisionByZero pc)))) :
    img.Closed (fun t => t = .division ∧ may .division) (img.Eventually P) := by
  refine proper.eventually fun t e ht he => ?_
  obtain ⟨rfl, hmay⟩ := ht
  obtain ⟨pc, rfl⟩ := he
  exact hP hmay pc

theorem View.of_sees : (View.of img c frame m).Sees frame m.sp.toInt m.store :=
  ⟨rfl, Int.le_refl _, (Int32.ofInt_toInt _).symm, fun _ _ => rfl⟩

end

namespace Machine.Carries

variable {m : Machine} {img : Image} {c : EmitContext} {frame : Frame} {e : Expr} {type : ValueType}
  {code : Assembly} {pool : RegisterPool} {n n' k pc : Nat} {x : Seen} {a : Int}

theorem shows (carries : m.Carries img c frame) : m.Shows img ⟨m.pc, m.store⟩ :=
  Machine.shows_store carries.code carries.size

theorem shows_moveTo (carries : m.Carries img c frame) (pc : Nat) :
    (m.moveTo pc).Shows img ⟨pc, m.store⟩ :=
  Machine.shows_store (m := m.moveTo pc) carries.code carries.size

variable (carries : m.Carries img c frame) (proper : img.Proper) (sound : c.Sound)
include carries proper sound

/-- As its code comes to an end or divides by zero, an expression has a meaning or divides by zero.
-/
theorem meaning (emits : Emits c frame pool n (.value e type) code n') (quiet : e.effectFree = true)
    (fits : img.Fits m.sp.toInt ((View.of img c frame m).height e))
    (stray : (View.of img c frame m).eval e ≠ .error .stray) (here : img.code.At pc code) :
    (∃ x, (View.of img c frame m).eval e = .ok x) ∨
    (View.of img c frame m).eval e = .error .division := by
  have hG : img.Closed (fun t => t = .division ∧ (View.of img c frame m).eval e = .error .division)
      (fun _ => (∃ x, (View.of img c frame m).eval e = .ok x) ∨
        (View.of img c frame m).eval e = .error .division) :=
    ⟨fun _ _ _ h => h, fun _ _ _ h => .inr h.2⟩
  have reads := View.means_of_emits (v := View.of img c frame m) (fun reason =>
    (View.of img c frame m).eval e = .error reason)
    hG proper sound.structs carries.consistent stray emits rfl quiet
  refine reads _ _ View.of_sees fits (fun _ h => h) pc here ?_
  rintro s' ⟨x, hx, -⟩
  exact .inl ⟨x, hx⟩

theorem comes (may : Mishap → Prop) {P : Machine ⊕ Ending → Prop}
    (hP : may .division → ∀ pc, P (.inr (.error (.divisionByZero pc)))) (stray : ¬may .stray)
    (emits : Emits c frame pool n (.value e type) code n') (quiet : e.effectFree = true)
    (fits : img.Fits m.sp.toInt ((View.of img c frame m).height e))
    (hstop : ∀ reason, (View.of img c frame m).eval e = .error reason → may reason)
    (here : img.code.At pc code) (h : ∀ x s' m', (View.of img c frame m).eval e = .ok x →
      Pushed pool m.sp.toInt ((View.of img c frame m).words (c.structs.words type) x) m.store s' →
      m'.Shows img ⟨pc + code.size, s'⟩ → P (.inl m')) :
    (m.moveTo pc).Comes P := by
  have reads := View.means_of_emits (v := View.of img c frame m) may
    (proper.eventually_or_division hP) proper sound.structs carries.consistent stray emits rfl quiet
  refine (reads _ _ View.of_sees fits hstop).comes here (carries.shows_moveTo pc) ?_
  rintro s' m' ⟨x, hx, hpushed⟩ hm'
  exact h x s' m' hx hpushed hm'

/-- Code for a value leaves what the expression means. -/
theorem arrives (emits : Emits c frame pool n (.value e type) code n') (quiet : e.effectFree = true)
    (fits : img.Fits m.sp.toInt ((View.of img c frame m).height e))
    (heval : (View.of img c frame m).eval e = .ok x) (here : img.code.At pc code) :
    (m.moveTo pc).Arrives (m.Valued · (pc + code.size)
      ((View.of img c frame m).words (c.structs.words type) x)) := by
  refine carries.comes proper sound (fun _ => False) (fun h => h.elim) id emits quiet fits
    (fun reason h => ?_) here ?_
  · cases heval.symm.trans h
  · intro y s' m' hy hpushed hm'
    obtain rfl := Except.ok.inj (heval.symm.trans hy)
    have typed : (View.of img c frame m).typeOf e = some type := View.typeOf_value emits rfl quiet
    have hlength := View.length_words typed heval
    exact ⟨m', rfl, hpushed.valued carries.shows hm'
      (fits.mono (Nat.le_trans (Nat.le_of_eq hlength)
        (View.words_le_height sound.structs quiet typed)))⟩

theorem divides (emits : Emits c frame pool n (.value e type) code n') (quiet : e.effectFree = true)
    (fits : img.Fits m.sp.toInt ((View.of img c frame m).height e))
    (heval : (View.of img c frame m).eval e = .error .division) (here : img.code.At pc code) :
    (m.moveTo pc).Divides := by
  refine carries.comes proper sound (· = .division) (fun _ pc => ⟨pc, rfl⟩) (by simp)
    emits quiet fits
    (fun reason h => ?_) here ?_
  · exact Except.error.inj (h.symm.trans heval)
  · intro y s' m' hy
    cases heval.symm.trans hy

/-- A path is a place below the stack pointer, and code for its address leaves that address. -/
theorem locates (emits : Emits c frame pool n (.address e type k) code n') (path : e.isPath = true)
    (fits : img.Fits m.sp.toInt ((View.of img c frame m).placeHeight e))
    (stray : (View.of img c frame m).eval e ≠ .error .stray) (here : img.code.At pc code) :
    ∃ a, (View.of img c frame m).eval e = .ok (.place a) ∧
    (View.of img c frame m).Inside a (c.structs.words type) ∧
      (m.moveTo pc).Arrives (m.Located · (pc + code.size) (.general k) (.ofInt a)) := by
  let v := View.of img c frame m
  have quiet := Expr.effectFree_of_isPath path
  have points : ∀ {G : State → Prop},
    img.Closed (fun t => t = .division ∧ v.eval e = .error .division) G → img.Leads G code
      (fun s' => ∃ a, v.eval e = .ok (.place a) ∧ v.Inside a (c.structs.words type) ∧
        Pointed pool k m.sp.toInt a m.store s')
      m.store := fun hG =>
    View.means_of_emits (v := v) (fun reason => v.eval e = .error reason) hG proper sound.structs
      carries.consistent stray emits rfl quiet _ _ View.of_sees fits fun _ h => h
  have hplace : ∃ a, v.eval e = .ok (.place a) ∧ v.Inside a (c.structs.words type) := by
    refine points (G := fun _ => ∃ a, v.eval e = .ok (.place a) ∧ v.Inside a (c.structs.words type))
      ⟨fun _ _ _ h => h, fun _ _ _ h => ?_⟩ pc here ?_
    · exact (View.eval_ne_division path h.2).elim
    · rintro s' ⟨a, ha, inside, -⟩
      exact ⟨a, ha, inside⟩
  obtain ⟨a, ha, inside⟩ := hplace
  refine ⟨a, ha, inside, (points (proper.eventually fun t e ht _ => ?_)).comes here
    (carries.shows_moveTo pc) ?_⟩
  · exact (View.eval_ne_division path ht.2).elim
  · rintro s' m' ⟨b, hb, -, hpointed⟩ hm'
    obtain rfl := Seen.place.inj (Except.ok.inj (ha.symm.trans hb))
    exact ⟨m', rfl, hpointed.located carries.shows hm' emits.free_of_address⟩

end Machine.Carries

/-! ### Values and addresses -/

/-- Whatever a path goes through, the words that code for its value leaves on the stack are those
that memory holds at the address that code for its place leaves in a register. Neither changes
memory below the stack pointer. -/
theorem value_eq_words_at_address (parsed : Program.ofSource source = .ok p)
    (serves : EmitContext.Serves c p)
    (path : Expr.isPath e = true) (typed : Typing.typeOf (c.at frame) e = .ok type)
    (placed : place c e ⟨frame, pool, labels⟩ = .ok (placeCode, r) st)
    (valued : expr c e ⟨frame, pool', labels'⟩ = .ok valueCode st') (proper : Image.Proper img)
    (carries : Machine.Carries m img c frame) (herePlace : img.code.At pc placeCode)
    (hereValue : img.code.At pc' valueCode) (fits : img.Fits m.sp.toInt
      (max ((View.of img c frame m).placeHeight e) ((View.of img c frame m).height e)))
    (below : (View.of img c frame m).eval e ≠ .error .stray) :
    ∃ a ws, ws.length = c.structs.words type ∧ (∀ i < ws.length, m.word? (a + .ofNat i) = ws[i]?) ∧
      (m.moveTo pc).Arrives (m.Located · (pc + placeCode.size) r a) ∧
      (m.moveTo pc').Arrives (m.Valued · (pc' + valueCode.size) ws) := by
  have sound := serves.sound (Program.ofSource_wellNamed parsed)
  obtain ⟨k, n, rfl, -, -, emits⟩ := place_emits sound e _ _ _ _ _ _ _ typed placed
  obtain ⟨found, n', typed', -, emits'⟩ := expr_emits sound e _ _ _ _ _ valued
  obtain rfl := Except.ok.inj (typed.symm.trans typed')
  have fitsValue := fits.mono (Nat.le_max_right ..)
  obtain ⟨a, ha, inside, located⟩ :=
    carries.locates proper sound emits path (fits.mono (Nat.le_max_left ..)) below herePlace
  have arrives :=
    carries.arrives proper sound emits' (Expr.effectFree_of_isPath path) fitsValue ha hereValue
  refine ⟨.ofInt a, wordsAt m.store.memory a (c.structs.words type), length_wordsAt, fun i hi => ?_,
    located, arrives⟩
  rw [length_wordsAt] at hi
  have hsmall := fits.small
  have hinside := fits.inside
  have hbelow : 0 ≤ a ∧ a + c.structs.words type ≤ m.sp.toInt := inside.resolve_left (by omega)
  exact carries.shows.word?_wordsAt hbelow.1 (by omega) (by omega) hi

def SourceText.innerField : SourceText := .ofString
  ("struct I \x7b int x; int y; \x7d struct O \x7b int k; I i; \x7d static O o; static O& p; " ++
    "p = o&; o.i.y = 7; p@.i; p@.i&;")

open Assembly in
theorem value_eq_words_at_address_innerField :
    ∃ p c e type frame code r st code' st', ∃ img : Image, ∃ m : Machine, ∃ pc pc',
    Program.ofSource .innerField = .ok p ∧ EmitContext.Serves c p ∧ Expr.isPath e = true ∧
    Typing.typeOf (c.at frame) e = .ok type ∧ c.structs.words type = 2 ∧
    place c e ⟨frame, .empty, .start⟩ = .ok (code, r) st ∧
      expr c e ⟨frame, .empty, .start⟩ = .ok code' st' ∧
    img.Proper ∧ m.Carries img c frame ∧ img.code.At pc code ∧ img.code.At pc' code' ∧
    img.Fits m.sp.toInt (max ((View.of img c frame m).placeHeight e)
      ((View.of img c frame m).height e)) ∧
    (View.of img c frame m).eval e = .ok (.place 1) ∧
    ∃ a ws, ws.length = c.structs.words type ∧ (∀ i < ws.length, m.word? (a + .ofNat i) = ws[i]?) ∧
      (m.moveTo pc).Arrives (m.Located · (pc + code.size) r a) ∧
      (m.moveTo pc').Arrives (m.Valued · (pc' + code'.size) ws) := by
  have hrun : (do
      let build ← Build.ofSource? .innerField
      let c := build.context
      let e : Expr := .field ⟨0, 0⟩ (.dereference ⟨0, 0⟩ (.var ⟨0, 0⟩ "p")) ⟨"i", ⟨0, 0⟩, ⟨0, 0⟩⟩
      let st : EmitState := ⟨.topLevel build.statics, .empty, .start⟩
      let type ← (Typing.typeOf (c.at st.frame) e).toOption
      let placed ← (place c e).result? st
      let valued ← (expr c e).result? st
      let a := build.code
      let img : Image := ⟨a, a.value, 16⟩
      ((Machine.load (Bytecode.ofList (a.words a.value)) ⟨16, none⟩).runFor 20).getLeft?.filter
        fun (m : Machine) =>
        let v := View.of img c st.frame m
        decide (c.structs.words type = 2 ∧ a.size < 2 ^ 31 ∧
          (a.drop 47).take placed.1.1.length = placed.1.1 ∧
          (a.drop 22).take valued.1.length = valued.1 ∧ v.Consistent ∧
          img.Fits m.sp.toInt (max (v.placeHeight e) (v.height e)) ∧
          (v.eval e).toOption = some (Seen.place 1))).isSome = true := by
    decide +kernel
  obtain ⟨m, hrun⟩ := Option.isSome_iff_exists.mp hrun
  obtain ⟨⟨p, c, statics, a⟩, hbuild, hrun⟩ := Option.bind_eq_some_iff.mp hrun
  dsimp only at hrun
  obtain ⟨type, typed, hrun⟩ := of_toOption_bind hrun
  obtain ⟨placed, hplaced, hrun⟩ := of_result?_bind hrun
  obtain ⟨valued, hvalued, hrun⟩ := of_result?_bind hrun
  obtain ⟨hm, hrun⟩ := Option.filter_eq_some_iff.mp hrun
  rw [Sum.getLeft?_eq_some_iff] at hm
  obtain ⟨hwords, hsize, hplace, hvalue, consistent, fits, heval⟩ := of_decide_eq_true hrun
  rw [toOption_eq_some] at heval
  obtain ⟨parsed, serves, -, complete⟩ := Build.of_some hbuild
  have proper : Image.Proper ⟨a, a.value, 16⟩ := complete.proper rfl hsize
  have hb := (Machine.Bounded.load _ _).runFor hm
  have carries : m.Carries ⟨a, a.value, 16⟩ _ _ := ⟨by rw [hb.code]; rfl, hb.memory, consistent⟩
  exact ⟨p, _, _, type, _, _, _, _, _, _, _, m, _, _, parsed, serves, rfl, typed, hwords, hplaced,
    hvalued, proper, carries, Assembly.At.of_slice hplace, Assembly.At.of_slice hvalue, fits, heval,
    value_eq_words_at_address parsed serves rfl typed hplaced hvalued proper carries
      (Assembly.At.of_slice hplace)
      (Assembly.At.of_slice hvalue) fits fun h => by cases heval.symm.trans h⟩

end WordScript
