import WordScript.Proofs.Values.Reading

/-!
# Assignment

Code for an assignment computes the address of its target, then the value, and copies the words of
the value from the stack to the address. The address is in a register meanwhile. Whatever the value
reads, the target itself included, the words written are those that the value has in front of the
assignment, and nothing else below the stack pointer changes (`assignment_writes_destination`).
-/

namespace WordScript

open Emit

/-! ### Stores -/

/-- The words are on the stack from `z` on and from the address on. Other memory below `z` is as it
was, and so are the registers in use. -/
structure Stored (pool : RegisterPool) (z a : Int) (ws : List Word) (s s' : Store) : Prop where
  sp : s'.registers .sp = .ofInt (z + ws.length)
  live : ∀ r ∈ pool.live, s'.registers r = s.registers r
  top : wordsAt s'.memory z ws.length = ws
  written : wordsAt s'.memory a ws.length = ws
  others : ∀ b < z, b < a ∨ a + ws.length ≤ b → s'.memory b = s.memory b

namespace View

variable {v : View} {frame : Frame} {z : Int} {s : Store} {may : Mishap → Prop} {G : State → Prop}
  {pool : RegisterPool} {target e : Expr} {type found : ValueType} {placeCode valueCode : Assembly}

/-- The value is copied to the place, whose address is in a register in use while the value is
computed. -/
theorem stores (hG : v.image.Closed (fun t => t = .division ∧ may .division) G)
    (place : v.Points may G frame pool target type k placeCode)
    (value : v.Reads may G frame (pool.take k) e found valueCode)
    (free : pool.lowestFree? = some k) (typed : v.typeOf e = some found)
    (same : v.context.structs.words type = v.context.structs.words found)
    (room : v.context.structs.words found ≤ v.height e)
    (sees : v.Sees frame z s) (fits : v.image.Fits z (max (v.placeHeight target) (v.height e)))
    (htarget : ∀ reason, v.eval target = .error reason → may reason)
    (hvalue : ∀ reason, v.eval e = .error reason → may reason) :
    v.image.Leads G (placeCode ++ valueCode ++ store (v.context.structs.words type) (.general k))
      (fun s' => ∃ a x, v.eval target = .ok (.place a) ∧ v.eval e = .ok x ∧
        v.Inside a (v.context.structs.words type) ∧
        Stored pool z a (v.words (v.context.structs.words type) x) s s') s := by
  have fitsValue : v.image.Fits z (v.height e) := fits.mono (Nat.le_max_right ..)
  rw [List.append_assoc]
  refine (place z s sees (fits.mono (Nat.le_max_left ..)) htarget).append ?_
  rintro s₁ ⟨a, ha, inside, h₁⟩
  refine (value z s₁ (sees.again h₁.toUndisturbed h₁.sp) fitsValue hvalue).append ?_
  rintro s₂ ⟨x, hx, h₂⟩
  have hlength := length_words typed hx
  rw [← same] at h₂ hlength room
  have hsp := h₂.sp
  have hwords := h₂.words
  rw [hlength] at hsp hwords
  have haddress : s₂.registers (.general k) = .ofInt a :=
    (h₂.live _ (RegisterPool.taken_live free)).trans h₁.address
  have hkept : Undisturbed pool z s s₂ := h₁.trans h₂.fewer (Int.le_refl z)
  have hbelow := inside.mono sees.above
  refine hG.leads (Image.wp_storeObject hsp haddress (fitsValue.mono room) hbelow
    fun s₃ hsp₃ hregisters hwritten hothers =>
      ⟨a, x, ha, hx, inside, ?_, fun r hr => ?_, ?_, ?_, fun b hb hout => ?_⟩)
  · rw [hlength, hsp₃]
  · have hne : r ≠ .general k := fun heq => RegisterPool.not_live_of_free free (heq ▸ hr)
    rw [hregisters r (live_ne_sp hr) hne, hkept.live r hr]
  · rw [hlength, ← hwords]
    exact wordsAt_congr fun i hi => hothers _ (.inr (by omega))
  · rw [hlength, hwritten, hwords]
  · rw [hlength] at hout
    rw [hothers b hout, hkept.below b hb]

end View

/-! ### Machines -/

namespace Machine

/-- From `m` to `m'` the words have got to the address and onto the stack. No other memory below the
stack pointer has changed, and none of these registers. -/
structure Assigned (m m' : Machine) (pc : Nat) (a : Word) (ws : List Word) (live : List Register) :
    Prop where
  pc : m'.pc = pc
  sp : m'.sp = m.sp + .ofNat ws.length
  top : ∀ i < ws.length, m'.word? (m.sp + .ofNat i) = ws[i]?
  written : ∀ i < ws.length, m'.word? (a + .ofNat i) = ws[i]?
  others : ∀ b < m.sp, (∀ i < ws.length, b ≠ a + .ofNat i) → m'.word? b = m.word? b
  live : ∀ r ∈ live, m'.register r.toSlot = m.register r.toSlot

end Machine

section
variable {m m' : Machine} {img : Image} {pool : RegisterPool} {s : Store} {pc n : Nat} {a : Int}
  {ws : List Word}

theorem outside_of_ne {b : Word} (h : ∀ i < n, b ≠ .ofInt a + .ofNat i) :
    b.toInt < a ∨ a + n ≤ b.toInt := by
  by_contra hno
  refine h (b.toInt - a).toNat (by omega) ?_
  rw [ofInt_add_ofNat, Int.toNat_of_nonneg (by omega), show a + (b.toInt - a) = b.toInt by omega,
    Int32.ofInt_toInt]

theorem Stored.assigned (h : Stored pool m.sp.toInt a ws m.store s)
    (hm : m.Shows img ⟨m.pc, m.store⟩)
    (hm' : m'.Shows img ⟨pc, s⟩) (fits : img.Fits m.sp.toInt ws.length)
    (inside : ws.length = 0 ∨ 0 ≤ a ∧ a + ws.length ≤ m.sp.toInt) :
    m.Assigned m' pc (.ofInt a) ws pool.live where
  pc := hm'.pc
  sp := by rw [hm'.sp, h.sp, add_ofNat_eq]
  top i hi := by
    have hword := hm'.word?_wordsAt fits.nonneg (Int.le_of_lt fits.small) fits.inside hi
    rwa [Int32.ofInt_toInt, h.top] at hword
  written i hi := by
    have hsmall := fits.small
    have hinside := fits.inside
    have hword := hm'.word?_wordsAt (a := a) (n := ws.length) (by omega) (by omega) (by omega) hi
    rwa [h.written] at hword
  others b hb hne :=
    hm.word?_eq hm' b (h.others _ (Int32.lt_iff_toInt_lt.mp hb) (outside_of_ne hne))
  live r hr := by
    have hslot := RegisterPool.slot_lt_of_live hr
    rw [hm'.register hslot, hm.register hslot]
    exact h.live r hr

end

namespace Machine.Carries

variable {m : Machine} {img : Image} {c : EmitContext} {frame : Frame} {target e : Expr}
  {type : ValueType} {code : Assembly} {pool : RegisterPool} {n n' pc : Nat} {x : Seen} {a : Int}

variable (carries : m.Carries img c frame) (proper : img.Proper) (sound : c.Sound)
include carries proper sound

theorem assignment_comes (may : Mishap → Prop) {P : Machine ⊕ Ending → Prop}
    (hP : may .division → ∀ pc, P (.inr (.error (.divisionByZero pc)))) (stray : ¬may .stray)
    (emits : Emits c frame pool n (.value (.assign span none target e) type) code n')
    (path : target.isPath = true) (quiet : e.effectFree = true) (fits : img.Fits m.sp.toInt
      (max ((View.of img c frame m).placeHeight target) ((View.of img c frame m).height e)))
    (htarget : ∀ reason, (View.of img c frame m).eval target = .error reason → may reason)
    (hvalue : ∀ reason, (View.of img c frame m).eval e = .error reason → may reason)
    (here : img.code.At pc code)
    (h : ∀ a x s' m', (View.of img c frame m).eval target = .ok (.place a) →
      (View.of img c frame m).eval e = .ok x →
      (View.of img c frame m).Inside a (c.structs.words type) →
      Stored pool m.sp.toInt a ((View.of img c frame m).words (c.structs.words type) x) m.store s' →
      m'.Shows img ⟨pc + code.size, s'⟩ → P (.inl m')) :
    (m.moveTo pc).Comes P := by
  let v := View.of img c frame m
  have hG := proper.eventually_or_division hP
  cases emits with
  | constant known => cases known
  | assign place value accepted same =>
    have typed : v.typeOf e = some _ := View.typeOf_value value rfl quiet
    have points :=
        View.means_of_emits (v := v) may hG proper sound.structs carries.consistent stray place rfl
      (Expr.effectFree_of_isPath path)
    have reads := View.means_of_emits (v := v) may hG proper sound.structs carries.consistent stray
      value rfl quiet
    have room := View.words_le_height sound.structs quiet typed
    refine (View.stores hG points reads place.free_of_address typed same room View.of_sees fits
      htarget hvalue).comes here
      (carries.shows_moveTo pc) ?_
    rintro s' m' ⟨a, x, ha, hx, inside, hstored⟩ hm'
    exact h a x s' m' ha hx inside hstored hm'

end Machine.Carries

/-- The words of a value are written to its target and stay on the stack, and nothing else below the
stack pointer changes. Where the value divides by zero, so does the assignment. -/
theorem assignment_writes_destination (parsed : Program.ofSource source = .ok p)
    (serves : EmitContext.Serves c p)
    (path : Expr.isPath target = true) (quiet : Expr.effectFree e = true)
    (typed : Typing.typeOf (c.at frame) (.assign span none target e) = .ok type)
    (assigned : expr c (.assign span none target e) ⟨frame, pool, labels⟩ = .ok code st)
    (placed : place c target ⟨frame, pool₁, labels₁⟩ = .ok (placeCode, r) st₁)
    (valued : expr c e ⟨frame, pool₂, labels₂⟩ = .ok valueCode st₂) (proper : Image.Proper img)
    (carries : Machine.Carries m img c frame) (here : img.code.At pc code)
    (herePlace : img.code.At pc₁ placeCode) (hereValue : img.code.At pc₂ valueCode)
    (fits : img.Fits m.sp.toInt
      (max ((View.of img c frame m).placeHeight target) ((View.of img c frame m).height e)))
    (belowTarget : (View.of img c frame m).eval target ≠ .error .stray)
    (belowValue : (View.of img c frame m).eval e ≠ .error .stray) :
    ∃ a, (m.moveTo pc₁).Arrives (m.Located · (pc₁ + placeCode.size) r a) ∧
      ((∃ ws, ws.length = c.structs.words type ∧
        (m.moveTo pc₂).Arrives (m.Valued · (pc₂ + valueCode.size) ws) ∧
          (m.moveTo pc).Arrives (m.Assigned · (pc + code.size) a ws pool.live)) ∨
        (m.moveTo pc₂).Divides ∧ (m.moveTo pc).Divides) := by
  have sound := serves.sound (Program.ofSource_wellNamed parsed)
  obtain ⟨-, found, typedTarget, typedValue, accepted⟩ := Typing.typeOf_assign typed
  have same : c.structs.words type = c.structs.words found :=
    Structs.words_of_accepts sound.structs accepted
  obtain ⟨k, n₁, rfl, -, -, emitsPlace⟩ := place_emits sound target _ _ _ _ _ _ _ typedTarget placed
  obtain ⟨found', n₂, typedValue', -, emitsValue⟩ := expr_emits sound e _ _ _ _ _ valued
  obtain rfl := Except.ok.inj (typedValue.symm.trans typedValue')
  obtain ⟨type', n, typed', -, emits⟩ := expr_emits sound _ _ _ _ _ _ assigned
  obtain rfl := Except.ok.inj (typed.symm.trans typed')
  have fitsValue := fits.mono (Nat.le_max_right ..)
  obtain ⟨a, ha, -, located⟩ :=
    carries.locates proper sound emitsPlace path (fits.mono (Nat.le_max_left ..))
      belowTarget herePlace
  refine ⟨.ofInt a, located, ?_⟩
  rcases carries.meaning proper sound emitsValue quiet fitsValue belowValue hereValue
    with ⟨x, hx⟩ | hdivision
  · left
    have typedHere : (View.of img c frame m).typeOf e = some found :=
      View.typeOf_eq_some.mpr typedValue
    have hlength : ((View.of img c frame m).words (c.structs.words type) x).length =
        c.structs.words type :=
      same ▸ View.length_words typedHere hx
    have room : c.structs.words type ≤ (View.of img c frame m).height e :=
      same ▸ View.words_le_height sound.structs quiet typedHere
    have arrives := carries.arrives proper sound emitsValue quiet fitsValue hx hereValue
    rw [← same] at arrives
    refine ⟨_, hlength, arrives, ?_⟩
    refine carries.assignment_comes proper sound (fun _ => False) (fun h => h.elim) id emits
      path quiet fits (fun reason h => ?_) (fun reason h => ?_) here ?_
    · cases ha.symm.trans h
    · cases hx.symm.trans h
    · intro b y s' m' hb hy inside hstored hm'
      obtain rfl := Seen.place.inj (Except.ok.inj (ha.symm.trans hb))
      obtain rfl := Except.ok.inj (hx.symm.trans hy)
      exact ⟨m', rfl, hstored.assigned carries.shows hm' (hlength.symm ▸ fitsValue.mono room)
        (hlength.symm ▸ inside)⟩
  · right
    refine ⟨carries.divides proper sound emitsValue quiet fitsValue hdivision hereValue, ?_⟩
    refine carries.assignment_comes proper sound (· = .division) (fun _ pc => ⟨pc, rfl⟩) (by simp)
      emits path quiet fits
      (fun reason h => ?_) (fun reason h => ?_) here ?_
    · cases ha.symm.trans h
    · exact Except.error.inj (h.symm.trans hdivision)
    · intro b y s' m' hb hy
      cases hdivision.symm.trans hy

def SourceText.copiesPart : SourceText := .ofString
  ("struct I \x7b int x; int y; \x7d struct O \x7b int k; I i; I j; \x7d static O o; static O& p; " ++
    "p = o&; o.j.y = 7; p@.i = o.j; p@.i&; o.j;")

open Assembly in
theorem assignment_writes_destination_copiesPart :
    ∃ p c target e type frame code st code₁ r st₁ code₂ st₂,
    ∃ img : Image, ∃ m : Machine, ∃ pc pc₁ pc₂, Program.ofSource .copiesPart = .ok p ∧
    EmitContext.Serves c p ∧ Expr.isPath target = true ∧ Expr.effectFree e = true ∧
    Typing.typeOf (c.at frame) (.assign ⟨0, 0⟩ none target e) = .ok type ∧
    c.structs.words type = 2 ∧
    expr c (.assign ⟨0, 0⟩ none target e) ⟨frame, .empty, .start⟩ = .ok code st ∧
    place c target ⟨frame, .empty, .start⟩ = .ok (code₁, r) st₁ ∧
      expr c e ⟨frame, .empty, .start⟩ = .ok code₂ st₂ ∧
    img.Proper ∧ m.Carries img c frame ∧ img.code.At pc code ∧ img.code.At pc₁ code₁ ∧
    img.code.At pc₂ code₂ ∧
    img.Fits m.sp.toInt (max ((View.of img c frame m).placeHeight target)
      ((View.of img c frame m).height e)) ∧
    (View.of img c frame m).eval target = .ok (.place 1) ∧
    (View.of img c frame m).eval e = .ok (.place 3) ∧
    ∃ a, (m.moveTo pc₁).Arrives (m.Located · (pc₁ + code₁.size) r a) ∧
      ((∃ ws, ws.length = c.structs.words type ∧
        (m.moveTo pc₂).Arrives (m.Valued · (pc₂ + code₂.size) ws) ∧
          (m.moveTo pc).Arrives (m.Assigned · (pc + code.size) a ws RegisterPool.empty.live)) ∨
        (m.moveTo pc₂).Divides ∧ (m.moveTo pc).Divides) := by
  have hrun : (do
      let build ← Build.ofSource? .copiesPart
      let c := build.context
      let target : Expr :=
        .field ⟨0, 0⟩ (.dereference ⟨0, 0⟩ (.var ⟨0, 0⟩ "p")) ⟨"i", ⟨0, 0⟩, ⟨0, 0⟩⟩
      let e : Expr := .field ⟨0, 0⟩ (.var ⟨0, 0⟩ "o") ⟨"j", ⟨0, 0⟩, ⟨0, 0⟩⟩
      let st : EmitState := ⟨.topLevel build.statics, .empty, .start⟩
      let type ← (Typing.typeOf (c.at st.frame) (.assign ⟨0, 0⟩ none target e)).toOption
      let assigned ← (expr c (.assign ⟨0, 0⟩ none target e)).result? st
      let placed ← (place c target).result? st
      let valued ← (expr c e).result? st
      let a := build.code
      let img : Image := ⟨a, a.value, 20⟩
      ((Machine.load (Bytecode.ofList (a.words a.value)) ⟨20, none⟩).runFor 20).getLeft?.filter
        fun (m : Machine) =>
        let v := View.of img c st.frame m
        decide (c.structs.words type = 2 ∧ a.size < 2 ^ 31 ∧
          (a.drop 22).take assigned.1.length = assigned.1 ∧
          (a.drop 62).take placed.1.1.length = placed.1.1 ∧
          (a.drop 72).take valued.1.length = valued.1 ∧ v.Consistent ∧
          img.Fits m.sp.toInt (max (v.placeHeight target) (v.height e)) ∧
          (v.eval target).toOption = some (Seen.place 1) ∧
          (v.eval e).toOption = some (Seen.place 3))).isSome = true := by
    decide +kernel
  obtain ⟨m, hrun⟩ := Option.isSome_iff_exists.mp hrun
  obtain ⟨⟨p, c, statics, a⟩, hbuild, hrun⟩ := Option.bind_eq_some_iff.mp hrun
  dsimp only at hrun
  obtain ⟨type, typed, hrun⟩ := of_toOption_bind hrun
  obtain ⟨assigned, hassigned, hrun⟩ := of_result?_bind hrun
  obtain ⟨placed, hplaced, hrun⟩ := of_result?_bind hrun
  obtain ⟨valued, hvalued, hrun⟩ := of_result?_bind hrun
  obtain ⟨hm, hrun⟩ := Option.filter_eq_some_iff.mp hrun
  rw [Sum.getLeft?_eq_some_iff] at hm
  obtain ⟨hwords, hsize, here, herePlace, hereValue, consistent, fits, hplace, hvalue⟩ :=
    of_decide_eq_true hrun
  rw [toOption_eq_some] at hplace hvalue
  obtain ⟨parsed, serves, -, complete⟩ := Build.of_some hbuild
  have proper : Image.Proper ⟨a, a.value, 20⟩ := complete.proper rfl hsize
  have hb := (Machine.Bounded.load _ _).runFor hm
  have carries : m.Carries ⟨a, a.value, 20⟩ _ _ := ⟨by rw [hb.code]; rfl, hb.memory, consistent⟩
  have here := Assembly.At.of_slice here
  have herePlace := Assembly.At.of_slice herePlace
  have hereValue := Assembly.At.of_slice hereValue
  exact ⟨p, _, _, _, type, _, _, _, _, _, _, _, _, _, m, _, _, _, parsed, serves, rfl, rfl, typed,
    hwords, hassigned, hplaced,
    hvalued, proper, carries, here, herePlace, hereValue, fits, hplace, hvalue,
    assignment_writes_destination parsed serves rfl rfl typed hassigned hplaced hvalued proper
    carries here herePlace hereValue
      fits (fun h => by cases hplace.symm.trans h) fun h => by cases hvalue.symm.trans h⟩

end WordScript
