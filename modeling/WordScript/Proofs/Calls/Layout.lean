import Mathlib.Data.List.Chain
import Mathlib.Data.List.Forall2
import WordScript.Proofs.Assembles
import WordScript.Proofs.Calls.Returns

/-!
# The layout of a call

The words below `sp` at the entry of a function are room for its result, the receiver's address, the
arguments and the return address. This layout is computed twice: a function's frame has negative
positions for what it finds there (`Frame.ofSignature_laysOut`), and a caller pushes one part after
the other (`Emit.call_parts`).
-/

namespace WordScript

/-! ### What a function finds -/

/-- Where the return slot, the receiver and the parameters start, in words from `sp` at entry. -/
structure EntryLayout where
  slot : Int
  this : Option Int
  params : List Int
  deriving DecidableEq, Repr

/-- The frame of a function finds everything where the layout says. -/
structure Frame.LaysOut (f : Frame) (s : Signature) (l : EntryLayout) : Prop where
  slot : f.returnSlotOffset? = some l.slot
  this : Option.Rel (fun type z => f.lookup "this" = some (type, .stack z)) s.receiver l.this
  params : List.Forall₂ (fun p z => f.lookup p.1 = some (p.2, .stack z)) s.params l.params

def EntryLayout.ranges (l : EntryLayout) (structs : Structs) (s : Signature) : List (Int × Nat) :=
  (l.slot, structs.words s.returns) :: (l.this.toList.map fun z => (z, 1)) ++
    l.params.zip (s.params.map fun p => structs.words p.2) ++ [(-1, 1)]

/-- Each range ends where the next one starts, so no two of them meet. The last one, the return
address, ends at `sp`. -/
structure EntryLayout.Contiguous (l : EntryLayout) (structs : Structs) (s : Signature) : Prop where
  adjacent : (l.ranges structs s).IsChain fun (x y : Int × Nat) => x.1 + x.2 = y.1
  disjoint : (l.ranges structs s).Pairwise fun (x y : Int × Nat) => x.1 + x.2 ≤ y.1

def paramOffsets (structs : Structs) : List (String × ValueType) → List Int
  | [] => []
  | p :: rest => (-1 - structs.totalWords ((p :: rest).map Prod.snd)) :: paramOffsets structs rest

theorem length_paramOffsets (structs : Structs) (params : List (String × ValueType)) :
    (paramOffsets structs params).length = params.length := by
  induction params with
  | nil => rfl
  | cons p rest ih => rw [paramOffsets, List.length_cons, ih, List.length_cons]

def Signature.layout (structs : Structs) (s : Signature) : EntryLayout where
  slot := -1 - s.argumentWords structs - s.receiver.elim 0 (fun _ => 1) - structs.words s.returns
  this := s.receiver.map fun _ => -1 - s.argumentWords structs - 1
  params := paramOffsets structs s.params

/-- Different parameters have different names, and none of a method's is called `this`. -/
structure Signature.Distinct (s : Signature) : Prop where
  params : (s.params.map Prod.fst).Nodup
  this : s.receiver.isSome = true → "this" ∉ s.params.map Prod.fst

theorem Functions.ofProgram_distinct (h : Functions.ofProgram structs p = .ok f)
    (known : f.get? name = some signature) : signature.Distinct := by
  have hall : f.All fun _ signature => signature.Distinct := by
    refine ofProgram_all (fun _ receiver decls params returns _ hparams => ?_) h
    obtain ⟨hnodup, hthis⟩ := declareParams_distinct (by simp) hparams
    exact ⟨hnodup, hthis⟩
  exact hall name signature known

theorem lookup_of_mem {l : List (String × β)} (distinct : (l.map Prod.fst).Nodup) (h : (k, v) ∈ l) :
    l.lookup k = some v := by
  obtain ⟨front, back, rfl⟩ := List.append_of_mem h
  refine List.lookup_eq_some_iff.mpr ⟨front, back, rfl, fun p hp => ?_⟩
  rw [List.map_append, List.nodup_append] at distinct
  exact bne_iff_ne.mpr fun he => distinct.2.2 p.1 (List.mem_map_of_mem hp) k (by simp) he.symm

namespace Frame

variable {structs : Structs} {statics : List StaticVariable} {s : Signature}

theorem map_placeParams (structs : Structs) (z : Int) (params : List (String × ValueType)) :
    (placeParams structs z params).map Prod.fst = params.map Prod.fst := by
  induction params generalizing z with
  | nil => rfl
  | cons p rest ih =>
    obtain ⟨name, type⟩ := p
    simp only [placeParams, List.map_cons, ih]

theorem placeParams_forall {z : Int} {params : List (String × ValueType)}
    (hz : z = -1 - structs.totalWords (params.map Prod.snd)) :
    List.Forall₂ (fun p z' => (p.1, ⟨p.2, .frame z'⟩) ∈ placeParams structs z params) params
      (paramOffsets structs params) := by
  induction params generalizing z with
  | nil => exact .nil
  | cons p rest ih =>
    obtain ⟨name, type⟩ := p
    refine .cons (by simp [placeParams, hz]) ((ih ?_).imp fun p z' h => List.mem_cons_of_mem _ h)
    simp only [List.map_cons, Structs.totalWords] at hz
    omega

theorem lookup_placeParams {z : Int} {params : List (String × ValueType)}
    (distinct : (params.map Prod.fst).Nodup) (h : (name, v) ∈ placeParams structs z params) :
    (placeParams structs z params).reverse.lookup name = some v := by
  refine lookup_of_mem ?_ (List.mem_reverse.mpr h)
  rw [((List.reverse_perm _).map Prod.fst).nodup_iff, map_placeParams]
  exact distinct

theorem returnSlot_ofSignature (structs : Structs) (statics : List StaticVariable) (s : Signature) :
    (ofSignature structs statics s).returnSlot = some (s.layout structs).slot := by
  cases hr : s.receiver <;> simp [ofSignature, hr, Signature.layout]

/-- The frame at the entry of a function has the layout of its signature. -/
theorem ofSignature_laysOut (distinct : s.Distinct) :
    (ofSignature structs statics s).LaysOut s (s.layout structs) := by
  have hparams := @placeParams_forall structs _ s.params rfl
  have hnames : ∀ p ∈ s.params, p.1 ∈ s.params.map Prod.fst := fun p hp => List.mem_map_of_mem hp
  cases hr : s.receiver with
  | none =>
    refine ⟨?_, ?_, hparams.imp fun p z h => ?_⟩
    · simp [ofSignature, hr, returnSlotOffset?, Signature.layout]
    · simp [hr, Signature.layout]
    · simp [ofSignature, hr, lookup, find?, Signature.argumentWords,
        lookup_placeParams distinct.params h]
  | some type =>
    refine ⟨?_, ?_, hparams.imp fun p z h => ?_⟩
    · simp [ofSignature, hr, returnSlotOffset?, Signature.layout]
    · rw [hr, Signature.layout, hr]
      exact .some (by simp [ofSignature, hr, lookup, find?])
    · have hne : p.1 ≠ "this" := by
        rintro hthis
        refine distinct.this (by simp [hr]) ?_
        rw [← hthis, ← map_placeParams structs _ s.params]
        exact List.mem_map_of_mem h
      have hkey : (p.1 == "this") = false := by simpa using hne
      simp [ofSignature, hr, lookup, find?, Signature.argumentWords, List.lookup_cons, hkey,
        lookup_placeParams distinct.params h]

end Frame

namespace EntryLayout

theorem slot_below (structs : Structs) (s : Signature) :
    (s.layout structs).slot + structs.words s.returns ≤ -1 := by
  cases hr : s.receiver <;> simp only [Signature.layout, hr, Option.elim] <;> omega

theorem isChain_params (structs : Structs) (params : List (String × ValueType)) {z : Int} {w : Nat}
    (h : z + w = -1 - structs.totalWords (params.map Prod.snd)) :
    ((z, w) :: ((paramOffsets structs params).zip (params.map fun p => structs.words p.2) ++
      [(-1, 1)])).IsChain
      fun (x y : Int × Nat) => x.1 + x.2 = y.1 := by
  induction params generalizing z w with
  | nil => simpa [paramOffsets, Structs.totalWords] using h
  | cons p rest ih =>
    simp only [List.map_cons, Structs.totalWords] at h
    refine .cons_cons ?_ (ih ?_)
    · simp only [List.map_cons, Structs.totalWords]
      omega
    · simp only [List.map_cons, Structs.totalWords]
      omega

theorem contiguous_layout (structs : Structs) (s : Signature) :
    (s.layout structs).Contiguous structs s := by
  have hchain : ((s.layout structs).ranges structs s).IsChain fun (x y : Int × Nat) =>
      x.1 + x.2 = y.1 := by
    cases hr : s.receiver with
    | none =>
      have hslot := isChain_params structs s.params (z := (s.layout structs).slot)
          (w := structs.words s.returns) (by simp [Signature.layout, hr, Signature.argumentWords])
      simpa [ranges, Signature.layout, hr] using hslot
    | some type =>
      have hthis := isChain_params structs s.params (z := -1 - s.argumentWords structs - 1) (w := 1)
        (by simp [Signature.argumentWords])
      simp only [ranges, Signature.layout, hr, Option.map_some, Option.toList_some,
        List.map_cons, List.map_nil, List.cons_append, List.nil_append, Option.elim_some]
      exact .cons_cons (by omega) hthis
  have hordered := hchain.imp (S := fun (x y : Int × Nat) => x.1 + x.2 ≤ y.1) fun x y h =>
    Int.le_of_eq h
  have : IsTrans (Int × Nat) fun x y => x.1 + x.2 ≤ y.1 := ⟨fun x y z hxy hyz => by omega⟩
  exact ⟨hchain, List.isChain_iff_pairwise.mp hordered⟩

end EntryLayout

/-! ### What a caller pushes -/

structure CallCode where
  saves : Assembly
  room : Assembly
  /-- Code for the address of the receiver, and the register that has it then. -/
  receiver : Option (Assembly × Register)
  arguments : List Assembly
  /-- Where the function comes back to. -/
  back : Label
  function : FunctionName
  rest : Assembly

namespace CallCode

open Emit

def place (x : CallCode) : Assembly := x.receiver.elim [] Prod.fst

def this (x : CallCode) : Assembly := x.receiver.elim [] fun part => thisCode part.2

def code (x : CallCode) : Assembly :=
  x.saves ++ x.room ++ (x.place ++ x.this) ++ x.arguments.flatten ++
    enterCode x.back x.function ++ x.rest

/-- The parts are what the generator emits for a call of `target`, one after the other. -/
structure Of (x : CallCode) (c : EmitContext) (callee : Expr) (target : CallTarget)
    (args : List Expr) (s : EmitState) :
    Prop where
  function : x.function = target.function
  emitted : ∃ s₁ s₂ s₃ s₄ s₅, saveAll s.registers.live s = .ok x.saves s₁ ∧
    reserve (c.structs.words target.signature.returns) (c.structs.text target.signature.returns)
    s₁ = .ok x.room s₂ ∧ Emit.receiver c callee s₂ = .ok x.receiver s₃ ∧
    pushReceiver (Emit.receiver c callee) s₂ = .ok (x.place ++ x.this) s₄ ∧
    args.mapM (expr c) s₄ = .ok x.arguments s₅ ∧ x.back = .code s₅.labels.next

structure Fits (x : CallCode) (structs : Structs) (s : Signature) : Prop where
  room : x.room = roomCode (structs.words s.returns) (structs.text s.returns)
  place : ∃ n n', Moves n n' x.place 0 ∧ Inner n n' x.place
  method : x.receiver.isSome = s.receiver.isSome
  arguments : List.Forall₂ (fun p part => ∃ n n', Moves n n' part (.ofNat (structs.words p.2)) ∧
    Inner n n' part)
    s.params x.arguments

/-- What surrounds the call itself: registers in use are saved in front of it, and behind it the
arguments and the receiver are dropped and the registers restored, with a cursor that is none of
them. -/
structure Restores (x : CallCode) (structs : Structs) (s : Signature) (pool : RegisterPool) :
    Prop where
  saves : x.saves = saveCode pool.live
  rest : ∃ k, (pool.live ≠ [] → structs.words s.returns ≠ 0 → .general k ∉ pool.live) ∧
    x.rest = (s.params.reverse.map fun p => structs.words p.2).flatMap lowerSp ++
      lowerSp (if s.receiver.isSome then 1 else 0) ++ slideCode pool.live
      (structs.words s.returns) (.general k)

end CallCode

namespace Emit

variable {c : EmitContext}

theorem arguments_parts (hc : c.Sound) {es : List Expr} {params : List (String × ValueType)}
    (checked : Typing.checkArgs (c.at frame) es params = .ok ()) (hlen : es.length = params.length)
    (run : arguments c es ⟨frame, pool, ⟨n⟩⟩ = .ok code s) :
    ∃ parts, es.mapM (expr c) ⟨frame, pool, ⟨n⟩⟩ = .ok parts s ∧ code = parts.flatten ∧
      List.Forall₂ (fun p part => ∃ n n', Moves n n' part (.ofNat (c.structs.words p.2)) ∧
        Inner n n' part) params parts := by
  induction es generalizing frame n code s params with
  | nil =>
    obtain rfl : params = [] := by simpa using hlen.symm
    obtain ⟨rfl, rfl⟩ := pure_ok.mp run
    exact ⟨[], by rw [List.mapM_nil, pure_ok]; exact ⟨rfl, rfl⟩, rfl, .nil⟩
  | cons e es ih =>
    cases params with
    | nil => simp at hlen
    | cons param params =>
    obtain ⟨type, typed, hac, hrest⟩ := Typing.checkArgs_cons checked
    have hw : c.structs.words param.2 = c.structs.words type :=
      Structs.words_of_accepts hc.structs hac
    simp only [arguments, bind_ok, pure_ok] at run
    obtain ⟨first, _, hfirst, rest, _, hrestRun, rfl, rfl⟩ := run
    obtain ⟨type', n₁, typed', rfl, ef⟩ := expr_emits hc e _ _ _ _ _ hfirst
    obtain rfl := Except.ok.inj (typed.symm.trans typed')
    obtain ⟨parts, hparts, rfl, hmoves⟩ :=
      ih (by rwa [checkArgs_push]) (by simpa using hlen) hrestRun
    refine ⟨first :: parts, ?_, rfl, .cons ⟨n, n₁, hw ▸ ef.moves, ef.composed.inner⟩ hmoves⟩
    rw [List.mapM_cons, bind_ok]
    exact ⟨first, _, hfirst, bind_ok.mpr ⟨parts, _, hparts, pure_ok.mpr ⟨rfl, rfl⟩⟩⟩

theorem pushReceiver_part (hc : c.Sound)
    (resolved : Typing.callTarget (c.at frame) callee = .ok target)
    (run : pushReceiver (receiver c callee) ⟨frame, pool, ⟨n⟩⟩ = .ok code s) :
    ∃ part s', receiver c callee ⟨frame, pool, ⟨n⟩⟩ = .ok part s' ∧
    part.isSome = target.receiver.isSome ∧
      code = part.elim [] Prod.fst ++ part.elim [] (fun x => thisCode x.2) ∧
      ∃ n n', Moves n n' (part.elim [] Prod.fst) 0 ∧ Inner n n' (part.elim [] Prod.fst) := by
  simp only [pushReceiver, bind_ok] at run
  obtain ⟨part, t, hreceiver, hpush⟩ := run
  refine ⟨part, t, hreceiver, ?_⟩
  rcases receiver_emits hc callee _ _ _ _ _ _ resolved hreceiver with
    ⟨hnone, rfl, rfl⟩ | ⟨e, type, placeCode, k, n', hsome, rfl, -, rfl, he⟩
  · obtain ⟨rfl, rfl⟩ := pure_ok.mp hpush
    exact ⟨by simp [hnone], rfl, n, n, .straight rfl, .straight rfl⟩
  · simp only [holding_ok, bind_ok, pushWords_ok, pure_ok] at hpush
    obtain ⟨_, ⟨_, _, ⟨rfl, rfl⟩, rfl, rfl⟩, rfl⟩ := hpush
    exact ⟨by simp [hsome], rfl, n, n', he.moves, he.composed.inner⟩

/-- The parts of a call, with what stands in front of them and behind the function's return. -/
theorem call_sections (hc : c.Sound)
    (run : expr c (.call span callee args) ⟨frame, pool, ⟨n⟩⟩ = .ok code s) :
    ∃ target x, Typing.callTarget (c.at frame) callee = .ok target ∧
      c.functions.get? target.function = some target.signature ∧ CallCode.code x = code ∧
      x.Of c callee target args ⟨frame, pool, ⟨n⟩⟩ ∧ x.Fits c.structs target.signature ∧
      x.Restores c.structs target.signature pool := by
  simp only [expr, bind_ok, typeHere_ok, typing_ok, ofCheck_ok] at run
  obtain ⟨type, _, ⟨typed, rfl⟩, _, _, ⟨rfl, rfl⟩, target, _, ⟨resolved, rfl⟩, run⟩ := run
  obtain ⟨_, ht, _, hlen, hargs, rfl⟩ := Typing.typeOf_call typed
  obtain rfl := Except.ok.inj (resolved.symm.trans ht)
  obtain ⟨hsig, hmethod⟩ := receiver_isSome hc resolved
  simp only [call, bind_ok, get_ok, pure_ok, freshLabel_ok, popWords_ok] at run
  obtain ⟨_, _, ⟨rfl, rfl⟩, saves, _, hsaves, room, _, hroom, this, _, hthis, argsCode, u, hargsRun,
    _, _, ⟨rfl, rfl⟩, popArgs, _, hpop, _, _, ⟨rfl, rfl⟩, result, _, hslide, rfl, rfl⟩ := run
  obtain ⟨hsavesCode, rfl⟩ := saveAll_ok hsaves
  obtain ⟨hroomCode, rfl⟩ := reserve_ok hroom
  have hresolved := resolved
  rw [← callTarget_push frame pool.live.length,
    ← callTarget_push _ (c.structs.words target.signature.returns)] at hresolved
  obtain ⟨part, t, hpart, hisSome, rfl, hplace⟩ := pushReceiver_part hc hresolved hthis
  obtain ⟨n₁, rfl, -⟩ := pushReceiver_emits (receiver_emits hc callee) hresolved hthis
  have hchecked := hargs
  rw [← checkArgs_push frame pool.live.length,
    ← checkArgs_push _ (c.structs.words target.signature.returns),
    ← checkArgs_push _ (receiverWords target.receiver)] at hchecked
  obtain ⟨parts, hparts, rfl, hmoves⟩ := arguments_parts hc hchecked hlen hargsRun
  obtain ⟨_, n₂, -, rfl, -⟩ := arguments_emits hc args _ _ _ _ _ _ hchecked hlen hargsRun
  obtain ⟨rfl, rfl⟩ := popEach_ok hpop
  obtain ⟨k, hk, rfl, rfl⟩ := slideResult_ok hslide
  refine ⟨target, ⟨saves, room, part, parts, .code n₂, target.function,
    _ ++ _ ++ slideCode pool.live _ (.general k)⟩, resolved,
    hsig, ?_, ⟨rfl, _, _, _, _, _, hsaves, hroom, hpart, hthis, hparts, rfl⟩,
    ⟨hroomCode, hplace, hisSome.trans hmethod.symm, hmoves⟩, ⟨hsavesCode, k, ?_, rfl⟩⟩
  · simp [CallCode.code, CallCode.place, CallCode.this, enterCode, lowerSp]
  · exact fun h h' => RegisterPool.not_live_of_free (hk h h')

theorem call_parts (hc : c.Sound)
    (run : expr c (.call span callee args) ⟨frame, pool, ⟨n⟩⟩ = .ok code s) :
    ∃ target x, Typing.callTarget (c.at frame) callee = .ok target ∧
      c.functions.get? target.function = some target.signature ∧ CallCode.code x = code ∧
      x.Of c callee target args ⟨frame, pool, ⟨n⟩⟩ ∧ x.Fits c.structs target.signature := by
  obtain ⟨target, x, resolved, known, hcode, hof, hfits, -⟩ := call_sections hc run
  exact ⟨target, x, resolved, known, hcode, hof, hfits⟩

end Emit

end WordScript
