import WordScript.Proofs.Emit.Shape

/-!
# The shape of statement code

`EmitsCode` describes the code of statements by rules, as `Emits` does for expressions, with the
frames before and after. A statement changes the frame in its innermost scope only
(`Frame.Extends`), so a block ends with the frame it started with.
-/

namespace WordScript

/-! ### Frames that differ in the innermost scope -/

namespace Frame

def scopeWords (f : Frame) : Nat := f.scopes.head?.elim 0 Scope.words

/-- `g` is `f` with more variables in its innermost scope. -/
structure Extends (f g : Frame) : Prop where
  outer : g.scopes.tail = f.scopes.tail
  empty : g.scopes = [] ↔ f.scopes = []
  slot : g.returnSlot = f.returnSlot
  depth : g.depth - g.scopeWords = f.depth - f.scopeWords

theorem Extends.refl (f : Frame) : f.Extends f := ⟨rfl, .rfl, rfl, rfl⟩

theorem Extends.trans {f g h : Frame} (hfg : f.Extends g) (hgh : g.Extends h) : f.Extends h where
  outer := hgh.outer.trans hfg.outer
  empty := hgh.empty.trans hfg.empty
  slot := hgh.slot.trans hfg.slot
  depth := hgh.depth.trans hfg.depth

theorem declare_eq_ok {f g : Frame} (h : f.declare structs name type = .ok g) :
    ∃ scope outer, f.scopes = scope :: outer ∧ g = { f with
      scopes := ⟨(name, ⟨type, .frame (f.depth - structs.words type)⟩) :: scope.entries,
        scope.words + structs.words type⟩ :: outer } := by
  simp only [declare] at h
  split at h
  · simp at h
  · next scope outer hs =>
    split at h
    · simp at h
    · exact ⟨scope, outer, hs, by simpa using h.symm⟩

theorem extends_declare {f g : Frame}
    (h : (f.push (structs.words type)).declare structs name type = .ok g) : f.Extends g := by
  obtain ⟨scope, outer, hs, rfl⟩ := declare_eq_ok h
  simp only [scopes_push] at hs
  refine ⟨by simp [hs], by simp [hs], rfl, ?_⟩
  simp only [scopeWords, hs, List.head?_cons, Option.elim_some, depth_push]
  omega

/-- Leaving a scope gives back the frame it was entered in. -/
theorem leave_of_extends_enter {f g : Frame} (h : f.enter.Extends g) :
    g.leave = (g.scopeWords, f) := by
  obtain ⟨outer, empty, slot, depth⟩ := h
  obtain ⟨scopes, depth, slot⟩ := g
  cases scopes with
  | nil => simp [enter] at empty
  | cons scope rest =>
    simp only [enter, List.tail_cons, scopeWords, List.head?_cons, Option.elim_some,
      Scope.empty] at *
    subst outer slot
    simp only [leave, Prod.mk.injEq, true_and]
    obtain ⟨_, _, _⟩ := f
    simp only [Frame.mk.injEq, true_and, and_true]
    simp only at *
    omega

end Frame

namespace Emit

/-! ### Code of the parts -/

def dropCode (comment : Option String) (words : Nat) : Assembly :=
  if words = 0 then [] else [.instruction (decrease .sp (count words)) comment]

def zerosCode (words : Nat) : Assembly :=
  (List.replicate words [line (.memWrite .sp (word 0)), line (increase .sp (word 1))]).flatten

def resultCode (slot : Int) (words : Nat) (target source : Register) : Assembly :=
  if words = 0 then []
  else noted (.mov target (.register .sp)) "return value" ::
    line (increase target (word (.ofInt slot))) :: line (.mov source (.register .sp)) ::
      line (decrease source (count words)) :: copyWords target source words

def leaveCode (depth : Int) (address : Register) : Assembly :=
  [line (.mov address (.register .sp)), line (decrease address (word (.ofInt (depth + 1)))),
    line (.memRead address address), line (decrease .sp (word (.ofInt (depth + 1)))),
    line (.jmp (.register address))]

/-! ### The rules -/

/-- A statement, a list of them, or a statement as the body of a branch or loop. -/
inductive Block
  | one (s : Statement)
  | many (ss : List Statement)
  | body (s : Statement)

inductive EmitsResult (c : EmitContext) (frame : Frame) (pool : RegisterPool) (n : Nat) :
    Option Expr → ValueType → Assembly → Nat → Prop
  | none : EmitsResult c frame pool n none .void [] n
  | some (value : Emits c frame pool n (.value e type) code n') :
      EmitsResult c frame pool n (some e) type code n'

/-- `EmitsCode c pool frame n block code frame' n'`: `code` is code for the block, in a frame that
it turns into `frame'`. -/
inductive EmitsCode (c : EmitContext) (pool : RegisterPool) :
    Frame → Nat → Block → Assembly → Frame → Nat → Prop
  | stop (result : EmitsResult c frame pool n value type code n') (outside : c.returns = none) :
      EmitsCode c pool frame n (.one (.ret span value)) (code ++ [line .halt]) frame n'
  | ret {slot : Int} {words source : Nat} (result : EmitsResult c frame pool n value type code n')
      (inside : c.returns = some expected) (accepted : c.structs.accepts expected type = true)
      (size : words = c.structs.words expected) (same : words = c.structs.words type)
      (position : words ≠ 0 → frame.returnSlot = some slot)
      (free : pool.lowestFree? = some k)
      (freeSource : words ≠ 0 → (pool.take k).lowestFree? = some source) :
      EmitsCode c pool frame n (.one (.ret span value))
        (code ++ resultCode (slot - (frame.depth + words)) words (.general k) (.general source) ++
          leaveCode (frame.depth + words) (.general k)) frame n'
  | expression (value : Emits c frame pool n (.value e type) code n') :
      EmitsCode c pool frame n (.one (.expression span e))
        (code ++ lowerSp (c.structs.words type)) frame n'
  | declare (resolved : c.structs.resolveStored written = .ok type)
      (value : Emits c frame pool n (.value e found) code n')
      (accepted : c.structs.accepts type found = true)
      (same : c.structs.words type = c.structs.words found)
      (declared : (frame.push (c.structs.words type)).declare c.structs name.text
        type = .ok frame') :
      EmitsCode c pool frame n (.one (.declare span written name (some e))) code frame' n'
  | declareZero (resolved : c.structs.resolveStored written = .ok type)
      (declared : (frame.push (c.structs.words type)).declare c.structs name.text
        type = .ok frame') :
      EmitsCode c pool frame n (.one (.declare span written name none))
        (zerosCode (c.structs.words type)) frame' n
  | block (body : EmitsCode c pool frame.enter n (.many ss) code frame₁ n')
      (left : frame₁.leave = (words, frame)) :
      EmitsCode c pool frame n (.one (.block span ss))
        (code ++ dropCode (some "end of scope") words) frame n'
  | ifThen (test : Emits c frame pool (n + 1) (.value e type) testing n₁)
      (single : c.structs.words type = 1) (free : pool.lowestFree? = some k)
      (yes : EmitsCode c pool frame n₁ (.body s) yesCode frame n₂) :
      EmitsCode c pool frame n (.one (.ifThen span e s))
        (testing ++ testCode (.general k) type .equal (.code n) ++ yesCode ++ [.label (.code n)])
        frame n₂
  | ifThenElse (test : Emits c frame pool (n + 1) (.value e type) testing n₁)
      (single : c.structs.words type = 1) (free : pool.lowestFree? = some k)
      (yes : EmitsCode c pool frame n₁ (.body s) yesCode frame n₂)
      (no : EmitsCode c pool frame (n₂ + 1) (.body s') noCode frame n₃) :
      EmitsCode c pool frame n (.one (.ifThenElse span e s s'))
        (testing ++ testCode (.general k) type .equal (.code n) ++ yesCode ++
          line (.jmp (labelled (.code n₂))) :: .label (.code n) :: noCode ++ [.label (.code n₂)])
        frame n₃
  | loop (test : Emits c frame pool (n + 2) (.value e type) testing n₁)
      (single : c.structs.words type = 1) (free : pool.lowestFree? = some k)
      (body : EmitsCode c pool frame n₁ (.body s) bodyCode frame n₂) :
      EmitsCode c pool frame n (.one (.loop span e s))
        (.label (.code n) :: (testing ++ testCode (.general k) type .equal (.code (n + 1)) ++
          bodyCode ++
          [line (.jmp (labelled (.code n))), .label (.code (n + 1))])) frame n₂
  | nil : EmitsCode c pool frame n (.many []) [] frame n
  | cons (first : EmitsCode c pool frame n (.one s) code frame₁ n₁)
      (rest : EmitsCode c pool frame₁ n₁ (.many ss) restCode frame₂ n₂) :
      EmitsCode c pool frame n (.many (s :: ss)) (code ++ restCode) frame₂ n₂
  | bodyBlock (block : EmitsCode c pool frame n (.one (.block span ss)) code frame n') :
      EmitsCode c pool frame n (.body (.block span ss)) code frame n'
  | bodyScoped (single : ∀ span ss, s ≠ .block span ss)
      (inner : EmitsCode c pool frame.enter n (.one s) code frame₁ n')
      (left : frame₁.leave = (words, frame)) :
      EmitsCode c pool frame n (.body s) (code ++ dropCode none words) frame n'

/-! ### The generator follows the rules -/

def EmitsBlock (c : EmitContext) (b : Block) (emit : Emit Assembly) : Prop :=
  ∀ frame pool n code s, emit ⟨frame, pool, ⟨n⟩⟩ = .ok code s →
    ∃ frame' n', s = ⟨frame', pool, ⟨n'⟩⟩ ∧ frame.Extends frame' ∧
      EmitsCode c pool frame n b code frame' n'

section
variable {c : EmitContext} {s s' : EmitState}

theorem inScope_emits {emit : Emit Assembly} (h : EmitsBlock c b emit)
    (run : inScope comment emit ⟨frame, pool, ⟨n⟩⟩ = .ok code s) :
    ∃ inner words body n', code = body ++ dropCode comment words ∧ s = ⟨frame, pool, ⟨n'⟩⟩ ∧
      inner.leave = (words, frame) ∧ EmitsCode c pool frame.enter n b body inner n' := by
  simp only [inScope, bind_ok, modifyFrame_ok, get_ok, modify_ok] at run
  obtain ⟨_, _, rfl, body, _, hbody, _, _, ⟨rfl, rfl⟩, _, _, rfl, run⟩ := run
  obtain ⟨inner, n', rfl, hext, he⟩ := h _ _ _ _ _ hbody
  have hleave := Frame.leave_of_extends_enter hext
  simp only [hleave] at run
  refine ⟨inner, _, body, n', ?_, ?_, hleave, he⟩ <;>
    by_cases hw : inner.scopeWords = 0 <;> simp only [hw, ↓reduceIte, pure_ok] at run <;>
    simp [dropCode, hw, ← run.1, ← run.2]

theorem condition_emits (hc : c.Sound) (run : condition c e l ⟨frame, pool, ⟨n⟩⟩ = .ok code s) :
    ∃ type value k n', c.structs.words type = 1 ∧ pool.lowestFree? = some k ∧
      code = value ++ testCode (.general k) type .equal l ∧ s = ⟨frame, pool, ⟨n'⟩⟩ ∧
      Emits c frame pool n (.value e type) value n' := by
  simp only [condition, bind_ok, typeHere_ok, ofCheck_ok, Typing.singleWord_eq_ok, withPopped_ok,
    pure_ok] at run
  obtain ⟨type, _, ⟨typed, rfl⟩, _, _, ⟨hw, rfl⟩, value, _, hv, _, _,
    ⟨k, _, _, hk, ⟨rfl, rfl⟩, rfl, rfl⟩, rfl, rfl⟩ := run
  obtain ⟨n', rfl, he⟩ := (expr_emits hc e).run (m := 0) typed (by simpa using hv)
  have hfree := RegisterPool.release_take hk
  simp only [Nat.zero_add, Frame.push_zero] at *
  exact ⟨type, value, k, n', hw, hk, rfl, by simp [hw, hfree], he⟩

theorem exprFor_emits (hc : c.Sound) (run : exprFor c type e ⟨frame, pool, ⟨n⟩⟩ = .ok code s) :
    ∃ found n', c.structs.accepts type found = true ∧ c.structs.words type = c.structs.words found ∧
      s = ⟨frame.push (c.structs.words type), pool, ⟨n'⟩⟩ ∧
      Emits c frame pool n (.value e found) code n' := by
  simp only [exprFor, bind_ok, typeHere_ok] at run
  obtain ⟨found, _, ⟨typed, rfl⟩, run⟩ := run
  cases hac : c.structs.accepts type found with
  | false => simp [hac, bind_ok] at run
  | true =>
    have hw := Structs.words_of_accepts hc.structs hac
    simp only [hac, ↓reduceIte] at run
    obtain ⟨n', rfl, he⟩ := (expr_emits hc e).run (m := 0) typed (by simpa using run)
    simp only [Nat.zero_add, Frame.push_zero] at *
    exact ⟨found, n', hac, hw, by rw [hw], he⟩

theorem pushZeros_ok (h : pushZeros words s = .ok code s') :
    code = zerosCode words ∧ s' = { s with frame := s.frame.push words } := by
  simp only [pushZeros, bind_ok, modifyFrame_ok, pure_ok] at h
  obtain ⟨_, _, rfl, rfl, rfl⟩ := h
  exact ⟨rfl, rfl⟩

theorem declareTop_ok (h : declareTop structs name type s = .ok u s') :
    ∃ frame, s.frame.declare structs name.text type = .ok frame ∧ s' = { s with frame } := by
  simp only [declareTop, bind_ok, get_ok] at h
  obtain ⟨_, t, ⟨rfl, rfl⟩, h⟩ := h
  cases hdeclare : t.frame.declare structs name.text type with
  | error e => simp [hdeclare] at h
  | ok frame => exact ⟨frame, rfl, modify_ok.mp (by simpa only [hdeclare] using h)⟩

theorem declaration_emits (hc : c.Sound) :
    EmitsBlock c (.one (.declare span written name init)) (declaration c written name init) := by
  intro frame pool n code s run
  simp only [declaration, bind_ok, ofCheck_ok] at run
  obtain ⟨type, _, ⟨resolved, rfl⟩, run⟩ := run
  cases init with
  | some e =>
    simp only [bind_ok, pure_ok] at run
    obtain ⟨value, _, hvalue, _, _, hrun, rfl, rfl⟩ := run
    obtain ⟨found, n', hac, hw, rfl, he⟩ := exprFor_emits hc hvalue
    obtain ⟨frame', hdeclare, rfl⟩ := declareTop_ok hrun
    exact ⟨frame', n', rfl, Frame.extends_declare hdeclare, .declare resolved he hac hw hdeclare⟩
  | none =>
    simp only [bind_ok, pure_ok] at run
    obtain ⟨value, _, hvalue, _, _, hrun, rfl, rfl⟩ := run
    obtain ⟨rfl, rfl⟩ := pushZeros_ok hvalue
    obtain ⟨frame', hdeclare, rfl⟩ := declareTop_ok hrun
    exact ⟨frame', n, rfl, Frame.extends_declare hdeclare, .declareZero resolved hdeclare⟩

theorem result_emits (hc : c.Sound) {value : Option Expr}
    (ht : value.elim (pure .void) (typeHere c) ⟨frame, pool, ⟨n⟩⟩ = .ok type t)
    (hv : value.elim (pure []) (expr c) t = .ok code s) :
    ∃ n', s = ⟨frame.push (c.structs.words type), pool, ⟨n'⟩⟩ ∧
      EmitsResult c frame pool n value type code n' := by
  cases value with
  | none =>
    obtain ⟨rfl, rfl⟩ := pure_ok.mp ht
    obtain ⟨rfl, rfl⟩ := pure_ok.mp hv
    exact ⟨n, by simp, .none⟩
  | some e =>
    obtain ⟨typed, rfl⟩ := typeHere_ok.mp ht
    obtain ⟨n', rfl, he⟩ := (expr_emits hc e).run (m := 0) typed (by simpa using hv)
    exact ⟨n', by simp, .some (by simpa using he)⟩

theorem copyResult_ok (h : copyResult words span s = .ok code s') :
    ∃ slot k source, (words ≠ 0 → s.frame.returnSlot = some slot) ∧
      (words ≠ 0 → s.registers.lowestFree? = some k ∧
        (s.registers.take k).lowestFree? = some source) ∧
      code = resultCode (slot - s.frame.depth) words (.general k) (.general source) ∧ s' = s := by
  by_cases hw : words = 0
  · subst hw
    obtain ⟨rfl, rfl⟩ := pure_ok.mp h
    exact ⟨0, 0, 0, by simp [resultCode]⟩
  · simp only [copyResult, hw, ↓reduceIte, bind_ok, get_ok, Frame.returnSlotOffset?] at h
    obtain ⟨_, t, ⟨rfl, rfl⟩, h⟩ := h
    cases hs : t.frame.returnSlot with
    | none => simp [hs] at h
    | some slot =>
      simp only [hs, Option.map_some, withRegister_ok, pure_ok] at h
      obtain ⟨k, _, hk, ⟨source, _, hsource, ⟨rfl, rfl⟩, rfl⟩, rfl⟩ := h
      have hk' := RegisterPool.release_take hk
      have hs' := RegisterPool.release_take hsource
      exact ⟨slot, k, source, fun _ => rfl, fun _ => ⟨hk, hsource⟩, by simp [resultCode, hw],
        by simp [hk', hs']⟩

theorem leaveFunction_ok (h : leaveFunction span s = .ok code s') :
    ∃ k, s.registers.lowestFree? = some k ∧ code = leaveCode s.frame.depth (.general k) ∧
    s' = s := by
  simp only [leaveFunction, bind_ok, get_ok, withRegister_ok, pure_ok] at h
  obtain ⟨_, t, ⟨rfl, rfl⟩, k, _, hk, ⟨rfl, rfl⟩, rfl⟩ := h
  have hk' := RegisterPool.release_take hk
  exact ⟨k, hk, rfl, by simp [hk']⟩

theorem return_emits (hc : c.Sound) :
    EmitsBlock c (.one (.ret span value)) (returnStatement c value written) := by
  intro frame pool n code s run
  simp only [returnStatement, bind_ok] at run
  obtain ⟨type, t, ht, valueCode, u, hv, run⟩ := run
  obtain ⟨n', rfl, he⟩ := result_emits hc ht hv
  cases hr : c.returns with
  | none =>
    simp only [hr, bind_ok, modifyFrame_ok, pure_ok] at run
    obtain ⟨_, _, rfl, rfl, rfl⟩ := run
    exact ⟨frame, n', by simp, .refl _, .stop he hr⟩
  | some expected =>
    cases hac : c.structs.accepts expected type with
    | false => simp [hr, hac, bind_ok] at run
    | true =>
      have hw := Structs.words_of_accepts hc.structs hac
      simp only [hr, hac, ↓reduceIte, bind_ok, modifyFrame_ok, pure_ok] at run
      obtain ⟨result, _, hresult, leave, _, hleave, _, _, rfl, rfl, rfl⟩ := run
      obtain ⟨slot, k, source, hslot, hfree, rfl, rfl⟩ := copyResult_ok hresult
      obtain ⟨k', hk, rfl, rfl⟩ := leaveFunction_ok hleave
      refine ⟨frame, n', by simp [hw], .refl _, ?_⟩
      simp only [Frame.returnSlot_push, Frame.depth_push, ← hw] at hslot hfree ⊢
      by_cases h0 : c.structs.words expected = 0
      · have hret : EmitsCode c pool frame n (.one (.ret span value)) _ frame n' :=
          @EmitsCode.ret _ _ _ _ _ _ _ _ _ _ _ slot _ source he hr hac rfl hw hslot hk (absurd h0)
        simpa [resultCode, h0] using hret
      · obtain ⟨hk', hsource⟩ := hfree h0
        obtain rfl : k = k' := by simpa [hk] using hk'.symm
        exact .ret he hr hac rfl hw hslot hk fun _ => hsource

theorem asBody_emits {emit : Emit Assembly} (h : EmitsBlock c (.one st) emit)
    (run : asBody st emit ⟨frame, pool, ⟨n⟩⟩ = .ok code s) :
    ∃ n', s = ⟨frame, pool, ⟨n'⟩⟩ ∧ EmitsCode c pool frame n (.body st) code frame n' := by
  by_cases hb : ∃ span ss, st = .block span ss
  · obtain ⟨span, ss, rfl⟩ := hb
    obtain ⟨frame', n', rfl, -, he⟩ := h _ _ _ _ _ run
    cases he with
    | block body left => exact ⟨n', rfl, .bodyBlock (.block body left)⟩
  · have hscope : asBody st emit = inScope none emit := by
      cases st <;> first | rfl | exact absurd ⟨_, _, rfl⟩ hb
    rw [hscope] at run
    obtain ⟨inner, words, body, n', rfl, rfl, hleave, he⟩ := inScope_emits h run
    exact ⟨n', rfl, .bodyScoped (fun span ss hs => hb ⟨span, ss, hs⟩) he hleave⟩

mutual

theorem statement_emits (hc : c.Sound) : ∀ st, EmitsBlock c (.one st) (statement c st)
  | .ret span value => return_emits hc
  | .expression span e => fun frame pool n code s run => by
    simp only [statement, bind_ok, typeHere_ok, popWords_ok, pure_ok] at run
    obtain ⟨type, _, ⟨typed, rfl⟩, value, _, hv, _, _, ⟨rfl, rfl⟩, rfl, rfl⟩ := run
    obtain ⟨n', rfl, he⟩ := (expr_emits hc e).run (m := 0) typed (by simpa using hv)
    exact ⟨frame, n', by simp, .refl _, .expression (by simpa using he)⟩
  | .declare span type name init => declaration_emits hc
  | .block span body => fun frame pool n code s run => by
    obtain ⟨inner, words, code, n', rfl, rfl, hleave, he⟩ :=
      inScope_emits (statements_emits hc body) run
    exact ⟨frame, n', rfl, .refl _, .block he hleave⟩
  | .ifThen span test yes => fun frame pool n code s run => by
    simp only [statement, bind_ok, freshLabel_ok, pure_ok] at run
    obtain ⟨_, _, ⟨rfl, rfl⟩, testing, _, htest, yesCode, _, hyes, rfl, rfl⟩ := run
    obtain ⟨type, value, k, n₁, hw, hk, rfl, rfl, et⟩ := condition_emits hc htest
    obtain ⟨n₂, rfl, ey⟩ := asBody_emits (statement_emits hc yes) hyes
    exact ⟨frame, n₂, rfl, .refl _, .ifThen et hw hk ey⟩
  | .ifThenElse span test yes no => fun frame pool n code s run => by
    simp only [statement, bind_ok, freshLabel_ok, pure_ok] at run
    obtain ⟨_, _, ⟨rfl, rfl⟩, testing, _, htest, yesCode, _, hyes, _, _, ⟨rfl, rfl⟩, noCode, _, hno,
      rfl, rfl⟩ := run
    obtain ⟨type, value, k, n₁, hw, hk, rfl, rfl, et⟩ := condition_emits hc htest
    obtain ⟨n₂, rfl, ey⟩ := asBody_emits (statement_emits hc yes) hyes
    obtain ⟨n₃, rfl, en⟩ := asBody_emits (statement_emits hc no) hno
    exact ⟨frame, n₃, rfl, .refl _, .ifThenElse et hw hk ey en⟩
  | .loop span test body => fun frame pool n code s run => by
    simp only [statement, bind_ok, freshLabel_ok, pure_ok] at run
    obtain ⟨_, _, ⟨rfl, rfl⟩, _, _, ⟨rfl, rfl⟩, testing, _, htest, bodyCode, _, hbody, rfl, rfl⟩ :=
      run
    obtain ⟨type, value, k, n₁, hw, hk, rfl, rfl, et⟩ := condition_emits hc htest
    obtain ⟨n₂, rfl, eb⟩ := asBody_emits (statement_emits hc body) hbody
    exact ⟨frame, n₂, rfl, .refl _, by simpa using EmitsCode.loop et hw hk eb⟩

theorem statements_emits (hc : c.Sound) : ∀ ss, EmitsBlock c (.many ss) (statements c ss)
  | [] => fun frame pool n code s run => by
    obtain ⟨rfl, rfl⟩ := pure_ok.mp run
    exact ⟨frame, n, rfl, .refl _, .nil⟩
  | st :: ss => fun frame pool n code s run => by
    simp only [statements, bind_ok, pure_ok] at run
    obtain ⟨first, _, hfirst, rest, _, hrest, rfl, rfl⟩ := run
    obtain ⟨frame₁, n₁, rfl, x₁, e₁⟩ := statement_emits hc st _ _ _ _ _ hfirst
    obtain ⟨frame₂, n₂, rfl, x₂, e₂⟩ := statements_emits hc ss _ _ _ _ _ hrest
    exact ⟨frame₂, n₂, rfl, x₁.trans x₂, .cons e₁ e₂⟩

end

end

end Emit

end WordScript
