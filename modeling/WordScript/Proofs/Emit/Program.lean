import WordScript.Emit.Program
import WordScript.Proofs.Emit.Statements
import WordScript.Proofs.Names

/-!
# The shape of program code

The rules for whole programs: initial values of static variables, functions and methods, and the
parts of a program's assembly in their order. Labels are numbered through all of it.
-/

namespace WordScript

theorem RegisterPool.lowestFree?_empty : RegisterPool.empty.lowestFree? = some 0 := by decide

def EmitContext.inside (c : EmitContext) (signature : Signature) : EmitContext :=
  { c with returns := some signature.returns }

theorem EmitContext.Sound.inside {c : EmitContext} (h : c.Sound) (signature : Signature) :
    (c.inside signature).Sound := ⟨h.structs, h.functions⟩

namespace Emit

/-! ### The rules -/

def settleCode (words : Nat) (target source : Register) (l : Label) (comment : String) : Assembly :=
  lowerSp words ++ noted (.mov target (labelled l)) comment :: line (.mov source (.register .sp)) ::
    copyWords target source words

inductive EmitsInits (c : EmitContext) (frame : Frame) (pool : RegisterPool) :
    Nat → List StaticDecl → Assembly → Nat → Prop
  | nil : EmitsInits c frame pool n [] [] n
  | zero (absent : d.init = none) (rest : EmitsInits c frame pool n ds code n') :
      EmitsInits c frame pool n (d :: ds) code n'
  | value (present : d.init = some e) (found : frame.lookup d.name.text = some (type, .static l))
      (given : Emits c frame pool n (.value e a) code n₁)
      (accepted : c.structs.accepts type a = true)
      (same : c.structs.words type = c.structs.words a) (free : pool.lowestFree? = some k)
      (freeSource : (pool.take k).lowestFree? = some source)
      (rest : EmitsInits c frame pool n₁ ds restCode n₂) :
      EmitsInits c frame pool n (d :: ds) (code ++ settleCode (c.structs.words type) (.general k)
        (.general source) l s!"static {d.name.text}" ++ restCode) n₂

/-- Code for a function. If its body does not always return, a `return` follows. -/
inductive EmitsFunction (c : EmitContext) (statics : List StaticVariable) (n : Nat)
    (name : FunctionName)
    (decl : FunctionDecl) : Assembly → Nat → Prop
  | returning (known : c.functions.get? name = some signature)
      (block : EmitsCode (c.inside signature) .empty (.ofSignature c.structs statics signature) n
        (.one (.block decl.name.span decl.body)) code frame n')
      (returns : Statement.anyReturns decl.body = true) :
      EmitsFunction c statics n name decl (.label name.label :: code) n'
  | ending (known : c.functions.get? name = some signature) (void : signature.returns = .void)
      (block : EmitsCode (c.inside signature) .empty (.ofSignature c.structs statics signature) n
        (.one (.block decl.name.span decl.body)) code frame n₁)
      (returns : Statement.anyReturns decl.body = false)
      (leave : EmitsCode (c.inside signature) .empty frame n₁ (.one (.ret span none))
        last frame' n₂) :
      EmitsFunction c statics n name decl (.label name.label :: (code ++ last)) n₂

inductive EmitsFunctions (c : EmitContext) (statics : List StaticVariable) :
    Nat → List (FunctionName × FunctionDecl) → Assembly → Nat → Prop
  | nil : EmitsFunctions c statics n [] [] n
  | cons (first : EmitsFunction c statics n name decl code n₁)
      (rest : EmitsFunctions c statics n₁ ds restCode n₂) :
      EmitsFunctions c statics n ((name, decl) :: ds) (code ++ restCode) n₂

def stringsCode (pool : LiteralPool) : Assembly :=
  pool.entries.flatMap fun e => fillString (.general 0) e.1 e.2

inductive EmitsProgram (c : EmitContext) (statics : List StaticVariable) (p : Program) :
    Assembly → Prop
  | mk (inits : EmitsInits c (.topLevel statics) .empty 0 p.statics initsCode n₁)
      (statements : EmitsCode c .empty (.topLevel statics) n₁ (.many p.body) bodyCode frame n₂)
      (functions : EmitsFunctions c statics n₂ p.definitions functionsCode n₃) :
      EmitsProgram c statics p (opening c.structs c.strings statics ++
        (stringsCode c.strings ++ initsCode ++ bodyCode ++ [line .halt]) ++ functionsCode)

/-! ### The generator follows the rules -/

section
variable {c : EmitContext} {s s' : EmitState} {statics : List StaticVariable}

theorem initialise_emits (hc : c.Sound)
    (run : initialise c name e ⟨frame, pool, ⟨n⟩⟩ = .ok code s) :
    ∃ type l a value k source n', frame.lookup name = some (type, .static l) ∧
      Emits c frame pool n (.value e a) value n' ∧ c.structs.accepts type a = true ∧
      c.structs.words type = c.structs.words a ∧ pool.lowestFree? = some k ∧
      (pool.take k).lowestFree? = some source ∧ s = ⟨frame, pool, ⟨n'⟩⟩ ∧
      code = value ++ settleCode (c.structs.words type) (.general k) (.general source) l
        s!"static {name}" := by
  simp only [initialise, bind_ok, get_ok] at run
  obtain ⟨_, _, ⟨rfl, rfl⟩, run⟩ := run
  cases hfound : frame.lookup name with
  | none => simp [hfound] at run
  | some place =>
    obtain ⟨type, location⟩ := place
    cases location with
    | stack offset => simp [hfound] at run
    | static l =>
      simp only [hfound, bind_ok, popWords_ok, withRegister_ok, pure_ok] at run
      obtain ⟨value, _, hvalue, _, _, ⟨rfl, rfl⟩, k, _, hk,
        ⟨source, _, hsource, ⟨rfl, rfl⟩, rfl⟩, rfl⟩ := run
      obtain ⟨a, n', hac, hw, rfl, he⟩ := exprFor_emits hc hvalue
      have hk' := RegisterPool.release_take hk
      have hs' := RegisterPool.release_take hsource
      simp only [Frame.pop_push_self] at *
      exact ⟨type, l, a, value, k, source, n', rfl, he, hac, hw, hk, hsource, by simp [hk', hs'],
        by simp [settleCode]⟩

theorem initialiseAll_emits (hc : c.Sound) {ds : List StaticDecl}
    (run : initialiseAll c ds ⟨frame, pool, ⟨n⟩⟩ = .ok code s) :
    ∃ n', s = ⟨frame, pool, ⟨n'⟩⟩ ∧ EmitsInits c frame pool n ds code n' := by
  induction ds generalizing n code s with
  | nil =>
    obtain ⟨rfl, rfl⟩ := pure_ok.mp run
    exact ⟨n, rfl, .nil⟩
  | cons d ds ih =>
    simp only [initialiseAll, bind_ok, pure_ok] at run
    obtain ⟨first, _, hfirst, rest, _, hrest, rfl, rfl⟩ := run
    cases hinit : d.init with
    | none =>
      simp only [hinit, Option.elim_none, pure_ok] at hfirst
      obtain ⟨rfl, rfl⟩ := hfirst
      obtain ⟨n', rfl, he⟩ := ih hrest
      exact ⟨n', rfl, .zero hinit he⟩
    | some e =>
      simp only [hinit, Option.elim_some] at hfirst
      obtain ⟨type, l, a, value, k, source, n₁, hfound, he, hac, hw, hk, hsource, rfl, rfl⟩ :=
        initialise_emits hc hfirst
      obtain ⟨n', rfl, herest⟩ := ih hrest
      exact ⟨n', rfl, .value hinit hfound he hac hw hk hsource herest⟩

theorem function_emits (hc : c.Sound)
    (run : function c statics name decl ⟨frame, pool, ⟨n⟩⟩ = .ok code s) :
    ∃ frame' n', s = ⟨frame', .empty, ⟨n'⟩⟩ ∧ EmitsFunction c statics n name decl code n' := by
  simp only [function] at run
  cases hknown : c.functions.get? name with
  | none => simp [hknown] at run
  | some signature =>
    simp only [hknown] at run
    cases hreturns : Statement.anyReturns decl.body with
    | true =>
      simp only [hreturns, Bool.not_true, Bool.false_eq_true, and_false, ↓reduceIte, enterFrame,
        bind_ok, modify_ok, pure_ok] at run
      obtain ⟨_, _, rfl, block, _, hblock, _, _, ⟨rfl, rfl⟩, rfl, rfl⟩ := run
      obtain ⟨frame', n₁, rfl, -, he⟩ := statement_emits (hc.inside signature) _ _ _ _ _ _ hblock
      exact ⟨frame', n₁, rfl, by simpa using EmitsFunction.returning hknown he hreturns⟩
    | false =>
      by_cases hvoid : signature.returns = .void
      · simp only [hreturns, hvoid, Bool.not_false, ne_eq, not_true_eq_false, false_and,
          Bool.false_eq_true, ↓reduceIte, enterFrame, bind_ok, modify_ok, pure_ok] at run
        rw [← hvoid] at run
        obtain ⟨_, _, rfl, block, _, hblock, last, _, hlast, rfl, rfl⟩ := run
        obtain ⟨frame', n₁, rfl, -, he⟩ := statement_emits (hc.inside signature) _ _ _ _ _ _ hblock
        have hreturn : EmitsBlock (c.inside signature) (.one (.ret decl.name.span none))
            (returnStatement (c.inside signature) none decl.name.span) :=
              return_emits (hc.inside signature)
        obtain ⟨frame'', n₂, rfl, -, he'⟩ := hreturn _ _ _ _ _ hlast
        exact ⟨frame'', n₂, rfl, EmitsFunction.ending hknown hvoid he hreturns he'⟩
      · simp only [hreturns, hvoid, Bool.not_false, ne_eq, not_false_eq_true, and_self, ↓reduceIte,
          bind_ok, fault_ok, false_and, exists_false] at run

theorem functions_emits (hc : c.Sound) {ds : List (FunctionName × FunctionDecl)}
    (run : functions c statics ds ⟨frame, pool, ⟨n⟩⟩ = .ok code s) :
    ∃ n', EmitsFunctions c statics n ds code n' := by
  induction ds generalizing frame pool n code s with
  | nil =>
    obtain ⟨rfl, rfl⟩ := pure_ok.mp run
    exact ⟨n, .nil⟩
  | cons d ds ih =>
    simp only [functions, bind_ok, pure_ok] at run
    obtain ⟨first, _, hfirst, rest, _, hrest, rfl, rfl⟩ := run
    obtain ⟨_, n₁, rfl, he⟩ := function_emits hc hfirst
    obtain ⟨n', herest⟩ := ih hrest
    exact ⟨n', .cons he herest⟩

theorem fillStrings_ok {pool : LiteralPool}
    (h : fillStrings pool ⟨frame, .empty, ⟨n⟩⟩ = .ok code s) :
    code = stringsCode pool ∧ s = ⟨frame, .empty, ⟨n⟩⟩ := by
  by_cases hw : pool.words = 0
  · have hnone : pool.strings = [] := by
      cases hs : pool.strings with
      | nil => rfl
      | cons text rest =>
        simp only [LiteralPool.words, hs, LiteralPool.totalWords, LiteralPool.wordsOf] at hw
        omega
    simp only [fillStrings, hw, ↓reduceIte, pure_ok] at h
    obtain ⟨rfl, rfl⟩ := h
    simp [stringsCode, LiteralPool.entries, hnone]
  · simp only [fillStrings, hw, ↓reduceIte, withRegister_ok, pure_ok] at h
    obtain ⟨k, _, hk, ⟨rfl, rfl⟩, rfl⟩ := h
    obtain rfl : 0 = k := Option.some.inj (RegisterPool.lowestFree?_empty.symm.trans hk)
    exact ⟨rfl, by rw [RegisterPool.release_take hk]⟩

theorem body_emits (hc : c.Sound) {p : Program}
    (run : body c statics p ⟨frame, pool, ⟨n⟩⟩ = .ok code s) :
    ∃ initsCode bodyCode frame' n₁ n₂, s = ⟨frame', .empty, ⟨n₂⟩⟩ ∧
      code = stringsCode c.strings ++ initsCode ++ bodyCode ++ [line .halt] ∧
      EmitsInits c (.topLevel statics) .empty n p.statics initsCode n₁ ∧
      EmitsCode c .empty (.topLevel statics) n₁ (.many p.body) bodyCode frame' n₂ := by
  simp only [body, enterFrame, bind_ok, modify_ok, pure_ok] at run
  obtain ⟨_, _, rfl, strings, _, hstrings, inits, _, hinits, bodyCode, _, hbody, rfl, rfl⟩ := run
  obtain ⟨rfl, rfl⟩ := fillStrings_ok hstrings
  obtain ⟨n₁, rfl, hi⟩ := initialiseAll_emits hc hinits
  obtain ⟨frame', n₂, rfl, -, hb⟩ := statements_emits hc _ _ _ _ _ _ hbody
  exact ⟨inits, bodyCode, frame', n₁, n₂, rfl, rfl, hi, hb⟩

end

theorem ofProgram_emits {p : Program} (hp : p.WellNamed) (h : Assembly.ofProgram p = .ok a) :
    ∃ structs functions statics, Structs.ofDecls p.structs = .ok structs ∧
      Functions.ofProgram structs p = .ok functions ∧
      StaticVariable.declare structs [] p.statics = .ok statics ∧
      EmitsProgram ⟨structs, functions, .collect p, none⟩ statics p a := by
  simp only [Assembly.ofProgram, bind_eq_ok] at h
  obtain ⟨structs, hs, functions, hf, statics, hst, h⟩ := h
  have hc : EmitContext.Sound ⟨structs, functions, .collect p, none⟩ :=
    ⟨Structs.ofDecls_sound (fun d hd => (hp.structs d hd).name.ne_empty) hs,
      Functions.ofProgram_sound hf⟩
  split at h
  · next code s hrun =>
    obtain rfl := pure_eq_ok.mp h
    simp only [EStateM.run, bind_ok, pure_ok] at hrun
    obtain ⟨_, _, hbody, functionsCode, _, hfunctions, rfl, rfl⟩ := hrun
    obtain ⟨initsCode, bodyCode, frame, n₁, n₂, rfl, rfl, hi, hb⟩ := body_emits hc hbody
    obtain ⟨n₃, hfs⟩ := functions_emits hc hfunctions
    exact ⟨structs, functions, statics, hs, hf, hst, .mk hi hb hfs⟩
  · cases h

end Emit

end WordScript
