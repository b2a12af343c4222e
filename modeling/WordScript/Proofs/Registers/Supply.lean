import WordScript.Proofs.Faults.Programs
import WordScript.Proofs.Emit.Course
import WordScript.Script

/-!
# The supply of registers

What an expression takes of the registers is bounded by how deep assignments are nested in the
values of assignments, and there are registers enough for all but the deepest of them
(`shallow_spares_registers`).

Whatever the generator cannot compile it blames on a span of the tree that it is given, or on the
start of the text where there is no register for the address of a string (`Assembly.ofProgram_at`).
-/

namespace WordScript

namespace Emit

variable {P : Span → Prop} {p : Program}

theorem body_blames (placed : p.Placed P) (origin : P ⟨0, 0⟩) (hn : 2 ≤ n) (h : Afford n p.parts)
    (s : EmitState) : Fails (Blamed P n) (body c statics p) s := fun f t run =>
  ((body_goes placed origin hn h.left.left.left.inits h.right statics s).error f t run).2

theorem function_blames {decl : FunctionDecl} (placed : decl.Placed P) (hn : 2 ≤ n)
    (h : Afford n (Statement.allParts decl.body))
    (s : EmitState) : Fails (Blamed P n) (function c statics name decl) s := by
  have hname := placed.name
  cases known : c.functions.get? name with
  | none =>
    simp only [function, known]
    exact .fault ⟨hname, fun _ => rfl⟩
  | some signature =>
    by_cases hreturns : signature.returns ≠ .void ∧ !Statement.anyReturns decl.body
    · simp only [function, known, if_pos hreturns]
      exact .fault_bind ⟨hname, fun _ => rfl⟩
    · exact fun f t run => ((function_goes placed hn h known hreturns statics s).error f t run).2

theorem functions_blames {ds : List (FunctionName × FunctionDecl)}
    (placed : ∀ d ∈ ds, d.2.Placed P) (hn : 2 ≤ n)
    (h : ∀ d ∈ ds, Afford n (Statement.allParts d.2.body)) (s : EmitState) :
    Fails (Blamed P n) (functions c statics ds) s := by
  induction ds generalizing s with
  | nil => exact .pure _
  | cons d ds ih =>
    obtain ⟨hplaced, placed⟩ := List.forall_mem_cons.mp placed
    obtain ⟨hd, hds⟩ := List.forall_mem_cons.mp h
    exact (function_blames hplaced hn hd s).bind fun _ t _ => (ih placed hds t).map

theorem definitions_placed (h : p.Placed P) : ∀ d ∈ p.definitions, d.2.Placed P := by
  intro d hd
  simp only [Program.definitions, List.mem_append, List.mem_map, List.mem_flatMap] at hd
  rcases hd with ⟨f, hf, rfl⟩ | ⟨s, hs, m, hm, rfl⟩
  · exact h.functions f hf
  · exact (h.structs s hs).methods m hm

theorem ofProgram_blames (placed : p.Placed P) (origin : P ⟨0, 0⟩) (hn : 2 ≤ n)
    (h : Afford n p.parts) : FailsAs (Blamed P n) (Assembly.ofProgram p) := by
  have hdue : ∀ f : Fault TypeError, f.DueIf P False → Blamed P n f :=
    fun _ h => blamed_of_due h.due
  refine ((Structs.declareAll_failsAs placed.structs (List.forall_mem_nil _) False.elim).mono
    hdue).bind fun structs _ =>
    ((Functions.ofProgram_failsAs placed False.elim False.elim).mono hdue).bind fun functions _ =>
      ((StaticVariable.declare_failsAs placed.statics False.elim []).mono hdue).bind
        fun statics _ => ?_
  dsimp only
  split
  · exact .pure
  · next e t he =>
    have hcode : Fails (Blamed P n) (do
        let code ← body ⟨structs, functions, .collect p, none⟩ statics p
        return opening structs (.collect p) statics ++ code ++
          (← Emit.functions ⟨structs, functions, .collect p, none⟩ statics p.definitions))
        ⟨.topLevel statics, .empty, .start⟩ :=
      (body_blames placed origin hn h _).bind fun _ _ _ =>
        (functions_blames (definitions_placed placed) hn
        (fun d hd e he => h e (Program.parts_definition hd he)) _).map
    exact .error (hcode e t he)

end Emit

/-- A program that cannot be compiled is told so by a span of its tree, or at the start. -/
theorem Assembly.ofProgram_at {p : Program} (placed : p.Placed P) (origin : P ⟨0, 0⟩) :
    FailsAs (P ·.span) (Assembly.ofProgram p) := by
  obtain ⟨n, hn, h⟩ := Emit.exists_afford p.parts
  exact (Emit.ofProgram_blames placed origin hn h).mono fun _ => And.left

/-! ### Shallow programs -/

/-- If no assignments are nested deeper than 14 in the values of assignments, nothing else in a
program makes it run out of registers. -/
theorem shallow_spares_registers {p : Program} (shallow : ∀ e ∈ p.parts, e.nest ≤ 14) :
    (∀ f, Assembly.ofProgram p = .error f → f.cause ≠ .registersExhausted) ∧
    ∀ source f, Program.ofSource source = .ok p → Assembly.ofSource source = .error f →
      f.cause ≠ .type .registersExhausted := by
  have hfails := Emit.ofProgram_blames (n := generalRegisters) p.placed_true trivial (by decide)
    fun e he => Nat.add_le_add_right (shallow e he) 2
  have hcause : ∀ f, Assembly.ofProgram p = .error f → f.cause ≠ .registersExhausted := by
    intro f hf hexhausted
    have h := (hfails f hf).2 (Nat.le_refl _)
    rw [hexhausted] at h
    cases h
  refine ⟨hcause, fun source f parsed hf => ?_⟩
  have hsource : FailsAs (·.cause ≠ .type .registersExhausted) (Assembly.ofSource source) := by
    rw [Assembly.ofSource, parsed]
    exact FailsAs.mapError hcause fun _ he h => he (CompileError.type.inj h)
  exact hsource f hf

def SourceText.chain (length : Nat) : SourceText := .ofString
  ("int a; " ++ String.join (List.replicate length "a = ") ++ "a += 1;")

/-- Sixteen registers are just enough for fourteen assignments. -/
theorem shallow_spares_registers_chain :
    ∃ p, Program.ofSource (.chain 13) = .ok p ∧ (∀ e ∈ p.parts, e.nest ≤ 14) ∧
    (∃ e ∈ p.parts, e.nest = 14) ∧ (Assembly.ofSource (.chain 13)).toOption.isSome = true ∧
    ((∀ f, Assembly.ofProgram p = .error f → f.cause ≠ .registersExhausted) ∧
      ∀ source f, Program.ofSource source = .ok p → Assembly.ofSource source = .error f →
        f.cause ≠ .type .registersExhausted) := by
  have hrun : ((Program.ofSource (.chain 13)).toOption.filter fun (p : Program) =>
      decide ((∀ e ∈ p.parts, e.nest ≤ 14) ∧ (∃ e ∈ p.parts, e.nest = 14) ∧
        (Assembly.ofSource (.chain 13)).toOption.isSome = true)).isSome = true := by
    decide +kernel
  obtain ⟨p, hrun⟩ := Option.isSome_iff_exists.mp hrun
  obtain ⟨parsed, hrun⟩ := Option.filter_eq_some_iff.mp hrun
  obtain ⟨shallow, deepest, compiles⟩ := of_decide_eq_true hrun
  exact ⟨p, toOption_eq_some.mp parsed, shallow, deepest, compiles,
    shallow_spares_registers shallow⟩

/-- For one more they are not. -/
example : Assembly.ofSource (.chain 14) = .error (.raise (.type .registersExhausted) ⟨63, 1⟩) := by
  decide +kernel

end WordScript
