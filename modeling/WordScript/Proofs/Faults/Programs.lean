import WordScript.Proofs.Faults.Code
import WordScript.Proofs.Grammar.RoundTrip
import WordScript.Proofs.Grammar.Slices

/-!
# Faults of scripts

What a script that does not compile can be told. Earlier stages rule out the rest: types that are
not known, results without a place, definitions that were not declared, strings and statics that
were not collected, and numbers that were read but have no value (`guarded_faults_unreachable`).
-/

namespace WordScript

/-! ### Programs -/

namespace Program

variable {p : Program}

theorem parts_definition (hd : d ∈ p.definitions) : Statement.allParts d.2.body ⊆ p.parts := by
  intro e he
  simp only [definitions, List.mem_append, List.mem_map, List.mem_flatMap] at hd
  simp only [parts, List.mem_append, List.mem_flatMap]
  rcases hd with ⟨f, hf, rfl⟩ | ⟨s, hs, m, hm, rfl⟩
  · exact .inl (.inl (.inr ⟨f, hf, he⟩))
  · exact .inl (.inr ⟨m, ⟨s, hs, hm⟩, he⟩)

theorem types_definition (hd : d ∈ p.definitions) : d.2.types ⊆ p.types := fun _ ht =>
  List.mem_append_left _ (List.mem_append_right _ (List.mem_flatMap.mpr ⟨d, hd, ht⟩))

theorem parts_static (hd : d ∈ p.statics) (he : e ∈ d.init) : e.parts ⊆ p.parts := by
  intro x hx
  simp only [parts, List.mem_append, List.mem_flatMap]
  exact .inl (.inl (.inl ⟨d, hd, by rw [he]; exact hx⟩))

end Program

theorem Frame.lookup_topLevel {statics : List StaticVariable} (h : v ∈ statics) :
    ∃ type l, (topLevel statics).lookup v.name = some (type, .static l) := by
  obtain ⟨x, hx⟩ := Option.isSome_iff_exists.mp (isSome_lookup_staticScope h)
  obtain ⟨u, -, hu⟩ := List.mem_map.mp (List.mem_reverse.mp (mem_of_lookup_eq_some hx))
  obtain ⟨-, rfl⟩ := Prod.mk.inj hu
  have hfind : (topLevel statics).find? v.name = some ⟨u.type, .static u.label⟩ := by
    simp only [find?, topLevel, Scope.empty, List.findSome?_cons, List.lookup_nil, hx]
  exact ⟨u.type, u.label, by rw [lookup, hfind]; rfl⟩

namespace Emit

variable {c : EmitContext} {p : Program} {statics : List StaticVariable} {pool : RegisterPool}
  {labels : LabelSupply}

theorem stage_topLevel (outside : c.returns = none) : c.Stage statics (.topLevel statics) where
  statics := by simp [Frame.topLevel]
  slot h := by simp [outside] at h

theorem stage_ofSignature : c.Stage statics (.ofSignature structs statics signature) where
  statics := by
    simp only [Frame.ofSignature]
    split <;> simp
  slot _ := by
    simp only [Frame.ofSignature]
    split <;> rfl

/-- Each static is found where its initial value is due. -/
theorem initialise_fails (ready : c.Ready p statics) (outside : c.returns = none)
    (hd : d ∈ p.statics) (he : e ∈ d.init) :
    Fails p.Accounts (initialise c d.name.text e) ⟨.topLevel statics, pool, labels⟩ := by
  have hmem : d.name.text ∈ statics.map (·.name) := ready.statics ▸ List.mem_map_of_mem hd
  obtain ⟨v, hv, hname⟩ := List.mem_map.mp hmem
  obtain ⟨type, l, hfound⟩ := Frame.lookup_topLevel hv
  refine .get_bind ?_
  simp only [← hname, hfound]
  exact (exprFor_fails ready (stage_topLevel outside)
    (Program.parts_static hd he)).bind fun _ _ _ =>
    (Runs.popWords.bind fun _ => .withRegister fun _ => .withRegister fun _ => .pure _).fails

theorem initialiseAll_fails (ready : c.Ready p statics) (outside : c.returns = none)
    {ds : List StaticDecl} (hds : ds ⊆ p.statics) :
    Fails p.Accounts (initialiseAll c ds) ⟨.topLevel statics, pool, labels⟩ := by
  induction ds generalizing labels with
  | nil => exact .pure _
  | cons d ds ih =>
    obtain ⟨hd, hds⟩ := List.cons_subset.mp hds
    cases hinit : d.init with
    | none =>
      simp only [initialiseAll, hinit, Option.elim_none]
      exact (Fails.pure _).bind fun _ t ht => by
        obtain ⟨-, rfl⟩ := pure_ok.mp ht
        exact (ih hds).map
    | some e =>
      simp only [initialiseAll, hinit, Option.elim_some]
      refine (initialise_fails ready outside hd hinit).bind fun _ t ht => ?_
      obtain ⟨_, _, _, _, _, _, n, _, _, _, _, _, _, rfl, _⟩ := initialise_emits ready.sound ht
      exact (ih hds).map

theorem body_fails (ready : c.Ready p statics) (outside : c.returns = none) (s : EmitState) :
    Fails p.Accounts (body c statics p) s := by
  refine Fails.modify.bind fun _ t ht => ?_
  obtain rfl := modify_ok.mp ht
  have hstrings : Runs (Frame.topLevel statics).scopes (fillStrings c.strings) := by
    simp only [fillStrings]
    split
    · exact .pure _
    · exact .withRegister fun _ => .pure _
  refine (Runs.fails hstrings).bind fun _ u hu => ?_
  obtain ⟨-, rfl⟩ := fillStrings_ok hu
  refine (initialiseAll_fails ready outside (List.Subset.refl _)).bind fun _ v hv => ?_
  obtain ⟨n, rfl, -⟩ := initialiseAll_emits ready.sound hv
  refine (statements_fails ready p.body _ _ (stage_topLevel outside) ?_ ?_).map
  · exact List.subset_append_right _ _
  · exact List.subset_append_right _ _

theorem function_fails (ready : c.Ready p statics) (hd : d ∈ p.definitions) (s : EmitState) :
    Fails p.Accounts (function c statics d.1 d.2) s := by
  obtain ⟨signature, known⟩ := Option.isSome_iff_exists.mp (ready.defined hd)
  have hinside := ready.inside signature
  simp only [function, known]
  refine .ite (fun _ => .fault_bind (.definition hd)) fun _ => Fails.modify.bind fun _ t ht => ?_
  obtain rfl := modify_ok.mp ht
  have htypes : Statement.allTypes d.2.body ⊆ p.types := fun t ht =>
    Program.types_definition hd (List.mem_cons_of_mem _ (List.mem_append_right _ ht))
  refine (statement_fails hinside (.block d.2.name.span d.2.body) _ _ stage_ofSignature
    (Program.parts_definition hd) htypes).bind
    fun _ u hu => ?_
  obtain ⟨frame, n, rfl, hext, -⟩ := statement_emits hinside.sound _ _ _ _ _ _ hu
  exact .ite (fun _ => (Fails.pure _).map) fun _ =>
    (returnStatement_fails hinside (stage_ofSignature.extends hext) (by simp)).map

theorem functions_fails (ready : c.Ready p statics) {ds : List (FunctionName × FunctionDecl)}
    (hds : ds ⊆ p.definitions) (s : EmitState) :
    Fails p.Accounts (functions c statics ds) s := by
  induction ds generalizing s with
  | nil => exact .pure _
  | cons d ds ih =>
    obtain ⟨hd, hds⟩ := List.cons_subset.mp hds
    exact (function_fails ready hd s).bind fun _ t _ => (ih hds t).map

/-- Whatever is wrong with a program is put down to something in it. -/
theorem ofProgram_failsAs {p : Program} (spelled : p.Spelled)
    (fields : StructDecl.FieldsKnown builtinTypes p.structs)
    (types : ∀ type ∈ p.types, type.name ∈ builtinTypes ∨
      ∃ d ∈ p.structs, d.name.text = type.name) :
    FailsAs p.Accounts (Assembly.ofProgram p) := by
  have hplain : ∀ f : Fault TypeError, f.DueIf (fun _ => True) True → p.Accounts f :=
    fun _ h => .other (h.2.2 trivial)
  have placed := p.placed_true
  refine ((Structs.declareAll_failsAs placed.structs (fun _ hn => .inl hn) fun _ => fields).mono
    hplain).bind fun structs hs => ?_
  have hown : ∀ d ∈ p.structs, (structs.find? d.name.text).isSome = true :=
    fun _ hd => Structs.isSome_find?_of_mem hs hd
  have hknown : ∀ type ∈ p.types, structs.Knows type.name :=
    fun type ht => (types type ht).imp_right fun ⟨d, hd, hname⟩ => hname ▸ hown d hd
  refine ((Functions.ofProgram_failsAs placed (fun _ => hown) fun _ => hknown).mono hplain).bind
    fun functions hf => ?_
  have hstatics : ∀ d ∈ p.statics, structs.Knows d.type.name := fun d hd =>
    hknown _ (List.mem_append_left _ (List.mem_append_left _ (List.mem_map_of_mem hd)))
  refine ((StaticVariable.declare_failsAs placed.statics (fun _ => hstatics) []).mono hplain).bind
    fun statics hst => ?_
  have ready : EmitContext.Ready ⟨structs, functions, .collect p, none⟩ p statics :=
    ⟨⟨hs, hf⟩, rfl, by simpa using (StaticVariable.declare_names (by simp) hst).1, spelled, hknown⟩
  dsimp only
  split
  · exact .pure
  · next e t he =>
    have hfails : Fails p.Accounts (do
        let code ← body ⟨structs, functions, .collect p, none⟩ statics p
        return opening structs (.collect p) statics ++ code ++
          (← Emit.functions ⟨structs, functions, .collect p, none⟩ statics p.definitions))
          ⟨.topLevel statics, .empty, .start⟩ :=
      (body_fails ready rfl _).bind fun _ t _ => (functions_fails ready (List.Subset.refl _) t).map
    exact .error (hfails e t he)

end Emit

/-! ### Scripts -/

section
variable {source : SourceText} {program : Program}

theorem Program.sound_part (parsed : Program.ofSource source = .ok program)
    (node : e ∈ program.parts) : e.Sound := by
  obtain ⟨us, ts, vs, htokens, written⟩ := Program.written_of_part parsed node
  refine written.sound fun t ht => Cursor.lexed_of_mem_tokens (c := .start source.chars) ?_
  rw [htokens]
  exact List.mem_append_right _ (List.mem_append_left _ ht)

theorem Program.spelled_of_parsed (parsed : Program.ofSource source = .ok program) :
    program.Spelled :=
  ⟨Program.ofSource_wellNamed parsed, fun h => (Program.sound_part parsed h).1⟩

theorem Program.failsAs_of_parsed (parsed : Program.ofSource source = .ok program) :
    FailsAs program.Accounts (Assembly.ofProgram program) := by
  have hspelled := Program.spelled_of_parsed parsed
  obtain ⟨parts, rfl, written⟩ := Program.ofSource_written parsed
  obtain ⟨hfields, htypes⟩ := written.known
  exact Emit.ofProgram_failsAs hspelled hfields htypes

/-- A fault of the tokens is the fault that reading them ends with. -/
theorem Program.fault_lexed (failed : Program.ofSource source = .error e)
    (lexical : e.cause = .lex cause) :
    ∃ f, (TokenStream.start source.chars).drain.2.1 = some f ∧ f.cause = cause ∧
    f.span = e.span := by
  simp only [Program.ofSource] at failed
  split at failed
  · cases failed
  · next e' q hp =>
    cases failed
    obtain ⟨f, hf, hcause, hspan, -⟩ := ((Parse.program_written _).error id hp).of_start lexical
    exact ⟨f, hf, hcause, hspan⟩

/-- A variable and a string do not stand in one place. -/
theorem Program.string_notMem (parsed : Program.ofSource source = .ok program)
    (node : .var span name ∈ program.parts) :
    .string span content ∉ program.parts := fun node' => by
  have hsame := Program.part_unique parsed node node' rfl
  simp [Expr.displaced] at hsame

/-- What a script that does not compile can be told. If it cannot be read, the fault is where
reading tokens ends. If it can, no type is unknown; what returns too little, or is called in vain,
is a definition, or is none; and an unknown identifier stands there as a variable, not as a string,
and is no static. -/
theorem guarded_faults_unreachable {source : SourceText} {fault : Fault CompileError}
    (failed : Assembly.ofSource source = .error fault) :
    (∀ cause, fault.cause = .parse (.lex cause) →
      ∃ f, (TokenStream.start source.chars).drain.2.1 = some f ∧ f.cause = cause ∧
      f.span = fault.span) ∧
    ∀ cause, fault.cause = .type cause → ∃ program, Program.ofSource source = .ok program ∧
      (∀ name, cause ≠ .unknownType name) ∧
      (∀ name, cause = .missingReturn name →
        name ≠ "" ∧ ∃ d ∈ program.definitions, d.1.text = name ∧ d.2.name.span = fault.span) ∧
      (∀ name, cause = .unresolvedFunction name → (∀ d ∈ program.definitions, d.1.text ≠ name) ∧
        ∃ span callee args, .call span callee args ∈ program.parts ∧ callee.span = fault.span) ∧
      (∀ name, cause = .unknownIdentifier name → .var fault.span name ∈ program.parts ∧
        (∀ content, .string fault.span content ∉ program.parts) ∧ ∀ d ∈ program.statics,
        d.name.text ≠ name) := by
  simp only [Assembly.ofSource] at failed
  cases parsed : Program.ofSource source with
  | error e =>
    rw [parsed] at failed
    cases failed
    refine ⟨fun cause hcause => Program.fault_lexed parsed ?_, fun cause hcause => by cases hcause⟩
    exact CompileError.parse.inj hcause
  | ok program =>
    rw [parsed] at failed
    cases checked : Assembly.ofProgram program with
    | ok code =>
      simp only [Except.mapError, bind, Except.bind, checked] at failed
      cases failed
    | error e =>
      simp only [Except.mapError, bind, Except.bind, checked] at failed
      cases failed
      refine ⟨fun cause hcause => (by cases hcause), fun cause hcause => ⟨program, rfl, ?_⟩⟩
      obtain rfl := CompileError.type.inj hcause
      have accounts := Program.failsAs_of_parsed parsed e checked
      refine ⟨fun _ => accounts.unknownType, fun name h => ?_,
        fun name => accounts.unresolvedFunction, fun name h => ?_⟩
      · obtain ⟨d, hd, rfl, hspan⟩ := accounts.missingReturn h
        have hproper := ((Program.ofSource_wellNamed parsed).definitions hd).1
        exact ⟨hproper.text_ne_empty, d, hd, rfl, hspan⟩
      · obtain ⟨node, hstatics⟩ := accounts.unknownIdentifier h
        exact ⟨node, fun _ => Program.string_notMem parsed node, hstatics⟩

def SourceText.misplacesName : SourceText := .ofString
  ("struct P \x7b int word; func int word(P& p) \x7b return p@.word; \x7d \x7d func int word() \x7b int word = 1; return word; \x7d " ++
    "static int& text = 'word'; static P p; text = 'word' + p.word(p&) + word() + word;")

theorem guarded_faults_unreachable_misplacesName :
    ∃ fault, Assembly.ofSource .misplacesName = .error fault ∧
    fault.cause = .type (.unknownIdentifier "word") ∧
    ∃ program, Program.ofSource .misplacesName = .ok program ∧
      .var fault.span "word" ∈ program.parts ∧
      (∀ content, .string fault.span content ∉ program.parts) ∧
      ∀ d ∈ program.statics, d.name.text ≠ "word" := by
  have failed : Assembly.ofSource .misplacesName =
      .error ⟨.type (.unknownIdentifier "word"), ⟨187, 4⟩, []⟩ := by decide +kernel
  obtain ⟨program, parsed, -, -, -, unknown⟩ := (guarded_faults_unreachable failed).2 _ rfl
  exact ⟨_, failed, rfl, program, parsed, unknown "word" rfl⟩

end

end WordScript
