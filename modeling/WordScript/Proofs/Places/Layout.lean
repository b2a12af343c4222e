import WordScript.Proofs.Places.Code
import WordScript.Proofs.Places.Parsing
import WordScript.Script

/-!
# Layout

What stands between tokens, and where they stand, is no part of a program: texts with the same
tokens compile to the same code, or fail for the same cause.
-/

namespace WordScript

namespace Parse

def bareField (f : TypeName × Name) : TypeName × Name := (f.1.bare, f.2.bare)

theorem typedName_reads : Reads bareField typedName typedName :=
  .bind .typeName fun _ _ htype => .bind .name fun _ _ hname =>
    .pure (by rw [bareField, bareField, htype, hname])

theorem function_reads : Reads FunctionDecl.bare function function := by
  refine .within (.same (.keyword _) fun _ => .bind .typeName fun type type' htype =>
    .bind .name fun n n' hname =>
    .bind (.symbol _) fun _ _ _ => .same (.peekSymbol _) fun none => ?_)
  have hrest : ∀ params params' : List (TypeName × Name), params.map bareField =
    params'.map bareField →
      Reads FunctionDecl.bare (do let _ ← symbol .closeParen; let b ← block; return ⟨n,
        type, params, b.1⟩)
        (do let _ ← symbol .closeParen; let b ← block; return ⟨n', type', params', b.1⟩) := by
    refine fun params params' hparams => .bind (.symbol _) fun _ _ _ =>
      .bind block_reads fun b b' hb => .pure ?_
    simp only [FunctionDecl.bare, hname, htype, Statement.allBare_eq, hb]
    exact congrArg (FunctionDecl.mk _ _ · _) hparams
  cases none with
  | true => exact hrest [] [] rfl
  | false =>
    exact .allowance_bind (fun n => .commaSeparated typedName_reads n)
      (fun p n h => (fields_written p h).eq id) hrest

def Member.bare : Member → Member
  | .field type name => .field type.bare name.bare
  | .method decl => .method decl.bare

theorem member_reads : Reads Member.bare member member := by
  refine .same (.peekKeyword _) fun method => ?_
  cases method with
  | true => exact .bind function_reads fun _ _ hd => .pure (congrArg Member.method hd)
  | false =>
    refine .bind typedName_reads fun f f' hf => .bind (.symbol _) fun _ _ _ => .pure ?_
    obtain ⟨htype, hname⟩ := Prod.mk.inj hf
    rw [Member.bare, Member.bare, htype, hname]

theorem fields_bare (ms : List Member) :
    (ms.filterMap Member.field?).map bareField = (ms.map Member.bare).filterMap Member.field? := by
  rw [List.map_filterMap, List.filterMap_map]
  refine congrArg (List.filterMap · ms) (funext fun m => ?_)
  cases m <;> rfl

theorem methods_bare (ms : List Member) :
    (ms.filterMap Member.method?).map FunctionDecl.bare = (ms.map Member.bare).filterMap
      Member.method? := by
  rw [List.map_filterMap, List.filterMap_map]
  refine congrArg (List.filterMap · ms) (funext fun m => ?_)
  cases m <;> rfl

theorem struct_reads : Reads StructDecl.bare struct struct := by
  refine .within (.same (.keyword _) fun _ => .bind .name fun n n' hname => ?_)
  have hdeclare : Reads id (declareType n.text) (declareType n'.text) := by
    intro p p' hp
    have htext : n.text = n'.text := show n.bare.text = n'.bare.text by rw [hname]
    exact .inl ⟨_, _, _, _, rfl, rfl, rfl, hp.tokens, hp.ahead, by simp only [htext, hp.types],
      hp.lexes, hp.lexes'⟩
  refine .same hdeclare fun _ => .bind (.symbol _) fun _ _ _ => .allowance_bind
    (fun n => .repeatWhile (.same (.peekSymbol _) fun _ => .pure rfl) member_reads n)
    (fun p n h => (members_written p h).eq id) fun ms ms' hms =>
      .bind (.symbol _) fun _ _ _ => .pure ?_
  simp only [StructDecl.bare, hname, methods_bare, hms]
  exact congrArg (StructDecl.mk _ · _) ((fields_bare ms).trans (hms ▸ (fields_bare ms').symm))

def TopLevel.bare : TopLevel → TopLevel
  | .struct decl => .struct decl.bare
  | .function decl => .function decl.bare
  | .static decl => .static decl.bare
  | .statement s => .statement s.bare

theorem topLevel_reads : Reads TopLevel.bare topLevel topLevel := by
  refine .same (.peekKeyword _) fun isStruct => ?_
  cases isStruct with
  | true => exact .bind struct_reads fun _ _ hd => .pure (congrArg TopLevel.struct hd)
  | false =>
    refine .same (.peekKeyword _) fun isFunction => ?_
    cases isFunction with
    | true => exact .bind function_reads fun _ _ hd => .pure (congrArg TopLevel.function hd)
    | false =>
      refine .same (.peekKeyword _) fun isStatic => ?_
      cases isStatic with
      | true =>
        refine .same .accept fun _ => .bind (.within variableDeclaration_reads) fun d d' hd =>
          .pure ?_
        obtain ⟨htype, hname, hinit⟩ := bareDeclaration_eq hd
        simp only [TopLevel.bare, StaticDecl.bare, htype, hname, hinit]
      | false => exact .bind statement_reads fun _ _ hs => .pure (congrArg TopLevel.statement hs)

theorem assemble_bare (parts : List TopLevel) :
    (assemble parts).bare = assemble (parts.map TopLevel.bare) := by
  induction parts with
  | nil => rfl
  | cons part rest ih =>
    cases part <;> simp only [assemble, List.map_cons, TopLevel.bare, ← ih] <;> rfl

theorem program_reads : Reads Program.bare program program := by
  refine .allowance_bind (fun n => .repeatWhile (.same .peek fun _ => .pure rfl) topLevel_reads n)
    (fun p n h => (parts_written p h).eq id) fun parts parts' hparts => .pure ?_
  rw [assemble_bare, assemble_bare, hparts]

end Parse

/-- Texts with the same tokens hold the same program, but for places. -/
theorem Program.ofSource_alike {source source' : SourceText}
    (lexed : (TokenStream.start source.chars).drain.2.1 = none)
    (lexed' : (TokenStream.start source'.chars).drain.2.1 = none)
    (same : (TokenStream.start source.chars).drain.1.map Token.shape =
      (TokenStream.start source'.chars).drain.1.map Token.shape) :
    Alike (fun p p' => p.bare = p'.bare) (ofSource source) (ofSource source') := by
  have hstart : (Parser.start source.chars).Alike (.start source'.chars) :=
    ⟨same, rfl, rfl, lexed, lexed'⟩
  rcases Parse.program_reads _ _ hstart with ⟨p, p', q, q', hp, hp', hbare, -⟩ |
    ⟨e, e', q, q', hp, hp', hcause, hcontexts⟩
  · simp only [ofSource, hp, hp']
    exact .ok hbare
  · simp only [ofSource, hp, hp']
    exact .error hcause hcontexts

theorem Alike.map {x : Except (Fault κ) α} {y : Except (Fault κ) β} {R : α → β → Prop}
    (h : Alike R x y) (f : κ → μ) : Alike R (x.mapError (·.map f)) (y.mapError (·.map f)) := by
  cases h with
  | ok related => exact .ok related
  | error cause contexts => exact .error (congrArg f cause) contexts

theorem Assembly.ofProgram_bare {p p' : Program} (h : p.bare = p'.bare) :
    Alike Eq (ofProgram p) (ofProgram p') :=
  (ofProgram_alike p).trans (h ▸ (ofProgram_alike p').symm)

/-- Whitespace, comments and the choice of quotes do not change the code. -/
theorem layout_irrelevant {source source' : SourceText}
    (lexed : (TokenStream.start source.chars).drain.2.1 = none)
    (lexed' : (TokenStream.start source'.chars).drain.2.1 = none)
    (same : (TokenStream.start source.chars).drain.1.map Token.shape =
      (TokenStream.start source'.chars).drain.1.map Token.shape) :
    (∃ a, Assembly.ofSource source = .ok a ∧ Assembly.ofSource source' = .ok a) ∨
      ∃ e e', Assembly.ofSource source = .error e ∧ Assembly.ofSource source' = .error e' ∧
      e.cause = e'.cause ∧ e.contexts = e'.contexts := by
  have halike : Alike Eq (Assembly.ofSource source) (Assembly.ofSource source') :=
    ((Program.ofSource_alike lexed lexed' same).map _).bind fun _ _ hbare =>
      (Assembly.ofProgram_bare hbare).map _
  generalize Assembly.ofSource source = x, Assembly.ofSource source' = y at halike
  cases halike with
  | ok related => exact .inl ⟨_, rfl, related ▸ rfl⟩
  | error cause contexts => exact .inr ⟨_, _, rfl, rfl, cause, contexts⟩

def SourceText.terse : SourceText := .ofString "static int& s=\"it\";int x=1;if(x<2)s='it';"

def SourceText.airy : SourceText :=
  .ofString "# a string\nstatic int & s\n\t= 'it' ;\n\nint x = 1 ; if ( x < 2 )\n\ts = \"it\" ; # again\n"

theorem layout_irrelevant_airy : (TokenStream.start SourceText.terse.chars).drain.2.1 = none ∧
    (TokenStream.start SourceText.airy.chars).drain.2.1 = none ∧
    (TokenStream.start SourceText.terse.chars).drain.1.map Token.shape =
      (TokenStream.start SourceText.airy.chars).drain.1.map Token.shape ∧
    (TokenStream.start SourceText.terse.chars).drain.1 ≠
      (TokenStream.start SourceText.airy.chars).drain.1 ∧
    ∃ a, Assembly.ofSource .terse = .ok a ∧ Assembly.ofSource .airy = .ok a := by
  have lexed : (TokenStream.start SourceText.terse.chars).drain.2.1 = none := by decide +kernel
  have lexed' : (TokenStream.start SourceText.airy.chars).drain.2.1 = none := by decide +kernel
  have same : (TokenStream.start SourceText.terse.chars).drain.1.map Token.shape =
      (TokenStream.start SourceText.airy.chars).drain.1.map Token.shape := by decide +kernel
  have places : (TokenStream.start SourceText.terse.chars).drain.1 ≠
      (TokenStream.start SourceText.airy.chars).drain.1 := by
    decide +kernel
  refine ⟨lexed, lexed', same, places, ?_⟩
  rcases layout_irrelevant lexed lexed' same with h | ⟨e, -, he, -⟩
  · exact h
  · have hok : (Assembly.ofSource .terse).toOption.isSome = true := by decide +kernel
    rw [he] at hok
    cases hok

end WordScript
