import WordScript.Proofs.Faults.Checks
import WordScript.Proofs.Grammar.Statements

/-!
# Faults of declarations

The names of types that a parser lets through are the names that the tables of a program know where
they are needed: in the fields of a struct the structs up to this one, and everywhere else all
structs. So no type is unknown. All faults of declarations are at spans of these, and registers are
not to blame.
-/

namespace WordScript

/-! ### Types that scripts mention -/

mutual

def Statement.types : Statement → List TypeName
  | .declare _ type _ _ => [type]
  | .block _ body => Statement.allTypes body
  | .ifThen _ _ yes => yes.types
  | .ifThenElse _ _ yes no => yes.types ++ no.types
  | .loop _ _ repeated => repeated.types
  | .ret .. | .expression .. => []

def Statement.allTypes : List Statement → List TypeName
  | [] => []
  | s :: rest => s.types ++ Statement.allTypes rest

end

def FunctionDecl.types (d : FunctionDecl) : List TypeName :=
  d.returnType :: (d.params.map Prod.fst ++ Statement.allTypes d.body)

def Program.types (p : Program) : List TypeName :=
  p.statics.map (·.type) ++ p.definitions.flatMap (·.2.types) ++ Statement.allTypes p.body

/-- The fields of each struct mention these types, structs before it and the struct itself. -/
def StructDecl.FieldsKnown (types : List String) : List StructDecl → Prop
  | [] => True
  | d :: ds => (∀ f ∈ d.fields, f.1.name ∈ d.name.text :: types) ∧
      FieldsKnown (d.name.text :: types) ds

def Passage.types : Passage → List TypeName
  | .one s => s.types
  | .many ss => Statement.allTypes ss

def Parse.TopLevel.types : TopLevel → List TypeName
  | .struct d => d.methods.flatMap FunctionDecl.types
  | .function d => d.types
  | .static d => [d.type]
  | .statement s => s.types

section
variable {type : TypeName} {names : List String}

theorem TypeWritten.known (h : TypeWritten names type ts) : type.name ∈ names := by
  cases h with
  | mk kind known marks => exact known

theorem DeclarationWritten.known (h : DeclarationWritten names (type, name, init, span) ts) :
    type.name ∈ names := by
  cases h with
  | plain type => exact type.known
  | initialised type => exact type.known

theorem StatementWritten.known (h : StatementWritten names passage ts) (ht : type ∈ passage.types) :
    type.name ∈ names := by
  induction h with
  | ret | retValue | expression | nil => cases ht
  | declare declaration =>
    obtain rfl := List.mem_singleton.mp ht
    exact declaration.known
  | block _ _ _ ih | ifThen _ _ _ _ _ ih | loop _ _ _ _ _ ih => exact ih ht
  | ifThenElse _ _ _ _ _ _ _ _ ihy ihn => exact (List.mem_append.mp ht).elim ihy ihn
  | cons _ _ _ ih ihs => exact (List.mem_append.mp ht).elim ih ihs

theorem Parse.Separated.known {fields : List (TypeName × Name)}
    (h : Separated (FieldWritten names) fields ts) (hf : f ∈ fields) : f.1.name ∈ names := by
  induction h with
  | one item =>
    obtain rfl := List.mem_singleton.mp hf
    cases item with
    | mk type => exact type.known
  | more item comma others ih =>
    rcases List.mem_cons.mp hf with rfl | hf
    · cases item with
      | mk type => exact type.known
    · exact ih hf

theorem FunctionWritten.known (h : FunctionWritten names d ts) (ht : type ∈ d.types) :
    type.name ∈ names := by
  obtain ⟨-, returned, -, -, params, -, -, statements, -⟩ := h
  simp only [FunctionDecl.types, List.mem_cons, List.mem_append, List.mem_map] at ht
  rcases ht with rfl | ⟨f, hf, rfl⟩ | ht
  · exact returned.known
  · rcases params with ⟨rfl, -⟩ | params
    · cases hf
    · exact params.known hf
  · exact statements.known ht

theorem MembersWritten.known (h : MembersWritten names ms ts) :
    (∀ f ∈ ms.filterMap Parse.Member.field?, f.1.name ∈ names) ∧
      ∀ d ∈ ms.filterMap Parse.Member.method?, ∀ type ∈ d.types, type.name ∈ names := by
  induction h with
  | nil => simp
  | field field stop others ih =>
    cases field with
    | mk type => simpa [Parse.Member.field?, Parse.Member.method?, type.known] using ih
  | method method others ih =>
    refine ⟨by simpa [Parse.Member.field?] using ih.1, ?_⟩
    simp only [Parse.Member.method?, List.filterMap_cons, List.mem_cons]
    rintro d (rfl | hd) type ht
    · exact method.known ht
    · exact ih.2 d hd type ht

theorem StructWritten.known (h : StructWritten names d ts) :
    (∀ f ∈ d.fields, f.1.name ∈ d.name.text :: names) ∧
    ∀ type ∈ d.methods.flatMap FunctionDecl.types, type.name ∈ d.name.text :: names := by
  obtain ⟨-, -, -, members, -⟩ := h
  refine ⟨members.known.1, fun type ht => ?_⟩
  obtain ⟨d, hd, ht⟩ := List.mem_flatMap.mp ht
  exact members.known.2 d hd type ht

theorem Parse.mem_types_assemble {part : TopLevel} {parts : List TopLevel} :
    type ∈ (assemble (part :: parts)).types ↔ type ∈ part.types ∨
    type ∈ (assemble parts).types := by
  cases part <;> simp [assemble, Program.types, Program.definitions, TopLevel.types,
    Statement.allTypes] <;> grind

/-- What is known at a part of a program are the types known at first and the structs before it. -/
theorem PartsWritten.known (h : PartsWritten names parts ts) :
    StructDecl.FieldsKnown names (Parse.assemble parts).structs ∧
    ∀ type ∈ (Parse.assemble parts).types, type.name ∈ names ∨ ∃ d ∈ (Parse.assemble parts).structs,
      d.name.text = type.name := by
  induction h with
  | nil => exact ⟨trivial, by simp [Parse.assemble, Program.types, Program.definitions,
      Statement.allTypes]⟩
  | cons first others ih =>
    obtain ⟨hfields, htypes⟩ := ih
    cases first with
    | struct struct =>
      obtain ⟨hown, hmethods⟩ := struct.known
      refine ⟨⟨hown, hfields⟩, fun type ht => ?_⟩
      have hname := (Parse.mem_types_assemble.mp ht).imp (hmethods type) (htypes type)
      simp only [Parse.assemble, List.mem_cons, exists_eq_or_imp] at hname ⊢
      grind
    | function function =>
      exact ⟨hfields, fun type ht => (Parse.mem_types_assemble.mp ht).elim (fun h =>
        .inl (function.known h)) (htypes type)⟩
    | static word declaration =>
      refine ⟨hfields, fun type ht => (Parse.mem_types_assemble.mp ht).elim (fun h =>
        ?_) (htypes type)⟩
      exact .inl (List.mem_singleton.mp h ▸ declaration.known)
    | statement statement =>
      exact ⟨hfields, fun type ht => (Parse.mem_types_assemble.mp ht).elim (fun h =>
        .inl (statement.known h)) (htypes type)⟩

end

/-! ### Structs -/

/-- The fault is at a span as `P` says, registers are not to blame, and neither is a name if what is
`known` holds. -/
def Fault.DueIf (P : Span → Prop) (known : Prop) (f : Fault TypeError) : Prop :=
  P f.span ∧ f.cause.lacksRegisters = false ∧ (known → f.cause.concernsName = false)

variable {P : Span → Prop} {known : Prop}

theorem Fault.DueIf.due {f : Fault TypeError} (h : f.DueIf P known) : f.Due P := ⟨h.1, h.2.1⟩

namespace Structs

def Knows (s : Structs) (name : String) : Prop := name ∈ builtinTypes ∨ (s.find? name).isSome = true

variable {s s' : Structs} {names : List String}

theorem Knows.base (h : s.Knows name) : ∃ type, s.baseType? name = some type := by
  rcases h with h | h
  · simp only [builtinTypes, List.mem_cons, List.not_mem_nil, or_false] at h
    rcases h with rfl | rfl | rfl | rfl <;> exact ⟨_, rfl⟩
  · obtain ⟨id, hid⟩ := Option.isSome_iff_exists.mp h
    simp only [baseType?]
    split <;> simp [hid]

theorem isSome_find?_append :
    ((⟨s.entries ++ [t]⟩ : Structs).find? name).isSome =
      ((s.find? name).isSome || (t.declared && t.name == name)) := by
  simp only [find?, List.findIdx?_isSome, List.any_append, List.any_cons, List.any_nil,
    Bool.or_false]

theorem Knows.append (h : s.Knows name) : (⟨s.entries ++ [t]⟩ : Structs).Knows name :=
  h.imp_right fun h => by simp [isSome_find?_append, h]

theorem resolve_failsAs (h : P t.span) (hknown : known → s.Knows t.name) :
    FailsAs (Fault.DueIf P known) ((s.resolve t).mapError (Fault.raise · t.span)) := by
  have hresolve : FailsAs (fun e => e.lacksRegisters = false ∧ (known → e.concernsName = false))
      (s.resolve t) := by
    simp only [resolve]
    split
    · next hnone =>
      refine .error ⟨rfl, fun hk => ?_⟩
      obtain ⟨base, hbase⟩ := (hknown hk).base
      cases hbase.symm.trans hnone
    · exact .ite (fun _ => .ok) fun _ => .error ⟨rfl, fun _ => rfl⟩
    · exact .ok
  exact hresolve.mapError fun _ he => ⟨h, he⟩

theorem resolveStored_failsAs (h : P t.span) (hknown : known → s.Knows t.name) :
    FailsAs (Fault.DueIf P known) (s.resolveStored t) :=
  (resolve_failsAs h hknown).bind fun _ _ => .refuse ⟨h, rfl, fun _ => rfl⟩ .pure

theorem declareFields_failsAs {fields : List (TypeName × Name)} (h : ∀ f ∈ fields, FieldPlaced P f)
    (hknown : known → ∀ f ∈ fields, s.Knows f.1.name) (before : List (String × ValueType)) :
    FailsAs (Fault.DueIf P known) (s.declareFields self name before fields) := by
  induction fields generalizing before with
  | nil => exact .ok
  | cons field fields ih =>
    obtain ⟨⟨htype, hname⟩, hfields⟩ := List.forall_mem_cons.mp h
    refine .refuse ⟨hname, rfl, fun _ => rfl⟩
      ((resolve_failsAs htype fun hk => hknown hk field (by simp)).bind fun _ _ => ?_)
    exact .refuse ⟨htype, rfl, fun _ => rfl⟩ (.refuse ⟨htype, rfl, fun _ => rfl⟩
      (ih hfields (fun hk f hf => hknown hk f (by simp [hf])) _))

theorem declare_failsAs (h : d.Placed P) (hknown : known → ∀ f ∈ d.fields, f.1.name = d.name.text ∨
      s.Knows f.1.name) :
    FailsAs (Fault.DueIf P known) (s.declare d) := by
  refine .refuse ⟨h.name, rfl, fun _ => rfl⟩
    ((declareFields_failsAs h.fields (fun hk f hf => ?_) _).map)
  rcases hknown hk f hf with hself | hknown
  · exact .inr (by simp [isSome_find?_append, hself])
  · exact hknown.append

theorem isSome_find?_declare (h : s.declare d = .ok s') :
    (s'.find? name).isSome = ((s.find? name).isSome || d.name.text == name) := by
  simp only [declare, refuse_eq_ok, bind_eq_ok, pure_eq_ok] at h
  obtain ⟨-, fields, -, rfl⟩ := h
  simp [isSome_find?_append, build]

/-- Structs whose fields were known to the parser are known to the table in time. -/
theorem declareAll_failsAs {ds : List StructDecl} (h : ∀ d ∈ ds, d.Placed P)
    (hnames : ∀ n ∈ names, s.Knows n) (fields : known → StructDecl.FieldsKnown names ds) :
    FailsAs (Fault.DueIf P known) (ds.foldlM declare s) := by
  induction ds generalizing s names with
  | nil => exact .pure
  | cons d ds ih =>
    obtain ⟨hd, hds⟩ := List.forall_mem_cons.mp h
    rw [List.foldlM_cons]
    refine (declare_failsAs hd fun hk f hf =>
      (List.mem_cons.mp ((fields hk).1 f hf)).imp_right (hnames _)).bind
      fun s' hs' => ih hds (fun n hn => ?_) fun hk => (fields hk).2
    rcases List.mem_cons.mp hn with rfl | hn
    · exact .inr (by simp [isSome_find?_declare hs'])
    · exact (hnames n hn).imp_right fun h => by simp [isSome_find?_declare hs', h]

theorem isSome_find?_of_mem {ds : List StructDecl} (h : ds.foldlM declare s = .ok s')
    (hd : d ∈ ds) : (s'.find? d.name.text).isSome = true := by
  induction ds generalizing s with
  | nil => cases hd
  | cons d' ds ih =>
    rw [List.foldlM_cons, bind_eq_ok] at h
    obtain ⟨t, ht, h⟩ := h
    rcases List.mem_cons.mp hd with rfl | hd
    · have hnew : (t.find? d.name.text).isSome = true := by simp [isSome_find?_declare ht]
      refine foldlM_keeps (P := fun u => (u.find? d.name.text).isSome = true)
        (fun d' _ u u' hu hu' => ?_) hnew h
      rw [isSome_find?_declare hu', hu]
      rfl
    · exact ih h hd

end Structs

/-! ### Functions and static variables -/

namespace Functions

variable {structs : Structs}

theorem declareParams_failsAs {decls : List (TypeName × Name)} (h : ∀ d ∈ decls, FieldPlaced P d)
    (hknown : known → ∀ d ∈ decls, structs.Knows d.1.name) (before : List (String × ValueType)) :
    FailsAs (Fault.DueIf P known) (declareParams structs isMethod before decls) := by
  induction decls generalizing before with
  | nil => exact .ok
  | cons decl decls ih =>
    obtain ⟨⟨htype, hname⟩, hdecls⟩ := List.forall_mem_cons.mp h
    exact .refuse ⟨hname, rfl, fun _ => rfl⟩
      ((Structs.resolveStored_failsAs htype fun hk => hknown hk decl (by simp)).bind
      fun _ _ => ih hdecls (fun hk d hd => hknown hk d (by simp [hd])) _)

theorem declare_failsAs (f : Functions) (h : decl.Placed P)
    (hknown : known → ∀ t ∈ decl.types, structs.Knows t.name) :
    FailsAs (Fault.DueIf P known) (f.declare structs name receiver decl) := by
  refine .refuse ⟨h.name, rfl, fun _ => rfl⟩ ((Structs.resolve_failsAs h.returnType fun hk =>
    hknown hk _ (by simp [FunctionDecl.types])).bind fun _ _ => ?_)
  refine (declareParams_failsAs h.params (fun hk d hd => hknown hk d.1 ?_) []).map
  simp only [FunctionDecl.types, List.mem_cons, List.mem_append, List.mem_map]
  exact .inr (.inl ⟨d, hd, rfl⟩)

theorem declareMethods_failsAs (f : Functions) (h : d.Placed P)
    (own : known → (structs.find? d.name.text).isSome = true)
    (hknown : known → ∀ m ∈ d.methods, ∀ t ∈ m.types, structs.Knows t.name) :
    FailsAs (Fault.DueIf P known) (declareMethods structs f d) := by
  simp only [declareMethods]
  split
  · next hnone =>
    refine .error ⟨h.name, rfl, fun hk => ?_⟩
    cases (congrArg Option.isSome hnone).symm.trans (own hk)
  · exact .foldlM (fun m hm f => declare_failsAs f (h.methods m hm) fun hk => hknown hk m hm) f

theorem ofProgram_failsAs {p : Program} (h : p.Placed P)
    (own : known → ∀ d ∈ p.structs, (structs.find? d.name.text).isSome = true)
    (hknown : known → ∀ t ∈ p.types, structs.Knows t.name) :
    FailsAs (Fault.DueIf P known) (ofProgram structs p) := by
  have hdefinition : known → ∀ d ∈ p.definitions, ∀ t ∈ d.2.types,
      structs.Knows t.name := fun hk d hd t ht =>
    hknown hk t (List.mem_append_left _
      (List.mem_append_right _ (List.mem_flatMap.mpr ⟨d, hd, ht⟩)))
  refine (FailsAs.foldlM (fun d hd f => declare_failsAs f (h.functions d hd) fun hk =>
      hdefinition hk (.free d.name.text, d) ?_) _).bind fun f _ =>
    .foldlM (fun d hd f =>
      declareMethods_failsAs f (h.structs d hd) (fun hk => own hk d hd) fun hk m hm =>
      hdefinition hk (.method d.name.text m.name.text, m) ?_) f
  · exact List.mem_append_left _ (List.mem_map.mpr ⟨d, hd, rfl⟩)
  · exact List.mem_append_right _ (List.mem_flatMap.mpr ⟨d, hd, List.mem_map.mpr ⟨m, hm, rfl⟩⟩)

end Functions

theorem StaticVariable.declare_failsAs {structs : Structs} {ds : List StaticDecl}
    (h : ∀ d ∈ ds, d.Placed P)
    (hknown : known → ∀ d ∈ ds, structs.Knows d.type.name) (before : List StaticVariable) :
    FailsAs (Fault.DueIf P known) (declare structs before ds) := by
  induction ds generalizing before with
  | nil => exact .ok
  | cons d ds ih =>
    obtain ⟨hd, hds⟩ := List.forall_mem_cons.mp h
    exact .refuse ⟨hd.name, rfl, fun _ => rfl⟩
      ((Structs.resolveStored_failsAs hd.type fun hk => hknown hk d (by simp)).bind
      fun _ _ => ih hds (fun hk d hd => hknown hk d (by simp [hd])) _)

end WordScript
