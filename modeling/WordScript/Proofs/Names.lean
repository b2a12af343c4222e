import WordScript.Proofs.Grammar.Statements
import WordScript.Proofs.Success

/-!
# Names in parsed programs

Whatever a parsed program declares has a proper name: a letter, then letters, digits and
underscores. It is written with an identifier of the text, and these are all like that.
-/

namespace WordScript

def IsName (s : String) : Prop :=
  ∃ c cs, s.toList = c :: cs ∧ isNameStart c = true ∧ cs.all isNameChar = true

theorem IsName.ne_empty (h : IsName s) : s ≠ "" := by
  rintro rfl
  obtain ⟨c, cs, h, -⟩ := h
  simp at h

/-! ### Programs -/

mutual

def Statement.WellNamed : Statement → Prop
  | .declare _ _ name _ => IsName name.text
  | .block _ body => Statement.AllNamed body
  | .ifThen _ _ yes => yes.WellNamed
  | .ifThenElse _ _ yes no => yes.WellNamed ∧ no.WellNamed
  | .loop _ _ body => body.WellNamed
  | .ret .. | .expression .. => True

def Statement.AllNamed : List Statement → Prop
  | [] => True
  | s :: rest => s.WellNamed ∧ Statement.AllNamed rest

end

structure FunctionDecl.WellNamed (f : FunctionDecl) : Prop where
  name : IsName f.name.text
  params : ∀ p ∈ f.params, IsName p.2.text
  body : Statement.AllNamed f.body

structure StructDecl.WellNamed (d : StructDecl) : Prop where
  name : IsName d.name.text
  fields : ∀ f ∈ d.fields, IsName f.2.text
  methods : ∀ m ∈ d.methods, m.WellNamed

structure Program.WellNamed (p : Program) : Prop where
  structs : ∀ d ∈ p.structs, d.WellNamed
  functions : ∀ f ∈ p.functions, f.WellNamed
  statics : ∀ d ∈ p.statics, IsName d.name.text
  body : Statement.AllNamed p.body

/-! ### What is written -/

theorem Token.Lexed.isName {t : Token} (h : t.Lexed) (kind : t.kind = .identifier) :
    IsName t.text := by
  obtain ⟨l, hl, hkind, htext⟩ := h.valid
  rw [hkind] at kind
  cases hl with
  | @name c cs _ start more => exact ⟨c, cs, by rw [htext, String.toList_ofList], start, more⟩
  | string | integer | float | symbol => cases kind

theorem NameWritten.isName (h : NameWritten name t) (lexed : t.Lexed) : IsName name.text := by
  cases h with
  | mk kind => exact lexed.isName kind

theorem DeclarationWritten.isName (h : DeclarationWritten types (type, name, init, span) ts)
    (lexed : ∀ t ∈ ts, t.Lexed) : IsName name.text := by
  cases h with
  | plain _ name | initialised _ name => exact name.isName (lexed _ (by simp))

def Passage.WellNamed : Passage → Prop
  | one s => s.WellNamed
  | many ss => Statement.AllNamed ss

theorem StatementWritten.wellNamed (h : StatementWritten types passage ts)
    (lexed : ∀ t ∈ ts, t.Lexed) : passage.WellNamed := by
  induction h with
  | ret | retValue | expression | nil => trivial
  | declare declaration => exact declaration.isName lexed
  | block _ _ _ ih => exact ih fun t ht => lexed t (by simp [ht])
  | ifThen _ _ _ _ _ ih | loop _ _ _ _ _ ih => exact ih fun t ht => lexed t (by simp [ht])
  | ifThenElse _ _ _ _ _ _ _ _ ihy ihn =>
    exact ⟨ihy fun t ht => lexed t (by simp [ht]), ihn fun t ht => lexed t (by simp [ht])⟩
  | cons _ _ _ ih ihs =>
    exact ⟨ih fun t ht => lexed t (by simp [ht]), ihs fun t ht => lexed t (by simp [ht])⟩

theorem FieldWritten.isName (h : FieldWritten types f ts) (lexed : ∀ t ∈ ts, t.Lexed) :
    IsName f.2.text := by
  cases h with
  | mk _ name => exact name.isName (lexed _ (by simp))

theorem Parse.Separated.forall {α : Type} {I : α → List Token → Prop} {as : List α}
    {P : Token → Prop} {Q : α → Prop}
    (h : Separated I as ts) (item : ∀ a us, I a us → (∀ t ∈ us, P t) → Q a) (hts : ∀ t ∈ ts, P t) :
    ∀ a ∈ as, Q a := by
  induction h with
  | one first => exact List.forall_mem_singleton.mpr (item _ _ first hts)
  | more first _ _ ih =>
    obtain ⟨hfirst, hrest⟩ := List.forall_mem_append.mp hts
    exact List.forall_mem_cons.mpr ⟨item _ _ first hfirst, ih (List.forall_mem_cons.mp hrest).2⟩

theorem FunctionWritten.wellNamed (h : FunctionWritten types d ts) (lexed : ∀ t ∈ ts, t.Lexed) :
    d.WellNamed := by
  cases h with
  | mk _ _ name _ params _ _ statements _ =>
    refine ⟨name.isName (lexed _ (by simp)), ?_, statements.wellNamed fun t ht =>
      lexed t (by simp [ht])⟩
    rcases params with ⟨rfl, rfl⟩ | params
    · simp
    · exact params.forall (fun _ _ hf => hf.isName) fun t ht => lexed t (by simp [ht])

theorem MembersWritten.wellNamed (h : MembersWritten types ms ts) (lexed : ∀ t ∈ ts, t.Lexed) :
    (∀ f ∈ ms.filterMap Parse.Member.field?, IsName f.2.text) ∧
    ∀ d ∈ ms.filterMap Parse.Member.method?, d.WellNamed := by
  induction h with
  | nil => simp
  | field field _ _ ih =>
    obtain ⟨hfields, hmethods⟩ := ih fun t ht => lexed t (by simp [ht])
    exact ⟨List.forall_mem_cons.mpr ⟨field.isName fun t ht => lexed t (by simp [ht]), hfields⟩,
      hmethods⟩
  | method method _ ih =>
    obtain ⟨hfields, hmethods⟩ := ih fun t ht => lexed t (by simp [ht])
    exact ⟨hfields, List.forall_mem_cons.mpr ⟨method.wellNamed fun t ht => lexed t (by simp [ht]),
      hmethods⟩⟩

theorem StructWritten.wellNamed (h : StructWritten types d ts) (lexed : ∀ t ∈ ts, t.Lexed) :
    d.WellNamed := by
  cases h with
  | mk _ name _ members _ =>
    obtain ⟨hfields, hmethods⟩ := members.wellNamed fun t ht => lexed t (by simp [ht])
    exact ⟨name.isName (lexed _ (by simp)), hfields, hmethods⟩

theorem PartsWritten.wellNamed (h : PartsWritten types parts ts) (lexed : ∀ t ∈ ts, t.Lexed) :
    (Parse.assemble parts).WellNamed := by
  induction h with
  | nil => constructor <;> simp [Parse.assemble, Statement.AllNamed]
  | cons part _ ih =>
    obtain ⟨hpart, hrest⟩ := List.forall_mem_append.mp lexed
    have hnamed := ih hrest
    cases part with
    | struct struct =>
      exact { hnamed with
        structs := List.forall_mem_cons.mpr ⟨struct.wellNamed hpart, hnamed.structs⟩ }
    | function function =>
      exact { hnamed with
        functions := List.forall_mem_cons.mpr ⟨function.wellNamed hpart, hnamed.functions⟩ }
    | static _ declaration =>
      have hname := declaration.isName fun t ht => hpart t (by simp [ht])
      exact { hnamed with
        statics := List.forall_mem_cons.mpr ⟨hname, hnamed.statics⟩ } | statement statement => exact { hnamed with body := ⟨statement.wellNamed hpart, hnamed.body⟩ }

theorem Program.ofSource_written (h : Program.ofSource source = .ok p) :
    ∃ parts, p = Parse.assemble parts ∧
    PartsWritten builtinTypes parts (Cursor.start source.chars).tokens := by
  simp only [Program.ofSource] at h
  split at h
  · next hp =>
    cases h
    obtain ⟨ts, hpast, hend, parts, rfl, hparts⟩ := (Parse.program_written _).ok hp
    have htokens := hpast.tokens
    rw [hend, List.append_nil] at htokens
    obtain rfl : (Cursor.start source.chars).tokens = ts := htokens
    exact ⟨parts, rfl, hparts⟩
  · cases h

/-- A parsed program declares proper names only. -/
theorem Program.ofSource_wellNamed (h : Program.ofSource source = .ok p) : p.WellNamed := by
  obtain ⟨parts, rfl, hparts⟩ := Program.ofSource_written h
  exact hparts.wellNamed fun t ht => Cursor.lexed_of_mem_tokens ht

end WordScript
