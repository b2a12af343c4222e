import WordScript.Proofs.Names
import WordScript.Proofs.Positions.Trees

/-!
# Spans from parsing

All spans of a program start at boundaries of the text that it was read from, since they are joined
from those of its tokens (`Program.ofSource_placed`). So does the fault of a text that cannot be
parsed (`Program.ofSource_fault`).
-/

namespace WordScript

/-! ### Expressions -/

section
variable {cs : List Char}

def StandIn (cs : List Char) (ts : List Token) : Prop := ∀ t ∈ ts, t.span.StartsIn cs

theorem standIn_cons : StandIn cs (t :: ts) ↔ t.span.StartsIn cs ∧ StandIn cs ts :=
  List.forall_mem_cons

theorem standIn_append : StandIn cs (ts ++ us) ↔ StandIn cs ts ∧ StandIn cs us :=
  List.forall_mem_append

def Phrase.StartsIn (cs : List Char) : Phrase → Prop
  | expr _ e => e.Placed (·.StartsIn cs)
  | args es => Expr.AllPlaced (·.StartsIn cs) es

theorem Written.startsIn (h : Written phrase ts) (stand : StandIn cs ts) : phrase.StartsIn cs := by
  induction h with
  | tighter _ ih => exact ih stand
  | @operation op _ _ _ _ _ _ _ _ ihl ihr =>
    rw [standIn_append, standIn_cons] at stand
    have hl := ihl stand.1
    have hr := ihr stand.2.2
    cases op <;> exact ⟨hl.span.join hr.span, hl, hr⟩
  | unary _ _ ih =>
    rw [standIn_cons] at stand
    have hinner := ih stand.2
    exact ⟨stand.1.join hinner.span, hinner⟩
  | call _ _ _ _ ih iha =>
    simp only [standIn_append, standIn_cons] at stand
    have hcallee := ih stand.1
    exact ⟨hcallee.span.join stand.2.2.2.1, hcallee, iha stand.2.2.1⟩
  | field _ _ _ _ ih =>
    simp only [standIn_append, standIn_cons] at stand
    have hbase := ih stand.1
    exact ⟨hbase.span.join stand.2.2.1, hbase, stand.2.2.1⟩
  | addressOf _ _ ih | dereference _ _ ih =>
    rw [standIn_append, standIn_cons] at stand
    have hinner := ih stand.1
    exact ⟨hinner.span.join stand.2.1, hinner⟩
  | parenthesised _ _ _ ih =>
    simp only [standIn_append, standIn_cons] at stand
    exact (ih stand.2.1).withSpan (stand.1.join stand.2.2.1)
  | integer | float | string | var => exact stand _ List.mem_cons_self
  | sizeOf _ _ _ _ _ ih =>
    simp only [standIn_append, standIn_cons] at stand
    exact ⟨stand.1.join stand.2.2.2.1, ih stand.2.2.1⟩
  | noArgs => trivial
  | lastArg _ ih => exact ⟨ih stand, trivial⟩
  | arg _ _ _ ih iha =>
    rw [standIn_append, standIn_cons] at stand
    exact ⟨ih stand.1, iha stand.2.2⟩

/-! ### Statements -/

theorem TypeWritten.startsIn (h : TypeWritten types type ts) (stand : StandIn cs ts) :
    type.span.StartsIn cs := by
  cases h with
  | mk =>
    rw [standIn_cons] at stand
    exact stand.1.foldl_join (List.forall_mem_map.mpr stand.2)

theorem NameWritten.startsIn (h : NameWritten name t) (stand : t.span.StartsIn cs) :
    name.span.StartsIn cs := by
  cases h
  exact stand

theorem DeclarationWritten.startsIn (h : DeclarationWritten types (type, name, init, span) ts)
    (stand : StandIn cs ts) :
    span.StartsIn cs ∧ type.span.StartsIn cs ∧ name.span.StartsIn cs ∧
    ∀ e ∈ init, e.Placed (·.StartsIn cs) := by
  cases h with
  | plain type name stop =>
    simp only [standIn_append, standIn_cons] at stand
    have htype := type.startsIn stand.1
    exact ⟨htype.join stand.2.2.1, htype, name.startsIn stand.2.1, by simp⟩
  | initialised type name equals value stop =>
    simp only [standIn_append, standIn_cons] at stand
    have htype := type.startsIn stand.1
    exact ⟨htype.join stand.2.2.2.2.1, htype, name.startsIn stand.2.1,
      by simpa [Phrase.StartsIn] using value.startsIn stand.2.2.2.1⟩

def Passage.StartsIn (cs : List Char) : Passage → Prop
  | one s => s.Placed (·.StartsIn cs)
  | many ss => Statement.AllPlaced (·.StartsIn cs) ss

theorem StatementWritten.startsIn (h : StatementWritten types passage ts) (stand : StandIn cs ts) :
    passage.StartsIn cs := by
  induction h with
  | ret =>
    simp only [standIn_cons] at stand
    exact ⟨stand.1.join stand.2.1, by simp⟩
  | retValue _ value =>
    simp only [standIn_append, standIn_cons] at stand
    exact ⟨stand.1.join stand.2.2.1, by simpa [Phrase.StartsIn] using value.startsIn stand.2.1⟩
  | expression value =>
    rw [standIn_append, standIn_cons] at stand
    have hvalue : Expr.Placed _ _ := value.startsIn stand.1
    exact ⟨hvalue.span.join stand.2.1, hvalue⟩
  | declare declaration => exact declaration.startsIn stand
  | block _ _ _ ih =>
    simp only [standIn_append, standIn_cons] at stand
    exact ⟨stand.1.join stand.2.2.1, ih stand.2.1⟩
  | ifThen _ _ condition _ _ ih | loop _ _ condition _ _ ih =>
    simp only [standIn_append, standIn_cons] at stand
    have hyes := ih stand.2.2.2.2
    exact ⟨stand.1.join hyes.span, condition.startsIn stand.2.2.1, hyes⟩
  | ifThenElse _ _ condition _ _ _ _ _ ihy ihn =>
    simp only [standIn_append, standIn_cons] at stand
    obtain ⟨hword, -, hcondition, -, hyes, -, hno⟩ := stand
    have hlast := ihn hno
    exact ⟨hword.join hlast.span, condition.startsIn hcondition, ihy hyes, hlast⟩
  | nil => trivial
  | cons _ _ _ ih ihs =>
    rw [standIn_append] at stand
    exact ⟨ih stand.1, ihs stand.2⟩

/-! ### Programs -/

theorem FieldWritten.startsIn (h : FieldWritten types f ts) (stand : StandIn cs ts) :
    FieldPlaced (·.StartsIn cs) f := by
  cases h with
  | mk type name =>
    rw [standIn_append, standIn_cons] at stand
    exact ⟨type.startsIn stand.1, name.startsIn stand.2.1⟩

theorem FunctionWritten.startsIn (h : FunctionWritten types d ts) (stand : StandIn cs ts) :
    d.Placed (·.StartsIn cs) := by
  cases h with
  | mk _ type name _ params _ _ statements _ =>
    simp only [standIn_append, standIn_cons] at stand
    obtain ⟨-, htype, hname, -, hparams, -, -, hbody, -⟩ := stand
    refine ⟨name.startsIn hname, type.startsIn htype, ?_, statements.startsIn hbody⟩
    rcases params with ⟨rfl, rfl⟩ | params
    · simp
    · exact params.forall (fun _ _ hf => hf.startsIn) hparams

theorem MembersWritten.startsIn (h : MembersWritten types ms ts) (stand : StandIn cs ts) :
    (∀ f ∈ ms.filterMap Parse.Member.field?, FieldPlaced (·.StartsIn cs) f) ∧
      ∀ d ∈ ms.filterMap Parse.Member.method?, d.Placed (·.StartsIn cs) := by
  induction h with
  | nil => simp
  | field field _ _ ih =>
    rw [standIn_append, standIn_cons] at stand
    obtain ⟨hfields, hmethods⟩ := ih stand.2.2
    exact ⟨List.forall_mem_cons.mpr ⟨field.startsIn stand.1, hfields⟩, hmethods⟩
  | method method _ ih =>
    rw [standIn_append] at stand
    obtain ⟨hfields, hmethods⟩ := ih stand.2
    exact ⟨hfields, List.forall_mem_cons.mpr ⟨method.startsIn stand.1, hmethods⟩⟩

theorem StructWritten.startsIn (h : StructWritten types d ts) (stand : StandIn cs ts) :
    d.Placed (·.StartsIn cs) := by
  cases h with
  | mk _ name _ members _ =>
    simp only [standIn_append, standIn_cons] at stand
    obtain ⟨hfields, hmethods⟩ := members.startsIn stand.2.2.2.1
    exact ⟨name.startsIn stand.2.1, hfields, hmethods⟩

theorem PartsWritten.startsIn (h : PartsWritten types parts ts) (stand : StandIn cs ts) :
    (Parse.assemble parts).Placed (·.StartsIn cs) := by
  induction h with
  | nil => exact ⟨List.forall_mem_nil _, List.forall_mem_nil _, List.forall_mem_nil _, trivial⟩
  | cons part _ ih =>
    rw [standIn_append] at stand
    have hrest := ih stand.2
    cases part with
    | struct struct =>
      exact { hrest with
        structs := List.forall_mem_cons.mpr ⟨struct.startsIn stand.1, hrest.structs⟩ }
    | function function =>
      exact { hrest with
        functions := List.forall_mem_cons.mpr ⟨function.startsIn stand.1, hrest.functions⟩ }
    | static _ declaration =>
      rw [standIn_cons] at stand
      obtain ⟨-, htype, hname, hinit⟩ := declaration.startsIn stand.1.2
      exact { hrest with
        statics := List.forall_mem_cons.mpr ⟨⟨htype, hname, hinit⟩, hrest.statics⟩ }
    | statement statement => exact { hrest with body := ⟨statement.startsIn stand.1, hrest.body⟩ }

end

namespace Program

variable {source : SourceText}

/-- All spans in a program start in the text that it was read from. -/
theorem ofSource_placed (parsed : Program.ofSource source = .ok p) :
    p.Placed (·.StartsIn source.chars) := by
  obtain ⟨parts, rfl, written⟩ := Program.ofSource_written parsed
  exact written.startsIn (Cursor.InText.start _).tokens

theorem ofSource_fault (failed : Program.ofSource source = .error e) :
    e.span.StartsIn source.chars := by
  unfold ofSource at failed
  split at failed
  · cases failed
  · next hrun =>
    cases failed
    exact ((Parse.program_written _).error id hrun).placed _ ⟨.start _, by simp [Parser.start]⟩

end Program

end WordScript
