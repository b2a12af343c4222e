import WordScript.Proofs.Literals
import WordScript.Proofs.Names

/-!
# Parts of what is written

Each expression in a script is written with a stretch of the script's tokens (`PartsWritten.part`).
-/

namespace WordScript

def Expr.WrittenIn (e : Expr) (ts : List Token) : Prop := ∃ us, us <:+: ts ∧ Written (.expr 1 e) us

section
variable {x : Expr}

namespace Expr.WrittenIn

theorem mono (h : x.WrittenIn us) (hsub : us <:+: ts) : x.WrittenIn ts := by
  obtain ⟨vs, hpart, written⟩ := h
  exact ⟨vs, hpart.trans hsub, written⟩

theorem left (h : x.WrittenIn ts) : x.WrittenIn (ts ++ us) :=
  h.mono (List.prefix_append ts us).isInfix

theorem right (h : x.WrittenIn us) : x.WrittenIn (ts ++ us) :=
  h.mono (List.suffix_append ts us).isInfix

theorem cons (h : x.WrittenIn ts) : x.WrittenIn (t :: ts) := h.mono (List.suffix_cons t ts).isInfix

end Expr.WrittenIn

theorem Written.writtenIn (h : Written (.expr k e) ts) (hk : 1 ≤ k := by decide) : e.WrittenIn ts :=
  ⟨ts, List.infix_refl ts, h.looser hk⟩

/-! ### Expressions -/

theorem Expr.parts_withSpan (e : Expr) (s : Span) :
    (e.withSpan s).parts = e.withSpan s :: e.parts.tail := by
  cases e <;> simp [withSpan, parts]

theorem InfixOp.parts_build (op : InfixOp) (lhs rhs : Expr) :
    (op.build lhs rhs).parts = op.build lhs rhs :: (lhs.parts ++ rhs.parts) := by
  cases op <;> simp [build, Expr.parts]

def Phrase.parts : Phrase → List Expr
  | .expr _ e => e.parts
  | .args es => Expr.allParts es

/-- What is written is itself one of the parts; the others are up to `inside`. -/
theorem Written.among (h : Written (.expr k e) ts) (hx : x ∈ e.parts)
    (inside : x ∈ e.parts.tail → x.WrittenIn ts) (hk : 1 ≤ k := by decide) : x.WrittenIn ts := by
  have hparts : e.parts = e :: e.parts.tail := by cases e <;> rfl
  rw [hparts] at hx
  rcases List.mem_cons.mp hx with rfl | hx
  · exact h.writtenIn hk
  · exact inside hx

theorem Written.part (h : Written phrase ts) (hx : x ∈ phrase.parts) : x.WrittenIn ts := by
  induction h with
  | tighter h ih => exact ih hx
  | operation operator left right ihl ihr =>
    refine (Written.operation operator left right).among hx (fun hx => ?_) (Precedence.level_pos _)
    rw [InfixOp.parts_build] at hx
    exact (List.mem_append.mp hx).elim (fun hx => (ihl hx).left) fun hx => (ihr hx).cons.right
  | unary sign operand ih => exact (Written.unary sign operand).among hx fun hx => (ih hx).cons
  | call callee opened args closed ih iha =>
    refine (Written.call callee opened args closed).among hx fun hx => ?_
    exact (List.mem_append.mp hx).elim (fun hx => (ih hx).left) fun hx => (iha hx).left.cons.right
  | field base dot name free ih =>
    exact (Written.field base dot name free).among hx fun hx => (ih hx).left
  | addressOf inner mark ih => exact (Written.addressOf inner mark).among hx fun hx => (ih hx).left
  | dereference inner mark ih =>
    exact (Written.dereference inner mark).among hx fun hx => (ih hx).left
  | parenthesised opened inner closed ih =>
    refine (Written.parenthesised opened inner closed).among hx fun hx => ?_
    rw [Expr.parts_withSpan] at hx
    exact (ih (List.mem_of_mem_tail hx)).left.cons
  | integer kind value => exact (Written.integer kind value).among hx fun hx => by cases hx
  | float kind value => exact (Written.float kind value).among hx fun hx => by cases hx
  | string kind => exact (Written.string kind).among hx fun hx => by cases hx
  | var kind free => exact (Written.var kind free).among hx fun hx => by cases hx
  | sizeOf kind word opened inner closed ih =>
    exact (Written.sizeOf kind word opened inner closed).among hx fun hx => (ih hx).left.cons.cons
  | noArgs => cases hx
  | lastArg last ih =>
    refine ih ?_
    simpa [Phrase.parts, Expr.allParts] using hx
  | arg first comma others ih iha =>
    rw [Phrase.parts, Expr.allParts, List.mem_append] at hx
    rcases hx with hx | hx
    · exact (ih hx).left
    · exact (iha hx).cons.right

/-! ### Statements and programs -/

def Passage.parts : Passage → List Expr
  | .one s => s.parts
  | .many ss => Statement.allParts ss

theorem DeclarationWritten.part (h : DeclarationWritten types (type, name, init, span) ts)
    (hx : x ∈ init.elim [] Expr.parts) : x.WrittenIn ts := by
  cases h with
  | plain => cases hx
  | initialised _ _ _ value => exact (value.part hx).left.cons.cons.right

theorem StatementWritten.part (h : StatementWritten types passage ts) (hx : x ∈ passage.parts) :
    x.WrittenIn ts := by
  induction h with
  | ret | nil => cases hx
  | retValue word value => exact (value.part hx).left.cons
  | expression value => exact (value.part hx).left
  | @declare type name init span ts declaration start =>
    refine declaration.part ?_
    cases init with
    | none => cases hx
    | some e => exact hx
  | block opened statements closed ih => exact (ih hx).left.cons
  | ifThen word opened condition closed yes ih | loop word opened condition closed yes ih =>
    rcases List.mem_append.mp hx with hx | hx
    · exact (condition.part hx).left.cons.cons
    · exact (ih hx).cons.right.cons.cons
  | ifThenElse word opened condition closed yes complete word' no ihy ihn =>
    rcases List.mem_append.mp hx with hx | hx
    · exact (condition.part hx).left.cons.cons
    · rcases List.mem_append.mp hx with hx | hx
      · exact (ihy hx).left.cons.right.cons.cons
      · exact (ihn hx).cons.right.cons.right.cons.cons
  | cons first others apart ih ihs =>
    rcases List.mem_append.mp hx with hx | hx
    · exact (ih hx).left
    · exact (ihs hx).right

theorem FunctionWritten.part (h : FunctionWritten types d ts) (hx : x ∈ Statement.allParts d.body) :
    x.WrittenIn ts := by
  obtain ⟨_, _, _, _, _, _, _, statements, _⟩ := h
  exact (statements.part hx).left.cons.cons.right.cons.cons.right.cons

theorem MembersWritten.part (h : MembersWritten types ms ts)
    (hx : ∃ d ∈ ms.filterMap Parse.Member.method?, x ∈ Statement.allParts d.body) :
    x.WrittenIn ts := by
  induction h with
  | nil =>
    obtain ⟨d, hd, -⟩ := hx
    cases hd
  | field field stop others ih => exact (ih hx).cons.right
  | method method others ih =>
    obtain ⟨d, hd, hx⟩ := hx
    rcases List.mem_cons.mp hd with rfl | hd
    · exact (method.part hx).left
    · exact (ih ⟨d, hd, hx⟩).right

def Parse.TopLevel.parts : TopLevel → List Expr
  | .struct d => d.methods.flatMap fun f => Statement.allParts f.body
  | .function d => Statement.allParts d.body
  | .static d => d.init.elim [] Expr.parts
  | .statement s => s.parts

theorem PartWritten.part {top : Parse.TopLevel} (h : PartWritten types top ts types')
    (hx : x ∈ top.parts) : x.WrittenIn ts := by
  cases h with
  | struct struct =>
    obtain ⟨_, _, _, members, _⟩ := struct
    exact (members.part (List.mem_flatMap.mp hx)).left.cons.cons.cons
  | function function => exact function.part hx
  | static word declaration => exact (declaration.part hx).cons
  | statement statement => exact statement.part hx

theorem Parse.mem_parts_assemble {part : TopLevel} {parts : List TopLevel} :
    x ∈ (assemble (part :: parts)).parts ↔ x ∈ part.parts ∨ x ∈ (assemble parts).parts := by
  cases part <;> simp [assemble, Program.parts, TopLevel.parts, Statement.allParts] <;> grind

theorem PartsWritten.part (h : PartsWritten types parts ts)
    (hx : x ∈ (Parse.assemble parts).parts) : x.WrittenIn ts := by
  induction h with
  | nil => simp [Parse.assemble, Program.parts, Statement.allParts] at hx
  | cons first others ih =>
    rcases Parse.mem_parts_assemble.mp hx with hx | hx
    · exact (first.part hx).left
    · exact (ih hx).right

end

end WordScript
