import WordScript.Parser.Program

/-!
# Spans of trees

What holds of all spans in a tree: `Expr.Placed P`, and so on up to `Program.Placed P`.
-/

namespace WordScript

mutual

/-- All spans in the expression are as `P` says. -/
def Expr.Placed (P : Span → Prop) : Expr → Prop
  | .integer span _ | .float span _ | .string span _ | .var span _ => P span
  | .call span callee args => P span ∧ callee.Placed P ∧ Expr.AllPlaced P args
  | .binary span _ lhs rhs => P span ∧ lhs.Placed P ∧ rhs.Placed P
  | .assign span _ target value => P span ∧ target.Placed P ∧ value.Placed P
  | .field span base name => P span ∧ base.Placed P ∧ P name.span
  | .unary span _ inner | .addressOf span inner | .dereference span inner | .sizeOf span inner =>
    P span ∧ inner.Placed P

def Expr.AllPlaced (P : Span → Prop) : List Expr → Prop
  | [] => True
  | e :: rest => e.Placed P ∧ Expr.AllPlaced P rest

end

mutual

def Statement.Placed (P : Span → Prop) : Statement → Prop
  | .ret span value => P span ∧ ∀ e ∈ value, e.Placed P
  | .expression span e => P span ∧ e.Placed P
  | .declare span type name init => P span ∧ P type.span ∧ P name.span ∧ ∀ e ∈ init, e.Placed P
  | .block span body => P span ∧ Statement.AllPlaced P body
  | .ifThen span condition yes => P span ∧ condition.Placed P ∧ yes.Placed P
  | .ifThenElse span condition yes no => P span ∧ condition.Placed P ∧ yes.Placed P ∧ no.Placed P
  | .loop span condition body => P span ∧ condition.Placed P ∧ body.Placed P

def Statement.AllPlaced (P : Span → Prop) : List Statement → Prop
  | [] => True
  | s :: rest => s.Placed P ∧ Statement.AllPlaced P rest

end

def FieldPlaced (P : Span → Prop) (f : TypeName × Name) : Prop := P f.1.span ∧ P f.2.span

structure FunctionDecl.Placed (P : Span → Prop) (d : FunctionDecl) : Prop where
  name : P d.name.span
  returnType : P d.returnType.span
  params : ∀ f ∈ d.params, FieldPlaced P f
  body : Statement.AllPlaced P d.body

structure StructDecl.Placed (P : Span → Prop) (d : StructDecl) : Prop where
  name : P d.name.span
  fields : ∀ f ∈ d.fields, FieldPlaced P f
  methods : ∀ m ∈ d.methods, m.Placed P

structure StaticDecl.Placed (P : Span → Prop) (d : StaticDecl) : Prop where
  type : P d.type.span
  name : P d.name.span
  init : ∀ e ∈ d.init, e.Placed P

structure Program.Placed (P : Span → Prop) (p : Program) : Prop where
  structs : ∀ d ∈ p.structs, d.Placed P
  functions : ∀ d ∈ p.functions, d.Placed P
  statics : ∀ d ∈ p.statics, d.Placed P
  body : Statement.AllPlaced P p.body

mutual

theorem Expr.placed_true (e : Expr) : e.Placed fun _ => True := by
  cases e with
  | integer | float | string | var => trivial
  | call span callee args => exact ⟨trivial, callee.placed_true, Expr.allPlaced_true args⟩
  | binary span op lhs rhs => exact ⟨trivial, lhs.placed_true, rhs.placed_true⟩
  | assign span op target value => exact ⟨trivial, target.placed_true, value.placed_true⟩
  | field span base name => exact ⟨trivial, base.placed_true, trivial⟩
  | unary span op inner => exact ⟨trivial, inner.placed_true⟩
  | addressOf span inner | dereference span inner | sizeOf span inner =>
    exact ⟨trivial, inner.placed_true⟩

theorem Expr.allPlaced_true (es : List Expr) : Expr.AllPlaced (fun _ => True) es := by
  cases es with
  | nil => trivial
  | cons e es => exact ⟨e.placed_true, Expr.allPlaced_true es⟩

end

mutual

theorem Statement.placed_true (s : Statement) : s.Placed fun _ => True := by
  cases s with
  | ret span value => exact ⟨trivial, fun e _ => e.placed_true⟩
  | expression span e => exact ⟨trivial, e.placed_true⟩
  | declare span type name init => exact ⟨trivial, trivial, trivial, fun e _ => e.placed_true⟩
  | block span body => exact ⟨trivial, Statement.allPlaced_true body⟩
  | ifThen span condition yes => exact ⟨trivial, condition.placed_true, yes.placed_true⟩
  | ifThenElse span condition yes no =>
    exact ⟨trivial, condition.placed_true, yes.placed_true, no.placed_true⟩
  | loop span condition body => exact ⟨trivial, condition.placed_true, body.placed_true⟩

theorem Statement.allPlaced_true (ss : List Statement) :
    Statement.AllPlaced (fun _ => True) ss := by
  cases ss with
  | nil => trivial
  | cons s ss => exact ⟨s.placed_true, Statement.allPlaced_true ss⟩

end

theorem FunctionDecl.placed_true (d : FunctionDecl) : d.Placed fun _ => True :=
  ⟨trivial, trivial, fun _ _ => ⟨trivial, trivial⟩, Statement.allPlaced_true d.body⟩

theorem StaticDecl.placed_true (d : StaticDecl) : d.Placed fun _ => True :=
  ⟨trivial, trivial, fun e _ => e.placed_true⟩

theorem Program.placed_true (p : Program) : p.Placed fun _ => True :=
  ⟨fun _ _ => ⟨trivial, fun _ _ => ⟨trivial, trivial⟩, fun m _ => m.placed_true⟩,
    fun d _ => d.placed_true, fun d _ => d.placed_true, Statement.allPlaced_true p.body⟩

variable {P : Span → Prop}

theorem Expr.Placed.span {e : Expr} (h : e.Placed P) : P e.span := by
  cases e with
  | integer | float | string | var => exact h
  | call | binary | unary | assign | field | addressOf | dereference | sizeOf => exact h.1

theorem Expr.Placed.withSpan {e : Expr} (h : e.Placed P) (hs : P s) : (e.withSpan s).Placed P := by
  cases e with
  | integer | float | string | var => exact hs
  | call | binary | unary | assign | field | addressOf | dereference | sizeOf => exact ⟨hs, h.2⟩

theorem Statement.Placed.span {s : Statement} (h : s.Placed P) : P s.span := by
  cases s <;> exact h.1

end WordScript
