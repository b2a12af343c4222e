import WordScript.Word
import WordScript.Text.Span

/-!
# Syntax trees

Scripts as trees. Every node carries the span it was read from; that of an expression in parentheses
includes the parentheses. Nothing here depends on spans except where errors are reported.
-/

namespace WordScript

inductive UnaryOp
  | negate
  | not
  deriving DecidableEq, Repr

inductive LogicOp
  | and
  | or
  deriving DecidableEq, Repr

inductive BinaryOp
  | arithmetic (op : ArithmeticOp)
  | relation (r : Relation)
  | logic (op : LogicOp)
  deriving DecidableEq, Repr

structure Name where
  text : String
  span : Span
  position : Position
  deriving DecidableEq, Repr, Inhabited

structure TypeName where
  name : String
  references : Nat
  span : Span
  deriving DecidableEq, Repr, Inhabited

/-- Expressions. A float literal holds its bit pattern. The callee of a call is a variable that
names a function or a field that names a method; anything else is refused by `Typing`. -/
inductive Expr
  | integer (span : Span) (value : Word)
  | float (span : Span) (bits : Word)
  | string (span : Span) (content : String)
  | var (span : Span) (name : String)
  | call (span : Span) (callee : Expr) (args : List Expr)
  | binary (span : Span) (op : BinaryOp) (lhs rhs : Expr)
  | unary (span : Span) (op : UnaryOp) (operand : Expr)
  | assign (span : Span) (op : Option ArithmeticOp) (target value : Expr)
  | field (span : Span) (base : Expr) (name : Name)
  | addressOf (span : Span) (inner : Expr)
  | dereference (span : Span) (inner : Expr)
  | sizeOf (span : Span) (inner : Expr)
  deriving Repr, Inhabited

namespace Expr

def span : Expr → Span
  | integer s _ | float s _ | string s _ | var s _ | call s _ _ | binary s _ _ _ | unary s _ _
  | assign s _ _ _ | field s _ _ | addressOf s _ | dereference s _ | sizeOf s _ => s

def withSpan (s : Span) : Expr → Expr
  | integer _ value => integer s value
  | float _ bits => float s bits
  | string _ content => string s content
  | var _ name => var s name
  | call _ callee args => call s callee args
  | binary _ op lhs rhs => binary s op lhs rhs
  | unary _ op operand => unary s op operand
  | assign _ op target value => assign s op target value
  | field _ base name => field s base name
  | addressOf _ inner => addressOf s inner
  | dereference _ inner => dereference s inner
  | sizeOf _ inner => sizeOf s inner

/-- Whether the expression names a place in memory: variables, fields of such places, and whatever a
reference points to. -/
def addressable : Expr → Bool
  | var .. | dereference .. => true
  | field _ base _ => base.addressable
  | _ => false

end Expr

inductive Statement
  | ret (span : Span) (value : Option Expr)
  | expression (span : Span) (expr : Expr)
  | declare (span : Span) (type : TypeName) (name : Name) (init : Option Expr)
  | block (span : Span) (body : List Statement)
  | ifThen (span : Span) (condition : Expr) (yes : Statement)
  | ifThenElse (span : Span) (condition : Expr) (yes no : Statement)
  | loop (span : Span) (condition : Expr) (body : Statement)
  deriving Repr, Inhabited

namespace Statement

def span : Statement → Span
  | ret s _ | expression s _ | declare s _ _ _ | block s _ | ifThen s _ _ | ifThenElse s _ _ _
  | loop s _ _ => s

mutual

def alwaysReturns : Statement → Bool
  | ret .. => true
  | block _ body => anyReturns body
  | ifThenElse _ _ yes no => yes.alwaysReturns && no.alwaysReturns
  | _ => false

def anyReturns : List Statement → Bool
  | [] => false
  | s :: rest => s.alwaysReturns || anyReturns rest

end

end Statement

structure FunctionDecl where
  name : Name
  returnType : TypeName
  params : List (TypeName × Name)
  body : List Statement
  deriving Repr, Inhabited

structure StructDecl where
  name : Name
  fields : List (TypeName × Name)
  methods : List FunctionDecl
  deriving Repr, Inhabited

structure StaticDecl where
  type : TypeName
  name : Name
  init : Option Expr
  deriving Repr, Inhabited

/-- A whole script. The body holds the statements outside of any function, which run in order. -/
structure Program where
  structs : List StructDecl
  functions : List FunctionDecl
  statics : List StaticDecl
  body : List Statement
  deriving Repr, Inhabited

end WordScript
