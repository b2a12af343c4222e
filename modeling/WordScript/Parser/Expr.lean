import WordScript.Parser.Basic

/-!
# Parsing expressions

Operands are prefix operators before a primary expression and its postfix chain. Operators between
them are read by precedence climbing: `binary` takes operators at or above a level, and `climb`
gives the right operand what binds tighter. Each function takes a step allowance; `expression`
starts with one that suffices for the text at hand.
-/

namespace WordScript

inductive Precedence
  | assignment
  | or
  | and
  | equality
  | comparison
  | term
  | factor
  | prefixed
  deriving DecidableEq, Repr

namespace Precedence

def level : Precedence → Nat
  | assignment => 1
  | or => 2
  | and => 3
  | equality => 4
  | comparison => 5
  | term => 6
  | factor => 7
  | prefixed => 8

def next : Precedence → Precedence
  | assignment => or
  | or => and
  | and => equality
  | equality => comparison
  | comparison => term
  | term => factor
  | factor | prefixed => prefixed

end Precedence

def BinaryOp.precedence : BinaryOp → Precedence
  | logic .or => .or
  | logic .and => .and
  | relation .equal | relation .notEqual => .equality
  | relation _ => .comparison
  | arithmetic .add | arithmetic .sub => .term
  | arithmetic .mul | arithmetic .div => .factor

inductive InfixOp
  | binary (op : BinaryOp)
  | assign (op : Option ArithmeticOp)
  deriving DecidableEq, Repr

namespace InfixOp

def precedence : InfixOp → Precedence
  | binary op => op.precedence
  | assign _ => .assignment

def rightAssociative : InfixOp → Bool
  | binary _ => false
  | assign _ => true

def build (op : InfixOp) (lhs rhs : Expr) : Expr :=
  let span := lhs.span.join rhs.span
  match op with
  | binary op => .binary span op lhs rhs
  | assign op => .assign span op lhs rhs

def ofSymbol? : Symbol → Option InfixOp
  | .plus => some (binary (.arithmetic .add))
  | .minus => some (binary (.arithmetic .sub))
  | .star => some (binary (.arithmetic .mul))
  | .slash => some (binary (.arithmetic .div))
  | .doubleEquals => some (binary (.relation .equal))
  | .notEquals => some (binary (.relation .notEqual))
  | .greater => some (binary (.relation .greater))
  | .less => some (binary (.relation .less))
  | .greaterEquals => some (binary (.relation .greaterEqual))
  | .lessEquals => some (binary (.relation .lessEqual))
  | .equals => some (assign none)
  | .plusEquals => some (assign (some .add))
  | .minusEquals => some (assign (some .sub))
  | .starEquals => some (assign (some .mul))
  | .slashEquals => some (assign (some .div))
  | _ => none

def ofWord? : String → Option InfixOp
  | "and" => some (binary (.logic .and))
  | "or" => some (binary (.logic .or))
  | _ => none

/-- Whether the right operand of an operator at level `outer` goes on with this operator. -/
def continues (op : InfixOp) (outer : Precedence) : Bool :=
  outer.level < op.precedence.level || (op.rightAssociative && op.precedence == outer)

end InfixOp

def UnaryOp.ofSymbol? : Symbol → Option UnaryOp
  | .minus => some .negate
  | .bang => some .not
  | _ => none

namespace Parse

def peekInfix : Parse (Option InfixOp) := do
  match ← peek with
  | some (.symbol s) => return InfixOp.ofSymbol? s
  | some .identifier => return InfixOp.ofWord? (← currentText)
  | _ => return none

def peekPrefix : Parse (Option UnaryOp) := do
  match ← peek with
  | some (.symbol s) => return UnaryOp.ofSymbol? s
  | _ => return none

def literal (read? : List Char → Option Word) (node : Span → Word → Expr) (cause : LexError) :
    Parse Expr := do
  let span ← currentSpan
  match read? (← currentText).toList with
  | some value =>
    accept
    return node span value
  | none => reject (.lex cause)

mutual

def expr : Nat → Parse Expr
  | 0 => exhausted
  | n + 1 => within "parsing expression" do
    let lhs ← operand n
    within "parsing binary expression" (binary n lhs .assignment)

def operand : Nat → Parse Expr
  | 0 => exhausted
  | n + 1 => do
    match ← peekPrefix with
    | some op =>
      let start ← currentSpan
      accept
      let inner ← operand n
      return .unary (start.join inner.span) op inner
    | none => suffixes n (← primary n)

def suffixes : Nat → Expr → Parse Expr
  | 0, _ => exhausted
  | n + 1, base => do
    match ← peek with
    | some (.symbol .openParen) =>
      accept
      let args ← within "parsing call arguments" do
        if ← peekSymbol .closeParen then return [] else commaSeparated (expr n) n
      let stop ← symbol .closeParen
      suffixes n (.call (base.span.join stop) base args)
    | some (.symbol .dot) =>
      accept
      let field ← name
      suffixes n (.field (base.span.join field.span) base field)
    | some (.symbol .ampersand) =>
      let stop ← currentSpan
      accept
      suffixes n (.addressOf (base.span.join stop) base)
    | some (.symbol .commercialAt) =>
      let stop ← currentSpan
      accept
      suffixes n (.dereference (base.span.join stop) base)
    | _ => return base

def primary : Nat → Parse Expr
  | 0 => exhausted
  | n + 1 => within "parsing primary expression" do
    match ← expectAny (some (.described "expression")) with
    | .symbol .openParen =>
      let start ← currentSpan
      accept
      let inner ← expr n
      let stop ← within "as the end of the expression" (symbol .closeParen)
      return inner.withSpan (start.join stop)
    | .integer => literal readWord? .integer .integerOutOfRange
    | .float => literal readFloat? .float .invalidFloat
    | .string =>
      let span ← currentSpan
      let content ← currentText
      accept
      return .string span content
    | .identifier =>
      let start ← currentSpan
      let text ← currentText
      if text = "sizeof" then
        accept
        let _ ← symbol .openParen
        let inner ← expr n
        let stop ← symbol .closeParen
        return .sizeOf (start.join stop) inner
      else if keywords.contains text then reject (.reservedName text)
      else
        accept
        return .var start text
    | found => reject (.expected (.described "open paren, identifier or literal") found)

/-- Operators of at least level `least` after `lhs`, with their right operands. -/
def binary : Nat → Expr → Precedence → Parse Expr
  | 0, _, _ => exhausted
  | n + 1, lhs, least => do
    match ← peekInfix with
    | some op =>
      if least.level ≤ op.precedence.level then
        accept
        let rhs ← climb n op.precedence (← operand n)
        binary n (op.build lhs rhs) least
      else return lhs
    | none => return lhs

/-- The right operand of an operator at level `outer`, which starts with `rhs`. -/
def climb : Nat → Precedence → Expr → Parse Expr
  | 0, _, _ => exhausted
  | n + 1, outer, rhs => do
    match ← peekInfix with
    | some op =>
      if op.continues outer then
        let least := if outer.level < op.precedence.level then outer.next else outer
        climb n outer (← binary n rhs least)
      else return rhs
    | none => return rhs

end

def expression : Parse Expr := do expr (← get).allowance

end Parse

end WordScript
