import WordScript.Tree

/-!
# What integer scripts mean

Scripts without functions, structs and strings, where every variable is an `int`, and a direct
interpreter for them. It computes with integers that wrap around at 32 bits and knows nothing of
code, frames or memory.
-/

namespace WordScript

/-! ### Integer scripts -/

def TypeName.isInt (t : TypeName) : Bool := t.name == "int" && t.references == 0

/-- Whether an expression is made of integers, variables, operators and assignments to variables. -/
def Expr.integral : Expr → Bool
  | .integer .. | .var .. => true
  | .binary _ _ lhs rhs => lhs.integral && rhs.integral
  | .unary _ _ operand => operand.integral
  | .assign _ _ (.var ..) value => value.integral
  | _ => false

mutual

/-- Whether a statement is made of such expressions and declares nothing but `int` variables. -/
def Statement.integral : Statement → Bool
  | .ret _ none => false
  | .ret _ (some e) | .expression _ e => e.integral
  | .declare _ type _ init => type.isInt && init.all Expr.integral
  | .block _ body => Statement.allIntegral body
  | .ifThen _ test yes => test.integral && yes.integral
  | .ifThenElse _ test yes no => test.integral && yes.integral && no.integral
  | .loop _ test repeated => test.integral && repeated.integral

def Statement.allIntegral : List Statement → Bool
  | [] => true
  | s :: rest => s.integral && Statement.allIntegral rest

end

def StaticDecl.integral (d : StaticDecl) : Bool := d.type.isInt && d.init.all Expr.integral

def Program.integral (p : Program) : Bool :=
  p.structs.isEmpty && p.functions.isEmpty && p.statics.all StaticDecl.integral &&
    Statement.allIntegral p.body

/-! ### Numbers -/

def wrapped (z : Int) : Int := z.bmod 4294967296

/-- Division rounds toward zero. There is no result for a division by zero. -/
def ArithmeticOp.apply? : ArithmeticOp → Int → Int → Option Int
  | .add, a, b => some (wrapped (a + b))
  | .sub, a, b => some (wrapped (a - b))
  | .mul, a, b => some (wrapped (a * b))
  | .div, a, b => if b = 0 then none else some (wrapped (a.tdiv b))

def Relation.relates : Relation → Int → Int → Bool
  | .equal, a, b => a = b
  | .notEqual, a, b => a ≠ b
  | .greater, a, b => a > b
  | .less, a, b => a < b
  | .greaterEqual, a, b => a ≥ b
  | .lessEqual, a, b => a ≤ b

def LogicOp.decidedBy : LogicOp → Int → Bool
  | .and, a => a = 0
  | .or, a => a ≠ 0

def truth (b : Bool) : Int := if b then 1 else 0

/-! ### The interpreter -/

abbrev Env := List (String × Int)

namespace Env

def set : Env → String → Int → Env
  | [], _, _ => []
  | (name', old) :: rest, name, value =>
    if name' = name then (name', value) :: rest else (name', old) :: set rest name value

def values (env : Env) : List Int := (env.map Prod.snd).reverse

end Env

inductive Stop
  | division
  | returned (value : Int) (env : Env)
  /-- The rounds that a loop is allowed are used up. -/
  | exhausted
  /-- It is no integer script, or has an unknown variable. -/
  | stuck
  deriving DecidableEq, Repr

def Env.read (env : Env) (name : String) : Except Stop Int :=
  match env.lookup name with
  | some value => .ok value
  | none => .error .stuck

def ArithmeticOp.apply (op : ArithmeticOp) (a b : Int) : Except Stop Int :=
  match op.apply? a b with
  | some value => .ok value
  | none => .error .division

/-- The value of an expression, and the variables after it. Operands are evaluated from left to
right. -/
def Expr.evaluate : Expr → Env → Except Stop (Int × Env)
  | .integer _ value, env => .ok (value.toInt, env)
  | .var _ name, env => do
    let value ← env.read name
    return (value, env)
  | .binary _ (.arithmetic op) lhs rhs, env => do
    let (a, env) ← lhs.evaluate env
    let (b, env) ← rhs.evaluate env
    let value ← op.apply a b
    return (value, env)
  | .binary _ (.relation r) lhs rhs, env => do
    let (a, env) ← lhs.evaluate env
    let (b, env) ← rhs.evaluate env
    return (truth (r.relates a b), env)
  | .binary _ (.logic op) lhs rhs, env => do
    let (a, env) ← lhs.evaluate env
    if op.decidedBy a then return (truth (a ≠ 0), env)
    else do
      let (b, env) ← rhs.evaluate env
      return (truth (b ≠ 0), env)
  | .unary _ .negate operand, env => do
    let (a, env) ← operand.evaluate env
    return (wrapped (-a), env)
  | .unary _ .not operand, env => do
    let (a, env) ← operand.evaluate env
    return (truth (a = 0), env)
  | .assign _ none (.var _ name) value, env => do
    let (b, env) ← value.evaluate env
    return (b, env.set name b)
  -- The variable is read after the right side has been evaluated.
  | .assign _ (some op) (.var _ name) value, env => do
    let (b, env) ← value.evaluate env
    let a ← env.read name
    let result ← op.apply a b
    return (result, env.set name result)
  | _, _ => .error .stuck

namespace Expr

variable {span span' : Span} {name : String} {env : Env} {lhs rhs operand e : Expr}

theorem evaluate_var : evaluate (.var span name) env = (do
    let value ← env.read name
    return (value, env)) := rfl

theorem evaluate_arithmetic : evaluate (.binary span (.arithmetic op) lhs rhs) env = (do
    let l ← lhs.evaluate env
    let r ← rhs.evaluate l.2
    let value ← op.apply l.1 r.1
    return (value, r.2)) := rfl

theorem evaluate_relation : evaluate (.binary span (.relation rel) lhs rhs) env = (do
    let l ← lhs.evaluate env
    let r ← rhs.evaluate l.2
    return (truth (rel.relates l.1 r.1), r.2)) := rfl

theorem evaluate_logic : evaluate (.binary span (.logic op) lhs rhs) env = (do
    let l ← lhs.evaluate env
    if op.decidedBy l.1 then return (truth (l.1 ≠ 0), l.2)
    else do
      let r ← rhs.evaluate l.2
      return (truth (r.1 ≠ 0), r.2)) := rfl

theorem evaluate_negate : evaluate (.unary span .negate operand) env = (do
    let r ← operand.evaluate env
    return (wrapped (-r.1), r.2)) := rfl

theorem evaluate_not : evaluate (.unary span .not operand) env = (do
    let r ← operand.evaluate env
    return (truth (r.1 = 0), r.2)) := rfl

theorem evaluate_assign : evaluate (.assign span none (.var span' name) e) env = (do
    let r ← e.evaluate env
    return (r.1, r.2.set name r.1)) := rfl

theorem evaluate_update : evaluate (.assign span (some op) (.var span' name) e) env = (do
    let r ← e.evaluate env
    let a ← r.2.read name
    let result ← op.apply a r.1
    return (result, r.2.set name result)) := rfl

end Expr

def Env.inScope (run : Env → Except Stop Env) (env : Env) : Except Stop Env := do
  let after ← run env
  return after.drop (after.length - env.length)

/-- Repeats `round` for as long as the test is not zero. The test is made as often as `rounds` says,
at most. -/
def Env.repeatWhile (test : Env → Except Stop (Int × Env)) (round : Env → Except Stop Env) :
    (rounds : Nat) → Env → Except Stop Env
  | 0, _ => .error .exhausted
  | rounds + 1, env => do
    let (a, env) ← test env
    if a = 0 then return env
    else do
      let env ← round env
      repeatWhile test round rounds env

mutual

def Statement.execute (rounds : Nat) : Statement → Env → Except Stop Env
  | .ret _ none, _ => .error .stuck
  | .ret _ (some e), env => do
    let (value, env) ← e.evaluate env
    .error (.returned value env)
  | .expression _ e, env => do
    let (_, env) ← e.evaluate env
    return env
  | .declare _ _ name none, env => return (name.text, 0) :: env
  -- The initial value does not see the variable.
  | .declare _ _ name (some e), env => do
    let (value, env) ← e.evaluate env
    return (name.text, value) :: env
  | .block _ body, env => env.inScope (Statement.executeAll rounds body)
  | .ifThen _ test yes, env => do
    let (a, env) ← test.evaluate env
    if a = 0 then return env else env.inScope (yes.execute rounds)
  | .ifThenElse _ test yes no, env => do
    let (a, env) ← test.evaluate env
    if a = 0 then env.inScope (no.execute rounds) else env.inScope (yes.execute rounds)
  | .loop _ test body, env =>
    env.repeatWhile test.evaluate (Env.inScope (body.execute rounds)) rounds

def Statement.executeAll (rounds : Nat) : List Statement → Env → Except Stop Env
  | [], env => return env
  | s :: rest, env => do
    let env ← s.execute rounds env
    Statement.executeAll rounds rest env

end

def StaticDecl.initialise : List StaticDecl → Env → Except Stop Env
  | [], env => return env
  | d :: rest, env =>
    match d.init with
    | none => initialise rest env
    | some e => do
      let (value, env) ← e.evaluate env
      initialise rest (env.set d.name.text value)

def Program.execute (rounds : Nat) (p : Program) : Except Stop Env := do
  let env ← StaticDecl.initialise p.statics (p.statics.map fun d => (d.name.text, 0)).reverse
  Statement.executeAll rounds p.body env

end WordScript
