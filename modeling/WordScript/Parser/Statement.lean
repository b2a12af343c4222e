import WordScript.Parser.Expr

/-!
# Parsing statements

An `else` belongs to the nearest `if`. A statement that starts with the name of a type is a
declaration.
-/

namespace WordScript

namespace Parse

def variableDeclaration : Parse (TypeName × Name × Option Expr × Span) :=
  within "parsing variable declaration" do
    let type ← typeName
    let name ← name
    let init ← if ← peekSymbol .equals then
        accept
        some <$> expression
      else pure none
    let stop ← symbol .semicolon
    return (type, name, init, type.span.join stop)

def condition : Parse Expr := do
  let _ ← symbol .openParen
  let inner ← expression
  let _ ← symbol .closeParen
  return inner

def returnStatement (start : Span) : Parse Statement := do
  let value ← if ← peekSymbol .semicolon then pure none else some <$> expression
  let stop ← symbol .semicolon
  return .ret (start.join stop) value

def expressionStatement : Parse Statement := do
  let e ← expression
  let stop ← symbol .semicolon
  return .expression (e.span.join stop) e

mutual

def statementWithin : Nat → Parse Statement
  | 0 => exhausted
  | n + 1 => within "parsing statement" do
    match ← expectAny (some (.described "statement")) with
    | .identifier =>
      let start ← currentSpan
      match ← currentText with
      | "if" =>
        accept
        let condition ← within "parsing if statement's condition" condition
        let yes ← statementWithin n
        if ← peekKeyword "else" then
          accept
          let no ← statementWithin n
          return .ifThenElse (start.join no.span) condition yes no
        else return .ifThen (start.join yes.span) condition yes
      | "while" =>
        accept
        let condition ← within "parsing while statement's condition" condition
        let body ← statementWithin n
        return .loop (start.join body.span) condition body
      | "return" =>
        accept
        returnStatement start
      | _ =>
        if ← peekTypeName then
          let (type, name, init, span) ← variableDeclaration
          return .declare span type name init
        else expressionStatement
    | .symbol .openBrace =>
      let (body, span) ← blockWithin n
      return .block span body
    | _ => expressionStatement

def blockWithin : Nat → Parse (List Statement × Span)
  | 0 => exhausted
  | n + 1 => within "parsing statement block" do
    let start ← symbol .openBrace
    let body ← repeatWhile (return (← peek) != some (.symbol .closeBrace)) (statementWithin n) n
    let stop ← symbol .closeBrace
    return (body, start.join stop)

end

def statement : Parse Statement := do statementWithin (← get).allowance

def block : Parse (List Statement × Span) := do blockWithin (← get).allowance

end Parse

end WordScript
