import WordScript.Emit.Expr

/-!
# Code for statements

Statements leave the stack as it was, except that a declaration leaves its variable there until the
end of the scope.
-/

namespace WordScript.Emit

def inScope (comment : Option String) (body : Emit Assembly) : Emit Assembly := do
  modifyFrame (·.enter)
  let code ← body
  let (words, frame) := (← get).frame.leave
  modify ({ · with frame })
  if words = 0 then return code
  return code ++ [.instruction (decrease .sp (count words)) comment]

/-- A branch or loop body has a scope of its own even if it is not a block. -/
def asBody (s : Statement) (code : Emit Assembly) : Emit Assembly :=
  match s with
  | .block .. => code
  | _ => inScope none code

def condition (c : EmitContext) (e : Expr) (otherwise : Label) : Emit Assembly := do
  let type ← typeHere c e
  ofCheck (Typing.singleWord c.structs type e.span)
  let code ← expr c e
  let test ← withPopped e.span fun r =>
    return [line (zeroTest r type), line (.branch .equal (.label otherwise))]
  return code ++ test

def exprFor (c : EmitContext) (type : ValueType) (e : Expr) : Emit Assembly := do
  let found ← typeHere c e
  unless c.structs.accepts type found do fault (Typing.mismatch c.structs type found) e.span
  expr c e

def pushZeros (words : Nat) : Emit Assembly := do
  modifyFrame (·.push words)
  return (List.replicate words [line (.memWrite .sp (word 0)),
    line (increase .sp (word 1))]).flatten

def declareTop (structs : Structs) (name : Name) (type : ValueType) : Emit Unit := do
  match (← get).frame.declare structs name.text type with
  | .ok frame => modify ({ · with frame })
  | .error e => fault e name.span

/-- A declaration. The initial value does not see the variable. -/
def declaration (c : EmitContext) (type : TypeName) (name : Name) (init : Option Expr) :
    Emit Assembly := do
  let resolved ← ofCheck (c.structs.resolveStored type)
  let code ← match init with
    | some e => exprFor c resolved e
    | none => pushZeros (c.structs.words resolved)
  declareTop c.structs name resolved
  return code

def copyResult (words : Nat) (span : Span) : Emit Assembly := do
  if words = 0 then return []
  match (← get).frame.returnSlotOffset? with
  | none => fault (.missingReturn "") span
  | some slot =>
    withRegister span fun target => withRegister span fun source =>
      return noted (.mov target (.register .sp)) "return value" ::
        line (increase target (word (.ofInt slot))) :: line (.mov source (.register .sp)) ::
          line (decrease source (count words)) :: copyWords target source words

/-- Drops the frame and goes back to the return address, the word just below it. -/
def leaveFunction (span : Span) : Emit Assembly := do
  let below := word (.ofInt ((← get).frame.depth + 1))
  withRegister span fun address =>
    return [line (.mov address (.register .sp)), line (decrease address below),
      line (.memRead address address), line (decrease .sp below), line (.jmp (.register address))]

/-- `return`, which stops the machine outside of functions. What follows is emitted as if the value
had been popped. -/
def returnStatement (c : EmitContext) (value : Option Expr) (span : Span) : Emit Assembly := do
  let type ← value.elim (pure .void) (typeHere c)
  let code ← value.elim (pure []) (expr c)
  match c.returns with
  | none =>
    modifyFrame (·.pop (c.structs.words type))
    return code ++ [line .halt]
  | some expected =>
    unless c.structs.accepts expected type do
      fault (Typing.mismatch c.structs expected type) (value.elim span (·.span))
    let words := c.structs.words expected
    let result ← copyResult words span
    let leave ← leaveFunction span
    modifyFrame (·.pop words)
    return code ++ result ++ leave

mutual

def statement (c : EmitContext) : Statement → Emit Assembly
  | .ret span value => returnStatement c value span
  | .expression _ e => do
    let type ← typeHere c e
    let code ← expr c e
    return code ++ (← popWords (c.structs.words type))
  | .declare _ type name init => declaration c type name init
  | .block _ body => inScope (some "end of scope") (statements c body)
  | .ifThen _ test yes => do
    let otherwise ← freshLabel
    let test ← condition c test otherwise
    let yes ← asBody yes (statement c yes)
    return test ++ yes ++ [.label otherwise]
  | .ifThenElse _ test yes no => do
    let otherwise ← freshLabel
    let test ← condition c test otherwise
    let yes ← asBody yes (statement c yes)
    let done ← freshLabel
    let no ← asBody no (statement c no)
    return test ++ yes ++ line (.jmp (labelled done)) :: .label otherwise :: no ++ [.label done]
  | .loop _ test body => do
    let start ← freshLabel
    let done ← freshLabel
    let test ← condition c test done
    let body ← asBody body (statement c body)
    return .label start :: test ++ body ++ [line (.jmp (labelled start)), .label done]

def statements (c : EmitContext) : List Statement → Emit Assembly
  | [] => return []
  | s :: rest => do
    let code ← statement c s
    return code ++ (← statements c rest)

end

end WordScript.Emit
