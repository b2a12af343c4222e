import WordScript.Emit.Statement
import WordScript.Text.Numeral

/-!
# Code for programs

A program's assembly reserves static memory for its strings and static variables, points `sp` past
them, fills them in, runs the body and stops. The functions and then the methods follow.
-/

namespace WordScript

namespace StaticVariable

def declare (structs : Structs) (before : List StaticVariable) :
    List StaticDecl → Except (Fault TypeError) (List StaticVariable)
  | [] => .ok before
  | d :: rest => do
    if before.any (·.name == d.name.text) then
      throw (.raise (.redeclared d.name.text) d.name.span)
    let type ← structs.resolveStored d.type
    declare structs (before ++ [⟨d.name.text, type⟩]) rest

end StaticVariable

namespace Emit

def fillString (cursor : Register) (l : Label) (s : String) : Assembly :=
  noted (.mov cursor (labelled l)) (quoteText s) ::
    line (.memWrite cursor (count s.length)) ::
      s.toList.flatMap fun ch =>
        [line (increase cursor (word 1)), line (.memWrite cursor (count ch.toNat))]

def fillStrings (pool : LiteralPool) : Emit Assembly := do
  if pool.words = 0 then return []
  withRegister ⟨0, 0⟩ fun cursor => return pool.entries.flatMap fun (l, s) => fillString cursor l s

def initialise (c : EmitContext) (name : String) (init : Expr) : Emit Assembly := do
  match (← get).frame.lookup name with
  | some (type, .static l) =>
    let words := c.structs.words type
    let code ← exprFor c type init
    let pop ← popWords words
    withRegister init.span fun target => withRegister init.span fun source =>
      return code ++ pop ++ noted (.mov target (labelled l)) s!"static {name}" ::
        line (.mov source (.register .sp)) :: copyWords target source words
  | _ => fault (.unknownIdentifier name) init.span

def initialiseAll (c : EmitContext) : List StaticDecl → Emit Assembly
  | [] => return []
  | d :: rest => do
    let code ← d.init.elim (pure []) (initialise c d.name.text)
    return code ++ (← initialiseAll c rest)

/-- Starts on another body of code. Labels stay distinct. -/
def enterFrame (frame : Frame) : Emit Unit := modify fun s => ⟨frame, .empty, s.labels⟩

def body (c : EmitContext) (statics : List StaticVariable) (p : Program) : Emit Assembly := do
  enterFrame (.topLevel statics)
  let strings ← fillStrings c.strings
  let inits ← initialiseAll c p.statics
  let code ← statements c p.body
  return strings ++ inits ++ code ++ [line .halt]

/-- A function that gives back a value has to do so on every path; any other returns at its end. -/
def function (c : EmitContext) (statics : List StaticVariable) (name : FunctionName)
    (decl : FunctionDecl) : Emit Assembly := do
  match c.functions.get? name with
  | none => fault (.unresolvedFunction name.text) decl.name.span
  | some signature =>
    let returns := Statement.anyReturns decl.body
    if signature.returns ≠ .void ∧ !returns then
      fault (.missingReturn name.text) decl.name.span
    let c := { c with returns := some signature.returns }
    enterFrame (.ofSignature c.structs statics signature)
    let code ← statement c (.block decl.name.span decl.body)
    let leave ← if returns then pure [] else returnStatement c none decl.name.span
    return .label name.label :: code ++ leave

def functions (c : EmitContext) (statics : List StaticVariable) :
    List (FunctionName × FunctionDecl) → Emit Assembly
  | [] => return []
  | (name, decl) :: rest => do
    let code ← function c statics name decl
    return code ++ (← functions c statics rest)

end Emit

def Program.definitions (p : Program) : List (FunctionName × FunctionDecl) :=
  p.functions.map (fun f => (.free f.name.text, f)) ++
    p.structs.flatMap fun s => s.methods.map fun m => (.method s.name.text m.name.text, m)

/-- Reserves words of static memory. Sizes wrap at 64 bits. -/
def Emit.reserveStatic (l : Label) (words : Nat) : Item := .static l (words % sizeBound)

/-- Reserves static memory, and starts the stack after it. -/
def Emit.opening (structs : Structs) (strings : LiteralPool) (statics : List StaticVariable) :
    Assembly :=
  let words := strings.words + structs.totalWords (statics.map StaticVariable.type)
  strings.entries.map (fun (l, s) => reserveStatic l (LiteralPool.wordsOf s)) ++
    statics.map (fun v => reserveStatic v.label (structs.words v.type)) ++
    [noted (.mov .sp (count words)) "stack starts after statics"]

def Assembly.ofProgram (p : Program) : Except (Fault TypeError) Assembly := do
  let structs ← Structs.ofDecls p.structs
  let functions ← Functions.ofProgram structs p
  let statics ← StaticVariable.declare structs [] p.statics
  let c : EmitContext := ⟨structs, functions, .collect p, none⟩
  let code : Emit Assembly := do
    let body ← Emit.body c statics p
    return Emit.opening structs c.strings statics ++ body ++
      (← Emit.functions c statics p.definitions)
  match code.run ⟨.topLevel statics, .empty, .start⟩ with
  | .ok code _ => return code
  | .error e _ => throw e

end WordScript
