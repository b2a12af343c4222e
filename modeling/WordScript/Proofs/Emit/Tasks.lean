import WordScript.Emit.Program
import WordScript.Proofs.Emit.Run

/-!
# The tasks of the generator

A task is a part of a program that code is emitted for, or one of the steps that all code is made
of. Running a task is running its parts one after the other (`Divides`, which `Proofs.Emit.Course`
shows of every task), and so down to the steps. `subrun?` follows a path down the parts to a task
and the state that the generator is in when it starts on it.
-/

namespace WordScript

namespace RegisterPool

/-- The register that is taken next, if there is one. -/
def lowest (pool : RegisterPool) : Register := .general (pool.lowestFree?.getD 0)

def next (pool : RegisterPool) : RegisterPool := pool.take (pool.lowestFree?.getD 0)

end RegisterPool

namespace Emit

inductive Task
  | value (e : Expr)
  | place (e : Expr)
  | condition (e : Expr) (otherwise : Label)
  | initialise (name : String) (e : Expr)
  | statement (st : Statement)
  | branch (st : Statement)
  | start (frame : Frame)
  | push (words : Nat)
  | pop (words : Nat)
  | enter
  | leave
  | declare (name : Name) (type : ValueType)
  | find (name : String) (span : Span)
  | acquire (span : Span)
  | release (r : Register)
  | label
  | typed (e : Expr)
  | check (result : Typing.Check Unit)
  | size (span : Span) (e : Expr)
  | copyResult (words : Nat) (span : Span)
  | leaveFunction (span : Span)
  | fillStrings

def Task.isStatement : Task → Bool
  | .statement _ | .branch _ => true
  | _ => false

def only (x : Emit α) : Emit Unit := do
  let _ ← x

def Task.run (c : EmitContext) : Task → Emit Unit
  | .value e => only (expr c e)
  | .place e => only (Emit.place c e)
  | .condition e otherwise => only (Emit.condition c e otherwise)
  | .initialise name e => only (Emit.initialise c name e)
  | .statement st => only (Emit.statement c st)
  | .branch st => only (asBody st (Emit.statement c st))
  | .start frame => enterFrame frame
  | .push words => modifyFrame (·.push words)
  | .pop words => modifyFrame (·.pop words)
  | .enter => modifyFrame (·.enter)
  | .leave => modifyFrame (·.leave.2)
  | .declare name type => declareTop c.structs name type
  | .find name span => only (findVariable name span)
  | .acquire span => only (Emit.acquire span)
  | .release r => modify fun s => { s with registers := s.registers.release r }
  | .label => only freshLabel
  | .typed e => only (typeHere c e)
  | .check result => ofCheck result
  | .size span e => only (sizeWords c span e)
  | .copyResult words span => only (Emit.copyResult words span)
  | .leaveFunction span => only (Emit.leaveFunction span)
  | .fillStrings => only (Emit.fillStrings c.strings)

def runAll (c : EmitContext) : List Task → Emit Unit
  | [] => return ()
  | k :: ks => do
    k.run c
    runAll c ks

/-! ### Parts -/

/-- What follows a check follows only if it succeeds. -/
def checked (result : Typing.Check α) (rest : α → List Task) : List Task :=
  .check (result.map fun _ => ()) :: result.toOption.elim [] rest

def failing (cause : TypeError) (span : Span) : Task := .check (.error (.raise cause span))

def slideTasks (pool : RegisterPool) (span : Span) (saved : List Register) (words : Nat) :
    List Task :=
  if saved = [] then []
  else saved.reverse.map (fun _ => .pop 1) ++ if words = 0 then [] else
    [.acquire span, .release pool.lowest]

def callTasks (c : EmitContext) (pool : RegisterPool) (span : Span) (target : CallTarget)
    (receiver args : List Task) : List Task :=
  let signature := target.signature
  let words := c.structs.words signature.returns
  pool.live.map (fun _ => .push 1) ++ .push words :: (receiver ++ (args ++ .label ::
    ((signature.params.reverse.map fun p => .pop (c.structs.words p.2)) ++
      .pop (if signature.receiver.isSome then 1 else 0) :: slideTasks pool span pool.live words)))

def receiverTasks (pool : RegisterPool) : Expr → List Task
  | .field _ base _ => [.place base, .push 1, .release pool.lowest]
  | _ => []

def binaryTasks (pool : RegisterPool) (lhs rhs : Expr) : BinaryOp → List Task
  | .arithmetic _ =>
    [.value lhs, .value rhs, .acquire lhs.span, .acquire rhs.span, .pop 1, .pop 1, .push 1,
      .release pool.next.lowest, .release pool.lowest]
  | .relation _ =>
    [.typed lhs, .value lhs, .value rhs, .acquire lhs.span, .acquire rhs.span, .pop 1, .pop 1,
      .release pool.next.lowest, .release pool.lowest, .label, .label, .push 1]
  | .logic _ =>
    [.label, .label, .typed lhs, .value lhs, .pop 1, .acquire lhs.span, .release pool.lowest,
      .typed rhs, .value rhs, .pop 1, .acquire rhs.span, .release pool.lowest, .push 1]

def unaryTasks (pool : RegisterPool) (operand : Expr) : UnaryOp → List Task
  | .negate => [.value operand, .pop 1, .acquire operand.span, .push 1, .release pool.lowest]
  | .not => [.value operand, .typed operand, .pop 1, .acquire operand.span, .release pool.lowest,
      .label, .label, .push 1]

def assignTasks (pool : RegisterPool) (target value : Expr) : Option ArithmeticOp → List Task
  | none => [.place target, .value value, .release pool.lowest]
  | some _ => [.place target, .value value, .pop 1, .acquire value.span,
      .acquire target.span, .push 1,
      .release pool.next.next.lowest, .release pool.next.lowest, .release pool.lowest]

def valueTasks (c : EmitContext) (s : EmitState) (e : Expr) : List Task :=
  let pool := s.registers
  let typed := checked (Typing.typeOf (c.at s.frame) e)
  match e with
  | .integer .. | .float .. => [.push 1]
  | .string span content =>
    match c.strings.label? content with
    | some _ => [.push 1]
    | none => [failing (.unknownIdentifier content) span]
  | .var span name => typed fun type =>
    [.find name span, .acquire span, .push (c.structs.words type), .release pool.lowest]
  | .call span callee args => typed fun _ =>
    checked (Typing.callTarget (c.at s.frame) callee) fun target =>
    callTasks c pool span target (receiverTasks pool callee) (args.map .value)
  | .binary _ op lhs rhs => typed fun _ => binaryTasks pool lhs rhs op
  | .unary _ op operand => typed fun _ => unaryTasks pool operand op
  | .assign _ op target value => typed fun _ => assignTasks pool target value op
  | .field span base name => typed fun _ => checked (Typing.typeOf (c.at s.frame) base) fun type =>
    checked (Typing.fieldOf c.structs type name) fun field =>
      [.value base, .pop (c.structs.words type), .acquire span, .push (c.structs.words field.type),
        .release pool.lowest]
  | .addressOf _ inner => typed fun _ => [.place inner, .push 1, .release pool.lowest]
  | .dereference _ inner => typed fun type =>
    [.value inner, .pop 1, .acquire inner.span, .push (c.structs.words type), .release pool.lowest]
  | .sizeOf span inner => typed fun _ => [.size span inner, .push 1]

def placeTasks (c : EmitContext) (s : EmitState) : Expr → List Task
  | .var span name => [.find name span, .acquire span]
  | .field span base name =>
    if base.addressable then checked (Typing.typeOf (c.at s.frame) base) fun type =>
      checked (Typing.fieldOf c.structs type name) fun _ => [.place base]
    else [failing .notAddressable span]
  | .dereference span inner => checked (Typing.typeOf (c.at s.frame) inner) fun
    | .reference _ => [.value inner, .pop 1, .acquire inner.span]
    | other => [failing (.derefNonReference (c.structs.text other)) span]
  | other => [failing .notAddressable other.span]

def acceptance (c : EmitContext) (type found : ValueType) (span : Span) : Typing.Check Unit :=
  if c.structs.accepts type found then .ok () else
    .error (.raise (Typing.mismatch c.structs type found) span)

def valueForTasks (c : EmitContext) (s : EmitState) (type : ValueType) (e : Expr) : List Task :=
  checked (Typing.typeOf (c.at s.frame) e) fun found =>
    [.check (acceptance c type found e.span), .value e]

def returnTasks (c : EmitContext) (type : ValueType) (valueSpan span : Span) : List Task :=
  match c.returns with
  | none => [.pop (c.structs.words type)]
  | some expected =>
    [.check (acceptance c expected type valueSpan), .copyResult (c.structs.words expected) span,
      .leaveFunction span, .pop (c.structs.words expected)]

def statementTasks (c : EmitContext) (s : EmitState) : Statement → List Task
  | .ret span none => returnTasks c .void span span
  | .ret span (some e) => checked (Typing.typeOf (c.at s.frame) e) fun type =>
    .value e :: returnTasks c type e.span span
  | .expression _ e => checked (Typing.typeOf (c.at s.frame) e) fun type =>
    [.value e, .pop (c.structs.words type)]
  | .declare _ written name init => checked (c.structs.resolveStored written) fun type =>
    init.elim [.push (c.structs.words type)] (valueForTasks c s type) ++ [.declare name type]
  | .block _ ss => .enter :: (ss.map .statement ++ [.leave])
  | .ifThen _ test yes => [.label, .condition test s.labels.fresh.1, .branch yes]
  | .ifThenElse _ test yes no =>
    [.label, .condition test s.labels.fresh.1, .branch yes, .label, .branch no]
  | .loop _ test repeated =>
    [.label, .label, .condition test s.labels.fresh.2.fresh.1, .branch repeated]

/-- The parts of a task that is run from `s`. A step is its own part. -/
def Task.parts (c : EmitContext) (s : EmitState) : Task → List Task
  | .value e => valueTasks c s e
  | .place e => placeTasks c s e
  | .condition e _ => checked (Typing.typeOf (c.at s.frame) e) fun type =>
    [.check (Typing.singleWord c.structs type e.span), .value e, .pop 1, .acquire e.span,
      .release s.registers.lowest]
  | .initialise name e =>
    match s.frame.lookup name with
    | some (type, .static _) =>
      valueForTasks c s type e ++ [.pop (c.structs.words type), .acquire e.span,
        .acquire e.span, .release s.registers.next.lowest, .release s.registers.lowest]
    | _ => [failing (.unknownIdentifier name) e.span]
  | .statement st => statementTasks c s st
  | .branch st =>
    match st with
    | .block .. => [.statement st]
    | _ => [.enter, .statement st, .leave]
  | step => [step]

def bodyTasks (p : Program) : List Task :=
  .fillStrings :: ((p.statics.flatMap fun d => d.init.elim [] fun e =>
    [.initialise d.name.text e]) ++
    p.body.map .statement)

def functionTasks (decl : FunctionDecl) : List Task :=
  .statement (.block decl.name.span decl.body) ::
    if Statement.anyReturns decl.body then [] else [.statement (.ret decl.name.span none)]

/-- From `s`, `x` runs as the tasks do: to the same state, or to the same fault in the same frame.
-/
structure Divides (c : EmitContext) (x : Emit α) (ks : List Task) (s : EmitState) : Prop where
  ok : ∀ a t, x s = .ok a t → runAll c ks s = .ok () t
  error : ∀ f t, x s = .error f t → ∃ u, runAll c ks s = .error f u ∧ u.frame = t.frame

/-- The task at the end of a path through the tasks and their parts, and the state in which it is
started. -/
def subrun? (c : EmitContext) : List Nat → List Task → EmitState → Option (Task × EmitState)
  | [], _, _ => none
  | i :: path, ks, s =>
    match ks[i]?, runAll c (ks.take i) s with
    | some k, .ok _ t => if path = [] then some (k, t) else subrun? c path (k.parts c t) t
    | _, _ => none

/-- `I` holds of each of the tasks where it is started. -/
def Along (c : EmitContext) (I : Task → EmitState → Prop) : List Task → EmitState → Prop
  | [], _ => True
  | k :: ks, s => I k s ∧ ∀ t, k.run c s = .ok () t → Along c I ks t

variable {c : EmitContext} {I : Task → EmitState → Prop} {s t : EmitState} {ks : List Task}

theorem Along.at_index (h : Along c I ks s) (hk : ks[i]? = some k)
    (run : runAll c (ks.take i) s = .ok () t) : I k t := by
  induction ks generalizing s i with
  | nil => cases hk
  | cons j ks ih =>
    cases i with
    | zero =>
      cases hk
      cases run
      exact h.1
    | succ i =>
      obtain ⟨_, u, hj, hrest⟩ := bind_ok.mp run
      exact ih (h.2 u hj) hk hrest

/-- What holds of the tasks and is handed down to their parts holds of every task inside of them. -/
theorem subrun?_keeps (first : Along c I ks s) (step : ∀ k s, I k s → Along c I (k.parts c s) s)
    (h : subrun? c path ks s = some (k, t)) : I k t := by
  induction path generalizing ks s with
  | nil => cases h
  | cons i path ih =>
    simp only [subrun?] at h
    split at h
    · next j _ u hj hu =>
      have hhere : I j u := first.at_index hj hu
      split at h
      · obtain ⟨rfl, rfl⟩ := Prod.mk.inj (Option.some.inj h)
        exact hhere
      · exact ih (step _ _ hhere) h
    · cases h

end Emit

end WordScript
