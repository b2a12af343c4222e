import WordScript.Proofs.Places.Checks

/-!
# Code without places

The generator uses spans for faults only: what it does for the bare form of a tree is what it does
for the tree, but for the places of faults (`bared_expr`, `bared_statement`). So both have the same
code, or fail for the same cause.
-/

namespace WordScript

namespace Emit

variable {α β : Type} {c : EmitContext}

def bared (x : Emit α) : Emit α := fun s => match x s with
  | .ok a t => .ok a t
  | .error e t => .error e.bare t

@[simp] theorem bared_pure (a : α) : bared (pure a) = pure a := rfl

@[simp] theorem bared_bind (x : Emit α) (f : α → Emit β) :
    bared (x >>= f) = bared x >>= fun a => bared (f a) := by
  funext s
  simp only [bared, bind, EStateM.bind]
  cases x s <;> rfl

theorem bared_then {x y : Emit α} {f g : α → Emit β} (hx : bared x = y)
    (hf : ∀ a, bared (f a) = g a) : bared (x >>= f) = y >>= g := by
  rw [bared_bind, hx, funext hf]

@[simp] theorem bared_map (g : α → β) (x : Emit α) : bared (g <$> x) = g <$> bared x :=
  bared_bind x _

@[simp] theorem bared_ite {p : Prop} [Decidable p] (x y : Emit α) :
    bared (if p then x else y) = if p then bared x else bared y := apply_ite bared p x y

@[simp] theorem bared_fault (cause : TypeError) (span : Span) :
    bared (fault cause span : Emit α) = fault cause default := rfl

@[simp] theorem bared_get : bared get = get := rfl

@[simp] theorem bared_modify (f : EmitState → EmitState) : bared (modify f) = modify f := rfl

@[simp] theorem bared_modifyFrame (f : Frame → Frame) : bared (modifyFrame f) = modifyFrame f := rfl

@[simp] theorem bared_freshLabel : bared freshLabel = freshLabel := rfl

@[simp] theorem bared_ofCheck (x : Typing.Check α) :
    bared (ofCheck x) = ofCheck (WordScript.bared id x) := by cases x <;> rfl

@[simp] theorem bared_holding (r : Register) (x : Emit α) :
    bared (holding r x) = holding r (bared x) := by
  funext s
  simp only [bared, holding]
  cases x s <;> rfl

@[simp] theorem bared_acquire (span : Span) : bared (acquire span) = acquire default := by
  refine bared_then bared_get fun s => ?_
  cases s.registers.acquire <;> rfl

@[simp] theorem bared_withRegister (span : Span) (f : Register → Emit α) :
    bared (withRegister span f) = withRegister default fun r => bared (f r) := by
  simp [withRegister]

@[simp] theorem bared_pushWords : bared (pushWords n) = pushWords n := by simp [pushWords]

@[simp] theorem bared_popWords : bared (popWords n) = popWords n := by simp [popWords]

@[simp] theorem bared_pushValue : bared (pushValue v) = pushValue v := by simp [pushValue]

@[simp] theorem bared_pushCopy : bared (pushCopy r n) = pushCopy r n := by simp [pushCopy]

@[simp] theorem bared_pushRelation : bared (pushRelation r) = pushRelation r := by
  simp [pushRelation]

@[simp] theorem bared_popHeld (span : Span) : bared (popHeld span) = popHeld default := by
  simp [popHeld]

@[simp] theorem bared_withPopped (span : Span) (f : Register → Emit Assembly) :
    bared (withPopped span f) = withPopped default fun r => bared (f r) := by simp [withPopped]

@[simp] theorem bared_withOperands (left right : Span) (f : Register → Register → Emit Assembly) :
    bared (withOperands left right f) = withOperands default default fun l r => bared (f l r) := by
  simp [withOperands]

@[simp] theorem bared_typeHere (e : Expr) : bared (typeHere c e) = typeHere c e.bare := by
  simp [typeHere, typing, Typing.bared_typeOf]

@[simp] theorem bared_saveAll (saved : List Register) : bared (saveAll saved) = saveAll saved := by
  induction saved <;> simp_all [saveAll]

@[simp] theorem bared_restoreAll (saved : List Register) :
    bared (restoreAll saved) = restoreAll saved := by
  induction saved <;> simp_all [restoreAll]

@[simp] theorem bared_popEach (sizes : List Nat) : bared (popEach sizes) = popEach sizes := by
  induction sizes <;> simp_all [popEach]

theorem bared_pushReceiver (x : Emit (Option (Assembly × Register))) :
    bared (pushReceiver x) = pushReceiver (bared x) := by
  refine bared_then rfl fun found => ?_
  cases found <;> simp

@[simp] theorem bared_reserve : bared (reserve words type) = reserve words type := by simp [reserve]

@[simp] theorem bared_slideResult (span : Span) :
    bared (slideResult span saved words) = slideResult default saved words := by
  simp [slideResult]

theorem bared_call (span : Span) (target : CallTarget)
    (receiver : Emit (Option (Assembly × Register))) (args : Emit Assembly) :
    bared (call c span target receiver args) = call c default target (bared receiver)
      (bared args) := by
  simp [call, bared_pushReceiver]

@[simp] theorem bared_operandTest (operand : Expr) (code : Emit Assembly) (deciding : Relation)
    (decided : Label) :
    bared (operandTest c operand code deciding decided) = operandTest c operand.bare (bared code)
      deciding decided := by
  simp [operandTest]

theorem bared_unary (op : UnaryOp) (operand : Expr) (code : Emit Assembly) :
    bared (unary c op type operand code) = unary c op type operand.bare (bared code) := by
  cases op <;> simp [unary]

theorem bared_binary (op : BinaryOp) (lhs rhs : Expr) (left right : Emit Assembly) :
    bared (binary c op type lhs rhs left right) = binary c op type lhs.bare rhs.bare (bared left)
      (bared right) := by
  cases op <;> simp [binary, logic]

theorem bared_assign (op : Option ArithmeticOp) (target value : Expr)
    (place : Emit (Assembly × Register)) (code : Emit Assembly) :
    bared (assign c op type target value place code) =
      assign c op type target.bare value.bare (bared place) (bared code) := by
  cases op <;> simp [assign, update]

@[simp] theorem bared_findVariable (name : String) (span : Span) :
    bared (findVariable name span) = findVariable name default := by
  refine bared_then bared_get fun s => ?_
  cases s.frame.lookup name <;> rfl

@[simp] theorem bared_selectField (span : Span) :
    bared (selectField c span words field) = selectField c default words field := by
  simp [selectField]

theorem bared_sizeWords (span : Span) (inner : Expr) :
    bared (sizeWords c span inner) = sizeWords c default inner.bare := by
  simp only [sizeWords, Typing.namedSize?_bare span inner]
  cases Typing.namedSize? c.structs (.sizeOf span inner) <;> simp

mutual

theorem bared_expr (c : EmitContext) : (e : Expr) → bared (expr c e) = expr c e.bare
  | .integer .. | .float .. => by simp [Expr.bare, expr]
  | .string span content => by
    simp only [Expr.bare, expr]
    cases c.strings.label? content <;> simp
  | .var span name => by simp [expr, Expr.bare]
  | .call span callee args => by
    rw [Expr.bare, expr, expr]
    refine bared_then (bared_typeHere _) fun _ => bared_then rfl fun t => ?_
    rw [bared_bind, bared_ofCheck, ← Typing.bared_callTarget]
    cases Typing.callTarget t callee with
    | error e => rfl
    | ok target =>
      rw [← bared_receiver c callee, ← bared_arguments c args]
      exact bared_call span target _ _
  | .binary span op lhs rhs => by
    simp [expr, Expr.bare, bared_binary, bared_expr c lhs, bared_expr c rhs]
  | .unary span op operand => by simp [expr, Expr.bare, bared_unary, bared_expr c operand]
  | .assign span op target value => by
    simp [expr, Expr.bare, bared_assign, bared_place c target, bared_expr c value]
  | .field span base name => by simp [expr, Expr.bare, Typing.bared_fieldOf, bared_expr c base]
  | .addressOf span inner => by simp [expr, Expr.bare, bared_place c inner]
  | .dereference span inner => by simp [expr, Expr.bare, bared_expr c inner]
  | .sizeOf span inner => by simp [expr, Expr.bare, bared_sizeWords]

theorem bared_place (c : EmitContext) : (e : Expr) → bared (place c e) = place c e.bare
  | .var span name => by simp [place, Expr.bare]
  | .field span base name => by simp [place, Expr.bare, Expr.addressable_bare, Typing.bared_fieldOf,
      bared_place c base, Name.bare]
  | .dereference span inner => by
    rw [Expr.bare, place, place]
    refine bared_then (bared_typeHere inner) fun type => ?_
    cases type <;> simp [bared_expr c inner]
  | .integer .. | .float .. | .string .. | .call .. | .binary .. | .unary .. | .assign ..
  | .addressOf .. | .sizeOf .. => by
    simp [place, Expr.bare, Expr.span]

theorem bared_receiver (c : EmitContext) : (e : Expr) → bared (receiver c e) = receiver c e.bare
  | .field _ base _ => by simp [receiver, Expr.bare, bared_place c base]
  | .var .. | .dereference .. | .integer .. | .float .. | .string .. | .call .. | .binary ..
  | .unary .. | .assign .. | .addressOf .. | .sizeOf .. => by simp [receiver, Expr.bare]

theorem bared_arguments (c : EmitContext) :
    (es : List Expr) → bared (arguments c es) = arguments c (Expr.allBare es)
  | [] => rfl
  | e :: rest => by simp [Expr.allBare, arguments, bared_expr c e, bared_arguments c rest]

end

@[simp] theorem bared_inScope (x : Emit Assembly) :
    bared (inScope comment x) = inScope comment (bared x) := by
  simp [inScope]

@[simp] theorem bared_asBody (s : Statement) (x : Emit Assembly) :
    bared (asBody s x) = asBody s.bare (bared x) := by
  cases s <;> simp [asBody, Statement.bare]

@[simp] theorem bared_condition (e : Expr) :
    bared (condition c e otherwise) = condition c e.bare otherwise := by
  simp [condition, bared_expr]

@[simp] theorem bared_exprFor (e : Expr) : bared (exprFor c type e) = exprFor c type e.bare := by
  simp [exprFor, bared_expr]

@[simp] theorem bared_declareTop (name : Name) :
    bared (declareTop structs name type) = declareTop structs name.bare type := by
  refine bared_then bared_get fun s => ?_
  rw [show name.bare.text = name.text from rfl]
  cases s.frame.declare structs name.text type <;> simp [Name.bare]

theorem bared_declaration (type : TypeName) (name : Name) (init : Option Expr) :
    bared (declaration c type name init) = declaration c type.bare name.bare
      (init.map Expr.bare) := by
  cases init <;> refine bared_then (by simp) fun resolved => bared_then (by simp [pushZeros])
    fun code => ?_
  all_goals simp

theorem bared_copyResult (span : Span) :
    bared (copyResult words span) = copyResult words default := by
  rw [copyResult, bared_ite, bared_pure]
  refine congrArg (ite _ _) (bared_then bared_get fun s => ?_)
  cases s.frame.returnSlotOffset? <;> simp

theorem bared_leaveFunction (span : Span) : bared (leaveFunction span) = leaveFunction default := by
  simp [leaveFunction]

theorem bared_returnStatement (value : Option Expr) (span : Span) :
    bared (returnStatement c value span) = returnStatement c (value.map Expr.bare) default := by
  simp only [returnStatement]
  cases value <;> cases c.returns <;> simp [bared_expr, bared_copyResult, bared_leaveFunction]

mutual

theorem bared_statement (c : EmitContext) :
    (s : Statement) → bared (statement c s) = statement c s.bare
  | .ret _ value => by rw [Statement.bare, statement, statement, bared_returnStatement]
  | .expression _ e => by simp [Statement.bare, statement, bared_expr]
  | .declare _ type name init => by rw [Statement.bare, statement, statement, bared_declaration]
  | .block _ body => by simp [Statement.bare, statement, bared_statements c body]
  | .ifThen _ test yes => by simp [Statement.bare, statement, bared_statement c yes]
  | .ifThenElse _ test yes no => by
    simp [Statement.bare, statement, bared_statement c yes, bared_statement c no]
  | .loop _ test body => by simp [Statement.bare, statement, bared_statement c body]

theorem bared_statements (c : EmitContext) : (ss : List Statement) →
    bared (statements c ss) = statements c (Statement.allBare ss)
  | [] => rfl
  | s :: rest => by
    simp [Statement.allBare, statements, bared_statement c s, bared_statements c rest]

end

/-! ### Programs -/

theorem bared_initialise (name : String) (e : Expr) :
    bared (initialise c name e) = initialise c name e.bare := by
  refine bared_then bared_get fun s => ?_
  rcases s.frame.lookup name with _ | ⟨type, _ | _⟩ <;> simp

theorem bared_initialiseAll (ds : List StaticDecl) :
    bared (initialiseAll c ds) = initialiseAll c (ds.map StaticDecl.bare) := by
  induction ds with
  | nil => rfl
  | cons d ds ih =>
    obtain ⟨type, name, init⟩ := d
    cases init <;> simp [initialiseAll, ih, StaticDecl.bare, bared_initialise, Name.bare]

theorem bared_fillStrings : bared (fillStrings pool) = fillStrings pool := by
  simp only [fillStrings, bared_ite, bared_pure, bared_withRegister]
  rfl

theorem bared_body (p : Program) : bared (body c statics p) = body c statics p.bare := by
  simp [body, bared_fillStrings, enterFrame, bared_initialiseAll, bared_statements, Program.bare]

theorem bared_function (name : FunctionName) (d : FunctionDecl) :
    bared (function c statics name d) = function c statics name d.bare := by
  have hreturns : Statement.anyReturns d.bare.body = Statement.anyReturns d.body :=
    Statement.anyReturns_bare d.body
  simp only [function, hreturns]
  cases c.functions.get? name with
  | none => simp [FunctionDecl.bare, Name.bare]
  | some signature =>
    simp [FunctionDecl.bare, Name.bare, Statement.bare, bared_statement,
      bared_returnStatement, enterFrame]

theorem bared_functions (ds : List (FunctionName × FunctionDecl)) :
    bared (functions c statics ds) = functions c statics (ds.map fun d => (d.1, d.2.bare)) := by
  induction ds with
  | nil => rfl
  | cons d ds ih => simp [functions, ih, bared_function]

end Emit

theorem Program.definitions_bare (p : Program) : p.bare.definitions = p.definitions.map fun d =>
    (d.1, d.2.bare) := by
  simp only [definitions, bare, StructDecl.bare, List.map_append, List.map_map, List.flatMap_map,
    List.map_flatMap]
  rfl

open Emit in
/-- A program and its bare form compile to the same assembly, or fail for the same cause. -/
theorem Assembly.ofProgram_alike (p : Program) : Alike Eq (ofProgram p) (ofProgram p.bare) := by
  have hbare : bared id (ofProgram p) = ofProgram p.bare := by
    refine bared_then (Structs.bared_ofDecls p.structs) fun structs =>
      bared_then (Functions.bared_ofProgram structs p)
      fun functions => bared_then (StaticVariable.bared_declare structs p.statics []) fun statics =>
        ?_
    have hcode : Emit.bared (do
        let body ← body ⟨structs, functions, .collect p, none⟩ statics p
        return opening structs (.collect p) statics ++ body ++
          (← Emit.functions ⟨structs, functions, .collect p, none⟩ statics p.definitions)) = (do
        let body ← body ⟨structs, functions, .collect p.bare, none⟩ statics p.bare
        return opening structs (.collect p.bare) statics ++ body ++
          (← Emit.functions ⟨structs, functions, .collect p.bare, none⟩ statics
            p.bare.definitions)) := by
      simp [bared_body, bared_functions, LiteralPool.collect_bare, Program.definitions_bare]
    simp only [id, EStateM.run, ← hcode, Emit.bared]
    split <;> next h => rw [h]; rfl
  exact hbare ▸ .bared _

end WordScript
