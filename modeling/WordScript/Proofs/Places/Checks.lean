import WordScript.Emit.Program
import WordScript.Proofs.Success

/-!
# Checks without places

Spans and positions in a tree serve messages only. What is declared and what types expressions have
is the same for a tree and for its `bare` form, which has none, and a check of one fails exactly if
that of the other does, for the same cause.
-/

namespace WordScript

/-! ### Trees without places -/

def Name.bare (n : Name) : Name := ⟨n.text, default, default⟩

def TypeName.bare (t : TypeName) : TypeName := ⟨t.name, t.references, default⟩

mutual

def Expr.bare : Expr → Expr
  | .integer _ value => .integer default value
  | .float _ bits => .float default bits
  | .string _ content => .string default content
  | .var _ name => .var default name
  | .call _ callee args => .call default callee.bare (Expr.allBare args)
  | .binary _ op lhs rhs => .binary default op lhs.bare rhs.bare
  | .unary _ op operand => .unary default op operand.bare
  | .assign _ op target value => .assign default op target.bare value.bare
  | .field _ base name => .field default base.bare name.bare
  | .addressOf _ inner => .addressOf default inner.bare
  | .dereference _ inner => .dereference default inner.bare
  | .sizeOf _ inner => .sizeOf default inner.bare

def Expr.allBare : List Expr → List Expr
  | [] => []
  | e :: rest => e.bare :: Expr.allBare rest

end

mutual

def Statement.bare : Statement → Statement
  | .ret _ value => .ret default (value.map Expr.bare)
  | .expression _ e => .expression default e.bare
  | .declare _ type name init => .declare default type.bare name.bare (init.map Expr.bare)
  | .block _ body => .block default (Statement.allBare body)
  | .ifThen _ condition yes => .ifThen default condition.bare yes.bare
  | .ifThenElse _ condition yes no => .ifThenElse default condition.bare yes.bare no.bare
  | .loop _ condition body => .loop default condition.bare body.bare

def Statement.allBare : List Statement → List Statement
  | [] => []
  | s :: rest => s.bare :: Statement.allBare rest

end

def FunctionDecl.bare (d : FunctionDecl) : FunctionDecl :=
  ⟨d.name.bare, d.returnType.bare, d.params.map fun p => (p.1.bare, p.2.bare),
    Statement.allBare d.body⟩

def StructDecl.bare (d : StructDecl) : StructDecl :=
  ⟨d.name.bare, d.fields.map fun f => (f.1.bare, f.2.bare), d.methods.map FunctionDecl.bare⟩

def StaticDecl.bare (d : StaticDecl) : StaticDecl :=
  ⟨d.type.bare, d.name.bare, d.init.map Expr.bare⟩

def Program.bare (p : Program) : Program :=
  ⟨p.structs.map StructDecl.bare, p.functions.map FunctionDecl.bare, p.statics.map StaticDecl.bare,
    Statement.allBare p.body⟩

theorem Expr.allBare_eq (es : List Expr) : allBare es = es.map bare := by
  induction es with
  | nil => rfl
  | cons e es ih => rw [allBare, ih, List.map_cons]

theorem Statement.allBare_eq (ss : List Statement) : allBare ss = ss.map bare := by
  induction ss with
  | nil => rfl
  | cons s ss ih => rw [allBare, ih, List.map_cons]

theorem Expr.length_allBare (es : List Expr) : (allBare es).length = es.length := by
  rw [allBare_eq, List.length_map]

theorem Expr.addressable_bare : (e : Expr) → e.bare.addressable = e.addressable
  | .field _ base _ => addressable_bare base
  | .integer .. | .float .. | .string .. | .var .. | .call .. | .binary .. | .unary .. | .assign ..
  | .addressOf .. | .dereference .. | .sizeOf .. => rfl

mutual

theorem Statement.alwaysReturns_bare : (s : Statement) → s.bare.alwaysReturns = s.alwaysReturns
  | .ret .. | .expression .. | .declare .. | .ifThen .. | .loop .. => rfl
  | .block _ body => anyReturns_bare body
  | .ifThenElse _ _ yes no => by
    rw [bare, alwaysReturns, alwaysReturns, alwaysReturns_bare yes, alwaysReturns_bare no]

theorem Statement.anyReturns_bare : (body : List Statement) →
    anyReturns (allBare body) = anyReturns body
  | [] => rfl
  | s :: rest => by rw [allBare, anyReturns, anyReturns, alwaysReturns_bare s, anyReturns_bare rest]

end

/-! ### Literals -/

mutual

theorem Expr.literals_bare : (e : Expr) → e.bare.literals = e.literals
  | .integer .. | .float .. | .string .. | .var .. => rfl
  | .call _ callee args => by
    rw [bare, literals, literals, literals_bare callee, allLiterals_bare args]
  | .binary _ _ lhs rhs => by rw [bare, literals, literals, literals_bare lhs, literals_bare rhs]
  | .assign _ _ target value => by
    rw [bare, literals, literals, literals_bare target, literals_bare value]
  | .field _ inner _ => literals_bare inner
  | .unary _ _ inner => literals_bare inner
  | .addressOf _ inner => literals_bare inner
  | .dereference _ inner => literals_bare inner
  | .sizeOf _ inner => literals_bare inner

theorem Expr.allLiterals_bare : (es : List Expr) → allLiterals (allBare es) = allLiterals es
  | [] => rfl
  | e :: rest => by rw [allBare, allLiterals, allLiterals, literals_bare e, allLiterals_bare rest]

end

mutual

theorem Statement.literals_bare : (s : Statement) → s.bare.literals = s.literals
  | .ret _ none => rfl
  | .declare _ _ _ none => rfl
  | .ret _ (some e) => e.literals_bare
  | .expression _ e => e.literals_bare
  | .declare _ _ _ (some e) => e.literals_bare
  | .block _ body => allLiterals_bare body
  | .ifThen _ condition yes => by
    rw [bare, literals, literals, condition.literals_bare, literals_bare yes]
  | .ifThenElse _ condition yes no => by
    rw [bare, literals, literals, condition.literals_bare, literals_bare yes, literals_bare no]
  | .loop _ condition body => by
    rw [bare, literals, literals, condition.literals_bare, literals_bare body]

theorem Statement.allLiterals_bare : (body : List Statement) →
    allLiterals (allBare body) = allLiterals body
  | [] => rfl
  | s :: rest => by rw [allBare, allLiterals, allLiterals, literals_bare s, allLiterals_bare rest]

end

theorem LiteralPool.collect_bare (p : Program) : collect p.bare = collect p := by
  have hinit : ∀ d : StaticDecl, d.bare.init.elim [] Expr.literals =
      d.init.elim [] Expr.literals := by
    intro d
    rw [StaticDecl.bare]
    cases d.init with
    | none => rfl
    | some e => exact e.literals_bare
  have hbody : ∀ f : FunctionDecl, Statement.allLiterals f.bare.body =
      Statement.allLiterals f.body :=
    fun f => Statement.allLiterals_bare f.body
  have hmethods : p.bare.structs.flatMap (·.methods) = (p.structs.flatMap (·.methods)).map
      FunctionDecl.bare := by
    rw [List.map_flatMap, Program.bare, List.flatMap_map]
    rfl
  have hliterals : p.bare.literals = p.literals := by
    rw [Program.literals, hmethods]
    simp only [Program.bare, List.flatMap_map, hinit, hbody, Statement.allLiterals_bare,
      Program.literals]
  rw [collect, hliterals, collect]

/-! ### Outcomes up to places -/

/-- Both succeed, with related results, or both fail for the same cause. -/
inductive Alike {κ α β : Type} (R : α → β → Prop) : Except (Fault κ) α → Except (Fault κ) β → Prop
  | ok (related : R a b) : Alike R (.ok a) (.ok b)
  | error (cause : e.cause = e'.cause) (contexts : e.contexts = e'.contexts) :
      Alike R (.error e) (.error e')

namespace Alike

variable {κ α β γ δ : Type} {R : α → β → Prop} {S : γ → δ → Prop}

theorem bind {x : Except (Fault κ) α} {y : Except (Fault κ) β} {f : α → Except (Fault κ) γ}
    {g : β → Except (Fault κ) δ} (h : Alike R x y) (hf : ∀ a b, R a b → Alike S (f a) (g b)) :
    Alike S (x >>= f) (y >>= g) := by
  cases h with
  | ok related => exact hf _ _ related
  | error cause contexts => exact .error cause contexts

theorem symm {x y : Except (Fault κ) α} (h : Alike Eq x y) : Alike Eq y x := by
  cases h with
  | ok related => exact .ok related.symm
  | error cause contexts => exact .error cause.symm contexts.symm

theorem trans {x y z : Except (Fault κ) α} (h : Alike Eq x y) (h' : Alike Eq y z) :
    Alike Eq x z := by
  cases h with
  | ok related =>
    cases h' with
    | ok related' => exact .ok (related.trans related')
  | error cause contexts =>
    cases h' with
    | error cause' contexts' => exact .error (cause.trans cause') (contexts.trans contexts')

end Alike

def Fault.bare (e : Fault κ) : Fault κ := ⟨e.cause, default, e.contexts⟩

/-- What is found, as `view` shows it, or the fault without its place. -/
def bared {κ α β : Type} (view : α → β) (x : Except (Fault κ) α) : Except (Fault κ) β :=
  (x.mapError Fault.bare).map view

theorem Alike.bared (x : Except (Fault κ) α) : Alike Eq x (bared id x) := by
  cases x with
  | ok a => exact .ok rfl
  | error e => exact .error rfl rfl

section
variable {κ α β γ δ : Type} {view : α → β} {view' : γ → δ}

@[simp] theorem bared_ok (a : α) : bared (κ := κ) view (.ok a) = .ok (view a) := rfl

@[simp] theorem bared_pure (a : α) : bared (κ := κ) view (pure a) = pure (view a) := rfl

@[simp] theorem bared_raise (cause : κ) (span : Span) :
    bared view (.error (.raise cause span)) = .error (.raise cause default) :=
  rfl

@[simp] theorem bared_throw (cause : κ) (span : Span) :
    bared view (throw (.raise cause span)) = throw (.raise cause default) := rfl

@[simp] theorem bared_bind (x : Except (Fault κ) α) (f : α → Except (Fault κ) γ) :
    bared view' (x >>= f) = bared id x >>= fun a => bared view' (f a) := by cases x <;> rfl

@[simp] theorem bared_map (f : α → γ) (x : Except (Fault κ) α) :
    bared id (f <$> x) = f <$> bared id x := by cases x <;> rfl

/-- What follows depends on no more than `view` shows. -/
theorem bared_then {x : Except (Fault κ) α} {y : Except (Fault κ) β} {f : α → Except (Fault κ) γ}
    {g : β → Except (Fault κ) δ}
    (hx : bared v x = y) (hf : ∀ a, bared v' (f a) = g (v a)) : bared v' (x >>= f) = y >>= g := by
  subst hx
  cases x with
  | ok a => exact hf a
  | error e => rfl

@[simp] theorem bared_ite {p : Prop} [Decidable p] (x y : Except (Fault κ) α) :
    bared view (if p then x else y) = if p then bared view x else bared view y :=
  apply_ite (bared view) p x y

theorem bared_foldlM {f : β → α → Except (Fault κ) β} {g : α → α}
    (h : ∀ b a, bared id (f b a) = f b (g a)) (l : List α)
    (b : β) : bared id (l.foldlM f b) = (l.map g).foldlM f b := by
  induction l generalizing b with
  | nil => rfl
  | cons a l ih => simp only [List.map_cons, List.foldlM_cons, bared_bind, h, ih]

end

/-! ### Declarations -/

namespace Structs

@[simp] theorem bared_resolve (s : Structs) (t : TypeName) :
    bared id ((s.resolve t).mapError (.raise · t.span)) =
      (s.resolve t.bare).mapError (.raise · t.bare.span) := by
  rw [show s.resolve t.bare = s.resolve t from rfl]
  cases s.resolve t <;> rfl

@[simp] theorem bared_resolveStored (s : Structs) (t : TypeName) :
    bared id (s.resolveStored t) = s.resolveStored t.bare := by
  simp only [resolveStored, bared_bind, bared_resolve, bared_ite, bared_throw, bared_pure]
  rfl

theorem bared_declareFields (s : Structs) (fields : List (TypeName × Name))
    (before : List (String × ValueType)) : bared id (s.declareFields self name before fields) =
      s.declareFields self name before (fields.map fun f => (f.1.bare, f.2.bare)) := by
  induction fields generalizing before with
  | nil => rfl
  | cons f fields ih =>
    simp only [List.map_cons, declareFields, bared_bind, bared_resolve, bared_ite, bared_throw, ih]
    rfl

theorem bared_declare (s : Structs) (d : StructDecl) :
    bared id (s.declare d) = s.declare d.bare := by
  simp only [declare, bared_bind, bared_ite, bared_throw, bared_pure, bared_declareFields]
  rfl

theorem bared_ofDecls (decls : List StructDecl) :
    bared id (ofDecls decls) = ofDecls (decls.map StructDecl.bare) :=
  bared_foldlM bared_declare _ _

end Structs

namespace Functions

theorem bared_declareParams (structs : Structs) (params : List (TypeName × Name))
    (before : List (String × ValueType)) : bared id (declareParams structs isMethod before params) =
      declareParams structs isMethod before (params.map fun p => (p.1.bare, p.2.bare)) := by
  induction params generalizing before with
  | nil => rfl
  | cons p params ih =>
    simp only [List.map_cons, declareParams, bared_bind, bared_ite, bared_throw,
      Structs.bared_resolveStored, ih]
    rfl

theorem bared_declare (structs : Structs) (f : Functions) (name : FunctionName)
    (receiver : Option ValueType) (d : FunctionDecl) :
    bared id (f.declare structs name receiver d) = f.declare structs name receiver d.bare := by
  simp only [declare, bared_bind, bared_ite, bared_throw, bared_pure, Structs.bared_resolve,
    bared_declareParams]
  rfl

theorem bared_declareMethods (structs : Structs) (f : Functions) (d : StructDecl) :
    bared id (declareMethods structs f d) = declareMethods structs f d.bare := by
  simp only [declareMethods, show d.bare.name.text = d.name.text from rfl]
  cases structs.find? d.name.text with
  | none => rfl
  | some id => exact bared_foldlM (fun f m => bared_declare structs f _ _ m) _ f

theorem bared_ofProgram (structs : Structs) (p : Program) :
    bared id (ofProgram structs p) = ofProgram structs p.bare :=
  bared_then (bared_foldlM (fun f d => bared_declare structs f _ _ d) _ _) fun f =>
    bared_foldlM (bared_declareMethods structs) _ f

end Functions

theorem StaticVariable.bared_declare (structs : Structs) (decls : List StaticDecl)
    (before : List StaticVariable) :
    bared id (declare structs before decls) = declare structs before
      (decls.map StaticDecl.bare) := by
  induction decls generalizing before with
  | nil => rfl
  | cons d decls ih =>
    simp only [List.map_cons, declare, bared_bind, bared_ite, bared_throw,
      Structs.bared_resolveStored, ih]
    rfl

/-! ### Types of expressions -/

def CallTarget.bare (t : CallTarget) : CallTarget :=
  ⟨t.function, t.signature, t.receiver.map Expr.bare⟩

@[simp] theorem Expr.span_bare (e : Expr) : e.bare.span = default := by cases e <;> rfl

namespace Typing

variable {structs : Structs} {span span' : Span}

@[simp] theorem bared_fail {view : α → β} : bared view (fail cause span) = fail cause default := rfl

@[simp] theorem bared_singleWord :
    bared id (singleWord structs type span) = singleWord structs type default := by
  simp [singleWord]

@[simp] theorem bared_arithmetic :
    bared id (arithmetic structs op lhs rhs span) = arithmetic structs op lhs rhs default := by
  simp [arithmetic]

theorem bared_binary :
    bared id (binary structs op lhs rhs span) = binary structs op lhs rhs default := by
  cases op <;> simp [binary]

theorem bared_unary :
    bared id (unary structs op type span span') = unary structs op type default default := by
  cases op <;> simp [unary]

@[simp] theorem bared_fieldOf (name : Name) :
    bared id (fieldOf structs base name) = fieldOf structs base name.bare := by
  cases base with
  | struct id =>
    simp only [fieldOf, Name.bare]
    cases (structs.get? id).bind (·.field? name.text) <;> rfl
  | void | int | float | ptr | reference => rfl

theorem namedSize?_bare (span : Span) (e : Expr) :
    namedSize? structs (.sizeOf span' e.bare) = namedSize? structs (.sizeOf span e) := by
  cases e <;> rfl

theorem bared_lookUp (receiver : Option Expr) :
    bared CallTarget.bare (lookUp c function receiver span) = lookUp c function
      (receiver.map Expr.bare) default := by
  simp only [lookUp]
  cases c.functions.get? function <;> rfl

mutual

theorem bared_typeOf (c : TypeContext) : (e : Expr) → bared id (typeOf c e) = typeOf c e.bare
  | .integer .. | .float .. | .string .. => rfl
  | .var _ name => by
    rw [Expr.bare, typeOf, typeOf]
    cases c.frame.lookup name <;> rfl
  | .call span callee args => by
    rw [Expr.bare, typeOf, typeOf]
    refine bared_then (bared_callTarget c callee) fun target => ?_
    obtain ⟨function, signature, receiver⟩ := target
    cases receiver <;> simp [CallTarget.bare, Expr.addressable_bare, Expr.length_allBare,
      bared_checkArgs c args]
  | .binary _ op lhs rhs => by
    simp [Expr.bare, typeOf, bared_typeOf c lhs, bared_typeOf c rhs, bared_binary]
  | .unary _ op operand => by simp [Expr.bare, typeOf, bared_typeOf c operand, bared_unary]
  | .assign _ op target value => by
    cases op <;> simp [Expr.bare, typeOf, target.addressable_bare, bared_typeOf c target,
      bared_typeOf c value]
  | .field _ base name => by simp [Expr.bare, typeOf, bared_typeOf c base]
  | .addressOf _ inner => by simp [Expr.bare, typeOf, inner.addressable_bare, bared_typeOf c inner]
  | .dereference _ inner => by
    rw [Expr.bare, typeOf, typeOf]
    refine bared_then (bared_typeOf c inner) fun type => ?_
    cases type <;> rfl
  | .sizeOf span inner => by
    simp [Expr.bare, typeOf, namedSize?_bare span inner, bared_typeOf c inner]

theorem bared_callTarget (c : TypeContext) :
    (e : Expr) → bared CallTarget.bare (callTarget c e) = callTarget c e.bare
  | .var _ name => bared_lookUp none
  | .field _ base name => by
    rw [Expr.bare, callTarget, callTarget]
    refine bared_then (bared_typeOf c base) fun type => ?_
    cases type with
    | struct id => exact bared_lookUp (some base)
    | void | int | float | ptr | reference => rfl
  | .integer .. | .float .. | .string .. | .call .. | .binary .. | .unary .. | .assign ..
  | .addressOf .. | .dereference .. | .sizeOf .. => rfl

theorem bared_checkArgs (c : TypeContext) :
    (args : List Expr) → (params : List (String × ValueType)) →
    bared id (checkArgs c args params) = checkArgs c (Expr.allBare args) params
  | [], _ => rfl
  | _ :: _, [] => rfl
  | arg :: args, (_, expected) :: params => by
    simp [Expr.allBare, checkArgs, bared_typeOf c arg, bared_checkArgs c args params]

end

end Typing

end WordScript
