import Mathlib.Data.List.Basic
import WordScript.Proofs.Assembles
import WordScript.Proofs.Emit.Agreement
import WordScript.Proofs.Positions.Trees

/-!
# Faults of checks

Which faults typing can end with. Only some causes concern a name, and for each of these
`Program.Accounts` says what in the program is to blame: a variable that is no static, a call of
something that is not defined, or a definition. All faults are at spans of what is typed, and
registers are not to blame.
-/

namespace WordScript

/-! ### Failing only for some reasons -/

def FailsAs (P : ε → Prop) (x : Except ε α) : Prop := ∀ e, x = .error e → P e

namespace FailsAs

variable {P : ε → Prop}

theorem ok : FailsAs P (.ok a : Except ε α) := fun _ h => by cases h

theorem pure : FailsAs P (Pure.pure a : Except ε α) := ok

theorem error (h : P e) : FailsAs P (.error e : Except ε α) := fun _ he => by
  cases he
  exact h

theorem bind {x : Except ε α} {f : α → Except ε β} (hx : FailsAs P x)
    (hf : ∀ a, x = .ok a → FailsAs P (f a)) : FailsAs P (x >>= f) := by
  cases x with
  | ok a => exact hf a rfl
  | error e => exact error (hx e rfl)

theorem ite {x y : Except ε α} {b : Prop} [Decidable b] (hx : b → FailsAs P x)
    (hy : ¬b → FailsAs P y) : FailsAs P (if b then x else y) := by
  split
  · next h => exact hx h
  · next h => exact hy h

theorem mono {x : Except ε α} {Q : ε → Prop} (hx : FailsAs P x) (h : ∀ e, P e → Q e) :
    FailsAs Q x := fun e he => h e (hx e he)

theorem map {x : Except ε α} {g : α → β} (hx : FailsAs P x) :
    FailsAs P (x >>= fun a => Pure.pure (g a)) :=
  hx.bind fun _ _ => pure

theorem mapError {x : Except ε α} {Q : ε' → Prop} {f : ε → ε'} (hx : FailsAs P x)
    (h : ∀ e, P e → Q (f e)) : FailsAs Q (x.mapError f) := by
  cases x with
  | ok a => exact ok
  | error e => exact error (h e (hx e rfl))

theorem refuse {x : Except ε α} {b : Prop} [Decidable b] {f : PUnit → Except ε α} (he : P e)
    (hx : FailsAs P x) :
    FailsAs P (if b then throw e >>= f else x) := ite (fun _ => error he) fun _ => hx

theorem foldlM {f : β → α → Except ε β} {l : List α} (h : ∀ a ∈ l, ∀ b, FailsAs P (f b a))
    (b : β) : FailsAs P (l.foldlM f b) := by
  induction l generalizing b with
  | nil => exact pure
  | cons a l ih =>
    rw [List.foldlM_cons]
    exact (h a (by simp) b).bind fun b' _ => ih (fun a ha => h a (by simp [ha])) b'

end FailsAs

/-- Whether the cause is that something has no meaning under its name, or does not do what its name
promises. -/
def TypeError.concernsName : TypeError → Bool
  | unknownIdentifier _ | unknownType _ | unresolvedFunction _ | missingReturn _ => true
  | _ => false

def TypeError.lacksRegisters : TypeError → Bool
  | registersExhausted => true
  | _ => false

/-- The fault is at a span as `P` says, and something other than a lack of registers is to blame. -/
def Fault.Due (P : Span → Prop) (f : Fault TypeError) : Prop :=
  P f.span ∧ f.cause.lacksRegisters = false

def Fault.PlainAt (B : Fault TypeError → Prop) (span : Span) : Prop :=
  ∀ cause : TypeError, cause.concernsName = false → cause.lacksRegisters = false →
    B (.raise cause span)

/-- What a fault can be put down to, if it concerns a name. No fault is put down to the name of a
type. -/
inductive Program.Accounts (p : Program) : Fault TypeError → Prop
  | var (occurs : .var span name ∈ p.parts) (unlike : ∀ d ∈ p.statics, d.name.text ≠ name) :
      Accounts p (.raise (.unknownIdentifier name) span)
  | call (occurs : .call span callee args ∈ p.parts)
      (undefined : ∀ d ∈ p.definitions, d.1.text ≠ text) :
      Accounts p (.raise (.unresolvedFunction text) callee.span)
  | definition (defined : d ∈ p.definitions) :
      Accounts p (.raise (.missingReturn d.1.text) d.2.name.span)
  | other (plain : f.cause.concernsName = false) : Accounts p f

namespace Program.Accounts

variable {p : Program} {f : Fault TypeError}

theorem plainAt : Fault.PlainAt p.Accounts span := fun _ plain _ => .other plain

theorem unknownType (h : p.Accounts f) : f.cause ≠ .unknownType name := by
  intro hcause
  cases h with
  | other plain =>
    rw [hcause] at plain
    cases plain
  | var | call | definition => cases hcause

theorem unknownIdentifier (h : p.Accounts f) (hcause : f.cause = .unknownIdentifier name) :
    .var f.span name ∈ p.parts ∧ ∀ d ∈ p.statics, d.name.text ≠ name := by
  cases h with
  | other plain =>
    rw [hcause] at plain
    cases plain
  | var occurs unlike =>
    cases hcause
    exact ⟨occurs, unlike⟩
  | call | definition => cases hcause

theorem unresolvedFunction (h : p.Accounts f) (hcause : f.cause = .unresolvedFunction name) :
    (∀ d ∈ p.definitions, d.1.text ≠ name) ∧ ∃ span callee args, .call span callee args ∈ p.parts ∧
    callee.span = f.span := by
  cases h with
  | other plain =>
    rw [hcause] at plain
    cases plain
  | call occurs undefined =>
    cases hcause
    exact ⟨undefined, _, _, _, occurs, rfl⟩
  | var | definition => cases hcause

theorem missingReturn (h : p.Accounts f) (hcause : f.cause = .missingReturn name) :
    ∃ d ∈ p.definitions, d.1.text = name ∧ d.2.name.span = f.span := by
  cases h with
  | other plain =>
    rw [hcause] at plain
    cases plain
  | definition defined =>
    cases hcause
    exact ⟨_, defined, rfl, rfl⟩
  | var | call => cases hcause

end Program.Accounts

structure Program.Spelled (p : Program) : Prop where
  wellNamed : p.WellNamed
  vars : .var span name ∈ p.parts → IsName name

/-- All that a program defines can be called, and all its statics can be seen. -/
structure TypeContext.Covers (c : TypeContext) (p : Program) : Prop where
  definitions : ∀ d ∈ p.definitions, (c.functions.get? d.1).isSome = true
  statics : ∀ d ∈ p.statics, (c.frame.lookup d.name.text).isSome = true

/-! ### Names of functions -/

namespace FunctionName

theorem toList_method (owner name : String) :
    (method owner name).text.toList = owner.toList ++ '.' :: name.toList := by
  simp [text, toString]

/-- The text of a proper name stands for no method but its own. -/
theorem eq_method_of_text {f : FunctionName} (hf : f.Proper)
    (h : f.text = (method owner name).text) : f = .method owner name := by
  have hlist := congrArg String.toList h
  rw [toList_method] at hlist
  cases f with
  | free a => exact absurd (hlist ▸ List.mem_append_right _
      List.mem_cons_self) (IsName.dot_notMem hf)
  | method owner' a =>
    rw [toList_method] at hlist
    have hsplit := (List.append_cons_inj_of_notMem hf.1.dot_notMem hf.2.dot_notMem).mp hlist
    rw [String.toList_inj.mp hsplit.1, String.toList_inj.mp hsplit.2.2]

theorem eq_free_of_text {f : FunctionName} (hname : '.' ∉ name.toList)
    (h : f.text = (free name).text) : f = .free name := by
  cases f with
  | free a => exact congrArg free h
  | method owner a =>
    have hlist := congrArg String.toList h
    rw [toList_method] at hlist
    exact absurd (hlist ▸ List.mem_append_right _ List.mem_cons_self) hname

theorem Proper.text_ne_empty {f : FunctionName} (hf : f.Proper) : f.text ≠ "" := by
  cases f with
  | free name => exact IsName.ne_empty hf
  | method owner name =>
    intro h
    have hlist := congrArg String.toList h
    simp [toList_method] at hlist

theorem Proper.text_ne {f : FunctionName} (hf : f.Proper) : f.text ≠ "<expression>" := by
  intro h
  rw [eq_free_of_text (by decide) h] at hf
  have hname : IsName "<expression>" := hf
  exact absurd (hname.isNameChar (c := '<') (by decide)) (by decide)

end FunctionName

/-! ### Typing -/

theorem Expr.mem_parts_self (e : Expr) : e ∈ e.parts := by cases e <;> simp [parts]

namespace Typing

variable {c : TypeContext} {P : Span → Prop} {B : Fault TypeError → Prop}

theorem singleWord_failsAs (h : Fault.PlainAt B span) : FailsAs B (singleWord structs type span) :=
  .ite (fun _ => .ok) fun _ => .error (h _ rfl rfl)

theorem arithmetic_failsAs (h : Fault.PlainAt B span) :
    FailsAs B (arithmetic structs op lhs rhs span) :=
  .ite (fun _ => .ok) fun _ => .ite (fun _ => .error (h _ rfl rfl)) fun _ => .error (h _ rfl rfl)

theorem binary_failsAs (h : Fault.PlainAt B span) : FailsAs B (binary structs op lhs rhs span) := by
  cases op with
  | arithmetic op => exact arithmetic_failsAs h
  | relation r => exact .ite (fun _ => .ok) fun _ => .error (h _ rfl rfl)
  | logic op => exact .ok

theorem unary_failsAs (hoperand : Fault.PlainAt B operandSpan) (h : Fault.PlainAt B span) :
    FailsAs B (unary structs op type operandSpan span) := by
  cases op with
  | negate => exact .ite (fun _ => .ok) fun _ => .error (h _ rfl rfl)
  | not => exact (singleWord_failsAs hoperand).map

theorem fieldOf_failsAs (h : Fault.PlainAt B name.span) :
    FailsAs B (fieldOf structs whole name) := by
  cases whole with
  | struct id =>
    simp only [fieldOf]
    split
    · exact .ok
    · exact .error (h _ rfl rfl)
  | int | float | ptr | void | reference => exact .error (h _ rfl rfl)

inductive Unresolved (c : TypeContext) : Expr → String → Prop
  | free (missing : c.functions.get? (.free name) = none) :
      Unresolved c (.var span name) (FunctionName.free name).text
  | method (missing : c.functions.get? (.method owner name) = none) :
      Unresolved c callee (FunctionName.method owner name).text
  | other : Unresolved c callee "<expression>"

/-- `B` holds of all faults that typing can find among the `parts`, which are at spans as `P` says.
-/
structure Blames (c : TypeContext) (parts : List Expr) (P : Span → Prop)
    (B : Fault TypeError → Prop) : Prop where
  plain : P span → Fault.PlainAt B span
  var : .var span name ∈ parts → c.frame.lookup name = none → P span →
    B (.raise (.unknownIdentifier name) span)
  call : .call span callee args ∈ parts → callee ∈ parts → Unresolved c callee text →
    P callee.span → B (.raise (.unresolvedFunction text) callee.span)

theorem Blames.lookUp (b : Blames c parts P B) (occurs : .call span callee args ∈ parts)
    (hcallee : callee.parts ⊆ parts) (hspan : P callee.span) (h : c.functions.get? function = none →
      Unresolved c callee function.text) :
    FailsAs B (lookUp c function receiver callee.span) := by
  simp only [Typing.lookUp]
  split
  · exact .ok
  · next hnone => exact .error (b.call occurs (hcallee callee.mem_parts_self) (h hnone) hspan)

theorem placed_receiver {callee r : Expr} (h : callee.Placed P)
    (found : callTarget c callee = .ok target) (hr : target.receiver = some r) : r.Placed P := by
  cases callee with
  | field span whole name =>
    obtain ⟨id, -, -, -, hreceiver⟩ := callTarget_field found
    cases hreceiver.symm.trans hr
    exact h.2.1
  | integer | float | string | var | call | binary | unary | assign | addressOf
  | dereference | sizeOf =>
    obtain ⟨_, -, -, hreceiver⟩ := callTarget_other (by simp) found
    cases hreceiver.symm.trans hr

mutual

theorem Blames.typeOf (b : Blames c parts P B) : ∀ e : Expr, e.parts ⊆ parts → e.Placed P →
    FailsAs B (typeOf c e)
  | .integer .., _, _ | .float .., _, _ | .string .., _, _ => .ok
  | .var span name, h, hspan => by
    simp only [Typing.typeOf]
    split
    · exact .ok
    · next hnone => exact .error (b.var (h (Expr.mem_parts_self _)) hnone hspan)
  | .call span callee args, h, ⟨hspan, hcallee, hargs⟩ => by
    have occurs := h (Expr.mem_parts_self _)
    simp only [Expr.parts, List.cons_subset, List.append_subset] at h
    refine (b.callTarget callee occurs h.2.1 hcallee).bind fun target htarget => ?_
    have hrest : FailsAs B (do
        if args.length ≠ target.signature.params.length then
          fail (.argumentCount target.function.text target.signature.params.length args.length) span
        Typing.checkArgs c args target.signature.params
        return target.signature.returns) :=
      .ite (fun _ => .error (b.plain hspan _ rfl rfl)) fun _ => (b.checkArgs args _ h.2.2 hargs).map
    split
    · next receiver hreceiver =>
      exact .ite (fun _ => hrest) fun _ =>
        .error (b.plain (placed_receiver hcallee htarget hreceiver).span _ rfl rfl)
    · exact hrest
  | .binary span op lhs rhs, h, ⟨hspan, hlhs, hrhs⟩ => by
    simp only [Expr.parts, List.cons_subset, List.append_subset] at h
    exact (b.typeOf lhs h.2.1 hlhs).bind fun _ _ => (b.typeOf rhs h.2.2 hrhs).bind fun _ _ =>
      (singleWord_failsAs (b.plain hlhs.span)).bind fun _ _ =>
        (singleWord_failsAs (b.plain hrhs.span)).bind fun _ _ => binary_failsAs (b.plain hspan)
  | .unary span op operand, h, ⟨hspan, hoperand⟩ =>
    (b.typeOf operand (List.cons_subset.mp h).2 hoperand).bind fun _ _ =>
      unary_failsAs (b.plain hoperand.span) (b.plain hspan)
  | .assign span op target value, h, ⟨hspan, htarget, hvalue⟩ => by
    simp only [Expr.parts, List.cons_subset, List.append_subset] at h
    refine .ite (fun _ => ?_) fun _ => .error (b.plain htarget.span _ rfl rfl)
    refine (b.typeOf target h.2.1 htarget).bind fun _ _ =>
      (b.typeOf value h.2.2 hvalue).bind fun _ _ => ?_
    cases op with
    | some op =>
      exact (singleWord_failsAs (b.plain htarget.span)).bind fun _ _ =>
        (singleWord_failsAs (b.plain hvalue.span)).bind fun _ _ =>
          arithmetic_failsAs (b.plain hspan)
    | none => exact .ite (fun _ => .pure) fun _ => .error (b.plain hvalue.span _ rfl rfl)
  | .field span whole name, h, ⟨_, hwhole, hname⟩ =>
    (b.typeOf whole (List.cons_subset.mp h).2 hwhole).bind fun _ _ =>
      (fieldOf_failsAs (b.plain hname)).map
  | .addressOf span inner, h, ⟨_, hinner⟩ =>
    .ite (fun _ => (b.typeOf inner (List.cons_subset.mp h).2 hinner).map) fun _ =>
      .error (b.plain hinner.span _ rfl rfl)
  | .dereference span inner, h, ⟨hspan, hinner⟩ => by
    refine (b.typeOf inner (List.cons_subset.mp h).2 hinner).bind fun type _ => ?_
    cases type with
    | reference pointee => exact .pure
    | int | float | ptr | void | struct => exact .error (b.plain hspan _ rfl rfl)
  | .sizeOf span inner, h, ⟨_, hinner⟩ =>
    .ite (fun _ => (b.typeOf inner (List.cons_subset.mp h).2 hinner).map) fun _ => .pure

theorem Blames.callTarget (b : Blames c parts P B) :
    ∀ callee : Expr, .call span callee args ∈ parts →
    callee.parts ⊆ parts → callee.Placed P → FailsAs B (callTarget c callee)
  | .var _ name, occurs, h, hspan => b.lookUp occurs h hspan .free
  | .field _ whole name, occurs, h, ⟨hspan, hwhole, hname⟩ => by
    refine (b.typeOf whole (List.cons_subset.mp h).2 hwhole).bind fun type _ => ?_
    cases type with
    | struct id => exact b.lookUp occurs h hspan .method
    | int | float | ptr | void | reference => exact .error (b.plain hname _ rfl rfl)
  | .integer .., occurs, h, placed | .float .., occurs, h, placed | .string .., occurs, h, placed
  | .call .., occurs, h, placed | .binary .., occurs, h, placed | .unary .., occurs, h, placed
  | .assign .., occurs, h, placed | .addressOf .., occurs, h, placed | .dereference ..,
      occurs, h, placed
  | .sizeOf .., occurs, h, placed =>
    .error (b.call occurs (h (Expr.mem_parts_self _)) .other placed.span)

theorem Blames.checkArgs (b : Blames c parts P B) :
    ∀ (es : List Expr) (params : List (String × ValueType)),
    Expr.allParts es ⊆ parts → Expr.AllPlaced P es → FailsAs B (checkArgs c es params)
  | [], _, _, _ | _ :: _, [], _, _ => .ok
  | e :: es, param :: params, h, ⟨he, hes⟩ => by
    rw [Expr.allParts, List.append_subset] at h
    exact (b.typeOf e h.1 he).bind fun _ _ => .ite (fun _ => b.checkArgs es params h.2 hes) fun _ =>
      .error (b.plain he.span _ rfl rfl)

end

/-- A variable that is not found is no static, and a function that is called and not found is not
defined. -/
theorem typeOf_accounts {p : Program} (spelled : p.Spelled) (covers : c.Covers p) (e : Expr)
    (h : e.parts ⊆ p.parts) : FailsAs p.Accounts (typeOf c e) := by
  have hdefined : ∀ d ∈ p.definitions, c.functions.get? d.1 ≠ none := fun d hd =>
    Option.isSome_iff_ne_none.mp (covers.definitions d hd)
  have hproper : ∀ d ∈ p.definitions, d.1.Proper := fun d hd => (spelled.wellNamed.definitions hd).1
  have hblames : Blames c p.parts (fun _ => True) p.Accounts := {
    plain := fun _ => .plainAt
    var := fun occurs missing _ => .var occurs fun d hd hname =>
      Option.isSome_iff_ne_none.mp (covers.statics d hd) (hname ▸ missing)
    call := fun occurs hcallee unresolved _ => .call occurs fun d hd htext => by
      cases unresolved with
      | free missing =>
        exact hdefined d hd (FunctionName.eq_free_of_text (spelled.vars hcallee).dot_notMem
          htext ▸ missing)
      | method missing =>
        exact hdefined d hd (FunctionName.eq_method_of_text (hproper d hd) htext ▸ missing)
      | other => exact (hproper d hd).text_ne htext }
  exact hblames.typeOf e h e.placed_true

theorem plainAt_due (h : P span) : Fault.PlainAt (Fault.Due P) span :=
  fun _ _ supplied => ⟨h, supplied⟩

theorem blames_due : Blames c parts P (Fault.Due P) :=
  ⟨plainAt_due, fun _ _ h => ⟨h, rfl⟩, fun _ _ _ h => ⟨h, rfl⟩⟩

theorem typeOf_due (c : TypeContext) (e : Expr) (h : e.Placed P) :
    FailsAs (Fault.Due P) (typeOf c e) :=
  blames_due.typeOf e (List.Subset.refl _) h

theorem callTarget_due (c : TypeContext) (callee : Expr) (h : callee.Placed P) :
    FailsAs (Fault.Due P) (callTarget c callee) :=
  blames_due.callTarget callee (List.mem_cons_self (a := Expr.call callee.span callee []))
    (List.subset_cons_self _ _) h

end Typing

end WordScript
