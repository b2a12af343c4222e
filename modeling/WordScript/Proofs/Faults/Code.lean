import WordScript.Proofs.Faults.Tables

/-!
# Faults of code generation

Which faults the generator can end with. Whatever has a type compiles, so the faults of an
expression are those of typing it, and the frame of a body always shows the statics and, inside of
functions, the place of the result.
-/

namespace WordScript

/-! ### Frames -/

namespace Frame

theorem declare_failsAs {f : Frame} (h : f.scopes ≠ []) :
    FailsAs (·.concernsName = false) (f.declare structs name type) := by
  simp only [declare]
  split
  · next hnil => exact absurd hnil h
  · exact .ite (fun _ => .error rfl) fun _ => .ok

theorem isSome_lookup_of_mem {f : Frame} (hscope : scope ∈ f.scopes)
    (h : (scope.entries.lookup name).isSome = true) : (f.lookup name).isSome = true := by
  rw [lookup, Option.isSome_map, find?, List.isSome_findSome?]
  exact List.any_eq_true.mpr ⟨scope, hscope, h⟩

theorem isSome_lookup_staticScope {statics : List StaticVariable} (h : v ∈ statics) :
    ((staticScope statics).entries.lookup v.name).isSome = true := by
  refine List.lookup_isSome_iff.mpr ⟨(v.name, ⟨v.type, .static v.label⟩), ?_, by simp⟩
  exact List.mem_reverse.mpr (List.mem_map.mpr ⟨v, h, rfl⟩)

end Frame

structure EmitContext.Ready (c : EmitContext) (p : Program) (statics : List StaticVariable) :
    Prop where
  serves : c.Serves p
  strings : c.strings = .collect p
  statics : statics.map (·.name) = p.statics.map (·.name.text)
  spelled : p.Spelled
  types : ∀ t ∈ p.types, c.structs.Knows t.name

/-- The frame shows the statics outside of its innermost scope, and where a result is due, the place
for it. -/
structure EmitContext.Stage (c : EmitContext) (statics : List StaticVariable) (f : Frame) :
    Prop where
  statics : Frame.staticScope statics ∈ f.scopes.tail
  slot : c.returns.isSome = true → f.returnSlot.isSome = true

namespace EmitContext

variable {c : EmitContext} {p : Program} {statics : List StaticVariable} {f g : Frame}

theorem Stage.enter (h : c.Stage statics f) : c.Stage statics f.enter :=
  ⟨List.mem_of_mem_tail h.statics, h.slot⟩

theorem Stage.extends (h : c.Stage statics f) (hext : f.Extends g) : c.Stage statics g :=
  ⟨hext.outer ▸ h.statics, fun hr => hext.slot ▸ h.slot hr⟩

theorem Stage.ne_nil (h : c.Stage statics f) : f.scopes ≠ [] := fun hnil => by
  have hmem := h.statics
  simp [hnil] at hmem

theorem Ready.sound (ready : c.Ready p statics) : c.Sound :=
  ready.serves.sound ready.spelled.wellNamed

theorem Ready.inside (ready : c.Ready p statics) (signature : Signature) :
    (c.inside signature).Ready p statics :=
  ⟨⟨ready.serves.structs, ready.serves.functions⟩, ready.strings, ready.statics,
    ready.spelled, ready.types⟩

theorem Ready.defined (ready : c.Ready p statics) (hd : d ∈ p.definitions) :
    (c.functions.get? d.1).isSome = true := by
  have hmem : d.1 ∈ c.functions.entries.map Prod.fst :=
    (Functions.ofProgram_holds ready.serves.functions).names ▸ List.mem_map_of_mem hd
  obtain ⟨e, he, heq⟩ := List.mem_map.mp hmem
  exact List.lookup_isSome_iff.mpr ⟨e, he, by simp [heq]⟩

theorem Ready.covers (ready : c.Ready p statics) (stage : c.Stage statics f) :
    (c.at f).Covers p where
  definitions _ hd := ready.defined hd
  statics d hd := by
    have hmem : d.name.text ∈ statics.map (·.name) := ready.statics ▸ List.mem_map_of_mem hd
    obtain ⟨v, hv, heq⟩ := List.mem_map.mp hmem
    exact Frame.isSome_lookup_of_mem (List.mem_of_mem_tail stage.statics)
      (heq ▸ Frame.isSome_lookup_staticScope hv)

theorem Ready.pooled {e : Expr} (ready : c.Ready p statics) (h : e.parts ⊆ p.parts) :
    Emit.Pooled c e.literals := fun _ ht =>
  ready.strings ▸ LiteralPool.label?_of_mem (Program.literals_of_part (h e.mem_parts_self) ht)

end EmitContext

namespace Emit

/-! ### Failing only for some reasons -/

def Fails (P : Fault TypeError → Prop) (x : Emit α) (s : EmitState) : Prop :=
  ∀ f t, x s = .error f t → P f

section
variable {α β : Type} {P : Fault TypeError → Prop} {s : EmitState}

namespace Fails

theorem bind {x : Emit α} {f : α → Emit β} (hx : Fails P x s)
    (hf : ∀ a t, x s = .ok a t → Fails P (f a) t) : Fails P (x >>= f) s := by
  intro e t h
  simp only [Bind.bind, EStateM.bind] at h
  cases hrun : x s with
  | ok a u =>
    simp only [hrun] at h
    exact hf a u hrun e t h
  | error e' u =>
    simp only [hrun] at h
    cases h
    exact hx _ _ hrun

theorem pure (a : α) : Fails P (Pure.pure a : Emit α) s := fun _ _ h => by cases h

theorem map {x : Emit α} {g : α → β} (hx : Fails P x s) :
    Fails P (x >>= fun a => Pure.pure (g a)) s :=
  hx.bind fun _ _ _ => pure _

theorem fault (h : P (.raise cause span)) :
    Fails P (fault cause span : Emit α) s := fun _ _ he => by
  cases he
  exact h

theorem fault_bind {k : α → Emit β} (h : P (.raise cause span)) :
    Fails P (Emit.fault cause span >>= k) s :=
  (fault h).bind fun _ _ he => by cases he

theorem modify {f : EmitState → EmitState} : Fails P (modify f : Emit PUnit) s :=
  fun _ _ h => by cases h

theorem get_bind {f : EmitState → Emit α} (h : Fails P (f s) s) : Fails P (get >>= f) s := h

theorem ofCheck {x : Typing.Check α} (h : FailsAs P x) : Fails P (ofCheck x) s := by
  cases x with
  | ok a => exact pure a
  | error e =>
    intro _ _ he
    cases he
    exact h e rfl

theorem ite {x y : Emit α} {b : Prop} [Decidable b] (hx : b → Fails P x s) (hy : ¬b → Fails P y s) :
    Fails P (if b then x else y) s := by
  split
  · next h => exact hx h
  · next h => exact hy h

end Fails

theorem Fails.freshLabel {f : Label → Emit α}
    (h : ∀ l labels, Fails P (f l) ⟨frame, pool, labels⟩) :
    Fails P (freshLabel >>= f) ⟨frame, pool, labels⟩ := h _ _

/-- What completes where it stands fails for lack of registers only. -/
theorem Runs.fails {x : Emit α} (h : Runs s.frame.scopes x) : Fails (Program.Accounts p) x s := by
  intro f t hf
  rcases h s rfl with ⟨a, u, hok, -⟩ | ⟨e, u, herror, he⟩
  · rw [hok] at hf
    cases hf
  · rw [herror] at hf
    cases hf
    exact .other (by rw [he]; rfl)

theorem bind_typeHere {k : ValueType → Emit α} (typed : Typing.typeOf (c.at s.frame) e = .error f) :
    (typeHere c e >>= k) s = .error f s := by
  have hcheck : typeHere c e s = ofCheck (Typing.typeOf (c.at s.frame) e) s := rfl
  rw [typed] at hcheck
  simp only [Bind.bind, EStateM.bind, hcheck]
  rfl

end

/-! ### Expressions -/

section
variable {c : EmitContext} {p : Program} {statics : List StaticVariable} {frame : Frame}
  {pool : RegisterPool} {labels : LabelSupply}
  {e : Expr}

theorem typeHere_fails (ready : c.Ready p statics) (stage : c.Stage statics frame)
    (h : e.parts ⊆ p.parts) : Fails p.Accounts (typeHere c e) ⟨frame, pool, labels⟩ :=
  .ofCheck (Typing.typeOf_accounts ready.spelled (ready.covers stage) e h)

theorem Fails.typeHere {f : ValueType → Emit α} (ready : c.Ready p statics)
    (stage : c.Stage statics frame) (h : e.parts ⊆ p.parts)
    (hf : ∀ type, Fails p.Accounts (f type) ⟨frame, pool, labels⟩) :
    Fails p.Accounts (typeHere c e >>= f) ⟨frame, pool, labels⟩ := by
  refine (typeHere_fails ready stage h).bind fun type t ht => ?_
  obtain ⟨-, rfl⟩ := typeHere_ok.mp ht
  exact hf type

theorem expr_fails (ready : c.Ready p statics) (stage : c.Stage statics frame)
    (h : e.parts ⊆ p.parts) : Fails p.Accounts (expr c e) ⟨frame, pool, labels⟩ := by
  cases typed : Typing.typeOf (c.at frame) e with
  | ok type =>
    exact (expr_runs e type (ready.pooled h) ((Runs.typeOf_in rfl e).symm.trans typed)).fails
  | error f =>
    -- All but literals are checked before anything else happens.
    have hfirst : expr c e ⟨frame, pool, labels⟩ = .error f ⟨frame, pool, labels⟩ := by
      cases e with
      | integer | float | string => cases typed
      | var | call | binary | unary | assign | field | addressOf | dereference | sizeOf =>
        exact bind_typeHere typed
    intro f' t hf
    rw [hfirst] at hf
    cases hf
    exact Typing.typeOf_accounts ready.spelled (ready.covers stage) e h f typed

theorem exprFor_fails (ready : c.Ready p statics) (stage : c.Stage statics frame)
    (h : e.parts ⊆ p.parts) : Fails p.Accounts (exprFor c type e) ⟨frame, pool, labels⟩ :=
  .typeHere ready stage h fun _ => .ite (fun _ => expr_fails ready stage h) fun _ =>
    .fault_bind (.other rfl)

theorem Fails.condition {f : Assembly → Emit α} (ready : c.Ready p statics)
    (stage : c.Stage statics frame) (h : e.parts ⊆ p.parts)
    (hf : ∀ code labels, Fails p.Accounts (f code) ⟨frame, pool, labels⟩) :
    Fails p.Accounts (condition c e l >>= f) ⟨frame, pool, labels⟩ := by
  refine Fails.bind (.typeHere ready stage h fun type => ?_) fun code t ht => ?_
  · refine (Fails.ofCheck (Typing.singleWord_failsAs .plainAt)).bind fun _ u hu => ?_
    obtain ⟨-, rfl⟩ := ofCheck_ok.mp hu
    exact (expr_fails ready stage h).bind fun _ _ _ =>
      ((Runs.withPopped fun _ => .pure _).bind fun _ => .pure _).fails
  · obtain ⟨-, -, -, n, -, -, -, rfl, -⟩ := condition_emits ready.sound ht
    exact hf code ⟨n⟩

/-! ### Statements -/

theorem declareTop_fails (hscopes : s.frame.scopes ≠ []) :
    Fails p.Accounts (declareTop structs name type) s := by
  refine .get_bind ?_
  cases hdeclare : s.frame.declare structs name.text type with
  | ok frame => exact .modify
  | error e => exact .fault (.other (Frame.declare_failsAs hscopes e hdeclare))

theorem declaration_fails (ready : c.Ready p statics) (stage : c.Stage statics frame)
    (ht : type ∈ p.types) (h : ∀ e ∈ init, e.parts ⊆ p.parts) :
    Fails p.Accounts (declaration c type name init) ⟨frame, pool, labels⟩ := by
  have hresolve : FailsAs p.Accounts (c.structs.resolveStored type) :=
    (Structs.resolveStored_failsAs (P := fun _ => True) trivial fun _ : True =>
      ready.types type ht).mono fun _ h =>
      .other (h.2.2 trivial)
  refine (Fails.ofCheck hresolve).bind fun resolved t hres => ?_
  obtain ⟨-, rfl⟩ := ofCheck_ok.mp hres
  cases init with
  | some e =>
    refine (exprFor_fails ready stage (h e rfl)).bind fun code u hu => (declareTop_fails ?_).map
    obtain ⟨-, -, -, -, rfl, -⟩ := exprFor_emits ready.sound hu
    exact stage.ne_nil
  | none =>
    refine (Fails.modify.map).bind fun code u hu => (declareTop_fails ?_).map
    obtain ⟨-, rfl⟩ := pushZeros_ok hu
    exact stage.ne_nil

theorem copyResult_fails (slot : s.frame.returnSlot.isSome = true) :
    Fails p.Accounts (copyResult words span) s := by
  obtain ⟨position, hslot⟩ := Option.isSome_iff_exists.mp slot
  refine .ite (fun _ => .pure _) fun _ => .get_bind ?_
  simp only [Frame.returnSlotOffset?, hslot, Option.map_some]
  exact (Runs.withRegister fun _ => .withRegister fun _ => .pure _).fails

theorem returnStatement_fails (ready : c.Ready p statics) (stage : c.Stage statics frame)
    (h : ∀ e ∈ value, e.parts ⊆ p.parts) :
    Fails p.Accounts (returnStatement c value span) ⟨frame, pool, labels⟩ := by
  have htype : Fails p.Accounts (value.elim (pure .void) (typeHere c)) ⟨frame, pool, labels⟩ := by
    cases value with
    | none => exact .pure _
    | some e => exact typeHere_fails ready stage (h e rfl)
  refine htype.bind fun type t ht => ?_
  have hcode : Fails p.Accounts (value.elim (pure []) (expr c)) t := by
    cases value with
    | none => exact .pure _
    | some e =>
      obtain ⟨-, rfl⟩ := typeHere_ok.mp ht
      exact expr_fails ready stage (h e rfl)
  refine hcode.bind fun code u hu => ?_
  obtain ⟨n, rfl, -⟩ := result_emits ready.sound ht hu
  cases hr : c.returns with
  | none => exact Fails.modify.map
  | some expected =>
    have hslot : (frame.push (c.structs.words type)).returnSlot.isSome = true :=
      stage.slot (by rw [hr]; rfl)
    refine .ite (fun _ => (copyResult_fails hslot).bind fun _ v hv => ?_) fun _ =>
      .fault_bind (.other rfl)
    exact ((Runs.get.bind fun _ => .withRegister fun _ => .pure _).bind fun _ =>
      (Runs.modifyFrame (f := (·.pop (c.structs.words expected))) fun _ => rfl).bind fun _ =>
        .pure _).fails

theorem inScope_fails {body : Emit Assembly} (h : Fails P body ⟨frame.enter, pool, labels⟩) :
    Fails P (inScope comment body) ⟨frame, pool, labels⟩ := by
  refine Fails.modify.bind fun _ t ht => ?_
  obtain rfl := modify_ok.mp ht
  exact h.bind fun _ _ _ =>
    .get_bind (Fails.modify.bind fun _ _ _ => .ite (fun _ => .pure _) fun _ => .pure _)

theorem asBody_fails {body : Emit Assembly} (stage : c.Stage statics frame)
    (h : ∀ frame, c.Stage statics frame → Fails P body ⟨frame, pool, labels⟩) :
    Fails P (asBody st body) ⟨frame, pool, labels⟩ := by
  cases st with
  | block => exact h frame stage
  | _ => exact inScope_fails (h frame.enter stage.enter)

mutual

theorem statement_fails (ready : c.Ready p statics) :
    ∀ (st : Statement) (frame : Frame) (labels : LabelSupply),
    c.Stage statics frame → st.parts ⊆ p.parts → st.types ⊆ p.types →
    Fails p.Accounts (statement c st) ⟨frame, pool, labels⟩
  | .ret _ value, _, _, stage, h, _ => returnStatement_fails ready stage fun e he => by
    cases he
    exact h
  | .expression _ e, _, _, stage, h, _ => .typeHere ready stage h fun _ =>
    (expr_fails ready stage h).bind fun _ _ _ => (Runs.popWords.bind fun _ => .pure _).fails
  | .declare _ type name init, _, _, stage, h, ht =>
    declaration_fails ready stage (ht (by simp [Statement.types])) fun e he => by
    cases he
    exact h
  | .block _ body, _, _, stage, h, ht =>
    inScope_fails (statements_fails ready body _ _ stage.enter h ht)
  | .ifThen _ test yes, _, _, stage, h, ht => by
    obtain ⟨htest, hyes⟩ := List.append_subset.mp h
    refine .freshLabel fun _ _ => .condition ready stage htest fun _ _ => ?_
    exact (asBody_fails stage fun _ stage => statement_fails ready yes _ _ stage hyes ht).map
  | .ifThenElse _ test yes no, _, _, stage, h, ht => by
    obtain ⟨htest, hbranches⟩ := List.append_subset.mp h
    obtain ⟨hyes, hno⟩ := List.append_subset.mp hbranches
    obtain ⟨htyes, htno⟩ := List.append_subset.mp ht
    refine .freshLabel fun _ _ => .condition ready stage htest fun _ _ => ?_
    refine (asBody_fails stage fun _ stage => statement_fails ready yes _ _ stage hyes htyes).bind
      fun _ t hrun => ?_
    obtain ⟨n, rfl, -⟩ := asBody_emits (statement_emits ready.sound yes) hrun
    refine .freshLabel fun _ _ => ?_
    exact (asBody_fails stage fun _ stage => statement_fails ready no _ _ stage hno htno).map
  | .loop _ test repeated, _, _, stage, h, ht => by
    obtain ⟨htest, hrepeated⟩ := List.append_subset.mp h
    refine .freshLabel fun _ _ => .freshLabel fun _ _ => .condition ready stage htest fun _ _ => ?_
    exact (asBody_fails stage fun _ stage =>
      statement_fails ready repeated _ _ stage hrepeated ht).map

theorem statements_fails (ready : c.Ready p statics) :
    ∀ (ss : List Statement) (frame : Frame) (labels : LabelSupply),
    c.Stage statics frame → Statement.allParts ss ⊆ p.parts → Statement.allTypes ss ⊆ p.types →
    Fails p.Accounts (statements c ss) ⟨frame, pool, labels⟩
  | [], _, _, _, _, _ => .pure _
  | st :: ss, _, _, stage, h, ht => by
    obtain ⟨hfirst, hrest⟩ := List.append_subset.mp h
    obtain ⟨htfirst, htrest⟩ := List.append_subset.mp ht
    refine (statement_fails ready st _ _ stage hfirst htfirst).bind fun _ t hrun => ?_
    obtain ⟨frame, n, rfl, hext, -⟩ := statement_emits ready.sound st _ _ _ _ _ hrun
    exact (statements_fails ready ss _ _ (stage.extends hext) hrest htrest).map

end

end

end Emit

end WordScript
