import WordScript.Emit.Program
import WordScript.Proofs.Literals
import WordScript.Proofs.StackDiscipline

/-!
# Whatever has a type compiles

The generator takes an expression apart once more after typing accepted it, and looks up again what
typing found. None of that can fail: the only fault left is that there are not enough registers
(`typed_compiles`). Code for values and places leaves scopes alone, so what typing found in them
stays found.
-/

namespace WordScript

def EmitContext.in (c : EmitContext) (scopes : List Scope) : TypeContext := c.at ⟨scopes, 0, none⟩

namespace Emit

/-! ### Steps that lack at most registers -/

variable {α β : Type} {c : EmitContext} {scopes : List Scope}

/-- From `s`, `x` succeeds in the way that `done` says, or there is no register left for it. -/
def Completes (x : Emit α) (s : EmitState) (done : α → EmitState → Prop) : Prop :=
  (∃ a t, x s = .ok a t ∧ done a t) ∨ ∃ e t, x s = .error e t ∧ e.cause = .registersExhausted

theorem Completes.of_ok {x : Emit α} {done done' : α → EmitState → Prop} (h : Completes x s done)
    (himp : ∀ a t, x s = .ok a t → done' a t) : Completes x s done' :=
  h.imp_left fun ⟨a, t, hok, _⟩ => ⟨a, t, hok, himp a t hok⟩

/-- In any frame with these scopes `x` completes and leaves them as they are. -/
def Runs (scopes : List Scope) (x : Emit α) : Prop :=
  ∀ s, s.frame.scopes = scopes → Completes x s fun _ t => t.frame.scopes = scopes

namespace Runs

theorem pure (a : α) : Runs scopes (Pure.pure a : Emit α) := fun s hs => .inl ⟨a, s, rfl, hs⟩

theorem bind {x : Emit α} {f : α → Emit β} (hx : Runs scopes x) (hf : ∀ a, Runs scopes (f a)) :
    Runs scopes (x >>= f) := by
  intro s hs
  rcases hx s hs with ⟨a, t, hok, ht⟩ | ⟨e, t, herror, he⟩
  · rcases hf a t ht with ⟨b, t', hok', ht'⟩ | ⟨e, t', herror, he⟩
    · exact .inl ⟨b, t', by simp only [Bind.bind, EStateM.bind, hok, hok'], ht'⟩
    · exact .inr ⟨e, t', by simp only [Bind.bind, EStateM.bind, hok, herror], he⟩
  · exact .inr ⟨e, t, by simp only [Bind.bind, EStateM.bind, herror], he⟩

theorem map {x : Emit α} {g : α → β} (hx : Runs scopes x) :
    Runs scopes (x >>= fun a => Pure.pure (g a)) := hx.bind fun _ => pure _

theorem of_ok {x : Emit α}
    (h : ∀ s, s.frame.scopes = scopes → ∃ a t, x s = .ok a t ∧ t.frame.scopes = scopes) :
    Runs scopes x := fun s hs => .inl (h s hs)

theorem get : Runs scopes (MonadState.get : Emit EmitState) := of_ok fun s hs => ⟨s, s, rfl, hs⟩

theorem modifyFrame {f : Frame → Frame} (hf : ∀ frame, (f frame).scopes = frame.scopes) :
    Runs scopes (modifyFrame f) := of_ok fun s hs => ⟨_, _, rfl, (hf s.frame).trans hs⟩

theorem freshLabel : Runs scopes freshLabel := of_ok fun _ hs => ⟨_, _, rfl, hs⟩

theorem acquire : Runs scopes (acquire span) := by
  intro s hs
  cases h : s.registers.lowestFree? with
  | some k => exact .inl ⟨_, _, acquire_of_free h, hs⟩
  | none => exact .inr ⟨_, s, acquire_of_none h, rfl⟩

theorem holding {body : Emit α} (h : Runs scopes body) : Runs scopes (holding r body) := by
  intro s hs
  rcases h s hs with ⟨a, t, hok, ht⟩ | ⟨e, t, herror, he⟩
  · exact .inl ⟨a, { t with registers := t.registers.release r },
      by simp only [Emit.holding, hok], ht⟩
  · exact .inr ⟨e, { t with registers := t.registers.release r },
      by simp only [Emit.holding, herror], he⟩

theorem withRegister {body : Register → Emit α} (h : ∀ r, Runs scopes (body r)) :
    Runs scopes (withRegister span body) := acquire.bind fun r => (h r).holding

theorem pushWords : Runs scopes (pushWords n) :=
  of_ok fun _ hs => ⟨_, _, pushWords_ok.mpr ⟨rfl, rfl⟩, hs⟩

theorem popWords : Runs scopes (popWords n) :=
  of_ok fun _ hs => ⟨_, _, popWords_ok.mpr ⟨rfl, rfl⟩, hs⟩

theorem pushValue : Runs scopes (pushValue value) := pushWords.map

theorem pushCopy : Runs scopes (pushCopy source n) :=
  (modifyFrame (f := (·.push n)) fun _ => rfl).map

theorem popHeld : Runs scopes (popHeld span) := popWords.bind fun _ => acquire.map

theorem withPopped {body : Register → Emit Assembly} (h : ∀ r, Runs scopes (body r)) :
    Runs scopes (withPopped span body) := popHeld.bind fun (_, r) => ((h r).map).holding

theorem withOperands {body : Register → Register → Emit Assembly}
    (h : ∀ l r, Runs scopes (body l r)) : Runs scopes (withOperands left right body) :=
  withRegister fun l => withRegister fun r => popWords.bind fun _ =>
    popWords.bind fun _ => (h l r).map

theorem pushRelation : Runs scopes (pushRelation relation) :=
  freshLabel.bind fun _ => freshLabel.bind fun _ => pushWords.map

/-- A check that has come out well before comes out well again. -/
theorem ofCheck {x : Typing.Check α} {f : α → Emit β} (h : x = .ok a) (hf : Runs scopes (f a)) :
    Runs scopes (Emit.ofCheck x >>= f) := by
  subst h
  exact fun s hs => hf s hs

theorem typeOf_in (h : frame.scopes = scopes) (e : Expr) :
    Typing.typeOf (c.at frame) e = Typing.typeOf (c.in scopes) e := Typing.typeOf_congr h e

theorem typing {f : TypeContext → Emit β}
    (hf : ∀ frame : Frame, frame.scopes = scopes → Runs scopes (f (c.at frame))) :
    Runs scopes (Emit.typing c >>= f) := fun s hs => hf s.frame hs s hs

theorem typeHere {f : ValueType → Emit β} (h : Typing.typeOf (c.in scopes) e = .ok type)
    (hf : Runs scopes (f type)) : Runs scopes (Emit.typeHere c e >>= f) := by
  intro s hs
  have hok : Emit.typeHere c e s = .ok type s := typeHere_ok.mpr ⟨(typeOf_in hs e).trans h, rfl⟩
  simp only [Completes, Bind.bind, EStateM.bind, hok]
  exact hf s hs

/-! ### Calls and operators -/

theorem saveAll : Runs scopes (saveAll saved) := by
  induction saved with
  | nil => exact .pure _
  | cons r rest ih => exact pushWords.bind fun _ => ih.map

theorem restoreAll : Runs scopes (restoreAll saved) := by
  induction saved with
  | nil => exact .pure _
  | cons r rest ih => exact popWords.bind fun _ => ih.map

theorem popEach : Runs scopes (popEach sizes) := by
  induction sizes with
  | nil => exact .pure _
  | cons n rest ih => exact popWords.bind fun _ => ih.map

theorem reserve : Runs scopes (reserve n text) := by
  simp only [Emit.reserve]
  split
  · exact .pure _
  · exact (modifyFrame (f := (·.push n)) fun _ => rfl).map

theorem slideResult : Runs scopes (slideResult span saved n) := by
  simp only [Emit.slideResult]
  split
  · exact .pure _
  · refine restoreAll.bind fun _ => ?_
    split
    · exact .pure _
    · exact withRegister fun _ => .pure _

theorem pushReceiver {x : Emit (Option (Assembly × Register))} (h : Runs scopes x) :
    Runs scopes (pushReceiver x) := by
  refine h.bind fun result => ?_
  cases result with
  | none => exact .pure _
  | some found => exact (pushWords.map).holding

theorem call {x : Emit (Option (Assembly × Register))} {args : Emit Assembly} (hx : Runs scopes x)
    (ha : Runs scopes args) : Runs scopes (call c span target x args) :=
  get.bind fun _ => saveAll.bind fun _ => reserve.bind fun _ => (pushReceiver hx).bind fun _ =>
    ha.bind fun _ =>
    freshLabel.bind fun _ => popEach.bind fun _ => popWords.bind fun _ => slideResult.map

theorem operandTest {code : Emit Assembly} (typed : Typing.typeOf (c.in scopes) e = .ok type)
    (h : Runs scopes code) : Runs scopes (operandTest c e code relation l) :=
  typeHere typed (h.bind fun _ => (withPopped fun _ => .pure _).map)

theorem logic {left right : Emit Assembly} (typedLeft : Typing.typeOf (c.in scopes) lhs = .ok a)
    (typedRight : Typing.typeOf (c.in scopes) rhs = .ok b) (hl : Runs scopes left)
    (hr : Runs scopes right) : Runs scopes (logic c op lhs rhs left right) := by
  cases op <;>
  exact freshLabel.bind fun _ => freshLabel.bind fun _ => (operandTest typedLeft hl).bind fun _ =>
    (operandTest typedRight hr).bind fun _ => pushWords.map

theorem binary {left right : Emit Assembly} (typedLeft : Typing.typeOf (c.in scopes) lhs = .ok a)
    (typedRight : Typing.typeOf (c.in scopes) rhs = .ok b) (hl : Runs scopes left)
    (hr : Runs scopes right) : Runs scopes (binary c op type lhs rhs left right) := by
  cases op with
  | arithmetic op =>
    exact hl.bind fun _ => hr.bind fun _ =>
      (withOperands fun _ _ => pushValue.map).map
  | relation relation =>
    exact typeHere typedLeft (hl.bind fun _ => hr.bind fun _ =>
      (withOperands fun _ _ => .pure _).bind fun _ =>
      pushRelation.map)
  | logic op => exact logic typedLeft typedRight hl hr

theorem unary {code : Emit Assembly} (typed : Typing.typeOf (c.in scopes) e = .ok a)
    (h : Runs scopes code) : Runs scopes (unary c op type e code) := by
  refine h.bind fun _ => ?_
  cases op with
  | negate => exact (withPopped fun _ => pushValue.map).map
  | not => exact typeHere typed ((withPopped fun _ => .pure _).bind fun _ => pushRelation.map)

theorem assign {place : Emit (Assembly × Register)} {code : Emit Assembly} (hp : Runs scopes place)
    (hv : Runs scopes code) : Runs scopes (assign c op type target value place code) := by
  refine hp.bind fun (_, address) => holding (hv.bind fun _ => ?_)
  cases op with
  | none => exact .pure _
  | some op =>
    exact (withPopped fun _ => withRegister fun _ => pushValue.map).map

theorem findVariable (typed : Typing.typeOf (c.in scopes) (.var span name) = .ok type) :
    Runs scopes (findVariable name span') := by
  refine of_ok fun s hs => ?_
  obtain ⟨location, hl⟩ := Typing.typeOf_var ((typeOf_in hs (.var span name)).trans typed)
  refine ⟨location, s, ?_, hs⟩
  have hlookup : s.frame.lookup name = some (type, location) := hl
  rw [Emit.findVariable, get_bind, hlookup]
  rfl

theorem selectField : Runs scopes (selectField c span n field) :=
  popWords.bind fun _ => withRegister fun _ => pushCopy.map

theorem sizeWords (typed : Typing.typeOf (c.in scopes) (.sizeOf span e) = .ok type) :
    Runs scopes (sizeWords c span e) := by
  simp only [Emit.sizeWords]
  split
  · exact .pure _
  · next hnamed =>
    simp only [Typing.typeOf] at typed
    have hnone : Typing.namedSize? (c.in scopes).structs (.sizeOf span e) = none := hnamed
    simp only [hnone, Option.isNone_none, ↓reduceIte, bind_eq_ok] at typed
    obtain ⟨inner, hinner, -⟩ := typed
    exact typeHere hinner (.pure _)

end Runs

/-! ### Expressions and places -/

def Pooled (c : EmitContext) (texts : List String) : Prop :=
  ∀ t ∈ texts, ∃ l, c.strings.label? t = some l

theorem Pooled.left (h : Pooled c (a ++ b)) : Pooled c a :=
  fun t ht => h t (List.mem_append_left _ ht)

theorem Pooled.right (h : Pooled c (a ++ b)) : Pooled c b :=
  fun t ht => h t (List.mem_append_right _ ht)

mutual

theorem expr_runs : ∀ e type, Pooled c e.literals → Typing.typeOf (c.in scopes) e = .ok type →
    Runs scopes (expr c e)
  | .integer .., _, _, _ | .float .., _, _, _ => Runs.pushValue
  | .string span content, _, pooled, _ => by
    obtain ⟨l, hl⟩ := pooled content (List.mem_singleton_self content)
    simp only [expr, hl]
    exact Runs.pushValue
  | .var span name, _, _, typed =>
    .typeHere typed ((Runs.findVariable typed).bind fun _ => .withRegister fun _ =>
      Runs.pushCopy.map)
  | .call span callee args, _, pooled, typed => by
    obtain ⟨target, resolved, hplace, hlength, hargs, -⟩ := Typing.typeOf_call typed
    refine .typeHere typed (.typing fun frame hframe =>
      .ofCheck ((Typing.callTarget_congr hframe callee).trans resolved) ?_)
    exact .call (receiver_runs callee target pooled.left resolved hplace)
      (arguments_runs args _ pooled.right hargs hlength)
  | .binary span op lhs rhs, _, pooled, typed => by
    obtain ⟨a, b, hlhs, hrhs, -⟩ := Typing.typeOf_binary typed
    exact .typeHere typed (.binary hlhs hrhs (expr_runs lhs a pooled.left hlhs)
      (expr_runs rhs b pooled.right hrhs))
  | .unary span op operand, _, pooled, typed => by
    obtain ⟨a, hoperand, -⟩ := Typing.typeOf_unary typed
    exact .typeHere typed (.unary hoperand (expr_runs operand a pooled hoperand))
  | .assign span none target value, _, pooled, typed => by
    obtain ⟨hplace, found, htarget, hvalue, -⟩ := Typing.typeOf_assign typed
    exact .typeHere typed (.assign (place_runs target _ pooled.left htarget hplace)
      (expr_runs value _ pooled.right hvalue))
  | .assign span (some op) target value, _, pooled, typed => by
    obtain ⟨hplace, a, b, htarget, hvalue, -⟩ := Typing.typeOf_update typed
    exact .typeHere typed (.assign (place_runs target _ pooled.left htarget hplace)
      (expr_runs value _ pooled.right hvalue))
  | .field span base name, _, pooled, typed => by
    obtain ⟨whole, field, hbase, hfield, -⟩ := Typing.typeOf_field typed
    exact .typeHere typed (.typeHere hbase (.ofCheck hfield
      ((expr_runs base whole pooled hbase).bind fun _ => Runs.selectField.map)))
  | .addressOf span inner, _, pooled, typed => by
    obtain ⟨hplace, type, hinner, -⟩ := Typing.typeOf_addressOf typed
    exact .typeHere typed ((place_runs inner type pooled hinner hplace).bind fun (_, _) =>
      .holding (Runs.pushValue.map))
  | .dereference span inner, _, pooled, typed =>
    .typeHere typed ((expr_runs inner _ pooled (Typing.typeOf_dereference typed)).bind fun _ =>
      (Runs.withPopped fun _ => .pushCopy).map)
  | .sizeOf span inner, _, _, typed =>
    .typeHere typed ((Runs.sizeWords typed).bind fun _ => .pushValue)

theorem place_runs : ∀ e type, Pooled c e.literals → Typing.typeOf (c.in scopes) e = .ok type →
    e.addressable = true → Runs scopes (place c e)
  | .var span name, _, _, typed, _ => (Runs.findVariable typed).bind fun _ => Runs.acquire.map
  | .field span base name, _, pooled, typed, hplace => by
    obtain ⟨whole, field, hbase, hfield, -⟩ := Typing.typeOf_field typed
    have hplace : base.addressable = true := hplace
    simp only [place, hplace, ↓reduceIte]
    exact .typeHere hbase (.ofCheck hfield ((place_runs base whole pooled hbase hplace).bind
      fun (_, _) => .pure _))
  | .dereference span inner, _, pooled, typed, _ =>
    have hinner := Typing.typeOf_dereference typed
    .typeHere hinner ((expr_runs inner _ pooled hinner).bind fun _ =>
      Runs.popHeld.bind fun (_, _) => .pure _)
  | .integer .., _, _, _, h | .float .., _, _, _, h | .string .., _, _, _, h | .call .., _, _, _, h
  | .binary .., _, _, _, h | .unary .., _, _, _, h | .assign .., _, _, _,
      h | .addressOf .., _, _, _, h
  | .sizeOf .., _, _, _, h => by simp [Expr.addressable] at h

theorem receiver_runs : ∀ callee target, Pooled c callee.literals →
    Typing.callTarget (c.in scopes) callee = .ok target →
    (∀ e, target.receiver = some e → e.addressable = true) → Runs scopes (receiver c callee)
  | .field span base name, _, pooled, resolved, hplace => by
    obtain ⟨id, hbase, -, -, hreceiver⟩ := Typing.callTarget_field resolved
    exact (place_runs base _ pooled hbase (hplace base hreceiver)).map
  | .var .., _, _, _, _ | .integer .., _, _, _, _ | .float .., _, _, _, _ | .string .., _, _, _, _
  | .call .., _, _, _, _ | .binary .., _, _, _, _ | .unary .., _, _, _, _ | .assign .., _, _, _, _
  | .addressOf .., _, _, _, _ | .dereference .., _, _, _, _ | .sizeOf .., _, _, _, _ => .pure _

theorem arguments_runs : ∀ es params, Pooled c (Expr.allLiterals es) →
    Typing.checkArgs (c.in scopes) es params = .ok () → es.length = params.length →
    Runs scopes (arguments c es)
  | [], _, _, _, _ => .pure _
  | _ :: _, [], _, _, hlength => by simp at hlength
  | e :: es, param :: params, pooled, checked, hlength => by
    obtain ⟨found, hfirst, -, hrest⟩ := Typing.checkArgs_cons checked
    exact (expr_runs e found pooled.left hfirst).bind fun _ =>
      (arguments_runs es params pooled.right hrest (by simpa using hlength)).map

end

end Emit

open Emit in
/-- Whatever state the generator is in, it emits code for every expression of the program that has a
type there, unless it runs out of registers. The code of its value raises the frame by the words of
its type and leaves the registers as they were. The code of its place, if it is one, leaves the
frame as it was and one more register live. -/
theorem typed_compiles {p : Program} (parsed : Program.ofSource source = .ok p)
    (serves : EmitContext.Serves c p)
    (pool : c.strings = .collect p) (occurs : e ∈ p.parts) (s : EmitState)
    (typed : Typing.typeOf ⟨c.structs, c.functions, s.frame⟩ e = .ok type) :
    Completes (expr c e) s (fun _ s' =>
      s'.frame = s.frame.push (c.structs.words type) ∧ s'.registers = s.registers) ∧
    (e.addressable = true → Completes (place c e) s (fun result s' =>
      s'.frame = s.frame ∧ result.2 ∉ s.registers.live ∧
        s'.registers.live.Perm (result.2 :: s.registers.live))) := by
  have hc := serves.sound (Program.ofSource_wellNamed parsed)
  have pooled : Pooled c e.literals := fun t ht =>
    pool ▸ LiteralPool.label?_of_mem (Program.literals_of_part occurs ht)
  have typedIn : Typing.typeOf (c.in s.frame.scopes) e = .ok type :=
    (Runs.typeOf_in rfl e).symm.trans typed
  constructor
  · refine (expr_runs e type pooled typedIn s rfl).of_ok fun code s' hok => ?_
    obtain ⟨found, n, htype, rfl, -⟩ :=
      expr_emits hc e s.frame s.registers s.labels.next code s' hok
    obtain rfl := Except.ok.inj (htype.symm.trans typed)
    exact ⟨rfl, rfl⟩
  · intro hplace
    refine (place_runs e type pooled typedIn hplace s rfl).of_ok fun result s' hok => ?_
    obtain ⟨k, n, hr, hfree, rfl, -⟩ :=
      place_emits hc e s.frame s.registers s.labels.next result.1 result.2 s' type typed hok
    rw [hr]
    exact ⟨rfl, RegisterPool.live_take_perm hfree⟩

def SourceText.picksWord : SourceText := .ofString
  ("struct P \x7b int x; func int pick(int& from, int& other) \x7b return from@ + other@ + this@.x; \x7d \x7d " ++
    "static P p; p.pick(\"word\", p.x&);")

theorem typed_compiles_picksWord : ∃ p c value target s, Program.ofSource .picksWord = .ok p ∧
    EmitContext.Serves c p ∧ c.strings = .collect p ∧ s.registers.live = [.general 0] ∧
    value ∈ p.parts ∧ value.literals = ["word"] ∧
    Typing.typeOf ⟨c.structs, c.functions, s.frame⟩ value = .ok .int ∧
    Emit.Completes (Emit.expr c value) s (fun _ s' => s'.frame = s.frame.push 1 ∧
      s'.registers = s.registers) ∧
    target ∈ p.parts ∧ target.addressable = true ∧
    Typing.typeOf ⟨c.structs, c.functions, s.frame⟩ target = .ok .int ∧
    Emit.Completes (Emit.place c target) s (fun result s' => s'.frame = s.frame ∧
      result.2 ∉ s.registers.live ∧
      s'.registers.live.Perm (result.2 :: s.registers.live)) := by
  have hrun : (do
      let p ← (Program.ofSource .picksWord).toOption
      let structs ← (Structs.ofDecls p.structs).toOption
      let functions ← (Functions.ofProgram structs p).toOption
      let statics ← (StaticVariable.declare structs [] p.statics).toOption
      let type (e : Expr) := (Typing.typeOf ⟨structs, functions, .topLevel statics⟩ e).toOption
      let value ← p.parts.find? fun e : Expr => e.literals = ["word"] ∧ type e = some ValueType.int
      let target ← p.parts.find? fun e : Expr => e.addressable = true ∧ type e = some ValueType.int
      return (value, target)).isSome = true := by decide +kernel
  obtain ⟨_, hrun⟩ := Option.isSome_iff_exists.mp hrun
  simp only [Option.bind_eq_bind, Option.bind_eq_some_iff, toOption_eq_some] at hrun
  obtain ⟨p, hp, structs, hs, functions, hf, statics, -, value, hvalue, target, htarget, -⟩ := hrun
  have serves : EmitContext.Serves ⟨structs, functions, .collect p, none⟩ p := ⟨hs, hf⟩
  have hlive : (RegisterPool.empty.take 0).live = [.general 0] := by decide
  obtain ⟨hliterals, typedValue⟩ := by simpa only [decide_eq_true_eq] using List.find?_some hvalue
  obtain ⟨hplace, typedTarget⟩ := by simpa only [decide_eq_true_eq] using List.find?_some htarget
  have valueOccurs := List.mem_of_find?_eq_some hvalue
  have targetOccurs := List.mem_of_find?_eq_some htarget
  let s : EmitState := ⟨.topLevel statics, RegisterPool.empty.take 0, .start⟩
  have hv := typed_compiles hp serves rfl valueOccurs s typedValue
  have ht := typed_compiles hp serves rfl targetOccurs s typedTarget
  exact ⟨p, _, value, target, s, hp, serves, rfl, hlive, valueOccurs, hliterals, typedValue, hv.1,
    targetOccurs, hplace, typedTarget, ht.2 hplace⟩

end WordScript
