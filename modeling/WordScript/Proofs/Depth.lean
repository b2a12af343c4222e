import WordScript.Proofs.StackDiscipline

/-!
# The depth of frames

How many words generated code has on the stack at most, above where it starts. A frame counts
everything that its function pushes: variables, intermediate values, saved registers, and for each
call the room for the result, the receiver, the arguments and the return address. What a callee
pushes counts for the callee.
-/

namespace WordScript

def Structs.variableWords (structs : Structs) (scopes : List Scope) (name : String) : Nat :=
  (Frame.find? ⟨scopes, 0, none⟩ name).elim 0 fun v => structs.words v.type

section
variable (structs : Structs) (functions : Functions)

mutual

/-- The height of the code for an expression, with this many registers to save around each call. -/
def Expr.height (scopes : List Scope) (held : Nat) : Expr → Nat
  | .integer .. | .float .. | .string .. | .sizeOf .. => 1
  | .var _ name => structs.variableWords scopes name
  | .call _ callee args =>
    match Typing.callTarget ⟨structs, functions, ⟨scopes, 0, none⟩⟩ callee with
    | .error _ => 0
    | .ok target =>
      held + structs.words target.signature.returns + max (callee.receiverHeight scopes held)
        (Emit.receiverWords target.receiver +
          Expr.argumentsHeight scopes held (target.signature.params.map fun p =>
            structs.words p.2) args)
  | .binary _ (.logic _) lhs rhs => max (lhs.height scopes held) (rhs.height scopes held)
  | .binary _ (.arithmetic _) lhs rhs | .binary _ (.relation _) lhs rhs =>
    max (lhs.height scopes held) (1 + rhs.height scopes held)
  | .unary _ _ operand => operand.height scopes held
  | .assign _ _ target value =>
    max (target.placeHeight scopes held) (value.height scopes (held + 1))
  | .field _ base _ => base.height scopes held
  | .addressOf _ inner => max 1 (inner.placeHeight scopes held)
  | .dereference span inner =>
    max (inner.height scopes held)
      (match Typing.typeOf ⟨structs, functions, ⟨scopes, 0, none⟩⟩ (.dereference span inner) with
        | .ok type => structs.words type
        | .error _ => 0)

def Expr.placeHeight (scopes : List Scope) (held : Nat) : Expr → Nat
  | .field _ base _ => base.placeHeight scopes held
  | .dereference _ inner => inner.height scopes held
  | _ => 0

def Expr.receiverHeight (scopes : List Scope) (held : Nat) : Expr → Nat
  | .field _ base _ => base.placeHeight scopes held
  | _ => 0

/-- The height of the code for arguments of these sizes and the return address behind them. -/
def Expr.argumentsHeight (scopes : List Scope) (held : Nat) : List Nat → List Expr → Nat
  | words :: sizes, e :: rest =>
    max (e.height scopes held) (words + Expr.argumentsHeight scopes held sizes rest)
  | _, _ => 1

end

def Statement.next (frame : Frame) : Statement → Frame
  | .declare _ written name _ =>
    match structs.resolveStored written with
    | .error _ => frame
    | .ok type =>
      match (frame.push (structs.words type)).declare structs name.text type with
      | .error _ => frame
      | .ok frame' => frame'
  | _ => frame

def Statement.bodyFrame (frame : Frame) : Statement → Frame
  | .block .. => frame
  | _ => frame.enter

mutual

def Statement.height (frame : Frame) : Statement → Nat
  | .ret _ none => 0
  | .ret _ (some e) | .expression _ e => e.height structs functions frame.scopes 0
  | .declare _ _ _ (some e) => e.height structs functions frame.scopes 0
  | .declare _ written _ none =>
    match structs.resolveStored written with
    | .error _ => 0
    | .ok type => structs.words type
  | .block _ ss => Statement.allHeight frame.enter ss
  | .ifThen _ test yes => max (test.height structs functions frame.scopes 0)
      (yes.height (yes.bodyFrame frame))
  | .ifThenElse _ test yes no =>
    max (test.height structs functions frame.scopes 0)
      (max (yes.height (yes.bodyFrame frame)) (no.height (no.bodyFrame frame)))
  | .loop _ test repeated => max (test.height structs functions frame.scopes 0)
      (repeated.height (repeated.bodyFrame frame))

def Statement.allHeight (frame : Frame) : List Statement → Nat
  | [] => 0
  | s :: rest =>
    max (s.height frame) (s.declaredWords structs + Statement.allHeight (s.next structs frame) rest)

end

end

end WordScript
