import WordScript.Text.Quoted

/-!
# Type errors

Why a script that parses cannot be compiled. Types are shown as they are written in scripts.
-/

namespace WordScript

inductive TypeError
  | unknownIdentifier (name : String)
  | unknownType (name : String)
  | unknownField (type field : String)
  | fieldOfNonStruct (type field : String)
  | derefNonReference (type : String)
  | notAddressable
  | unresolvedFunction (function : String)
  | argumentCount (function : String) (expected found : Nat)
  | mismatch (expected found : String)
  | invalidOperand (type : String)
  | recursiveType (name : String)
  | redeclared (name : String)
  | invalidVariableType (type : String)
  | missingReturn (function : String)
  | registersExhausted
  deriving DecidableEq, Repr

def TypeError.message : TypeError → String
  | unknownIdentifier name => s!"unknown identifier: {quoteText name}"
  | unknownType name => s!"unknown type: {quoteText name}"
  | unknownField type field => s!"type {type} has no field {quoteText field}"
  | fieldOfNonStruct type field =>
    s!"can't access field {quoteText field} of non-struct type {type}"
  | derefNonReference type => s!"can't dereference a value of non-reference type {type}"
  | notAddressable => "expression is not addressable"
  | unresolvedFunction function => s!"unresolved function: {function}"
  | argumentCount function expected found =>
    s!"{function} expects {expected} arguments, but {found} were given"
  | mismatch expected found => s!"mismatched types: expected {expected}, found {found}"
  | invalidOperand type => s!"operator can't be applied to a value of type {type}"
  | recursiveType name => s!"struct {name} can't contain itself"
  | redeclared name => s!"{quoteText name} was already declared"
  | invalidVariableType type => s!"can't declare a variable of type {type}"
  | missingReturn function => s!"function {quoteText function} doesn't return a value on every path"
  | registersExhausted => "ran out of scratch registers"

instance : ToString TypeError := ⟨TypeError.message⟩

end WordScript
