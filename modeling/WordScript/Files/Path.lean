import WordScript.Text.Source

/-!
# Paths

Paths as text, and the places that they lead to. A place is reached from the working directory by
going some levels up and then down along names, or down from the root; so each place has one form,
in which no `.` or `..` is left.
-/

namespace WordScript

namespace Path

def parts (path : String) : List (List Char) := splitWhere (· == '/') path.toList

/-- A file name without its extension: what stands before the last dot, unless nothing does. -/
def stem (name : List Char) : List Char :=
  match (name.reverse.dropWhile (· != '.')).drop 1 with
  | [] => name
  | before => before.reverse

def splitLast? : List (List Char) → Option (List (List Char) × List Char)
  | [] => none
  | part :: before =>
    if part = [] ∨ (part = ['.'] ∧ before ≠ []) then splitLast? before
    else if part = ['.'] ∨ part = ['.', '.'] then none
    else some (before, part)

/-- The path with another extension. A path that ends in no file name stays as it is. -/
def withExtension (path extension : String) : String :=
  match splitLast? (parts path).reverse with
  | none => path
  | some (before, name) =>
    String.ofList (['/'].intercalate (((stem name ++ '.' :: extension.toList) :: before).reverse))

def maxLength : Nat := 4095

def maxNameLength : Nat := 255

structure Route where
  fromRoot : Bool
  before : List (List Char)
  last : List Char
  /-- Whether a slash follows the last part. -/
  slash : Bool
  deriving DecidableEq, Repr

/-- The route of a path. That of slashes alone is the route of `.` from the root. -/
def route (path : String) : Route :=
  let fromRoot := path.startsWith "/"
  match (parts path).reverse.dropWhile (· == []) with
  | [] => ⟨fromRoot, [], ['.'], true⟩
  | last :: before => ⟨fromRoot, before.reverse, last, path.endsWith "/"⟩

end Path

inductive Anchor
  | above (levels : Nat)
  | root
  deriving DecidableEq, Repr

structure Place where
  anchor : Anchor
  names : List (List Char)
  deriving DecidableEq, Repr

namespace Place

def workingDirectory : Place := ⟨.above 0, []⟩

def root : Place := ⟨.root, []⟩

def nullDevice : Place := ⟨.root, ["dev".toList, "null".toList]⟩

def child (p : Place) (name : List Char) : Place := { p with names := p.names ++ [name] }

def parent (p : Place) : Place :=
  match p.names, p.anchor with
  | [], .above levels => ⟨.above (levels + 1), []⟩
  | [], .root => p
  | names, anchor => ⟨anchor, names.dropLast⟩

def contains (p q : Place) : Bool :=
  p.anchor = q.anchor && p.names.isPrefixOf q.names && p.names ≠ q.names

end Place

end WordScript
