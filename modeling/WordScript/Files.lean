import WordScript.Files.Path

/-!
# Files

Text files as a map from places to contents. There are no empty directories: one exists if a file
lies in it, apart from the working directory, those above it and the root, which always do. What
else lies outside of the working directory is not known, except for the null device.
-/

namespace WordScript

inductive FileError
  | notFound
  | notDirectory
  | isDirectory
  | nameTooLong
  deriving DecidableEq, Repr

namespace FileError

def code : FileError → Nat
  | notFound => 2
  | notDirectory => 20
  | isDirectory => 21
  | nameTooLong => 36

def reason : FileError → String
  | notFound => "No such file or directory"
  | notDirectory => "Not a directory"
  | isDirectory => "Is a directory"
  | nameTooLong => "File name too long"

def message (e : FileError) : String := s!"{e.reason} (os error {e.code})"

end FileError

structure Files where
  entries : List (Place × String)
  deriving DecidableEq, Repr

namespace Files

def ofList (files : List (String × String)) : Files :=
  ⟨files.map fun (path, content) => (⟨.above 0, Path.parts path⟩, content)⟩

def toList (f : Files) : List (String × String) :=
  f.entries.filterMap fun (p, content) =>
    if p.anchor = .above 0 then some (String.ofList (['/'].intercalate p.names), content) else none

def content? (f : Files) (p : Place) : Option String :=
  if p = .nullDevice then some "" else f.entries.lookup p

def isDirectory (f : Files) (p : Place) : Bool :=
  p.names = [] || p.contains .nullDevice || f.entries.any fun (q, _) => p.contains q

def enter (f : Files) (p : Place) (part : List Char) : Except FileError Place :=
  if part = [] ∨ part = ['.'] then .ok p
  else if part = ['.', '.'] then .ok p.parent
  else if Path.maxNameLength < byteLength part then .error .nameTooLong
  else if f.isDirectory (p.child part) then .ok (p.child part)
  else if (f.content? (p.child part)).isSome then .error .notDirectory
  else .error .notFound

def walk (f : Files) (p : Place) : List (List Char) → Except FileError Place
  | [] => .ok p
  | part :: rest => do f.walk (← f.enter p part) rest

/-- The place that a path leads to. Every part but the last has to be a directory, and the last a
name; with `refuseSlash` no slash may follow it. -/
def locate (f : Files) (refuseSlash : Bool) (path : String) : Except FileError Place := do
  if path.isEmpty then throw .notFound
  if Path.maxLength < byteLength path.toList then throw .nameTooLong
  let route := Path.route path
  let directory ← f.walk (if route.fromRoot then .root else .workingDirectory) route.before
  if route.last = ['.'] ∨ route.last = ['.', '.'] then throw .isDirectory
  if route.slash ∧ refuseSlash then throw .isDirectory
  if Path.maxNameLength < byteLength route.last then throw .nameTooLong
  let place := directory.child route.last
  if f.isDirectory place then throw .isDirectory
  if route.slash ∧ (f.content? place).isSome then throw .notDirectory
  return place

def read (f : Files) (path : String) : Except FileError String := do
  match f.content? (← f.locate false path) with
  | some content => return content
  | none => throw .notFound

/-- Makes or replaces a file. The null device takes everything and stays empty. -/
def write (f : Files) (path content : String) : Except FileError Files := do
  let place ← f.locate true path
  if place = .nullDevice then return f
  return ⟨(place, content) :: f.entries.filter (·.1 ≠ place)⟩

end Files

end WordScript
