import WordScript.Files
import WordScript.Script

/-!
# Commands

The command line as a function: what the arguments ask for, and what a command does with the text of
its input file. A command that runs a script ends in a machine that is ready to start.
-/

namespace WordScript

inductive Command
  /-- Write the assembly of a script. -/
  | compile (file : String) (output : Option String)
  /-- Write the bytecode of an assembly file. -/
  | assemble (file : String) (output : Option String)
  /-- Run a bytecode file. -/
  | run (file : String) (config : MachineConfig)
  /-- Compile, assemble and run a script. -/
  | execute (file : String) (config : MachineConfig)
  deriving DecidableEq, Repr

/-! ## Arguments

The program leaves its arguments to a library. The rules by which that library tells options, values
and files apart are written down here as they were observed, and no result depends on them.
-/

structure OptionName where
  long : String
  short : Option Char
  deriving DecidableEq, Repr

namespace OptionName

def output : OptionName := ⟨"output", some 'o'⟩

def memory : OptionName := ⟨"memory", none⟩

def steps : OptionName := ⟨"steps", none⟩

end OptionName

/-- Arguments in the roles that the argument library gives them. An option may have been left
without a value. -/
structure Arguments where
  values : List (OptionName × Option String)
  files : List String

namespace Arguments

def attached (rest : List Char) : Option String :=
  if rest = [] then none else some (String.ofList (rest.dropWhile (· == '=')))

/-- What an argument that starts with a dash is: an option, and its value if that is attached. A
long name follows two dashes or more. -/
def readOption? (options : List OptionName) (arg : List Char) :
    Option (OptionName × Option String) :=
  match arg with
  | '-' :: '-' :: rest =>
    let long := rest.dropWhile (· == '-')
    let name := String.ofList (long.takeWhile (· != '='))
    (options.find? (·.long == name)).map fun o => (o, attached (long.dropWhile (· != '=')))
  | '-' :: c :: rest => (options.find? (·.short == some c)).map fun o => (o, attached rest)
  | _ => none

def isOption (arg : String) : Bool :=
  match arg.toList with
  | '-' :: _ :: _ => true
  | _ => false

/-- Sorts arguments; none if an option is unknown. The value of an option is attached to it or is
the next argument, if that is no option. After `--` there are only files. -/
def read? (options : List OptionName) : List String → Option Arguments
  | [] => some ⟨[], []⟩
  | "--" :: rest => some ⟨[], rest⟩
  | arg :: rest =>
    if !isOption arg then (read? options rest).map fun a => { a with files := arg :: a.files }
    else match readOption? options arg.toList with
      | none => none
      | some (o, some value) =>
        (read? options rest).map fun a => { a with values := (o, some value) :: a.values }
      | some (o, none) =>
        match rest with
        | [] => some ⟨[(o, none)], []⟩
        | next :: more =>
          if isOption next then
            (read? options (next :: more)).map fun a => { a with values := (o, none) :: a.values }
          else (read? options more).map fun a => { a with values := (o, some next) :: a.values }
  termination_by structural args => args

def file? (a : Arguments) : Option String :=
  match a.files with
  | [file] => some file
  | _ => none

/-- What was given for an option: nothing, or a value that may be missing; none if it was given
twice. -/
def given? (a : Arguments) (o : OptionName) : Option (Option (Option String)) :=
  match a.values.filter (·.1 == o) with
  | [] => some none
  | [(_, value)] => some (some value)
  | _ => none

def value? (a : Arguments) (o : OptionName) : Option (Option String) := do
  match ← a.given? o with
  | none => some none
  | some none => none
  | some (some value) => some (some value)

def number? (a : Arguments) (o : OptionName) (default : Nat) : Option Nat := do
  match (← a.given? o).join with
  | none => some default
  | some value => readNatBelow? sizeBound value.toList

/-- The machine that the options describe. Zero steps stand for no limit. -/
def config? (a : Arguments) : Option MachineConfig := do
  let memory ← a.number? .memory 65536
  let steps ← a.number? .steps 10000000
  return ⟨memory, if steps = 0 then none else some steps⟩

end Arguments

namespace Command

/-- The command that arguments ask for, if they make sense to the argument library. Only the names
of commands and options and the defaults are the program's own. -/
def ofArgs? : List String → Option Command
  | "compile" :: rest => do
    let a ← Arguments.read? [.output] rest
    return .compile (← a.file?) (← a.value? .output)
  | "assemble" :: rest => do
    let a ← Arguments.read? [.output] rest
    return .assemble (← a.file?) (← a.value? .output)
  | "run" :: rest => do
    let a ← Arguments.read? [.memory, .steps] rest
    return .run (← a.file?) (← a.config?)
  | "execute" :: rest => do
    let a ← Arguments.read? [.memory, .steps] rest
    return .execute (← a.file?) (← a.config?)
  | _ => none

/-! ## Effects -/

def assemblyExtension : String := "shascr"

def bytecodeExtension : String := "shascrbyte"

def input : Command → String
  | compile file _ | assemble file _ | run file _ | execute file _ => file

end Command

inductive Outcome
  | fail (message : String)
  /-- Write a file, then print. -/
  | write (file content printed : String)
  | start (m : Machine)

structure Reply where
  exit : UInt32
  stdout : String
  stderr : String
  deriving DecidableEq, Repr

namespace Reply

def failed (message : String) : Reply := ⟨1, "", message ++ "\n"⟩

def printed (text : String) : Reply := ⟨0, text, ""⟩

def ofEnding : Ending → Reply
  | .error e => failed e.message
  | .ok t => printed (t.topOfStack?.elim "(empty stack)" Word.text ++ "\n")

end Reply

namespace Command

def apply (c : Command) (text : String) : Outcome :=
  let source : SourceText := ⟨text, some c.input⟩
  match c with
  | compile file output =>
    match Assembly.ofSource source with
    | .error e => .fail (e.locate source).render
    | .ok assembly => .write (output.getD (Path.withExtension file assemblyExtension))
        assembly.text ""
  | assemble file output =>
    match Bytecode.ofAssembly source with
    | .error e => .fail (e.locate source).render
    | .ok code =>
      .write (output.getD (Path.withExtension file bytecodeExtension)) code.lines
        (code.line ++ "\n")
  | run _ config =>
    match Bytecode.read text with
    | .error e => .fail e.message
    | .ok code => .start (.load code config)
  | execute file config =>
    match Bytecode.ofScript source (some (Path.withExtension file assemblyExtension)) with
    | .error e => .fail e.message
    | .ok code => .start (.load code config)

/-- Performs a command on files: the reply, or the machine whose run gives it, and the files left.
-/
def perform (c : Command) (files : Files) : (Reply ⊕ Machine) × Files :=
  match files.read c.input with
  | .error e => (.inl (.failed e.message), files)
  | .ok text =>
    match c.apply text with
    | .fail message => (.inl (.failed message), files)
    | .start m => (.inr m, files)
    | .write path content printed =>
      match files.write path content with
      | .error e => (.inl (.failed e.message), files)
      | .ok files => (.inl (.printed printed), files)

end Command

end WordScript
