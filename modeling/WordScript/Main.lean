import WordScript.Command

/-!
# The command line

Reads the input file of a command, lets `Command.apply` decide, and carries that out.
-/

namespace WordScript.CommandLine

def usage : String :=
  "usage: compile FILE [-o OUTPUT] | assemble FILE [-o OUTPUT] | " ++
    "run FILE [--memory WORDS] [--steps COUNT] | execute FILE [--memory WORDS] [--steps COUNT]"

/-- Runs a machine to its end, which one without a step budget may not have. -/
partial def finish (m : Machine) : IO Ending :=
  match m.runFor 65536 with
  | .inl m => finish m
  | .inr ending => return ending

def fileMessage (e : IO.Error) : String :=
  let known (code : UInt32) : Option FileError :=
    [.notFound, .notDirectory, .isDirectory, .nameTooLong].find? fun f =>
      f.code == code.toNat || f.code == (0 - code).toNat
  let found := match e with
    | .noFileOrDirectory _ code _ | .inappropriateType _ code _ | .invalidArgument _ code _ =>
      known code
    | _ => none
  found.elim (toString e) FileError.message

def perform (c : Command) : IO Reply := do
  let some text := String.fromUTF8? (← IO.FS.readBinFile c.input)
    | return .failed "stream did not contain valid UTF-8"
  match c.apply text with
  | .fail message => return .failed message
  | .start m => return .ofEnding (← finish m)
  | .write path content printed =>
    IO.FS.writeFile path content
    return .printed printed

def reply (args : List String) : IO Reply := do
  match Command.ofArgs? args with
  | none => return .failed usage
  | some c =>
    try perform c catch e => return .failed (fileMessage e)

end WordScript.CommandLine

def main (args : List String) : IO UInt32 := do
  let reply ← WordScript.CommandLine.reply args
  IO.print reply.stdout
  IO.eprint reply.stderr
  return reply.exit
