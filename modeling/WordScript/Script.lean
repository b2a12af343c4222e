import WordScript.Assembly.Assemble
import WordScript.Emit.Program
import WordScript.Machine.Run
import WordScript.Parser.Program

/-!
# Scripts

From the source of a script to assembly and on to bytecode, with the errors of each stage.
-/

namespace WordScript

inductive CompileError
  | parse (cause : ParseError)
  | type (cause : TypeError)
  deriving DecidableEq, Repr

def CompileError.message : CompileError → String
  | parse cause => cause.message
  | type cause => cause.message

instance : ToString CompileError := ⟨CompileError.message⟩

def Assembly.ofSource (source : SourceText) : Except (Fault CompileError) Assembly := do
  let program ← (Program.ofSource source).mapError (·.map .parse)
  (ofProgram program).mapError (·.map .type)

inductive ScriptError
  | compile (d : Diagnostic CompileError)
  | assemble (d : Diagnostic AssembleError)
  | run (e : Failure)
  deriving DecidableEq, Repr

def ScriptError.message : ScriptError → String
  | compile d => d.render
  | assemble d => d.render
  | run e => s!"runtime failure: {e.message}"

/-- The bytecode of a script. Its assembly is read from text, which belongs to `assemblyFile`. -/
def Bytecode.ofScript (source : SourceText) (assemblyFile : Option String) :
    Except ScriptError Bytecode := do
  let assembly ← (Assembly.ofSource source).mapError fun e => .compile (e.locate source)
  let text : SourceText := ⟨assembly.text, assemblyFile⟩
  (Bytecode.ofAssembly text).mapError fun e => .assemble (e.locate text)

end WordScript
