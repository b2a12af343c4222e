import WordScript.Token.Stream
import WordScript.ScriptStore
import WordScript.Main
import WordScript.Proofs.StackDiscipline
import WordScript.Proofs.Emit.Agreement
import WordScript.Proofs.Assembles
import WordScript.Proofs.Bytecode
import WordScript.Proofs.Assembly.Listing
import WordScript.Proofs.Safety.Programs
import WordScript.Proofs.Calls.Registers
import WordScript.Proofs.ControlFlow
import WordScript.Proofs.Faults.Programs
import WordScript.Proofs.Frames.Disjoint
import WordScript.Proofs.Places.Layout
import WordScript.Proofs.StaticMemory
import WordScript.Proofs.StructLayout
import WordScript.Proofs.Integers.Programs
import WordScript.Proofs.Machine.Resources
import WordScript.Proofs.Grammar.Progress
import WordScript.Proofs.Grammar.RoundTrip
import WordScript.Proofs.Grammar.Strata
import WordScript.Proofs.Grammar.Tiling
import WordScript.Proofs.Positions.Markers
import WordScript.Proofs.Registers.Discipline
import WordScript.Proofs.Commands
import WordScript.Proofs.Values.Update
