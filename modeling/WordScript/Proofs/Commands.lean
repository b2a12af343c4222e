import WordScript.Command
import WordScript.Proofs.Assembles
import WordScript.Proofs.Bytecode
import WordScript.Proofs.Files

/-!
# Running a script in steps

A script can be executed at once, or compiled, assembled and run by three commands that hand files
on to each other. Both ways start the same machine: what is compiled assembles, and both files are
read back as what was written into them.
-/

namespace WordScript

namespace Command

def assemblyFile (file : String) : String := Path.withExtension file assemblyExtension

def bytecodeFile (file : String) : String := Path.withExtension file bytecodeExtension

theorem read_assemblyFile {f g : Files} (found : g.read file = .ok text)
    (written : f.write (assemblyFile file) content = .ok f') :
    f'.read (assemblyFile file) = .ok content := by
  rw [assemblyFile] at written ⊢
  exact Files.read_write_withExtension found (by decide) written

theorem read_bytecodeFile {f g : Files} (found : g.read file = .ok text)
    (written : f.write (bytecodeFile file) content = .ok f') :
    f'.read (bytecodeFile file) = .ok content := by
  rw [bytecodeFile] at written ⊢
  exact Files.read_write_withExtension found (by decide) written

/-- The reply of a command: at once, or with the end of the machine that it starts if that comes
within `n` steps. -/
def reply? (c : Command) (files : Files) (n : Nat) : Option Reply :=
  match (c.perform files).1 with
  | .inl reply => some reply
  | .inr m => (m.runFor n).getRight?.map .ofEnding

def Replies (c : Command) (files : Files) (reply : Reply) : Prop :=
  ∃ n, c.reply? files n = some reply

theorem Replies.congr {c c' : Command} (h : (c.perform files).1 = (c'.perform files').1)
    (reply : Reply) : c.Replies files reply ↔ c'.Replies files' reply := by
  simp only [Replies, reply?, h]

/-! ### One command -/

section
variable {c : Command} {files : Files} (found : files.read c.input = .ok text)
include found

theorem perform_fail (h : c.apply text = .fail message) :
    c.perform files = (.inl (.failed message), files) := by
  rw [perform, found]
  simp only [h]

theorem perform_start (h : c.apply text = .start m) : c.perform files = (.inr m, files) := by
  rw [perform, found]
  simp only [h]

theorem perform_write (h : c.apply text = .write path content shown)
    (written : files.write path content = .ok files') :
    c.perform files = (.inl (.printed shown), files') := by
  rw [perform, found]
  simp only [h, written]

end

theorem perform_compile {files : Files} (source : files.read file = .ok text)
    (compiled : Assembly.ofSource ⟨text, some file⟩ = .ok a)
    (written : files.write (assemblyFile file) a.text = .ok files') :
    (compile file none).perform files = (.inl (.printed ""), files') := by
  refine perform_write (c := compile file none) source ?_ written
  delta apply
  simp only [input]
  rw [compiled]
  rfl

theorem perform_assemble {files : Files} (compiled : Assembly.ofSource source = .ok a)
    (found : files.read file = .ok a.text)
    (written : files.write (bytecodeFile file) (Bytecode.ofList (a.words a.value)).lines =
      .ok files') :
    (assemble file none).perform files =
      (.inl (.printed ((Bytecode.ofList (a.words a.value)).line ++ "\n")), files') := by
  obtain ⟨p, -, complete⟩ := Assembly.complete_of_source compiled
  have assembled :=
    Bytecode.ofAssembly_text complete.writable complete.distinct complete.closed (some file)
  refine perform_write (c := assemble file none) found ?_ written
  delta apply
  simp only [input]
  rw [assembled]
  rfl

theorem perform_run {code : Bytecode} {files : Files} (found : files.read file = .ok code.lines)
    (config : MachineConfig) :
    (run file config).perform files = (.inr (.load code config), files) := by
  obtain ⟨parts, cut, lists⟩ := code.lines_cut
  have hread : Bytecode.read code.lines = .ok code := Bytecode.read_lists cut lists
  refine perform_start (c := run file config) found ?_
  delta apply
  simp only
  rw [hread]

theorem perform_execute {files : Files} (source : files.read file = .ok text)
    (compiled : Assembly.ofSource ⟨text, some file⟩ = .ok a) (config : MachineConfig) :
    (execute file config).perform files =
      (.inr (.load (.ofList (a.words a.value)) config), files) := by
  obtain ⟨p, parsed, -⟩ := Assembly.complete_of_source compiled
  refine perform_start (c := execute file config) source ?_
  delta apply
  simp only [input]
  rw [Bytecode.ofScript_words parsed compiled]

theorem perform_compile_error {files : Files} (source : files.read file = .ok text)
    (h : Assembly.ofSource ⟨text, some file⟩ = .error e) (output : Option String) :
    (compile file output).perform files =
      (.inl (.failed (e.locate ⟨text, some file⟩).render), files) := by
  refine perform_fail (c := compile file output) source ?_
  delta apply
  simp only [input]
  rw [h]

theorem perform_execute_error {files : Files} (source : files.read file = .ok text)
    (h : Assembly.ofSource ⟨text, some file⟩ = .error e) (config : MachineConfig) :
    (execute file config).perform files =
      (.inl (.failed (e.locate ⟨text, some file⟩).render), files) := by
  have hscript : Bytecode.ofScript ⟨text, some file⟩
    (some (Path.withExtension file assemblyExtension)) =
      .error (.compile (e.locate ⟨text, some file⟩)) := by
    rw [Bytecode.ofScript, h]
    rfl
  refine perform_fail (c := execute file config) source ?_
  delta apply
  simp only [input]
  rw [hscript]
  rfl

/-! ### All commands -/

/-- A script that compiles is executed with the same reply at once or in steps, for every size of
the memory and every step budget: compiling and assembling succeed, and the same machine starts,
provided that nothing is in the way of the two files they write. A script that does not compile gets
the same message from both, and no file is written. -/
theorem execute_eq_steps (source : files.read file = .ok text) (config : MachineConfig) :
    (∀ a, Assembly.ofSource ⟨text, some file⟩ = .ok a →
      files.Takes (assemblyFile file) → files.Takes (bytecodeFile (assemblyFile file)) →
      ∃ files₁ files₂ shown m,
        (compile file none).perform files = (.inl (.printed ""), files₁) ∧
        (assemble (assemblyFile file) none).perform files₁ = (.inl (.printed shown), files₂) ∧
        (run (bytecodeFile (assemblyFile file)) config).perform files₂ = (.inr m, files₂) ∧
        (execute file config).perform files = (.inr m, files) ∧
        ∀ reply, (run (bytecodeFile (assemblyFile file)) config).Replies files₂ reply ↔
          (execute file config).Replies files reply) ∧
    ∀ e, Assembly.ofSource ⟨text, some file⟩ = .error e → ∃ message,
      (compile file none).perform files = (.inl (.failed message), files) ∧
      (execute file config).perform files = (.inl (.failed message), files) := by
  constructor
  · intro a compiled takes takes'
    obtain ⟨files₁, written⟩ := takes a.text
    have assembly := read_assemblyFile source written
    obtain ⟨files₂, written'⟩ := takes'.write written (Bytecode.ofList (a.words a.value)).lines
    have bytecode := read_bytecodeFile assembly written'
    have hrun := perform_run bytecode config
    have hexecute := perform_execute source compiled config
    refine ⟨files₁, files₂, _, _, perform_compile source compiled written,
      perform_assemble compiled assembly written', hrun, hexecute, Replies.congr ?_⟩
    rw [hrun, hexecute]
  · intro e h
    exact ⟨_, perform_compile_error source h none, perform_execute_error source h config⟩

def sampleFiles : Files :=
  .ofList [("src/two.dots.txt", "return 6 * 7;"), ("bad.txt", "return 6 *;")]

theorem execute_eq_steps_sampleFiles :
    (∃ files₁ files₂ shown,
      (compile "src/two.dots.txt" none).perform sampleFiles = (.inl (.printed ""), files₁) ∧
      (assemble "src/two.dots.shascr" none).perform files₁ = (.inl (.printed shown), files₂) ∧
      (run "src/two.dots.shascrbyte" ⟨256, some 1000⟩).Replies files₂ (.printed "42\n")) ∧
    ∃ message, (compile "bad.txt" none).perform sampleFiles =
      (.inl (.failed message), sampleFiles) ∧
      (execute "bad.txt" ⟨256, some 1000⟩).perform sampleFiles =
        (.inl (.failed message), sampleFiles) := by
  constructor
  · have source : sampleFiles.read "src/two.dots.txt" = .ok "return 6 * 7;" := by decide +kernel
    have hassembly : assemblyFile "src/two.dots.txt" = "src/two.dots.shascr" := by decide +kernel
    have hbytecode : bytecodeFile "src/two.dots.shascr" = "src/two.dots.shascrbyte" := by
      decide +kernel
    have hruns :
      ((Assembly.ofSource ⟨"return 6 * 7;", some "src/two.dots.txt"⟩).toOption.bind fun a =>
        ((Machine.load (.ofList (a.words a.value)) ⟨256, some 1000⟩).runFor 1000).getRight?.map
          Reply.ofEnding) =
        some (.printed "42\n") := by decide +kernel
    have takes : sampleFiles.Takes "src/two.dots.shascr" :=
      Files.takes_iff.mpr ⟨⟨.above 0, ["src".toList, "two.dots.shascr".toList]⟩, by decide +kernel⟩
    have takes' : sampleFiles.Takes "src/two.dots.shascrbyte" :=
      Files.takes_iff.mpr ⟨⟨.above 0, ["src".toList, "two.dots.shascrbyte".toList]⟩,
        by decide +kernel⟩
    obtain ⟨a, compiled, hruns⟩ := of_toOption_bind hruns
    have hreply : (execute "src/two.dots.txt" ⟨256, some 1000⟩).reply? sampleFiles 1000 =
        some (.printed "42\n") := by
      rw [reply?, perform_execute source compiled]
      exact hruns
    obtain ⟨files₁, files₂, shown, m, hcompile, hassemble, -, -, hreplies⟩ :=
      (execute_eq_steps source ⟨256, some 1000⟩).1 a compiled (hassembly ▸ takes)
        (by rw [hassembly, hbytecode]; exact takes')
    rw [hassembly] at hassemble hreplies
    rw [hbytecode] at hreplies
    exact ⟨files₁, files₂, shown, hcompile, hassemble, (hreplies _).mpr ⟨1000, hreply⟩⟩
  · have source : sampleFiles.read "bad.txt" = .ok "return 6 *;" := by decide +kernel
    have hnone : (Assembly.ofSource ⟨"return 6 *;", some "bad.txt"⟩).toOption.isNone := by
      decide +kernel
    cases he : Assembly.ofSource ⟨"return 6 *;", some "bad.txt"⟩ with
    | ok a => simp [he, Except.toOption] at hnone
    | error e => exact (execute_eq_steps source ⟨256, some 1000⟩).2 e he

end Command

end WordScript
