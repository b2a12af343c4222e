import WordScript.Text.Source
import WordScript.Text.Padding

/-!
# Faults and diagnostics

A fault is a cause with the span it concerns and what was being done, innermost activity first. The
stages of the toolchain report faults. A diagnostic is a cause as a reader sees it: `Fault.locate`
looks the span up in the source text, and `Diagnostic.render` shows the line with a marker under the
place.
-/

namespace WordScript

/-- A cause at a place, with the activities it interrupted in the order they were left. -/
structure Fault (κ : Type) where
  cause : κ
  span : Span
  contexts : List String
  deriving DecidableEq, Repr

namespace Fault

variable {κ μ : Type}

def raise (cause : κ) (span : Span) : Fault κ := ⟨cause, span, []⟩

def map (f : κ → μ) (e : Fault κ) : Fault μ := ⟨f e.cause, e.span, e.contexts⟩

def within (context : String) (e : Fault κ) : Fault κ :=
  { e with contexts := e.contexts ++ [context] }

end Fault

/-- Runs `body` and, if it fails, records that the fault left `context`. The state is kept. -/
def within {κ σ α : Type} (context : String) (body : EStateM (Fault κ) σ α) :
    EStateM (Fault κ) σ α :=
  fun s => match body s with
    | .ok a s => .ok a s
    | .error e s => .error (e.within context) s

structure Diagnostic (κ : Type) where
  cause : κ
  file : Option String
  snippet : Option Snippet
  contexts : List String
  deriving DecidableEq, Repr

namespace Diagnostic

variable {κ μ : Type}

def ofCause (cause : κ) : Diagnostic κ := ⟨cause, none, none, []⟩

/-- Takes its place from `span` in `source`, which may lie outside the text. -/
def withSource (d : Diagnostic κ) (span : Span) (source : SourceText) : Diagnostic κ :=
  { d with file := source.file, snippet := source.locate? span.offset }

def withBackupSource (d : Diagnostic κ) (span : Span) (source : SourceText) : Diagnostic κ :=
  if d.snippet.isSome then d else d.withSource span source

def addContext (d : Diagnostic κ) (context : String) : Diagnostic κ :=
  { d with contexts := d.contexts ++ [context] }

def map (f : κ → μ) (d : Diagnostic κ) : Diagnostic μ := ⟨f d.cause, d.file, d.snippet, d.contexts⟩

def position? (d : Diagnostic κ) : Option Position := d.snippet.map (·.position)

def trail (contexts : List String) : String :=
  String.join (contexts.map ("\nwhile " ++ ·))

/-- The cause, the place, the line and a marker under the column, then the interrupted activities.
-/
def render [ToString κ] (d : Diagnostic κ) : String :=
  match d.snippet with
  | none => s!"{d.cause}(no location info){trail d.contexts}"
  | some ⟨position, line⟩ =>
    let file := d.file.getD "<unknown source>"
    s!"{d.cause}\n   --> {file}:{position.text}\n    |\n" ++
      padLeft 3 (toString position.line) ++ s!" | {line}\n    | " ++
      padLeft position.column "^" ++ trail d.contexts

end Diagnostic

def Fault.locate {κ : Type} (source : SourceText) (e : Fault κ) : Diagnostic κ :=
  { Diagnostic.ofCause e.cause |>.withSource e.span source with contexts := e.contexts }

end WordScript
