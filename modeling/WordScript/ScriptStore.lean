import WordScript.Machine.Run

/-!
# Script stores

Assembled scripts by number, for a host that runs them on demand.
-/

namespace WordScript

abbrev ScriptId := UInt32

structure ScriptStore where
  scripts : List (ScriptId × Bytecode)
  deriving DecidableEq, Repr

namespace ScriptStore

def empty : ScriptStore := ⟨[]⟩

def load? (s : ScriptStore) (id : ScriptId) : Option Bytecode := s.scripts.lookup id

def erase (s : ScriptStore) (id : ScriptId) : ScriptStore := ⟨s.scripts.filter (·.1 != id)⟩

def insert (s : ScriptStore) (id : ScriptId) (code : Bytecode) : ScriptStore :=
  ⟨(id, code) :: (s.erase id).scripts⟩

/-- Of two scripts with one number the later is kept. -/
def ofList (scripts : List (ScriptId × Bytecode)) : ScriptStore :=
  scripts.foldl (fun s (id, code) => s.insert id code) empty

def size (s : ScriptStore) : Nat := s.scripts.length

def isEmpty (s : ScriptStore) : Bool := s.scripts.isEmpty

def machine? (s : ScriptStore) (id : ScriptId) (config : MachineConfig) : Option Machine :=
  (s.load? id).map (.load · config)

end ScriptStore

end WordScript
