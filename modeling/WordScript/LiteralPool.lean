import WordScript.Assembly
import WordScript.Tree

/-!
# The literal pool

The distinct string literals of a program. Each is kept once in static memory: a word with the
number of its characters, then a word for each character.
-/

namespace WordScript

mutual

def Expr.literals : Expr → List String
  | .string _ content => [content]
  | .integer .. | .float .. | .var .. => []
  | .call _ callee args => callee.literals ++ Expr.allLiterals args
  | .binary _ _ lhs rhs => lhs.literals ++ rhs.literals
  | .assign _ _ target value => target.literals ++ value.literals
  | .field _ inner _ | .unary _ _ inner | .addressOf _ inner | .dereference _ inner
  | .sizeOf _ inner => inner.literals

def Expr.allLiterals : List Expr → List String
  | [] => []
  | e :: rest => e.literals ++ Expr.allLiterals rest

end

mutual

def Statement.literals : Statement → List String
  | .ret _ none | .declare _ _ _ none => []
  | .ret _ (some e) | .expression _ e | .declare _ _ _ (some e) => e.literals
  | .block _ body => Statement.allLiterals body
  | .ifThen _ condition yes => condition.literals ++ yes.literals
  | .ifThenElse _ condition yes no => condition.literals ++ (yes.literals ++ no.literals)
  | .loop _ condition body => condition.literals ++ body.literals

def Statement.allLiterals : List Statement → List String
  | [] => []
  | s :: rest => s.literals ++ Statement.allLiterals rest

end

def Program.literals (p : Program) : List String :=
  p.statics.flatMap (fun d => d.init.elim [] Expr.literals) ++
    p.functions.flatMap (fun f => Statement.allLiterals f.body) ++
    (p.structs.flatMap (·.methods)).flatMap (fun f => Statement.allLiterals f.body) ++
    Statement.allLiterals p.body

/-- Distinct literals, and a table of their labels. The place of each is the number of its label. -/
structure LiteralPool where
  strings : List String
  labels : List (String × Label)
  distinct : strings.Nodup
  labelled : ∀ s, labels.lookup s = (strings.idxOf? s).map Label.string
  deriving DecidableEq, Repr

namespace LiteralPool

def empty : LiteralPool := ⟨[], [], List.nodup_nil, fun _ => rfl⟩

def label? (pool : LiteralPool) (s : String) : Option Label := pool.labels.lookup s

theorem notMem_strings {pool : LiteralPool} (h : ¬ (pool.label? s).isSome = true) :
    s ∉ pool.strings := by
  rw [Option.not_isSome_iff_eq_none, label?, pool.labelled, Option.map_eq_none_iff] at h
  exact List.idxOf?_eq_none_iff.mp h

theorem idxOf?_concat {strings : List String} (h : s ∉ strings) (t : String) :
    (strings ++ [s]).idxOf? t = if t = s then some strings.length else strings.idxOf? t := by
  rw [List.idxOf?, List.findIdx?_append, ← List.idxOf?]
  by_cases ht : t = s
  · subst ht
    simp [List.idxOf?_eq_none_iff.mpr h]
  · simp [ht, Ne.symm ht]

/-- Adds a literal under the next label, unless it is there already. -/
def add (pool : LiteralPool) (s : String) : LiteralPool :=
  if known : (pool.label? s).isSome then pool
  else {
    strings := pool.strings ++ [s]
    labels := (s, .string pool.strings.length) :: pool.labels
    distinct := by
      have hnew := notMem_strings known
      refine List.nodup_append.mpr ⟨pool.distinct, by simp, fun t ht u hu => ?_⟩
      obtain rfl := List.mem_singleton.mp hu
      rintro rfl
      exact hnew ht
    labelled := by
      intro t
      rw [idxOf?_concat (notMem_strings known), List.lookup_cons, pool.labelled]
      by_cases ht : t = s
      · simp [ht]
      · simp [ht, beq_false_of_ne ht] }

def collect (p : Program) : LiteralPool := p.literals.foldl add empty

def entries (pool : LiteralPool) : List (Label × String) :=
  pool.strings.filterMap fun s => (pool.label? s).map fun l => (l, s)

def wordsOf (s : String) : Nat := 1 + s.length

def totalWords : List String → Nat
  | [] => 0
  | s :: rest => wordsOf s + totalWords rest

def words (pool : LiteralPool) : Nat := totalWords pool.strings

end LiteralPool

end WordScript
