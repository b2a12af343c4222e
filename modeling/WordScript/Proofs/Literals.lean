import Mathlib.Algebra.Ring.Nat
import Mathlib.Data.List.Basic
import Mathlib.Tactic.MkIffOfInductiveProp
import WordScript.LiteralPool

/-!
# Literals and where they occur

An expression occurs in a program as a static initialiser, in a body or outside of functions, or as
an operand of one that does. The literal pool holds the strings that so occur, each once and under
the label that its place in the pool gives it (`literals_pooled`).
-/

namespace WordScript

/-! ### Parts of programs -/

mutual

def Expr.parts : Expr → List Expr
  | .integer span value => [.integer span value]
  | .float span bits => [.float span bits]
  | .string span content => [.string span content]
  | .var span name => [.var span name]
  | .call span callee args => .call span callee args :: (callee.parts ++ Expr.allParts args)
  | .binary span op lhs rhs => .binary span op lhs rhs :: (lhs.parts ++ rhs.parts)
  | .assign span op target value => .assign span op target value :: (target.parts ++ value.parts)
  | .field span inner name => .field span inner name :: inner.parts
  | .unary span op inner => .unary span op inner :: inner.parts
  | .addressOf span inner => .addressOf span inner :: inner.parts
  | .dereference span inner => .dereference span inner :: inner.parts
  | .sizeOf span inner => .sizeOf span inner :: inner.parts

def Expr.allParts : List Expr → List Expr
  | [] => []
  | e :: rest => e.parts ++ Expr.allParts rest

end

mutual

def Statement.parts : Statement → List Expr
  | .ret _ none | .declare _ _ _ none => []
  | .ret _ (some e) | .expression _ e | .declare _ _ _ (some e) => e.parts
  | .block _ body => Statement.allParts body
  | .ifThen _ condition yes => condition.parts ++ yes.parts
  | .ifThenElse _ condition yes no => condition.parts ++ (yes.parts ++ no.parts)
  | .loop _ condition body => condition.parts ++ body.parts

def Statement.allParts : List Statement → List Expr
  | [] => []
  | s :: rest => s.parts ++ Statement.allParts rest

end

def Program.parts (p : Program) : List Expr :=
  p.statics.flatMap (fun d => d.init.elim [] Expr.parts) ++
    p.functions.flatMap (fun f => Statement.allParts f.body) ++
    (p.structs.flatMap (·.methods)).flatMap (fun f => Statement.allParts f.body) ++
    Statement.allParts p.body

/-! ### Occurrences -/

def Expr.children : Expr → List Expr
  | .integer .. | .float .. | .string .. | .var .. => []
  | .call _ callee args => callee :: args
  | .binary _ _ lhs rhs => [lhs, rhs]
  | .unary _ _ operand => [operand]
  | .assign _ _ target value => [target, value]
  | .field _ base _ => [base]
  | .addressOf _ inner | .dereference _ inner | .sizeOf _ inner => [inner]

@[mk_iff]
inductive Occurs (x : Expr) : Expr → Prop
  | self : Occurs x x
  | inside (mem : c ∈ e.children) (h : Occurs x c) : Occurs x e

@[mk_iff]
inductive OccursIn (x : Expr) : Statement → Prop
  | returned (h : Occurs x e) : OccursIn x (.ret span (some e))
  | evaluated (h : Occurs x e) : OccursIn x (.expression span e)
  | initial (h : Occurs x e) : OccursIn x (.declare span type var (some e))
  | inside (mem : s ∈ block) (h : OccursIn x s) : OccursIn x (.block span block)
  | ifTest (h : Occurs x test) : OccursIn x (.ifThen span test yes)
  | ifYes (h : OccursIn x yes) : OccursIn x (.ifThen span test yes)
  | elseTest (h : Occurs x test) : OccursIn x (.ifThenElse span test yes no)
  | elseYes (h : OccursIn x yes) : OccursIn x (.ifThenElse span test yes no)
  | elseNo (h : OccursIn x no) : OccursIn x (.ifThenElse span test yes no)
  | loopTest (h : Occurs x test) : OccursIn x (.loop span test again)
  | loopBody (h : OccursIn x again) : OccursIn x (.loop span test again)

def Program.Has (p : Program) (x : Expr) : Prop :=
  (∃ d ∈ p.statics, ∃ e ∈ d.init, Occurs x e) ∨ (∃ f ∈ p.functions, ∃ s ∈ f.body, OccursIn x s) ∨
    (∃ d ∈ p.structs, ∃ f ∈ d.methods, ∃ s ∈ f.body, OccursIn x s) ∨ ∃ s ∈ p.body, OccursIn x s

-- Both sides recurse on the tree: `occurs_iff` asks for the children, whose parts the list goes
-- through.
mutual

theorem Expr.mem_parts : (e : Expr) → (x ∈ e.parts ↔ Occurs x e)
  | .integer .. | .float .. | .string .. | .var .. => by
    rw [occurs_iff]; simp [parts, children, @eq_comm _ x]
  | .call _ callee args => by
    rw [occurs_iff]; simp [parts, children, @eq_comm _ x, mem_parts callee, mem_allParts args]
  | .binary _ _ lhs rhs | .assign _ _ lhs rhs => by
    rw [occurs_iff]; simp [parts, children, @eq_comm _ x, mem_parts lhs, mem_parts rhs]
  | .field _ e _ | .unary _ _ e | .addressOf _ e | .dereference _ e | .sizeOf _ e => by
    rw [occurs_iff]; simp [parts, children, @eq_comm _ x, mem_parts e]

theorem Expr.mem_allParts : (es : List Expr) → (x ∈ allParts es ↔ ∃ e ∈ es, Occurs x e)
  | [] => by simp [allParts]
  | e :: es => by simp [allParts, mem_parts e, mem_allParts es]

end

mutual

theorem Statement.mem_parts : (s : Statement) → (x ∈ s.parts ↔ OccursIn x s)
  | .ret _ none | .declare _ _ _ none => by rw [occursIn_iff]; simp [parts]
  | .ret _ (some e) | .expression _ e | .declare _ _ _ (some e) => by
    rw [occursIn_iff]; simp [parts, Expr.mem_parts e]
  | .block _ body => by rw [occursIn_iff, parts, mem_allParts body]; grind
  | .ifThen _ test s | .loop _ test s => by
    rw [occursIn_iff]; simp [parts, Expr.mem_parts test, mem_parts s]
  | .ifThenElse _ test yes no => by
    rw [occursIn_iff]; simp [parts, Expr.mem_parts test, mem_parts yes, mem_parts no]

theorem Statement.mem_allParts : (ss : List Statement) → (x ∈ allParts ss ↔ ∃ s ∈ ss, OccursIn x s)
  | [] => by simp [allParts]
  | s :: ss => by simp [allParts, mem_parts s, mem_allParts ss]

end

theorem Program.mem_parts {p : Program} : x ∈ p.parts ↔ p.Has x := by
  have hinit : ∀ d : StaticDecl, x ∈ d.init.elim [] Expr.parts ↔ ∃ e ∈ d.init, Occurs x e := by
    intro d
    cases d.init <;> simp [Expr.mem_parts]
  simp only [parts, Has, List.mem_append, List.mem_flatMap, hinit, Statement.mem_allParts, or_assoc]
  grind

theorem Occurs.trans (hx : Occurs y x) (h : Occurs x e) : Occurs y e := by
  induction h with
  | self => exact hx
  | inside mem _ ih => exact .inside mem ih

theorem OccursIn.trans (hx : Occurs y x) (h : OccursIn x s) : OccursIn y s := by
  induction h with
  | _ => grind [OccursIn, Occurs.trans]

theorem Program.Has.trans {p : Program} (hx : Occurs y x) (h : p.Has x) : p.Has y := by
  grind [Has, Occurs.trans, OccursIn.trans]

/-! ### Literals of programs -/

mutual

theorem Expr.mem_literals : (e : Expr) → (t ∈ e.literals ↔ ∃ span, .string span t ∈ e.parts)
  | .integer .. | .float .. | .string .. | .var .. => by simp [literals, parts]
  | .call _ callee args => by
    simp [literals, parts, mem_literals callee, mem_allLiterals args, exists_or]
  | .binary _ _ lhs rhs | .assign _ _ lhs rhs => by
    simp [literals, parts, mem_literals lhs, mem_literals rhs, exists_or]
  | .field _ e _ | .unary _ _ e | .addressOf _ e | .dereference _ e | .sizeOf _ e => by
    simp [literals, parts, mem_literals e]

theorem Expr.mem_allLiterals :
    (es : List Expr) → (t ∈ allLiterals es ↔ ∃ span, .string span t ∈ allParts es)
  | [] => by simp [allLiterals, allParts]
  | e :: es => by simp [allLiterals, allParts, mem_literals e, mem_allLiterals es, exists_or]

end

mutual

theorem Statement.mem_literals :
    (s : Statement) → (t ∈ s.literals ↔ ∃ span, .string span t ∈ s.parts)
  | .ret _ none | .declare _ _ _ none => by simp [literals, parts]
  | .ret _ (some e) | .expression _ e | .declare _ _ _ (some e) => e.mem_literals
  | .block _ body => mem_allLiterals body
  | .ifThen _ test s | .loop _ test s => by
    simp [literals, parts, test.mem_literals, mem_literals s, exists_or]
  | .ifThenElse _ test yes no => by
    simp [literals, parts, test.mem_literals, mem_literals yes, mem_literals no, exists_or]

theorem Statement.mem_allLiterals : (ss : List Statement) →
    (t ∈ allLiterals ss ↔ ∃ span, .string span t ∈ allParts ss)
  | [] => by simp [allLiterals, allParts]
  | s :: ss => by simp [allLiterals, allParts, mem_literals s, mem_allLiterals ss, exists_or]

end

theorem Program.mem_literals {p : Program} : t ∈ p.literals ↔ ∃ span, p.Has (.string span t) := by
  have hinit : ∀ d : StaticDecl, t ∈ d.init.elim [] Expr.literals ↔
      ∃ span, .string span t ∈ d.init.elim [] Expr.parts := by
    intro d
    cases d.init <;> simp [Expr.mem_literals]
  simp only [← mem_parts, literals, parts, List.mem_append, List.mem_flatMap, hinit,
    Statement.mem_allLiterals, exists_or]
  grind

/-! ### The pool -/

namespace LiteralPool

theorem isSome_label? {pool : LiteralPool} : (pool.label? s).isSome = true ↔ s ∈ pool.strings := by
  rw [label?, pool.labelled, Option.isSome_map, ← not_iff_not, Option.not_isSome_iff_eq_none,
    List.idxOf?_eq_none_iff]

theorem mem_add {pool : LiteralPool} : t ∈ (pool.add s).strings ↔ t = s ∨ t ∈ pool.strings := by
  simp only [add]
  split
  · next known => exact ⟨.inr, Or.rec (· ▸ isSome_label?.mp known) id⟩
  · simp [or_comm]

theorem mem_foldl_add {pool : LiteralPool} (texts : List String) :
    t ∈ (texts.foldl add pool).strings ↔ t ∈ texts ∨ t ∈ pool.strings := by
  induction texts generalizing pool with
  | nil => simp
  | cons text texts ih => rw [List.foldl_cons, ih, mem_add, List.mem_cons, or_left_comm, or_assoc]

theorem mem_collect_literals {p : Program} : t ∈ (collect p).strings ↔ t ∈ p.literals := by
  rw [collect, mem_foldl_add]
  simp [empty]

theorem mem_collect {p : Program} : t ∈ (collect p).strings ↔ ∃ span, p.Has (.string span t) := by
  rw [mem_collect_literals, Program.mem_literals]

theorem label?_getElem {pool : LiteralPool} (h : pool.strings[i]? = some s) :
    pool.label? s = some (.string i) := by
  obtain ⟨hi, rfl⟩ := List.getElem?_eq_some_iff.mp h
  have hfirst : pool.strings.idxOf? pool.strings[i] = some i :=
    List.idxOf?_eq_some_iff.mpr
      ⟨hi, rfl, fun j hj => List.pairwise_iff_getElem.mp pool.distinct j i _ hi hj⟩
  rw [label?, pool.labelled, hfirst, Option.map_some]

theorem label?_of_mem {pool : LiteralPool} (h : s ∈ pool.strings) : ∃ l, pool.label? s = some l :=
  Option.isSome_iff_exists.mp (isSome_label?.mpr h)

/-- The table has a label for each literal, which is the one of its place. -/
theorem entries_eq (pool : LiteralPool) : pool.entries = pool.strings.zipIdx.map fun e =>
    (.string e.2, e.1) := by
  have hstrings : pool.entries = (pool.strings.zipIdx.map Prod.fst).filterMap fun s =>
      (pool.label? s).map fun l => (l, s) := by
    rw [List.zipIdx_map_fst, entries]
  rw [hstrings, List.filterMap_map, List.filterMap_eq_map_iff_forall_eq_some]
  intro e he
  rw [Function.comp_apply, label?_getElem (List.mem_zipIdx_iff_getElem?.mp he), Option.map_some]

theorem snd_entries (pool : LiteralPool) : pool.entries.map Prod.snd = pool.strings := by
  rw [entries_eq, List.map_map]
  exact List.zipIdx_map_fst 0 pool.strings

theorem fst_entries (pool : LiteralPool) :
    pool.entries.map Prod.fst = (List.range pool.strings.length).map .string := by
  rw [List.range_eq_range', ← List.zipIdx_map_snd, entries_eq, List.map_map, List.map_map]
  rfl

theorem totalWords_eq (texts : List String) : totalWords texts = (texts.map wordsOf).sum := by
  induction texts with
  | nil => rfl
  | cons text texts ih => rw [totalWords, ih, List.map_cons, List.sum_cons]

theorem sum_entries (pool : LiteralPool) :
    (pool.entries.map fun e => wordsOf e.2).sum = pool.words := by
  rw [words, totalWords_eq, ← snd_entries, List.map_map]
  rfl

/-- The pool of a program holds every string literal that occurs in it, once. The one at place `i`
has the label `str.i`, by which it is found, and takes a word for its length and one for each of its
characters. -/
theorem literals_pooled (p : Program) :
    (collect p).strings.Nodup ∧
    (∀ text, text ∈ (collect p).strings ↔ ∃ span, p.Has (.string span text)) ∧
    (∀ i : Nat, (collect p).entries[i]? = (collect p).strings[i]?.map fun text =>
      (Label.mk s!"str.{i}", text)) ∧
    (∀ i : Nat, ((collect p).strings[i]?.bind (collect p).label?) =
      (collect p).strings[i]?.map fun _ => Label.mk s!"str.{i}") ∧
    (collect p).words = ((collect p).strings.map fun text => 1 + text.toList.length).sum := by
  refine ⟨(collect p).distinct, fun text => mem_collect, fun i => ?_, fun i => ?_, totalWords_eq _⟩
  · simp only [entries_eq, List.getElem?_map, List.getElem?_zipIdx, Option.map_map, Nat.zero_add]
    rfl
  · cases h : (collect p).strings[i]? with
    | none => rfl
    | some text => exact label?_getElem h

end LiteralPool

theorem Program.literals_of_part {p : Program} (h : x ∈ p.parts) (ht : t ∈ x.literals) :
    t ∈ (LiteralPool.collect p).strings := by
  obtain ⟨span, hpart⟩ := x.mem_literals.mp ht
  exact LiteralPool.mem_collect.mpr ⟨span, Has.trans ((Expr.mem_parts x).mp hpart) (mem_parts.mp h)⟩

end WordScript
