import WordScript.Proofs.Positions.Errors

/-!
# Markers

A fault is shown with the line it is on and a marker in the row below. The marker stands under the
place of the fault while the number of the line has at most three digits, and too far to the left
from line 1000 on (`marker_under_column`).
-/

namespace WordScript

def gutterOf (number : Nat) : List Char := (padLeft 3 (toString number)).toList ++ [' ', '|', ' ']

def marginOf (column : Nat) : List Char :=
  [' ', ' ', ' ', ' ', '|', ' '] ++ List.replicate (column - 1) ' '

theorem newline_notMem_gutterOf (number : Nat) : '\n' ∉ gutterOf number := by
  have hdigits : '\n' ∉ (toString number).toList := by
    rw [Nat.toString_eq_repr, Nat.toList_repr]
    intro h
    exact absurd (Nat.isDigit_of_mem_toDigits (by decide) (by decide) h) (by decide)
  simpa [gutterOf, padLeft, spaces] using hdigits

theorem length_gutterOf (number : Nat) :
    (gutterOf number).length = 6 + ((toString number).length - 3) := by
  simp only [gutterOf, padLeft, spaces, String.toList_append, String.toList_ofList,
    List.length_append, List.length_replicate,
    String.length_toList, List.length_cons, List.length_nil]
  omega

theorem length_marginOf (column : Nat) : (marginOf column).length = 6 + (column - 1) := by
  simp only [marginOf, List.length_append, List.length_replicate, List.length_cons, List.length_nil]

theorem newline_notMem_firstLine (cs : List Char) : '\n' ∉ firstLine cs := fun h => by
  simpa using List.mem_takeWhile_imp h

theorem newline_notMem_lastLine (cs : List Char) : '\n' ∉ lastLine cs := fun h => by
  simpa using List.mem_rtakeWhile_imp h

namespace Diagnostic

theorem render_rows [ToString κ] {d : Diagnostic κ} (h : d.snippet = some ⟨position, line⟩) :
    ∃ above, d.render.toList = above ++ '\n' :: (gutterOf position.line ++ line.toList) ++
      '\n' :: (marginOf position.column ++ '^' :: (trail d.contexts).toList) := by
  refine ⟨(toString d.cause ++ "\n   --> " ++ d.file.getD "<unknown source>" ++ ":" ++
    position.text ++ "\n    |").toList, ?_⟩
  simp [render, h, gutterOf, marginOf, padLeft, spaces, toString, show "^".length = 1 from rfl]

theorem head_trail (contexts : List String) : ∀ c ∈ (trail contexts).toList.head?, c = '\n' := by
  cases contexts <;> simp [trail, String.toList_join]

end Diagnostic

/-- The fault is shown with the line it is on and, in the row below it, a marker. Each has its row
to itself but for what stands before it. The marker is under the place of the fault, which may be
just behind the line, if the number of the line has at most three digits; every further digit moves
the line to the right, but not the marker. -/
def Fault.Marked [ToString κ] (e : Fault κ) (source : SourceText) : Prop :=
  ∃ position line above gutter margin below, (e.locate source).snippet = some ⟨position, line⟩ ∧
    1 ≤ position.column ∧ position.column ≤ line.length + 1 ∧
    (e.locate source).render.toList = above ++ '\n' :: (gutter ++ line.toList) ++ '\n' ::
    (margin ++ '^' :: below) ∧
    '\n' ∉ gutter ++ line.toList ∧ '\n' ∉ margin ∧ '^' ∉ margin ∧ (∀ c ∈ below.head?, c = '\n') ∧
    margin.length + ((toString position.line).length - 3) = gutter.length + (position.column - 1) ∧
    (margin.length = gutter.length + (position.column - 1) ↔ position.line < 1000)

theorem Fault.marked_of_startsIn [ToString κ] {source : SourceText} {e : Fault κ}
    (h : e.span.StartsIn source.chars) : e.Marked source := by
  obtain ⟨front, back, hchars, hoffset⟩ := h
  obtain ⟨hfound, hon⟩ := SourceText.locate?_front hchars
  have hsnippet : (e.locate source).snippet = some _ := hoffset ▸ hfound
  obtain ⟨above, hrender⟩ := Diagnostic.render_rows hsnippet
  have hdigits : ∀ n, (toString n).length ≤ 3 ↔ n < 1000 :=
    fun n => Nat.length_repr_le_iff (by decide)
  refine ⟨_, _, above, _, _, _, hsnippet, hon.left, ?_, hrender, ?_, ?_, ?_,
    Diagnostic.head_trail _, ?_, ?_⟩
  · rw [String.length_ofList]
    exact hon.right
  · simp [newline_notMem_gutterOf, newline_notMem_firstLine, newline_notMem_lastLine]
  · simp [marginOf]
  · simp [marginOf]
  -- Both rows leave room for three digits, and only the row of the line grows with more of them.
  · rw [length_gutterOf, length_marginOf]
    omega
  · rw [length_gutterOf, length_marginOf, ← hdigits]
    omega

/-- Whatever is wrong with a text, as a script or as assembly, is marked in it. -/
theorem marker_under_column (source : SourceText) :
    (∀ e, Assembly.ofSource source = .error e → e.Marked source) ∧
      ∀ e, Bytecode.ofAssembly source = .error e → e.Marked source :=
  ⟨fun e failed => Fault.marked_of_startsIn (Assembly.ofSource_at source e failed),
    fun e failed => Fault.marked_of_startsIn (Bytecode.ofAssembly_at source e failed)⟩

theorem marker_under_column_unknown :
    (∃ e, Assembly.ofSource .unknownName = .error e ∧ e.Marked .unknownName) ∧
    ∃ e, Bytecode.ofAssembly .unknownLabel = .error e ∧ e.Marked .unknownLabel := by
  have hscript : Assembly.ofSource .unknownName = .error ⟨.type (.unknownIdentifier "x"), ⟨36, 1⟩,
    []⟩ := by decide +kernel
  have hassembly : Bytecode.ofAssembly .unknownLabel =
      .error ⟨.undefinedLabel "end", ⟨19, 3⟩, []⟩ := by decide +kernel
  exact ⟨⟨_, hscript, (marker_under_column _).1 _ hscript⟩, _, hassembly,
    (marker_under_column _).2 _ hassembly⟩

def SourceText.thousandLines : SourceText :=
  .ofString (String.ofList (List.replicate 999 '\n' ++ ['x', ';']))

/-- The name is at index 7 of its row, and the marker at index 6 of the next. -/
theorem marker_misplaced_thousandLines : ∃ e, Assembly.ofSource .thousandLines = .error e ∧
    (e.locate .thousandLines).position? = some ⟨1000, 1⟩ ∧
    (splitLines (e.locate .thousandLines).render.toList).drop 3 =
      ["1000 | x;".toList, "    | ^".toList] := by
  have hchars : SourceText.thousandLines.chars = List.replicate 999 '\n' ++ ['x', ';'] :=
    String.toList_ofList
  refine ⟨⟨.type (.unknownIdentifier "x"), ⟨999, 1⟩, []⟩, ?_, ?_⟩
  · rw [Assembly.ofSource, Program.ofSource, hchars]
    decide +kernel
  · rw [Fault.locate, Diagnostic.withSource, SourceText.locate?, hchars]
    decide +kernel

end WordScript
