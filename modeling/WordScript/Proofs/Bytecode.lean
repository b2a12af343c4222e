import WordScript.Bytecode
import WordScript.Proofs.Text

/-!
# Bytecode as text

Reading the text of bytecode undoes writing it, in both layouts and in any mixture of them. What
cannot be read is reported by its place among the entries that are not blank
(`read_undoes_writing`).
-/

namespace WordScript

/-! ### White space around -/

def Blank (cs : List Char) : Prop := ∀ c ∈ cs, isBlank c = true

instance (cs : List Char) : Decidable (Blank cs) :=
  decidable_of_iff (cs.all isBlank = true) List.all_eq_true

/-- The first text with white space around it is the second one. -/
def Padded (middle cs : List Char) : Prop :=
  ∃ before after, Blank before ∧ Blank after ∧ cs = before ++ (middle ++ after)

theorem Blank.dropWhile {cs : List Char} (h : Blank cs) (ds : List Char) :
    (cs ++ ds).dropWhile isBlank = ds.dropWhile isBlank := List.dropWhile_append_of_pos h

theorem Blank.reverse {cs : List Char} (h : Blank cs) : Blank cs.reverse :=
  fun c hc => h c (List.mem_reverse.mp hc)

theorem blank_takeWhile (cs : List Char) : Blank (cs.takeWhile isBlank) :=
  List.all_eq_true.mp List.all_takeWhile

theorem padded_trimBlanks (cs : List Char) : Padded (trimBlanks cs) cs := by
  refine ⟨cs.takeWhile isBlank, ((cs.dropWhile isBlank).reverse.takeWhile isBlank).reverse,
    blank_takeWhile cs, (blank_takeWhile _).reverse, ?_⟩
  rw [trimBlanks, ← List.reverse_append, List.takeWhile_append_dropWhile, List.reverse_reverse,
    List.takeWhile_append_dropWhile]

theorem dropWhile_solid {middle : List Char} (h : ∀ c ∈ middle, isBlank c = false) :
    middle.dropWhile isBlank = middle := by
  cases middle with
  | nil => rfl
  | cons c cs => simp [h c (by simp)]

theorem Padded.trimBlanks_eq (h : Padded middle cs) (solid : ∀ c ∈ middle, isBlank c = false) :
    trimBlanks cs = middle := by
  obtain ⟨before, after, hbefore, hafter, rfl⟩ := h
  have hdrop : (middle ++ after).dropWhile isBlank = middle ++ after ∨ middle = [] := by
    cases middle with
    | nil => exact .inr rfl
    | cons c cs => exact .inl (by simp [solid c (by simp)])
  have hback : ((middle ++ after).reverse.dropWhile isBlank).reverse = middle := by
    rw [List.reverse_append, hafter.reverse.dropWhile, dropWhile_solid (by simpa using solid),
      List.reverse_reverse]
  rw [trimBlanks, hbefore.dropWhile]
  rcases hdrop with hdrop | rfl
  · rw [hdrop, hback]
  · have hnil := hafter.dropWhile []
    simp only [List.append_nil, List.dropWhile_nil] at hnil
    simp [hnil]

theorem trimBlanks_eq_nil {cs : List Char} : trimBlanks cs = [] ↔ Blank cs := by
  constructor
  · intro h
    obtain ⟨before, after, hbefore, hafter, heq⟩ := padded_trimBlanks cs
    rw [h, List.nil_append] at heq
    rw [heq]
    exact fun c hc => (List.mem_append.mp hc).elim (hbefore c) (hafter c)
  · intro h
    exact Padded.trimBlanks_eq ⟨cs, [], h, by simp [Blank], by simp⟩ (by simp)

theorem Decimal.solid (h : Decimal cs z) : cs ≠ [] ∧ ∀ c ∈ cs, isBlank c = false := by
  have hdigits : ∀ {ds : List Char}, ds.all Char.isDigit = true → ∀ c ∈ ds, isBlank c = false := by
    intro ds digits c hc
    have hc := isDigit_iff.mp (List.all_eq_true.mp digits c hc)
    rw [← Bool.not_eq_true]
    simp only [isBlank, Bool.or_eq_true, Bool.and_eq_true, decide_eq_true_eq, beq_iff_eq]
    omega
  cases h with
  | plain proper digits => exact ⟨proper, hdigits digits⟩
  | plus proper digits | minus proper digits =>
    exact ⟨by simp, List.forall_mem_cons.mpr ⟨by decide, hdigits digits⟩⟩

namespace Bytecode

/-! ### Entries -/

def isBreak (c : Char) : Bool := c == ',' || c == '\n'

/-- The entry holds a word: a decimal number that fits in one, with white space around it. -/
def Denotes (entry : List Char) (w : Word) : Prop :=
  ∃ middle, Padded middle entry ∧ Decimal middle w.toInt

/-- The entries hold these words in order, each written out with white space around it. The other
entries are blank. -/
inductive Lists : List (List Char) → List Word → Prop
  | nil : Lists [] []
  | blank (gap : Blank entry) (rest : Lists parts ws) : Lists (entry :: parts) ws
  | word (padded : Padded w.text.toList entry) (rest : Lists parts ws) :
      Lists (entry :: parts) (w :: ws)

theorem denotes_iff : Denotes entry w ↔ readInt32? (trimBlanks entry) = some w := by
  rw [readInt32?_eq_some]
  constructor
  · rintro ⟨middle, padded, decimal⟩
    rwa [padded.trimBlanks_eq decimal.solid.2]
  · intro decimal
    exact ⟨_, padded_trimBlanks entry, decimal⟩

def trimmed (parts : List (List Char)) : List (List Char) :=
  (parts.map trimBlanks).filter (!·.isEmpty)

theorem trimmed_blank (h : Blank entry) : trimmed (entry :: parts) = trimmed parts := by
  simp [trimmed, trimBlanks_eq_nil.mpr h]

theorem trimmed_proper (h : ¬Blank entry) :
    trimmed (entry :: parts) = trimBlanks entry :: trimmed parts := by
  have hne : trimBlanks entry ≠ [] := fun hnil => h (trimBlanks_eq_nil.mp hnil)
  simp [trimmed, hne]

theorem Denotes.not_blank (h : Denotes entry w) : ¬Blank entry := by
  obtain ⟨middle, padded, decimal⟩ := h
  intro hblank
  exact decimal.solid.1 ((padded.trimBlanks_eq decimal.solid.2).symm.trans
    (trimBlanks_eq_nil.mpr hblank))

theorem Lists.read (h : Lists parts ws) (index : Nat) :
    readEntries index (trimmed parts) = .ok ws := by
  induction h generalizing index with
  | nil => rfl
  | blank gap _ ih => rw [trimmed_blank gap, ih]
  | @word entry parts ws w padded _ ih =>
    have hdenotes : Denotes entry w := ⟨_, padded, decimal_text w⟩
    rw [trimmed_proper hdenotes.not_blank, readEntries, denotes_iff.mp hdenotes]
    simp only [ih]
    rfl

theorem map_eq_error {x : Except ε α} {f : α → β} : x.map f = .error e ↔ x = .error e := by
  cases x with
  | ok a =>
    constructor <;> intro h <;> cases h
  | error e' =>
    constructor <;> intro h <;> cases h <;> rfl

/-- What fails to be read is the first entry that is neither blank nor a word. -/
theorem readEntries_eq_error {parts : List (List Char)} :
    readEntries index (trimmed parts) = .error (.invalidWord place word) ↔
    ∃ before entry after, parts = before ++ entry :: after ∧
    (∀ e ∈ before, Blank e ∨ ∃ w, Denotes e w) ∧
      ¬Blank entry ∧ (∀ w, ¬Denotes entry w) ∧ word = String.ofList (trimBlanks entry) ∧
      place = index + before.countP (¬Blank ·) := by
  constructor
  · intro h
    induction parts generalizing index with
    | nil => cases h
    | cons entry parts ih =>
      by_cases hblank : Blank entry
      · rw [trimmed_blank hblank] at h
        obtain ⟨before, bad, after, rfl, hbefore, hbad, hword, htext, hplace⟩ := ih h
        refine ⟨entry :: before, bad, after, rfl, List.forall_mem_cons.mpr ⟨.inl hblank, hbefore⟩,
          hbad, hword, htext, ?_⟩
        simpa [hblank] using hplace
      · rw [trimmed_proper hblank, readEntries] at h
        split at h
        · next w hw =>
          obtain ⟨before, bad, after, rfl, hbefore, hbad, hword, htext, hplace⟩ :=
            ih (map_eq_error.mp h)
          have hw : Denotes entry w := denotes_iff.mpr hw
          refine ⟨entry :: before, bad, after, rfl,
            List.forall_mem_cons.mpr ⟨.inr ⟨w, hw⟩, hbefore⟩, hbad, hword, htext, ?_⟩
          rw [hplace, List.countP_cons_of_pos (by simpa using hblank)]
          omega
        · next hnone =>
          cases h
          refine ⟨[], entry, parts, rfl, by simp, hblank, fun w hw => ?_, rfl, rfl⟩
          rw [denotes_iff, hnone] at hw
          cases hw
  · rintro ⟨before, entry, after, rfl, hbefore, hproper, hbad, rfl, rfl⟩
    induction before generalizing index with
    | nil =>
      have hnone : readInt32? (trimBlanks entry) = none :=
        Option.eq_none_iff_forall_not_mem.mpr fun w hw => hbad w (denotes_iff.mpr hw)
      rw [List.nil_append, trimmed_proper hproper, readEntries, hnone]
      rfl
    | cons first before ih =>
      obtain ⟨hfirst, hbefore⟩ := List.forall_mem_cons.mp hbefore
      rw [List.cons_append]
      rcases hfirst with hblank | ⟨w, hw⟩
      · rw [trimmed_blank hblank, ih hbefore]
        simp [hblank]
      · rw [trimmed_proper hw.not_blank, readEntries, denotes_iff.mp hw]
        simp only
        rw [ih hbefore, List.countP_cons_of_pos (by simpa using hw.not_blank), Nat.add_assoc,
          Nat.add_comm 1]
        rfl

/-! ### Both layouts -/

theorem cut_flatMap {parts : List (List Char)}
    (solid : ∀ part ∈ parts, ∀ c ∈ part, separator c = false)
    (stop : separator c = true) : Cut separator (parts ++ [[]]) (parts.flatMap (· ++ [c])) := by
  induction parts with
  | nil => exact .last (by simp)
  | cons part parts ih =>
    obtain ⟨hpart, hparts⟩ := List.forall_mem_cons.mp solid
    simpa using Cut.more hpart stop (ih hparts)

theorem text_solid {w : Word} (hc : c ∈ w.text.toList) : isBreak c = false := by
  have hchar := isNumeralChar_text hc
  rw [← Bool.not_eq_true]
  intro hbreak
  have hcases : c = ',' ∨ c = '\n' := by simpa [isBreak] using hbreak
  rcases hcases with rfl | rfl <;> simp [isNumeralChar] at hchar

theorem texts_solid (ws : List Word) :
    ∀ part ∈ ws.map (·.text.toList), ∀ c ∈ part, isBreak c = false := by
  intro part hpart c hc
  obtain ⟨w, -, rfl⟩ := List.mem_map.mp hpart
  exact text_solid hc

theorem lists_texts (ws : List Word) (rest : Lists parts []) :
    Lists (ws.map (·.text.toList) ++ parts) ws := by
  induction ws with
  | nil => exact rest
  | cons w ws ih => exact .word ⟨[], [], by simp [Blank], by simp [Blank], by simp⟩ ih

theorem line_cut (b : Bytecode) :
    ∃ parts, Cut isBreak parts b.line.toList ∧ Lists parts b.words.toList := by
  have htext : b.line.toList = [','].intercalate (b.words.toList.map (·.text.toList)) := by
    rw [line, String.toList_intercalate, List.map_map]
    rfl
  rw [htext]
  by_cases hne : b.words.toList = []
  · exact ⟨[[]], by rw [hne]; exact .last (by simp),
      by rw [hne]; exact .blank (by simp [Blank]) .nil⟩
  · have hlists := lists_texts b.words.toList .nil
    rw [List.append_nil] at hlists
    exact ⟨_, cut_intercalate (by simpa using hne) (texts_solid _) rfl, hlists⟩

theorem lines_cut (b : Bytecode) :
    ∃ parts, Cut isBreak parts b.lines.toList ∧ Lists parts b.words.toList := by
  have htext : b.lines.toList = (b.words.toList.map (·.text.toList)).flatMap (· ++ ['\n']) := by
    rw [lines, String.toList_join, List.flatMap_map, List.flatMap_map]
    simp
  rw [htext]
  exact ⟨_, cut_flatMap (texts_solid _) rfl, lists_texts _ (.blank (by simp [Blank]) .nil)⟩

theorem entries_cut (h : Cut isBreak parts cs) : entries cs = trimmed parts := by
  rw [← h.splitWhere_eq]; rfl

theorem read_lists (cut : Cut isBreak parts text.toList) (h : Lists parts ws) :
    read text = .ok (.ofList ws) := by
  rw [read, entries_cut cut, h.read]
  rfl

theorem read_eq_error :
    read text = .error e ↔ readEntries 0 (trimmed (splitWhere isBreak text.toList)) = .error e :=
  map_eq_error

/-- Both texts of bytecode read as that bytecode, and so does every text with its words in it, cut
off from each other by commas or newlines, with white space around them and blank entries among
them. Reading fails just if there is an entry that is neither blank nor a word; the first such entry
is reported, by the number of entries before it that are not blank. -/
theorem read_undoes_writing :
    (∀ b : Bytecode, read b.line = .ok b ∧ read b.lines = .ok b) ∧
    (∀ ws parts text, Cut isBreak parts text.toList → Lists parts ws →
      read text = .ok (.ofList ws)) ∧
    ∀ text index word, read text = .error (.invalidWord index word) ↔ ∃ before entry after,
      Cut isBreak (before ++ entry :: after) text.toList ∧
      (∀ e ∈ before, Blank e ∨ ∃ w, Denotes e w) ∧
      ¬Blank entry ∧ (∀ w, ¬Denotes entry w) ∧ word = String.ofList (trimBlanks entry) ∧
      index = before.countP (¬Blank ·) := by
  refine ⟨fun b => ⟨?_, ?_⟩, fun ws parts text cut h => read_lists cut h, fun text index word => ?_⟩
  · obtain ⟨parts, cut, h⟩ := b.line_cut
    exact read_lists cut h
  · obtain ⟨parts, cut, h⟩ := b.lines_cut
    exact read_lists cut h
  · rw [read_eq_error, readEntries_eq_error]
    constructor
    · rintro ⟨before, entry, after, heq, hbefore, hproper, hbad, hword, hindex⟩
      exact ⟨before, entry, after, heq ▸ cut_splitWhere isBreak text.toList, hbefore, hproper, hbad,
        hword, by omega⟩
    · rintro ⟨before, entry, after, cut, hbefore, hproper, hbad, hword, hindex⟩
      exact ⟨before, entry, after, cut.splitWhere_eq, hbefore, hproper, hbad, hword, by omega⟩

/-- The least and the greatest word in both layouts at once, with blank entries, a carriage return
and a wide space. -/
theorem read_undoes_writing_mixed :
    ∃ parts, Cut isBreak parts "\t-2147483648\r\n,\u3000,\n2147483647 ,".toList ∧
    Lists parts [-2147483648, 2147483647] ∧
    read "\t-2147483648\r\n,\u3000,\n2147483647 ," = .ok (.ofList [-2147483648, 2147483647]) ∧
    read "7, ,\n2147483648,x" = .error (.invalidWord 1 "2147483648") := by
  have hcut := cut_splitWhere isBreak "\t-2147483648\r\n,\u3000,\n2147483647 ,".toList
  have hlists : Lists (splitWhere isBreak "\t-2147483648\r\n,\u3000,\n2147483647 ,".toList)
      [-2147483648, 2147483647] :=
    .word ⟨['\t'], ['\r'], by decide, by decide, by decide⟩
      (.blank (by decide) (.blank (by decide) (.blank (by decide)
      (.word ⟨[], [' '], by decide, by decide, by decide⟩ (.blank (by decide) .nil)))))
  refine ⟨_, hcut, hlists, read_undoes_writing.2.1 _ _ _ hcut hlists,
    (read_undoes_writing.2.2 _ _ _).mpr ?_⟩
  have hseven : Denotes "7".toList 7 := denotes_iff.mpr (by decide)
  have hbad : ∀ w, ¬Denotes "2147483648".toList w := by
    intro w hw
    rw [denotes_iff, show readInt32? (trimBlanks "2147483648".toList) = none by decide] at hw
    cases hw
  refine ⟨["7".toList, " ".toList, []], "2147483648".toList, ["x".toList], ?_, ?_, by decide, hbad,
    by decide, by decide⟩
  · exact cut_splitWhere isBreak "7, ,\n2147483648,x".toList
  · simpa using ⟨.inr ⟨7, hseven⟩, .inl (by decide), .inl (by decide)⟩

end Bytecode

end WordScript
