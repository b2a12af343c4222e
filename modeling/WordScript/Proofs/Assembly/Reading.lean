import WordScript.Proofs.Machine.Image
import WordScript.Proofs.Success
import WordScript.Proofs.Text

/-!
# Assembly read back

Writing assembly out and reading it again gives the same lines, less the comments, as long as labels
can be told from registers and numbers and no comment goes over the end of its line
(`Item.Writable`).
-/

namespace WordScript

/-! ### What can be written -/

/-- A label that is not taken for a register or a number. -/
structure Label.Symbolic (l : Label) : Prop where
  symbol : Assembly.isSymbol l.name.toList = true
  notSp : l.name ≠ "sp"
  notGeneral : ∀ digits, l.name.toList = 'r' :: digits → readDigits? digits = none

def Register.Real : Register → Prop
  | .sp => True
  | .general index => index < generalRegisters

def Value.Writable : Value → Prop
  | .immediate _ => True
  | .label l => l.Symbolic

def Operand.Writable : Operand Register Value → Prop
  | .register r => r.Real
  | .value v => v.Writable

def Item.Writable : Item → Prop
  | .static l words => l.Symbolic ∧ words < sizeBound
  | .label l => l.Symbolic
  | .instruction i note => (∀ o ∈ i.operands, o.Writable) ∧ ∀ s ∈ note, '\n' ∉ s.toList
  | .comment s => '\n' ∉ s.toList

def Item.bare? : Item → Option Item
  | .static l words => some (.static l words)
  | .label l => some (.label l)
  | .instruction i _ => some (.instruction i none)
  | .comment _ => none

def Assembly.bare (a : Assembly) : Assembly := a.filterMap Item.bare?

def SourceItem.item : SourceItem → Item
  | .label name => .label ⟨name.value⟩
  | .static name words => .static ⟨name.value⟩ words
  | .instruction i => .instruction (i.map (fun r => r) Located.value) none

/-! ### Opcodes -/

namespace Opcode

theorem mem_table (o : Opcode) : o ∈ table.toList := by
  have := Array.mem_of_getElem? o.table_number
  simpa using this

/-- An opcode is found again by its mnemonic and the kinds of its operands. -/
theorem select?_mnemonic (o : Opcode) : select? o.mnemonic o.operands = some o := by
  have hall : ∀ o ∈ table.toList, select? o.mnemonic o.operands = some o := by decide
  exact hall o o.mem_table

theorem forms_mnemonic (o : Opcode) :
    ∃ form more, forms o.mnemonic = form :: more ∧ form.arity = o.arity := by
  have hall : ∀ o ∈ table.toList, (forms o.mnemonic).head?.map arity = some o.arity := by decide
  have harity := hall o o.mem_table
  cases hforms : forms o.mnemonic with
  | nil => simp [hforms] at harity
  | cons form more => exact ⟨form, more, rfl, by simpa [hforms] using harity⟩

end Opcode

namespace Assembly

/-! ### Characters of words -/

def isWordChar (c : Char) : Bool := !isSeparator c && c != '#'

/-- A run of characters that is read as one word. -/
def Solid (w : List Char) : Prop := w ≠ [] ∧ w.all isWordChar = true

theorem isWordChar_of_isAlphanum (h : c.isAlphanum = true) : isWordChar c = true := by
  simp only [Char.isAlphanum, Bool.or_eq_true, isAlpha_iff, isDigit_iff] at h
  have hne : ∀ d : Char, c.toNat ≠ d.toNat → (c == d) = false := fun d hd => by
    simpa using fun he : c = d => hd (he ▸ rfl)
  have hcomma : (c == ',') = false := hne ',' (by change c.toNat ≠ 44; omega)
  have hhash : (c == '#') = false := hne '#' (by change c.toNat ≠ 35; omega)
  have hblank : isBlank c = false := by
    simp only [isBlank, Bool.or_eq_false_iff, Bool.and_eq_false_iff, decide_eq_false_iff_not,
      beq_eq_false_iff_ne]
    omega
  simp [isWordChar, isSeparator, hblank, hcomma, bne, hhash]

theorem isWordChar_of_isSymbolChar (h : isSymbolChar c = true) : isWordChar c = true := by
  simp only [isSymbolChar, Bool.or_eq_true, beq_iff_eq] at h
  rcases h with (h | rfl) | rfl
  · exact isWordChar_of_isAlphanum h
  · decide
  · decide

theorem isWordChar_of_isNumeralChar (h : isNumeralChar c = true) : isWordChar c = true := by
  simp only [isNumeralChar, Bool.or_eq_true, beq_iff_eq] at h
  rcases h with h | rfl
  · exact isWordChar_of_isAlphanum (by simp [Char.isAlphanum, h])
  · decide

theorem isSymbolChar_of_isSymbolStart (h : isSymbolStart c = true) : isSymbolChar c = true := by
  simp only [isSymbolStart, isSymbolChar, Char.isAlphanum, Bool.or_eq_true] at h ⊢
  rcases h with (h | h) | h <;> simp [h]

theorem Solid.not_hash (h : Solid w) : ∀ c ∈ w, (c != '#') = true := by
  intro c hc
  have := List.all_eq_true.mp h.2 c hc
  simp only [isWordChar, Bool.and_eq_true] at this
  exact this.2

theorem Solid.not_separator (h : Solid w) : ∀ c ∈ w, isSeparator c = false := by
  intro c hc
  have := List.all_eq_true.mp h.2 c hc
  simp only [isWordChar, Bool.and_eq_true, Bool.not_eq_true'] at this
  exact this.1

theorem solid_symbol (h : isSymbol w = true) : Solid w := by
  cases w with
  | nil => cases h
  | cons c cs =>
    simp only [isSymbol, Bool.and_eq_true] at h
    refine ⟨by simp, ?_⟩
    rw [List.all_cons, isWordChar_of_isSymbolChar (isSymbolChar_of_isSymbolStart h.1),
      Bool.true_and]
    exact List.all_eq_true.mpr fun c hc => isWordChar_of_isSymbolChar (List.all_eq_true.mp h.2 c hc)

theorem solid_toDigits (n : Nat) : Solid (Nat.toDigits 10 n) := by
  refine ⟨Nat.toDigits_ne_nil, List.all_eq_true.mpr fun c hc => isWordChar_of_isAlphanum ?_⟩
  simp [Char.isAlphanum, Nat.isDigit_of_mem_toDigits (by decide) (by decide) hc]

theorem solid_mnemonic (o : Opcode) : Solid o.mnemonic.toList := by
  have hall : ∀ o ∈ Opcode.table.toList, o.mnemonic.toList ≠ [] ∧
      o.mnemonic.toList.all isWordChar = true := by
    decide
  exact hall o o.mem_table

/-! ### Operands -/

theorem toList_general (k : Nat) :
    (Instruction.operandText (.register (.general k))).toList = 'r' :: Nat.toDigits 10 k := by
  simp only [Instruction.operandText, Register.text, String.toList_append,
    Nat.toString_eq_ofList_toDigits, String.toList_ofList]
  rfl

theorem solid_operandText {o : Operand Register Value} (h : o.Writable) :
    Solid (Instruction.operandText o).toList := by
  cases o with
  | register r =>
    cases r with
    | sp => exact ⟨by decide, by decide⟩
    | general k =>
      rw [toList_general]
      exact ⟨by simp, by rw [List.all_cons, (solid_toDigits k).2]; rfl⟩
  | value v =>
    cases v with
    | immediate w =>
      refine ⟨?_, List.all_eq_true.mpr fun c hc =>
        isWordChar_of_isNumeralChar (isNumeralChar_text hc)⟩
      rcases text_eq w with ⟨htext, -⟩ | ⟨htext, -⟩
      · exact fun hnil => Nat.toDigits_ne_nil (htext.symm.trans hnil)
      · exact fun hnil => List.cons_ne_nil _ _ (htext.symm.trans hnil)
    | label l => exact solid_symbol h.symbol

section
variable (hsp : cs ≠ ['s', 'p']) (hr : ∀ digits, cs = 'r' :: digits → readDigits? digits = none)
include hsp hr

theorem readOperand?_number (h : readInt32? cs = some w) :
    readOperand? cs = some (.value (.immediate w)) := by
  simp only [readOperand?, h]
  split
  · exact absurd rfl hsp
  · next digits => simp only [hr digits rfl]
  · rfl

theorem readOperand?_symbol (h : readInt32? cs = none) (symbol : isSymbol cs = true) :
    readOperand? cs = some (.value (.label ⟨String.ofList cs⟩)) := by
  simp only [readOperand?, h]
  split
  · exact absurd rfl hsp
  · next digits => simp only [hr digits rfl, symbol, ↓reduceIte]
  · rw [if_pos symbol]

end

theorem readInt32?_symbol (h : isSymbol cs = true) : readInt32? cs = none := by
  cases cs with
  | nil => cases h
  | cons c cs =>
    simp only [isSymbol, Bool.and_eq_true] at h
    have hne : ∀ d, isSymbolStart d = false → c ≠ d := by
      rintro d hd rfl
      simp [hd] at h
    have hdigit : c.isDigit = false := by
      have hstart := h.1
      simp only [isSymbolStart, Bool.or_eq_true, isAlpha_iff, beq_iff_eq] at hstart
      rcases hstart with (hstart | rfl) | rfl
      · rw [Bool.eq_false_iff, ne_eq, isDigit_iff]
        omega
      · decide
      · decide
    simp [readInt32?, readInt?, hne '+' (by decide), hne '-' (by decide), readDigits?, hdigit]

theorem readOperand?_text {o : Operand Register Value} (h : o.Writable) :
    readOperand? (Instruction.operandText o).toList = some o := by
  cases o with
  | register r =>
    cases r with
    | sp => rfl
    | general k =>
      have hk : k < generalRegisters := h
      simp [toList_general, readOperand?, readDigits?_toDigits, hk]
  | value v =>
    cases v with
    | immediate w =>
      have hread := readInt32?_text w
      have hhead : ∀ c ∈ w.text.toList, c ≠ 's' ∧ c ≠ 'r' := fun c hc => by
        have := isNumeralChar_text hc
        constructor <;> rintro rfl <;> simp [isNumeralChar] at this
      have hsp : w.text.toList ≠ ['s', 'p'] := fun he => (hhead 's' (by simp [he])).1 rfl
      have hr : ∀ digits, w.text.toList = 'r' :: digits →
          readDigits? digits = none := fun digits he => absurd rfl (hhead 'r' (by simp [he])).2
      exact readOperand?_number hsp hr hread
    | label l =>
      have hsp : l.name.toList ≠ ['s', 'p'] := fun he => h.notSp (String.toList_inj.mp he)
      have hread := readOperand?_symbol hsp h.notGeneral (readInt32?_symbol h.symbol) h.symbol
      rwa [String.ofList_toList] at hread

theorem readOperand?_eq_label (h : readOperand? cs = some (.value (.label l))) :
    isSymbol cs = true ∧ cs ≠ ['s', 'p'] ∧ ∀ digits, cs = 'r' :: digits →
    readDigits? digits = none := by
  have hsymbol : ∀ x : Option (Operand Register Value), x = some (.value (.label l)) →
      (x = if isSymbol cs then some (.value (.label ⟨String.ofList cs⟩)) else none) →
      isSymbol cs = true := by
    intro x hx hif
    by_cases hs : isSymbol cs = true
    · exact hs
    · simp [hs, hx] at hif
  cases hint : readInt32? cs with
  | some w =>
    simp only [readOperand?, hint] at h
    split at h
    · simp at h
    · split at h
      · split at h <;> simp at h
      · simp at h
    · simp at h
  | none =>
    simp only [readOperand?, hint] at h
    split at h
    · simp at h
    · next digits =>
      split at h
      · split at h <;> simp at h
      · next hnone =>
        refine ⟨hsymbol _ h rfl, by simp, ?_⟩
        rintro _ ⟨⟩
        exact hnone
    · next hsp hr => exact ⟨hsymbol _ h rfl, hsp, fun digits he => absurd he (hr digits)⟩

/-- A label can be told from registers and numbers exactly if it is read as a label. -/
theorem symbolic_iff {l : Label} :
    l.Symbolic ↔ readOperand? l.name.toList = some (.value (.label l)) := by
  constructor
  · intro h
    have hwritable : Operand.Writable (.value (.label l)) := h
    exact readOperand?_text hwritable
  · intro h
    obtain ⟨hsymbol, hsp, hr⟩ := readOperand?_eq_label h
    exact ⟨hsymbol, fun hname => hsp (by rw [hname]; rfl), hr⟩

instance (l : Label) : Decidable l.Symbolic := decidable_of_iff' _ symbolic_iff

/-! ### Lines -/

def isLineChar (c : Char) : Bool := c == ' ' || c == ',' || isWordChar c

theorem not_hash_of_isLineChar (h : isLineChar c = true) : (c != '#') = true := by
  simp only [isLineChar, Bool.or_eq_true, beq_iff_eq, isWordChar, Bool.and_eq_true] at h
  rcases h with (rfl | rfl) | h
  · decide
  · decide
  · exact h.2

theorem ne_newline_of_isLineChar (h : isLineChar c = true) : c ≠ '\n' := by
  rintro rfl
  revert h
  decide

theorem toList_padRight (width : Nat) (s : String) :
    (padRight width s).toList = s.toList ++ List.replicate (width - s.length) ' ' := by
  simp [padRight, spaces]

theorem isSeparator_replicate : ∀ c ∈ List.replicate n ' ', isSeparator c = true := by
  intro c hc
  obtain ⟨-, rfl⟩ := List.mem_replicate.mp hc
  decide

theorem spells_intercalate {ws : List (List Char)} (h : ∀ w ∈ ws, Solid w)
    (hgap : ∀ c ∈ gap, isSeparator c = true) (hblanks : ∀ c ∈ blanks, isSeparator c = true) :
    Spells ws (gap ++ [',', ' '].intercalate ws ++ blanks) := by
  have hends : Breaks blanks := fun c hc => hblanks c (List.mem_of_mem_head? hc)
  induction ws generalizing gap with
  | nil => exact .blank (by simpa [or_imp, forall_and] using ⟨hgap, hblanks⟩)
  | cons w ws ih =>
    have hw := h w (by simp)
    cases ws with
    | nil => simpa using Spells.word hgap hw.1 hw.not_separator hends (.blank hblanks)
    | cons w' ws =>
      have hrest : Spells (w' :: ws) ([',', ' '] ++ [',', ' '].intercalate (w' :: ws) ++ blanks) :=
        ih (fun w hw => h w (by simp [hw]))
          (isSeparator_cons rfl (isSeparator_cons rfl isSeparator_nil))
      have hcomma : Breaks ([',', ' '] ++ [',', ' '].intercalate (w' :: ws) ++ blanks) := by
        rintro c hc
        obtain rfl : ',' = c := by simpa using hc
        decide
      simpa [List.intercalate] using Spells.word hgap hw.1 hw.not_separator hcomma hrest

theorem toList_text {i : Instruction} (h : i.operands ≠ []) :
    (Instruction.text i).toList = i.opcode.mnemonic.toList ++
      (List.replicate (8 - i.opcode.mnemonic.length) ' ' ++ [' ']) ++
      [',', ' '].intercalate (i.operands.map fun o => (Instruction.operandText o).toList) := by
  have htext : Instruction.text i = padRight 8 i.opcode.mnemonic ++ " " ++
      ", ".intercalate (i.operands.map Instruction.operandText) := by
    unfold Instruction.text
    split
    · exact absurd ‹_› h
    · rfl
  simp only [htext, String.toList_append, toList_padRight, String.toList_intercalate, List.map_map,
    List.append_assoc]
  rfl

theorem text_of_operands_nil {i : Instruction} (h : i.operands = []) :
    Instruction.text i = i.opcode.mnemonic := by
  rw [Instruction.text, h]

def wordsOf (i : Instruction) : List (List Char) :=
  i.opcode.mnemonic.toList :: i.operands.map fun o => (Instruction.operandText o).toList

theorem spells_text {i : Instruction} (h : ∀ o ∈ i.operands, o.Writable)
    (hgap : ∀ c ∈ gap, isSeparator c = true) (hblanks : ∀ c ∈ blanks, isSeparator c = true) :
    Spells (wordsOf i) (gap ++ (Instruction.text i).toList ++ blanks) := by
  have hm := solid_mnemonic i.opcode
  by_cases hnil : i.operands = []
  · rw [text_of_operands_nil hnil, wordsOf, hnil]
    exact .word hgap hm.1 hm.not_separator (fun c hc => hblanks c (List.mem_of_mem_head? hc))
      (.blank hblanks)
  · rw [toList_text hnil, wordsOf]
    have hspace : ∀ c ∈ List.replicate (8 - i.opcode.mnemonic.length) ' ' ++ [' '],
        isSeparator c = true := by
      intro c hc
      rw [← List.replicate_succ'] at hc
      exact isSeparator_replicate c hc
    have hsolid : ∀ w ∈ i.operands.map fun o => (Instruction.operandText o).toList, Solid w := by
      simpa using fun o ho => solid_operandText (h o ho)
    have hops := spells_intercalate hsolid hspace hblanks
    have hends : Breaks (List.replicate (8 - i.opcode.mnemonic.length) ' ' ++ [' '] ++
        [',', ' '].intercalate (i.operands.map fun o => (Instruction.operandText o).toList) ++
        blanks) := by
      intro c hc
      rw [← List.replicate_succ', List.replicate_succ] at hc
      obtain rfl : ' ' = c := by simpa using hc
      decide
    simpa using Spells.word hgap hm.1 hm.not_separator hends hops

theorem mem_intercalate {ws : List (List Char)} (h : c ∈ [',', ' '].intercalate ws) :
    c = ',' ∨ c = ' ' ∨ ∃ w ∈ ws, c ∈ w := by
  induction ws with
  | nil => simp [List.intercalate] at h
  | cons w ws ih =>
    cases ws with
    | nil => exact .inr (.inr ⟨w, by simp, by simpa [List.intercalate] using h⟩)
    | cons w' ws =>
      have hsplit : [',', ' '].intercalate (w :: w' :: ws) =
          w ++ ([',', ' '] ++ [',', ' '].intercalate (w' :: ws)) := by
        simp [List.intercalate]
      simp only [hsplit, List.mem_append, List.mem_cons, List.not_mem_nil, or_false] at h
      rcases h with hc | (rfl | rfl) | hc
      · exact .inr (.inr ⟨w, by simp, hc⟩)
      · exact .inl rfl
      · exact .inr (.inl rfl)
      · rcases ih hc with rfl | rfl | ⟨v, hv, hc⟩
        · exact .inl rfl
        · exact .inr (.inl rfl)
        · exact .inr (.inr ⟨v, by simp [hv], hc⟩)

theorem isLineChar_text {i : Instruction} (h : ∀ o ∈ i.operands, o.Writable)
    (hc : c ∈ (Instruction.text i).toList) : isLineChar c = true := by
  have hword : ∀ {w}, Solid w → c ∈ w → isLineChar c = true := fun hw hc => by
    simp [isLineChar, List.all_eq_true.mp hw.2 c hc]
  by_cases hnil : i.operands = []
  · rw [text_of_operands_nil hnil] at hc
    exact hword (solid_mnemonic _) hc
  · rw [toList_text hnil] at hc
    simp only [List.mem_append, List.mem_replicate, List.mem_singleton] at hc
    rcases hc with (hc | ⟨-, rfl⟩ | rfl) | hc
    · exact hword (solid_mnemonic _) hc
    · rfl
    · rfl
    · rcases mem_intercalate hc with rfl | rfl | ⟨w, hw, hc⟩
      · rfl
      · rfl
      · obtain ⟨o, ho, rfl⟩ := List.mem_map.mp hw
        exact hword (solid_operandText (h o ho)) hc

theorem toList_comment (s : String) : (Item.comment s).text.toList = '#' :: ' ' :: s.toList := by
  simp [Item.text]

theorem toList_label (l : Label) : (Item.label l).text.toList = l.name.toList ++ [':'] := by
  simp [Item.text]

theorem toList_static (l : Label) (words : Nat) : (Item.static l words).text.toList =
    [] ++ ".static".toList ++ ([' '] ++ l.name.toList ++
      ([' '] ++ Nat.toDigits 10 words ++ [])) := by
  simp only [Item.text, String.toList_append, toString, Nat.toList_repr, List.append_assoc,
    List.append_nil]
  rfl

theorem toList_instruction (i : Instruction) (note : Option String) :
    (Item.instruction i note).text.toList =
    ['\t'] ++ (Instruction.text i).toList ++ note.elim [] fun s =>
      List.replicate (24 - (Instruction.text i).length + 1) ' ' ++ ('#' :: ' ' :: s.toList) := by
  cases note <;> simp [Item.text, toList_padRight, List.replicate_succ']

theorem map_value_lineWords (h : Spells ws (line.takeWhile (· != '#'))) (start : Nat) :
    (lineWords start line).map Located.value = ws := by
  rw [lineWords, List.map_map]
  exact h.words start

/-- In front of its comment, the line of an instruction holds its text between separators. -/
theorem takeWhile_instruction {i : Instruction} (h : ∀ o ∈ i.operands, o.Writable)
    (note : Option String) : ∃ blanks, (∀ c ∈ blanks, isSeparator c = true) ∧
      (Item.instruction i note).text.toList.takeWhile (· != '#') = ['\t'] ++
        (Instruction.text i).toList ++ blanks := by
  have hfront : ∀ c ∈ ['\t'] ++ (Instruction.text i).toList, (c != '#') = true := by
    intro c hc
    rcases List.mem_append.mp hc with hc | hc
    · obtain rfl : c = '\t' := by simpa using hc
      decide
    · exact not_hash_of_isLineChar (isLineChar_text h hc)
  cases note with
  | none =>
    refine ⟨[], by simp, ?_⟩
    rw [toList_instruction, Option.elim_none, List.takeWhile_append_of_pos hfront,
      List.takeWhile_nil]
  | some s =>
    have hblank : ∀ c ∈ List.replicate (24 - (Instruction.text i).length + 1) ' ',
        (c != '#') = true := by
      intro c hc
      obtain ⟨-, rfl⟩ := List.mem_replicate.mp hc
      decide
    refine ⟨List.replicate (24 - (Instruction.text i).length + 1) ' ', isSeparator_replicate, ?_⟩
    rw [toList_instruction, Option.elim_some, List.takeWhile_append_of_pos hfront,
      List.takeWhile_append_of_pos hblank]
    simp

/-! ### Reading lines -/

theorem exists_bind_ok {x : Except ε α} {f : α → Except ε β} {P : β → Prop}
    (h : ∃ a, x = .ok a ∧ ∃ b, f a = .ok b ∧ P b) : ∃ b, (x >>= f) = .ok b ∧ P b := by
  obtain ⟨a, rfl, h⟩ := h
  exact h

theorem ofOperands?_map (g : τ → σ) (o : Opcode) (ops : List (Operand ρ τ)) :
    Instr.ofOperands? o (ops.map (Operand.map (fun r => r) g)) =
      (Instr.ofOperands? o ops).map (Instr.map (fun r => r) g) := by
  cases o with
  | halt => cases ops <;> rfl
  | mov form | arith _ _ form | cmp _ form | memWrite form =>
    cases form <;> rcases ops with _ | ⟨_ | _, _ | ⟨_ | _, _ | _⟩⟩ <;> rfl
  | jmp form => cases form <;> rcases ops with _ | ⟨_ | _, _ | _⟩ <;> rfl
  | branch => rcases ops with _ | ⟨_ | _, _ | _⟩ <;> rfl
  | memRead | memCopy => rcases ops with _ | ⟨_ | _, _ | ⟨_ | _, _ | _⟩⟩ <;> rfl

theorem ofMnemonic?_map (g : τ → σ) (mnemonic : String) (ops : List (Operand ρ τ)) :
    Instr.ofMnemonic? mnemonic (ops.map (Operand.map (fun r => r) g)) =
      (Instr.ofMnemonic? mnemonic ops).map (Instr.map (fun r => r) g) := by
  have hkinds : (ops.map (Operand.map (fun r => r) g)).map Operand.kind = ops.map Operand.kind := by
    rw [List.map_map]
    exact List.map_congr_left fun o _ => Operand.kind_map _ _ o
  rw [Instr.ofMnemonic?, Instr.ofMnemonic?, hkinds]
  cases Opcode.select? mnemonic (ops.map Operand.kind) with
  | none => rfl
  | some o => exact ofOperands?_map g o ops

theorem ofMnemonic?_operands (i : Instr ρ τ) :
    Instr.ofMnemonic? i.opcode.mnemonic i.operands = some i := by
  have hoperands : Instr.ofOperands? i.opcode i.operands = some i := by
    cases i with
    | halt | branch | memRead | memCopy => rfl
    | mov | arith | cmp | jmp | memWrite => exact if_pos rfl
  rw [Instr.ofMnemonic?, i.kind_operands, Opcode.select?_mnemonic]
  exact hoperands

theorem map_located (span : Span) (o : Operand Register Value) :
    (locateOperand span o).map (fun r => r) Located.value = o := by
  cases o <;> rfl

theorem mapM_operands {f : Located (List Char) → Except ε (Operand Register (Located Value))}
    (hf : ∀ arg o, readOperand? arg.value = some o → f arg = .ok (locateOperand arg.span o))
    {ops : List (Operand Register Value)} (hw : ∀ o ∈ ops, o.Writable)
    {args : List (Located (List Char))}
    (h : args.map Located.value = ops.map fun o => (Instruction.operandText o).toList) :
    ∃ located, args.mapM f = .ok located ∧
    located.map (Operand.map (fun r => r) Located.value) = ops := by
  induction ops generalizing args with
  | nil =>
    obtain rfl := List.map_eq_nil_iff.mp h
    exact ⟨[], rfl, rfl⟩
  | cons o ops ih =>
    rw [List.map_cons, List.map_eq_cons_iff] at h
    obtain ⟨arg, rest, rfl, harg, hrest⟩ := h
    obtain ⟨located, hlocated, hops⟩ := ih (fun o ho => hw o (by simp [ho])) hrest
    have hread : f arg = .ok (locateOperand arg.span o) :=
      hf arg o (harg ▸ readOperand?_text (hw o (by simp)))
    refine ⟨locateOperand arg.span o :: located, ?_, by simp [map_located, hops]⟩
    rw [List.mapM_cons, hread, hlocated]
    rfl

theorem readInstruction_text {i : Instruction} (h : ∀ o ∈ i.operands, o.Writable)
    {first : Located (List Char)} {args : List (Located (List Char))}
    (hwords : (first :: args).map Located.value = wordsOf i) :
    ∃ item, readInstruction first args = .ok item ∧ item.item = .instruction i none := by
  simp only [wordsOf, List.map_cons, List.cons.injEq] at hwords
  obtain ⟨hfirst, hargs⟩ := hwords
  have htext : String.ofList first.value = i.opcode.mnemonic := by rw [hfirst, String.ofList_toList]
  obtain ⟨form, more, hforms, harity⟩ := i.opcode.forms_mnemonic
  have hlength : args.length = form.arity := by
    have hargs' := congrArg List.length hargs
    have hkinds := congrArg List.length i.kind_operands
    simp only [List.length_map] at hargs' hkinds
    rw [hargs', hkinds, harity, Opcode.arity]
  simp only [readInstruction, htext, hforms, hlength, ne_eq, not_true_eq_false, ↓reduceIte]
  refine exists_bind_ok (Exists.imp (fun located hlocated => ⟨hlocated.1, ?_⟩)
    (mapM_operands ?_ h hargs))
  · have hmade := ofMnemonic?_map Located.value i.opcode.mnemonic located
    rw [hlocated.2, ofMnemonic?_operands] at hmade
    obtain ⟨i', hi', hbare⟩ := Option.map_eq_some_iff.mp hmade.symm
    rw [hi']
    exact ⟨_, rfl, by rw [SourceItem.item, hbare]⟩
  · intro arg o ho
    rw [ho]
    rfl

theorem spanLabels_none (h : labelName? w.value = none) : spanLabels (w :: ws) = ([], w :: ws) := by
  simp only [spanLabels, h]

theorem mnemonic_first (o : Opcode) :
    labelName? o.mnemonic.toList = none ∧ o.mnemonic.toList ≠ ".static".toList := by
  have hall : ∀ o ∈ Opcode.table.toList,
      labelName? o.mnemonic.toList = none ∧ o.mnemonic.toList ≠ ".static".toList := by decide
  exact hall o o.mem_table

theorem takeWhile_not_hash {cs : List Char} (h : ∀ c ∈ cs, (c != '#') = true) :
    cs.takeWhile (· != '#') = cs := by
  have hall : (cs ++ []).takeWhile (· != '#') = cs ++ [] := List.takeWhile_append_of_pos h
  simpa using hall

theorem breaks_nil : Breaks [] := by simp [Breaks]

theorem breaks_blank (cs : List Char) : Breaks ([' '] ++ w ++ cs) := by
  intro c hc
  obtain rfl : ' ' = c := by simpa using hc
  decide

theorem Solid.spells (h : Solid w) (hgap : ∀ c ∈ gap, isSeparator c = true) (ends : Breaks cs)
    (rest : Spells ws cs) :
    Spells (w :: ws) (gap ++ w ++ cs) := .word hgap h.1 h.not_separator ends rest

theorem readLine_instruction {i : Instruction} (h : ∀ o ∈ i.operands, o.Writable)
    (hspells : Spells (wordsOf i) (line.takeWhile (· != '#'))) (start : Nat) :
    ∃ item, readLine start line = .ok [item] ∧ item.item = .instruction i none := by
  have hwords := map_value_lineWords hspells start
  cases hw : lineWords start line with
  | nil =>
    rw [hw] at hwords
    cases hwords
  | cons first args =>
    rw [hw] at hwords
    obtain ⟨item, hitem, hbare⟩ := readInstruction_text h hwords
    have hfirst : first.value = i.opcode.mnemonic.toList := (List.cons.inj hwords).1
    -- A mnemonic is neither a label nor the directive.
    obtain ⟨hlabel, hstatic⟩ := mnemonic_first i.opcode
    rw [← hfirst] at hlabel hstatic
    refine ⟨item, ?_, hbare⟩
    simp only [readLine, hw, spanLabels_none hlabel, hstatic, ↓reduceIte, hitem]
    rfl

/-- A line is read as it was written, less its comment. -/
theorem readLine_text {item : Item} (h : item.Writable) (start : Nat) :
    ∃ items, readLine start item.text.toList = .ok items ∧
      items.map SourceItem.item = item.bare?.toList := by
  cases item with
  | comment s =>
    have hline : (lineWords start (Item.comment s).text.toList) = [] := by
      simp [lineWords, toList_comment, splitWords]
    exact ⟨[], by simp [readLine, hline, spanLabels]; rfl, rfl⟩
  | label l =>
    have hsolid := solid_symbol h.symbol
    have hword : Solid (l.name.toList ++ [':']) := ⟨by simp, by rw [List.all_append, hsolid.2]; rfl⟩
    have hspells : Spells [l.name.toList ++ [':']]
        ((Item.label l).text.toList.takeWhile (· != '#')) := by
      rw [toList_label, takeWhile_not_hash hword.not_hash]
      have : Spells [l.name.toList ++ [':']] ([] ++ (l.name.toList ++ [':']) ++ []) :=
        hword.spells (by simp) breaks_nil (.blank (by simp))
      simpa using this
    obtain ⟨w, hw, hvalue⟩ := List.map_eq_singleton_iff.mp (map_value_lineWords hspells start)
    have hname : labelName? w.value = some l.name.toList := by
      rw [hvalue, labelName?, if_pos ⟨by simp, by simpa using h.symbol⟩]
      simp
    refine ⟨[.label ⟨l.name, w.span⟩], ?_, rfl⟩
    simp only [readLine, hw, spanLabels, hname, String.ofList_toList]
    rfl
  | static l words =>
    have hdirective : Solid ".static".toList := ⟨by decide, by decide⟩
    have hname := solid_symbol h.1.symbol
    have hdigits := solid_toDigits words
    -- No word holds the mark of a comment, so the whole line is read.
    have hhash : ∀ c ∈ (Item.static l words).text.toList, (c != '#') = true := by
      rw [toList_static]
      intro c hc
      simp only [List.mem_append, List.not_mem_nil, or_false, false_or] at hc
      rcases hc with hc | (hc | hc) | hc | hc
      · exact hdirective.not_hash c hc
      · obtain rfl : c = ' ' := by simpa using hc
        decide
      · exact hname.not_hash c hc
      · obtain rfl : c = ' ' := by simpa using hc
        decide
      · exact hdigits.not_hash c hc
    have hspells : Spells [".static".toList, l.name.toList, Nat.toDigits 10 words]
        ((Item.static l words).text.toList.takeWhile (· != '#')) := by
      rw [takeWhile_not_hash hhash, toList_static]
      exact hdirective.spells (by simp) (breaks_blank _) (hname.spells
        (isSeparator_cons rfl isSeparator_nil) (breaks_blank _)
        (hdigits.spells (isSeparator_cons rfl isSeparator_nil) breaks_nil (.blank (by simp))))
    have hwords := map_value_lineWords hspells start
    simp only [List.map_eq_cons_iff, List.map_eq_nil_iff] at hwords
    obtain ⟨first, _, hw, hfirst, name, _, rfl, hnameValue, count, _, rfl, hcount, rfl⟩ := hwords
    have hlabel : labelName? first.value = none := by
      rw [hfirst]
      decide
    refine ⟨[.static ⟨l.name, name.span⟩ words], ?_, rfl⟩
    simp only [readLine, hw, spanLabels_none hlabel, hfirst, ↓reduceIte, readStatic,
      hnameValue, h.1.symbol,
      Bool.not_true, Bool.false_eq_true, hcount, readNatBelow?_toDigits h.2, String.ofList_toList]
    rfl
  | instruction i note =>
    obtain ⟨blanks, hblanks, hfront⟩ := takeWhile_instruction h.1 note
    obtain ⟨item, hitem, hbare⟩ := readLine_instruction h.1
      (hfront ▸ spells_text h.1 (isSeparator_cons rfl isSeparator_nil) hblanks) start
    exact ⟨[item], hitem, by simp [hbare, Item.bare?]⟩

/-! ### Reading the whole text -/

theorem Solid.newline_notMem (h : Solid w) : '\n' ∉ w := by
  intro hc
  have := h.not_separator _ hc
  revert this
  decide

theorem newline_notMem_text {item : Item} (h : item.Writable) : '\n' ∉ item.text.toList := by
  cases item with
  | comment s =>
    have hs : '\n' ∉ s.toList := h
    simp [toList_comment, hs]
  | label l => simp [toList_label, (solid_symbol h.symbol).newline_notMem]
  | static l words =>
    simp [toList_static, (solid_symbol h.1.symbol).newline_notMem,
      (solid_toDigits words).newline_notMem]
  | instruction i note =>
    have htext : '\n' ∉ (Instruction.text i).toList :=
      fun hc => ne_newline_of_isLineChar (isLineChar_text h.1 hc) rfl
    cases note with
    | none => simp [toList_instruction, htext]
    | some s =>
      have hs : '\n' ∉ s.toList := h.2 s rfl
      simp [toList_instruction, htext, hs]

theorem readLines_text {a : Assembly} (h : ∀ item ∈ a, item.Writable) (start : Nat) :
    ∃ items, readLines start (a.map (·.text.toList) ++ [[]]) = .ok items ∧
    items.map SourceItem.item = a.bare := by
  induction a generalizing start with
  | nil => exact ⟨[], rfl, rfl⟩
  | cons item a ih =>
    obtain ⟨first, hfirst, hbare⟩ := readLine_text (h item (by simp)) start
    obtain ⟨rest, hrest, hbares⟩ :=
      ih (fun i hi => h i (by simp [hi])) (start + byteLength item.text.toList + 1)
    refine ⟨first ++ rest, ?_, ?_⟩
    · simp only [List.map_cons, List.cons_append, readLines, hfirst, hrest]
      rfl
    · rw [List.map_append, hbare, hbares, bare, bare, List.filterMap_cons]
      cases item.bare? <;> rfl

theorem read_text {a : Assembly} (h : ∀ item ∈ a, item.Writable) :
    ∃ items, read a.text.toList = .ok items ∧ items.map SourceItem.item = a.bare := by
  have htext : a.text.toList = ['\n'].intercalate (a.map (·.text.toList)) ++ ['\n'] := by
    simp only [text, String.toList_append, String.toList_intercalate, List.map_map]
    rfl
  suffices hread : ∃ items, readLines 0 (splitLines a.text.toList) = .ok items ∧
    items.map SourceItem.item = a.bare by
    obtain ⟨items, hitems, hbare⟩ := hread
    exact ⟨items, by rw [read, hitems]; rfl, hbare⟩
  cases a with
  | nil => exact ⟨[], rfl, rfl⟩
  | cons item a =>
    rw [htext, splitLines_intercalate (by simp)
      (by simpa using ⟨newline_notMem_text (h item (by simp)),
      fun i hi => newline_notMem_text (h i (by simp [hi]))⟩)]
    exact readLines_text h 0

end Assembly

end WordScript
