import WordScript.Proofs.Assembly.Boundaries
import WordScript.Proofs.Assembly.Layout
import WordScript.Proofs.Machine.Steps

/-!
# Listings read back

The lines of a listing can be read one by one: an instruction is assembled, and data is a number.
That gives the words of the bytecode back, each line at its offset, if all registers that the sweep
over the words meets are those of the machine (`listing_reads_back`). In code that was assembled
they are.
-/

namespace WordScript

/-! ### Sweeping -/

def Swept.Registered : Swept → Prop
  | .instruction o operands => ∀ (k : Nat) (w : Word), o.operands[k]? = some .register →
      operands[k]? = some w →
      0 ≤ w.toInt ∧ w.toInt < registerCount
  | .data _ => True

namespace Bytecode

theorem read_words (w : Word) (rest : List Word) :
    (Swept.read w rest).words ++ rest.drop ((Swept.read w rest).words.length - 1) = w :: rest := by
  unfold Swept.read
  split
  · next o ho =>
    split
    · next hfits =>
      simp only [Swept.words, List.cons_append, List.length_cons, List.length_take,
        Nat.add_sub_cancel, Nat.min_eq_left hfits, List.take_append_drop, Opcode.eq_word ho]
    · rfl
  · rfl

/-- A sweep neither leaves out a word nor repeats one. -/
theorem flatMap_sweep (ws : List Word) : (sweep ws).flatMap Swept.words = ws := by
  fun_induction sweep ws with
  | case1 => rfl
  | case2 w rest item ih => rw [List.flatMap_cons, ih, read_words]

theorem length_operands (h : .instruction o operands ∈ sweep ws) : operands.length = o.arity := by
  fun_induction sweep ws with
  | case1 => cases h
  | case2 w rest item ih =>
    rcases List.mem_cons.mp h with hitem | h
    · unfold item Swept.read at hitem
      split at hitem
      · split at hitem
        · next hfits =>
          cases hitem
          exact List.length_take_of_le hfits
        · cases hitem
      · cases hitem
    · exact ih h

theorem sweep_instruction {o : Opcode} (h : operands.length = o.arity) (rest : List Word) :
    sweep (o.word :: (operands ++ rest)) = .instruction o operands :: sweep rest := by
  have hread : Swept.read o.word (operands ++ rest) = .instruction o operands := by
    simp only [Swept.read, Opcode.ofWord?_word, List.length_append, ← h, Nat.le_add_right,
      ↓reduceIte, List.take_left]
  rw [sweep, hread]
  simp [Swept.words]

theorem toInt_ofNat_slot (h : n < registerCount) :
    0 ≤ (Int32.ofNat n).toInt ∧ (Int32.ofNat n).toInt < registerCount := by
  rw [Int32.toInt_ofNat_of_lt (Nat.lt_trans h (by decide))]
  exact ⟨Int.natCast_nonneg n, Int.ofNat_lt.mpr h⟩

theorem registered_words {a : Assembly} {value : Label → Word}
    (valid : ∀ i ∈ a.instructions, Instruction.Valid i) :
    ∀ item ∈ sweep (a.words value), item.Registered := by
  induction a with
  | nil =>
    rw [show sweep (Assembly.words value []) = [] from sweep.eq_1]
    exact List.forall_mem_nil _
  | cons item a ih =>
    cases item with
    | label | static | comment => exact ih valid
    | instruction i note =>
      obtain ⟨hi, hrest⟩ := List.forall_mem_cons.mp valid
      have hwords : Assembly.words value (.instruction i note :: a) = i.opcode.word ::
          ((i.map (fun r => r) (Value.word value)).operands.map (Operand.encoded Register.slot) ++
            Assembly.words value a) := by
        rw [Assembly.words, List.flatMap_cons, Item.words, Instr.words_eq, Instr.opcode_map]
        rfl
      rw [hwords, sweep_instruction (by simp [Instr.operands_map, Opcode.arity, ← i.kind_operands])]
      refine List.forall_mem_cons.mpr ⟨fun k w hkind hw => ?_, ih hrest⟩
      rw [← i.kind_operands, List.getElem?_map, Option.map_eq_some_iff] at hkind
      obtain ⟨o, ho, hkind⟩ := hkind
      rw [Instr.operands_map, List.map_map, List.getElem?_map, ho] at hw
      obtain rfl := Option.some.inj hw
      cases o with
      | value v => cases hkind
      | register r => exact toInt_ofNat_slot (hi r (List.mem_of_getElem? ho))

end Bytecode

/-! ### Instructions of words -/

def Slot.register (r : Slot) : Register := if r.val = 0 then .sp else .general (r.val - 1)

theorem Slot.register_written : ∀ r : Slot, r.register.Real ∧ r.register.slot = r.val ∧
    r.register.text = Swept.operandText .register (.ofNat r.val) := by decide

theorem Slot.exists_ofWord {w : Word} (h : 0 ≤ w.toInt ∧ w.toInt < registerCount) :
    ∃ r, Slot.ofWord w = .ok r := by
  have hlt : w.toNatClampNeg < registerCount := by
    rw [← Int32.toNat_toInt]
    exact (Int.toNat_lt h.1).mpr h.2
  exact ⟨_, dif_pos ⟨Int32.le_iff_toInt_le.mpr h.1, hlt⟩⟩

theorem Instr.exists_decode {o : Opcode} {a b : Word}
    (h : ∀ (k : Nat) (w : Word), o.operands[k]? = some .register → [a, b][k]? = some w →
      ∃ r, Slot.ofWord w = .ok r) :
    ∃ i, decode o a b = .ok i := by
  have hoperand : ∀ (k : Nat) form w, o.operands[k]? = some form → [a, b][k]? = some w →
      ∃ x, decodeOperand form w = .ok x := by
    intro k form w hform hw
    cases form with
    | immediate => exact ⟨.value w, rfl⟩
    | register =>
      obtain ⟨r, hr⟩ := h k w hform hw
      exact ⟨.register r, congrArg (Except.map Operand.register) hr⟩
  cases o with
  | halt | branch => exact ⟨_, rfl⟩
  | jmp form =>
    obtain ⟨x, hx⟩ := hoperand 0 form a rfl rfl
    simp only [decode, hx]
    exact ⟨_, rfl⟩
  | mov form | arith _ _ form | cmp _ form | memWrite form =>
    obtain ⟨r, hr⟩ := h 0 a rfl rfl
    obtain ⟨x, hx⟩ := hoperand 1 form b rfl rfl
    simp only [decode, hr, hx]
    exact ⟨_, rfl⟩
  | memRead | memCopy =>
    obtain ⟨r, hr⟩ := h 0 a rfl rfl
    obtain ⟨r', hr'⟩ := h 1 b rfl rfl
    simp only [decode, hr, hr']
    exact ⟨_, rfl⟩

/-- Registered words are those of an instruction. -/
theorem Swept.Registered.exists_instr (h : Registered (.instruction o ws))
    (hlength : ws.length = o.arity) :
    ∃ i : Instr Slot Word, i.opcode = o ∧ ws = i.operands.map (Operand.encoded Fin.val) := by
  have harity : o.arity ≤ 2 := by cases o <;> simp [Opcode.arity, Opcode.operands]
  have hws : ws = [ws.getD 0 0, ws.getD 1 0].take o.arity := by
    rw [← hlength] at harity ⊢
    rcases ws with _ | ⟨a, _ | ⟨b, _ | ⟨c, ws⟩⟩⟩
    · rfl
    · rfl
    · rfl
    · exact absurd harity (by simp)
  obtain ⟨i, hi⟩ :=
    Instr.exists_decode (o := o) (a := ws.getD 0 0) (b := ws.getD 1 0) fun k w hk hw => by
    refine Slot.exists_ofWord (h k w hk ?_)
    rw [hws, Opcode.arity, List.getElem?_take_of_lt (List.getElem?_eq_some_iff.mp hk).1, hw]
  obtain ⟨rfl, hwords⟩ := Instr.decode_ok hi
  rw [← hws, Instr.words_eq] at hwords
  exact ⟨i, rfl, (List.cons.inj hwords).2.symm⟩

def Operand.written (x : Operand Slot Word) : Operand Register Value :=
  x.map Slot.register .immediate

theorem Operand.written_eq (x : Operand Slot Word) : x.written.Writable ∧ x.written.label? = none ∧
    Instruction.operandText x.written = Swept.operandText x.kind (x.encoded Fin.val) ∧
    ∀ symbol : Label → Word, (x.written.map (fun r => r) (Value.word symbol)).encoded
      Register.slot = x.encoded Fin.val := by
  cases x with
  | value w => exact ⟨trivial, rfl, rfl, fun _ => rfl⟩
  | register r =>
    obtain ⟨hreal, hslot, htext⟩ := Slot.register_written r
    exact ⟨hreal, rfl, htext, fun _ => congrArg Int32.ofNat hslot⟩

def Instr.written (i : Instr Slot Word) : Instruction := i.map Slot.register .immediate

namespace Instr

theorem operands_written (i : Instr Slot Word) :
    i.written.operands = i.operands.map Operand.written :=
  operands_map _ _ i

theorem opcode_written (i : Instr Slot Word) : i.written.opcode = i.opcode := opcode_map _ _ i

theorem writable_written (i : Instr Slot Word) : ∀ o ∈ i.written.operands, o.Writable := by
  rw [operands_written, List.forall_mem_map]
  exact fun x _ => x.written_eq.1

/-- A listing shows an instruction as assembly does, perhaps with spaces behind. -/
theorem text_written (i : Instr Slot Word) :
    ∃ n, (Swept.instruction i.opcode (i.operands.map (Operand.encoded Fin.val))).text.toList =
      (Instruction.text i.written).toList ++ List.replicate n ' ' := by
  have hoperands : List.zipWith Swept.operandText i.opcode.operands
    (i.operands.map (Operand.encoded Fin.val)) =
      i.written.operands.map Instruction.operandText := by
    rw [← i.kind_operands, List.zipWith_map, List.zipWith_self, operands_written, List.map_map]
    exact List.map_congr_left fun x _ => x.written_eq.2.2.1.symm
  rw [Swept.text, hoperands, ← opcode_written, Instruction.text]
  split
  · next hnil =>
    refine ⟨8 - i.written.opcode.mnemonic.length + 1, ?_⟩
    simp [hnil, Assembly.toList_padRight, List.replicate_succ']
  · exact ⟨0, (List.append_nil _).symm⟩

theorem used_written (i : Instr Slot Word) : Assembly.used [.instruction i.written none] = [] := by
  rw [Assembly.used, List.flatMap_singleton, Item.uses, operands_written, List.filterMap_map,
    List.filterMap_eq_nil_iff]
  exact fun x _ => x.written_eq.2.1

theorem words_written (i : Instr Slot Word) (symbol : Label → Word) :
    Assembly.words symbol [.instruction i.written none] = i.opcode.word :: i.operands.map
      (Operand.encoded Fin.val) := by
  rw [Assembly.words, List.flatMap_singleton, Item.words, words_eq, opcode_map,
    opcode_written, operands_map, operands_written, List.map_map, List.map_map]
  exact congrArg _ (List.map_congr_left fun x _ => x.written_eq.2.2.2 symbol)

end Instr

/-! ### Lines -/

namespace Assembly

/-- The words of a line without its offset: the number behind `.word`, or what the line assembles
to. -/
def readListed (text : List Char) : Option (List Word) :=
  if (rowOf text).head? = some ".word".toList then ((rowOf text)[1]?.bind readInt32?).map ([·])
  else (Bytecode.ofAssembly (.ofString (String.ofList text))).toOption.map (·.words.toList)

def readNumbered (line : List Char) : Option (Nat × List Word) := do
  let text := line.dropWhile isBlank
  return (← readDigits? (text.takeWhile Char.isDigit), ← readListed (text.dropWhile Char.isDigit))

def readListing (text : String) : Option (List (Nat × List Word)) :=
  if text = "" then some [] else (splitLines text.toList).mapM readNumbered

/-- The offsets start at `offset`, and each next one is larger by the words of the line before, up
to `final`. -/
def Numbered (offset : Nat) : List (Nat × List Word) → Nat → Prop
  | [], final => offset = final
  | line :: lines, final => line.1 = offset ∧ Numbered (offset + line.2.length) lines final

def IsLine (line : List Char) : Prop := ∀ c ∈ line, isLineChar c = true

theorem IsLine.append (h : IsLine line) (h' : IsLine line') : IsLine (line ++ line') :=
  List.forall_mem_append.mpr ⟨h, h'⟩

theorem isLine_replicate (n : Nat) : IsLine (List.replicate n ' ') := by
  intro c hc
  rw [(List.mem_replicate.mp hc).2]
  decide

theorem Solid.isLine (h : Solid w) : IsLine w := fun c hc => by
  simp [isLineChar, List.all_eq_true.mp h.2 c hc]

theorem IsLine.holds (h : IsLine line) (hspells : Spells ws line) : Holds line ws := by
  rwa [Holds, takeWhile_not_hash fun c hc => not_hash_of_isLineChar (h c hc)]

theorem IsLine.not_newline (h : IsLine line) : ∀ c ∈ line, (c == '\n') = false := fun c hc =>
  beq_false_of_ne (ne_newline_of_isLineChar (h c hc))

theorem readListed_instruction (i : Instr Slot Word) (hline : IsLine line)
    (hspells : Spells (wordsOf i.written) line) :
    readListed line = some (i.opcode.word :: i.operands.map (Operand.encoded Fin.val)) := by
  have hholds := hline.holds hspells
  have hhead : (rowOf line).head? ≠ some ".word".toList := by
    rw [hholds.eq_rowOf]
    have hmnemonic : ∀ o ∈ Opcode.table.toList, o.mnemonic.toList ≠ ".word".toList := by decide
    exact fun h => hmnemonic _ (Opcode.mem_table _) (Option.some.inj h)
  obtain ⟨item, hitem, hsame⟩ := readLine_instruction i.writable_written hholds 0
  have hread : read (SourceText.ofString (String.ofList line)).chars = .ok [item] := by
    rw [read, SourceText.chars, SourceText.ofString, String.toList_ofList, splitLines,
      splitWhere_solid hline.not_newline]
    simp only [readLines, hitem]
    rfl
  have hwords := Bytecode.ofAssembly_read (a := [.instruction i.written none]) hread
    (by rw [← hsame]; rfl) .nil
    (by rw [i.used_written]; exact List.forall_mem_nil _)
  rw [readListed, if_neg hhead, hwords, i.words_written]
  rfl

theorem readListed_text (h : item ∈ Bytecode.sweep ws) (registered : item.Registered) :
    IsLine item.text.toList ∧
      readListed (List.replicate 2 ' ' ++ item.text.toList) = some item.words := by
  cases item with
  | instruction o operands =>
    obtain ⟨i, rfl, rfl⟩ := registered.exists_instr (Bytecode.length_operands h)
    obtain ⟨n, htext⟩ := i.text_written
    have hline : IsLine ((Instruction.text i.written).toList ++ List.replicate n ' ') :=
      .append (fun c hc => isLineChar_text i.writable_written hc) (isLine_replicate n)
    rw [htext]
    refine ⟨hline, readListed_instruction i ((isLine_replicate 2).append hline) ?_⟩
    rw [← List.append_assoc]
    exact spells_text i.writable_written isSeparator_replicate isSeparator_replicate
  | data w =>
    have hword : Solid ".word".toList := ⟨by decide, by decide⟩
    have hnumber : Solid w.text.toList := solid_operandText (o := .value (.immediate w)) trivial
    have htext : (Swept.data w).text.toList = ".word".toList ++
        (List.replicate 4 ' ' ++ w.text.toList ++ []) := by
      rw [Swept.text, String.toList_append, String.toList_append, List.append_nil]
      rfl
    have hline : IsLine (Swept.data w).text.toList := by
      rw [htext, List.append_nil]
      exact .append hword.isLine (.append (isLine_replicate 4) hnumber.isLine)
    have hspells : Spells [".word".toList, w.text.toList]
        (List.replicate 2 ' ' ++ (Swept.data w).text.toList) := by
      rw [htext, ← List.append_assoc]
      refine .word isSeparator_replicate hword.1 hword.not_separator ?_
        (.word isSeparator_replicate hnumber.1 hnumber.not_separator breaks_nil
          (.blank isSeparator_nil))
      rintro c ⟨⟩
      decide
    refine ⟨hline, ?_⟩
    rw [readListed, (((isLine_replicate 2).append hline).holds hspells).eq_rowOf]
    simp [readInt32?_text, Swept.words]

theorem toList_numbered (offset : Nat) (item : Swept) :
    (padLeft 5 (toString offset) ++ "  " ++ item.text).toList =
    List.replicate (5 - (toString offset).length) ' ' ++
      (Nat.toDigits 10 offset ++ (List.replicate 2 ' ' ++ item.text.toList)) := by
  simp [padLeft, spaces, List.replicate]

theorem readNumbered_listed {item : Swept}
    (h : readListed (List.replicate 2 ' ' ++ item.text.toList) = some item.words)
    (offset : Nat) : readNumbered (padLeft 5 (toString offset) ++ "  " ++ item.text).toList =
      some (offset, item.words) := by
  have hblank : ∀ c ∈ List.replicate (5 - (toString offset).length) ' ', isBlank c = true := by
    intro c hc
    rw [(List.mem_replicate.mp hc).2]
    decide
  have hdigits : ∀ c ∈ Nat.toDigits 10 offset, c.isDigit = true := fun c hc =>
    Nat.isDigit_of_mem_toDigits (by decide) (by decide) hc
  have htext : ∀ cs, (Nat.toDigits 10 offset ++ cs).dropWhile isBlank =
      Nat.toDigits 10 offset ++ cs := by
    intro cs
    obtain ⟨c, ds, hds, -⟩ := toDigits_eq_cons offset
    have hseparator := (solid_toDigits offset).not_separator c (hds ▸ List.mem_cons_self)
    rw [isSeparator, Bool.or_eq_false_iff] at hseparator
    rw [hds]
    exact List.dropWhile_cons_of_neg (by rw [hseparator.1]; decide)
  have hrest : ∀ cs, (List.replicate 2 ' ' ++ cs).takeWhile Char.isDigit = [] ∧
      (List.replicate 2 ' ' ++ cs).dropWhile Char.isDigit = List.replicate 2 ' ' ++ cs :=
        fun _ => ⟨rfl, rfl⟩
  rw [readNumbered, toList_numbered, List.dropWhile_append_of_pos hblank, htext,
    List.takeWhile_append_of_pos hdigits,
    List.dropWhile_append_of_pos hdigits, (hrest _).1, (hrest _).2, List.append_nil,
    readDigits?_toDigits, h]
  rfl

theorem isLine_listed {items : List Swept} (h : ∀ item ∈ items, IsLine item.text.toList)
    (offset : Nat) : ∀ line ∈ Bytecode.listingFrom offset items, IsLine line.toList := by
  induction items generalizing offset with
  | nil => exact List.forall_mem_nil _
  | cons item items ih =>
    obtain ⟨hitem, hitems⟩ := List.forall_mem_cons.mp h
    refine List.forall_mem_cons.mpr ⟨?_, ih hitems _⟩
    rw [toList_numbered]
    exact (isLine_replicate _).append
      ((solid_toDigits offset).isLine.append ((isLine_replicate 2).append hitem))

theorem mapM_listingFrom {items : List Swept}
    (h : ∀ item ∈ items, readListed (List.replicate 2 ' ' ++ item.text.toList) = some item.words)
    (offset : Nat) :
    ∃ lines, ((Bytecode.listingFrom offset items).map String.toList).mapM readNumbered =
      some lines ∧ Numbered offset lines (offset + (items.flatMap Swept.words).length) ∧
      lines.flatMap Prod.snd = items.flatMap Swept.words := by
  induction items generalizing offset with
  | nil => exact ⟨[], rfl, rfl, rfl⟩
  | cons item items ih =>
    obtain ⟨hitem, hitems⟩ := List.forall_mem_cons.mp h
    obtain ⟨lines, hlines, hnumbered, hwords⟩ := ih hitems (offset + item.words.length)
    refine ⟨(offset, item.words) :: lines, ?_, ⟨rfl, ?_⟩, ?_⟩
    · rw [Bytecode.listingFrom, List.map_cons, List.mapM_cons,
        readNumbered_listed hitem offset, hlines]
      rfl
    · rw [List.flatMap_cons, List.length_append, ← Nat.add_assoc]
      exact hnumbered
    · rw [List.flatMap_cons, List.flatMap_cons, hwords]

end Assembly

namespace Bytecode

theorem splitLines_listing {b : Bytecode} (hne : sweep b.words.toList ≠ [])
    (h : ∀ item ∈ sweep b.words.toList, Assembly.IsLine item.text.toList) :
    splitLines b.listing.toList = (listingFrom 0 (sweep b.words.toList)).map String.toList := by
  rw [listing, String.toList_intercalate]
  refine (cut_intercalate ?_ (fun line hline => ?_) rfl).splitWhere_eq
  · obtain ⟨item, items, hitems⟩ := List.exists_cons_of_ne_nil hne
    rw [hitems]
    exact List.cons_ne_nil _ _
  · obtain ⟨text, htext, rfl⟩ := List.mem_map.mp hline
    exact (Assembly.isLine_listed h 0 text htext).not_newline

/-- A listing can be read line by line, and gives the words back, if all registers in them are those
of the machine. In code that was assembled they are. -/
theorem listing_reads_back (b : Bytecode) :
    ((∀ item ∈ sweep b.words.toList, item.Registered) →
      ∃ lines, Assembly.readListing b.listing = some lines ∧ Assembly.Numbered 0 lines b.size ∧
        lines.flatMap Prod.snd = b.words.toList) ∧
    ∀ source, ofAssembly source = .ok b → ∀ item ∈ sweep b.words.toList, item.Registered := by
  refine ⟨fun registered => ?_, fun source h => ?_⟩
  · have htexts := fun item hitem => Assembly.readListed_text hitem (registered item hitem)
    obtain ⟨lines, hlines, hnumbered, hwords⟩ :=
      Assembly.mapM_listingFrom (fun item hitem => (htexts item hitem).2) 0
    rw [flatMap_sweep, Nat.zero_add, Array.length_toList] at hnumbered
    rw [flatMap_sweep] at hwords
    refine ⟨lines, ?_, hnumbered, hwords⟩
    rw [← hlines, Assembly.readListing]
    by_cases hitems : sweep b.words.toList = []
    · rw [listing, hitems]
      rfl
    · have hsplit := splitLines_listing hitems fun item hitem => (htexts item hitem).1
      have htext : b.listing ≠ "" := by
        intro hempty
        rw [hempty] at hsplit
        rw [← hsplit] at hlines
        cases hlines
      rw [if_neg htext, hsplit]
  · obtain ⟨_, a, -, -, -, -, real, rfl⟩ := ofAssembly_eq_ok h
    exact registered_words (Assembly.valid_of_real real)

/-- A word that starts no instruction, an instruction, and one that is cut off. -/
def torn : Bytecode := .ofList [99, 2, 0, 10, 34, 1]

theorem torn_reads_back : (∀ item ∈ sweep torn.words.toList, item.Registered) ∧
    ∃ lines, Assembly.readListing torn.listing = some lines ∧ Assembly.Numbered 0 lines 6 ∧
      lines.flatMap Prod.snd = [99, 2, 0, 10, 34, 1] := by
  have hsweep : sweep torn.words.toList = [.data 99, .instruction (.mov .immediate) [0, 10],
    .data 34, .data 1] := by
    decide +kernel
  have hregistered : ∀ item ∈ sweep torn.words.toList, item.Registered := by
    have hmov : Swept.Registered (.instruction (.mov .immediate) [0, 10]) := by
      rintro (_ | _ | k) w ⟨⟩ ⟨⟩
      decide
    rw [hsweep]
    exact List.forall_mem_cons.mpr
      ⟨trivial, List.forall_mem_cons.mpr ⟨hmov, by simp [Swept.Registered]⟩⟩
  exact ⟨hregistered, (listing_reads_back torn).1 hregistered⟩

end Bytecode

end WordScript
