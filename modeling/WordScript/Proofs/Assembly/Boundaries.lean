import WordScript.Proofs.Assembly.Encoding
import WordScript.Proofs.Success

/-!
# Instruction boundaries

Whatever a text of assembly says, the words it assembles to decode to its instructions, one after
the other up to the end, and its labels stand for places between them. If all jumps go to labels, a
run never leaves these places (`ofAssembly_keeps_boundaries`).
-/

namespace WordScript

/-! ### What is read -/

theorem Instr.operands_ofOperands? {ops : List (Operand ρ τ)} (h : ofOperands? o ops = some i) :
    i.operands = ops := by
  delta ofOperands? at h
  split at h <;> first
    | (split at h <;> first | (obtain rfl := Option.some.inj h; rfl) | cases h)
    | (obtain rfl := Option.some.inj h; rfl)
    | cases h

theorem Instr.operands_ofMnemonic? {ops : List (Operand ρ τ)}
    (h : ofMnemonic? mnemonic ops = some i) : i.operands = ops := by
  obtain ⟨o, -, h⟩ := Option.bind_eq_some_iff.mp h
  exact operands_ofOperands? h

theorem mapM_eq_ok_mem {f : α → Except ε β} {l : List α} {l' : List β} (h : l.mapM f = .ok l')
    (hb : b ∈ l') : ∃ a ∈ l, f a = .ok b := by
  induction l generalizing l' with
  | nil =>
    obtain rfl := pure_eq_ok.mp h
    cases hb
  | cons a l ih =>
    simp only [List.mapM_cons, bind_eq_ok, pure_eq_ok] at h
    obtain ⟨b', hb', rest, hrest, rfl⟩ := h
    rcases List.mem_cons.mp hb with rfl | hb
    · exact ⟨a, List.mem_cons_self, hb'⟩
    · obtain ⟨a', ha', hf⟩ := ih hrest hb
      exact ⟨a', List.mem_cons_of_mem _ ha', hf⟩

namespace Assembly

theorem readOperand?_register (h : readOperand? cs = some (.register r)) : r.Real := by
  simp only [readOperand?] at h
  split at h
  · obtain rfl : .sp = r := by simpa using h
    trivial
  · split at h
    · split at h
      · next hlt =>
        obtain rfl : .general _ = r := by simpa using h
        exact hlt
      · cases h
    · split at h
      · cases h
      · split at h <;> cases h
  · split at h
    · cases h
    · split at h <;> cases h

theorem readInstruction_real (h : readInstruction mnemonic args = .ok item) :
    ∀ r ∈ item.item.registers, r.Real := by
  simp only [readInstruction] at h
  split at h
  · exact absurd h throw_ne_ok
  · simp only [refuse_eq_ok, bind_eq_ok] at h
    obtain ⟨-, ops, hops, h⟩ := h
    split at h
    · next i hi =>
      obtain rfl := pure_eq_ok.mp h
      intro r hr
      simp only [SourceItem.item, Item.registers, Instr.operands_map, List.mem_filterMap,
        List.mem_map] at hr
      obtain ⟨_, ⟨o, ho, rfl⟩, hr⟩ := hr
      rw [Instr.operands_ofMnemonic? hi] at ho
      obtain ⟨arg, -, harg⟩ := mapM_eq_ok_mem hops ho
      split at harg
      · next o' ho' =>
        obtain rfl := pure_eq_ok.mp harg
        cases o' with
        | register r' =>
          obtain rfl : r' = r := by simpa [locateOperand, Operand.map, Operand.register?] using hr
          exact readOperand?_register ho'
        | value v => simp [locateOperand, Operand.map, Operand.register?] at hr
      · exact absurd harg throw_ne_ok
    · exact absurd h throw_ne_ok

theorem spanLabels_registers {words : List (Located (List Char))} :
    ∀ item ∈ (spanLabels words).1, item.item.registers = [] := by
  induction words with
  | nil => simp [spanLabels]
  | cons word words ih =>
    simp only [spanLabels]
    split
    · intro item hitem
      rcases List.mem_cons.mp hitem with rfl | hitem
      · rfl
      · exact ih item hitem
    · simp

theorem readStatic_registers (h : readStatic directive args = .ok item) :
    item.item.registers = [] := by
  simp only [readStatic] at h
  split at h
  · split at h
    · cases h
    · split at h
      · obtain rfl := Except.ok.inj h
        rfl
      · cases h
  · cases h

theorem readLine_real (h : readLine start line = .ok items) :
    ∀ item ∈ items, ∀ r ∈ item.item.registers, r.Real := by
  have hlabels : ∀ item ∈ (spanLabels (lineWords start line)).1,
      ∀ r ∈ item.item.registers, r.Real := by
    intro item hitem
    simp [spanLabels_registers item hitem]
  have hlast : ∀ last : SourceItem, (∀ r ∈ last.item.registers, r.Real) →
      ∀ item ∈ (spanLabels (lineWords start line)).1 ++ [last],
      ∀ r ∈ item.item.registers, r.Real := by
    intro last hlast item hitem
    rcases List.mem_append.mp hitem with hitem | hitem
    · exact hlabels item hitem
    · exact List.mem_singleton.mp hitem ▸ hlast
  simp only [readLine] at h
  split at h
  · obtain rfl := pure_eq_ok.mp h
    exact hlabels
  · split at h <;> simp only [bind_eq_ok, pure_eq_ok] at h <;> obtain ⟨last, hread, rfl⟩ := h
    · exact hlast last (by simp [readStatic_registers hread])
    · exact hlast last (readInstruction_real hread)

theorem readLines_real {lines : List (List Char)} (h : readLines start lines = .ok items) :
    ∀ item ∈ items, ∀ r ∈ item.item.registers, r.Real := by
  induction lines generalizing start items with
  | nil =>
    obtain rfl := Except.ok.inj h
    intro item hitem
    cases hitem
  | cons line lines ih =>
    simp only [readLines, bind_eq_ok, pure_eq_ok] at h
    obtain ⟨first, hfirst, rest, hrest, rfl⟩ := h
    intro item hitem
    rcases List.mem_append.mp hitem with hitem | hitem
    · exact readLine_real hfirst item hitem
    · exact ih hrest item hitem

theorem read_real (h : read cs = .ok items) : ∀ item ∈ items, ∀ r ∈ item.item.registers, r.Real :=
  readLines_real (mapError_eq_ok.mp h)

/-! ### What assembles -/

theorem collectSymbols_distinct {table table' : SymbolTable} {items : List SourceItem}
    (h : collectSymbols table offset address items = .ok table') :
    (defined (items.map SourceItem.item)).Nodup ∧
      ∀ l ∈ defined (items.map SourceItem.item), table.lookup l.name = none := by
  induction items generalizing table offset address with
  | nil => simp
  | cons item items ih =>
    have hnew : ∀ {name : String} {w : Word} {offset address}, (table.lookup name).isSome = false →
        collectSymbols ((name, w) :: table) offset address items = .ok table' →
        (⟨name⟩ :: defined (items.map SourceItem.item)).Nodup ∧
          ∀ l ∈ (⟨name⟩ : Label) :: defined (items.map SourceItem.item),
          table.lookup l.name = none := by
      intro name w offset address hname h
      obtain ⟨hdistinct, hfree⟩ := ih h
      have hne : ∀ l ∈ defined (items.map SourceItem.item), (l.name == name) = false := by
        intro l hl
        have := hfree l hl
        rw [List.lookup_cons] at this
        split at this
        · cases this
        · next hne => exact hne
      refine ⟨List.nodup_cons.mpr ⟨fun hmem => by simpa using hne _ hmem, hdistinct⟩,
        fun l hl => ?_⟩
      rcases List.mem_cons.mp hl with rfl | hl
      · simpa using hname
      · have := hfree l hl
        rwa [List.lookup_cons, hne l hl] at this
    cases item with
    | instruction i => exact ih h
    | label name | static name words =>
      rw [collectSymbols] at h
      split at h
      · cases h
      · next hname => exact hnew (Bool.eq_false_iff.mpr hname) h

theorem resolve_known {table : SymbolTable} {v : Located Value} (h : resolve table v = .ok w)
    (hl : v.value = .label l) : (table.lookup l.name).isSome = true := by
  rw [resolve, hl] at h
  cases hlookup : table.lookup l.name with
  | some w => rfl
  | none => simp [hlookup] at h

theorem mapM_known {table : SymbolTable} {o : Operand Register (Located Value)}
    (h : o.mapM (resolve table) = .ok o')
    (hl : (o.map (fun r => r) Located.value).label? = some l) :
    (table.lookup l.name).isSome = true := by
  cases o with
  | register r => cases hl
  | value v =>
    simp only [Operand.mapM, bind_eq_ok] at h
    obtain ⟨w, hw, -⟩ := h
    cases hv : v.value with
    | immediate w => simp [Operand.map, Operand.label?, hv] at hl
    | label l' =>
      obtain rfl : l' = l := by simpa [Operand.map, Operand.label?, hv] using hl
      exact resolve_known hw hv

theorem instr_known {table : SymbolTable} {i : Instr Register (Located Value)}
    (h : i.mapM (resolve table) = .ok i') :
    ∀ l ∈ (SourceItem.instruction i).item.uses, (table.lookup l.name).isSome = true := by
  intro l hl
  simp only [SourceItem.item, Item.uses, Instr.operands_map, List.mem_filterMap, List.mem_map] at hl
  obtain ⟨_, ⟨o, ho, rfl⟩, hl⟩ := hl
  cases i with
  | mov _ source | arith _ _ _ source | cmp _ _ source | memWrite _ source =>
    simp only [Instr.mapM, bind_eq_ok] at h
    obtain ⟨o', ho', -⟩ := h
    simp only [Instr.operands, List.mem_cons, List.not_mem_nil, or_false] at ho
    rcases ho with rfl | rfl
    · cases hl
    · exact mapM_known ho' hl
  | jmp target =>
    simp only [Instr.mapM, bind_eq_ok] at h
    obtain ⟨o', ho', -⟩ := h
    obtain rfl := List.mem_singleton.mp ho
    exact mapM_known ho' hl
  | branch relation v =>
    simp only [Instr.mapM, bind_eq_ok] at h
    obtain ⟨w, hw, -⟩ := h
    obtain rfl := List.mem_singleton.mp ho
    have hoperand : (Operand.value v : Operand Register _).mapM (resolve table) =
        .ok (.value w) := by
      rw [Operand.mapM, hw]
      rfl
    exact mapM_known hoperand hl
  | halt => cases ho
  | memRead | memCopy =>
    simp only [Instr.operands, List.mem_cons, List.not_mem_nil, or_false] at ho
    rcases ho with rfl | rfl <;> cases hl

theorem encode_known {table : SymbolTable} {items : List SourceItem}
    (h : encode table items = .ok code) :
    ∀ l ∈ used (items.map SourceItem.item), (table.lookup l.name).isSome = true := by
  induction items generalizing code with
  | nil => simp
  | cons item items ih =>
    cases item with
    | label | static => exact ih h
    | instruction i =>
      simp only [encode, bind_eq_ok] at h
      obtain ⟨i', hi, rest, hrest, -⟩ := h
      intro l hl
      rcases List.mem_append.mp hl with hl | hl
      · exact instr_known hi l hl
      · exact ih hrest l hl

end Assembly

/-- Why a text assembles: labels are defined once, and if they are used. Its words are those of its
lines. -/
theorem Bytecode.ofAssembly_eq_ok (h : Bytecode.ofAssembly source = .ok b) :
    ∃ (items : List SourceItem) (a : Assembly), Assembly.read source.chars = .ok items ∧
    a = items.map SourceItem.item ∧
      a.defined.Nodup ∧ (∀ l ∈ a.used, l ∈ a.defined) ∧ (∀ item ∈ a, ∀ r ∈ item.registers, r.Real) ∧
      b = .ofList (a.words a.value) := by
  have hparts := h
  simp only [ofAssembly, bind_eq_ok] at hparts
  obtain ⟨items, hread, table, htable, words, hwords, -⟩ := hparts
  obtain ⟨distinct, -⟩ := Assembly.collectSymbols_distinct htable
  obtain ⟨table', htable', hlookup⟩ := Assembly.collectSymbols_eq [] 0 0 rfl distinct (by simp)
  obtain rfl : table = table' := Except.ok.inj (htable.symm.trans htable')
  have closed : ∀ l ∈ Assembly.used (items.map SourceItem.item),
      l ∈ Assembly.defined (items.map SourceItem.item) := by
    intro l hl
    have hknown := Assembly.encode_known hwords l hl
    by_contra hnot
    rw [hlookup, Assembly.symbol?_eq_none hnot] at hknown
    cases hknown
  refine ⟨items, _, hread, rfl, distinct, closed, fun item hitem => ?_,
    Except.ok.inj (h.symm.trans (ofAssembly_read hread rfl distinct closed))⟩
  obtain ⟨sourceItem, hsource, rfl⟩ := List.mem_map.mp hitem
  exact Assembly.read_real hread sourceItem hsource

/-! ### Decoding from front to back -/

/-- From this offset on, a machine with this code finds these instructions, each behind the other,
and then the end of the code. -/
inductive Bytecode.Decodes (b : Bytecode) : Nat → List (Instr Slot Word) → Prop
  | done : b.Decodes b.size []
  | next (here : ∀ m : Machine, m.code = b → m.pc = pc → m.fetch = .ok (some i))
      (rest : b.Decodes (pc + i.width) is) :
      b.Decodes pc (i :: is)

namespace Assembly

variable {a : Assembly} {value : Label → Word}

@[simp] theorem instructions_nil : instructions [] = [] := rfl

@[simp] theorem instructions_instruction :
    instructions (.instruction i note :: a) = i :: a.instructions := rfl

@[simp] theorem instructions_append (a b : Assembly) :
    (a ++ b).instructions = a.instructions ++ b.instructions :=
  List.filterMap_append

theorem size_eq (a : Assembly) : a.size = (a.instructions.map Instr.width).sum := by
  induction a with
  | nil => rfl
  | cons item a ih =>
    cases item with
    | instruction i note =>
      rw [size_cons, ih, instructions_instruction, List.map_cons, List.sum_cons, Item.size]
    | label | static | comment =>
      rw [size_cons, ih, Item.size, Nat.zero_add]
      rfl

theorem mem_instructions (h : .instruction i note ∈ a) : i ∈ a.instructions :=
  List.mem_filterMap.mpr ⟨_, h, rfl⟩

theorem valid_of_real (h : ∀ item ∈ a, ∀ r ∈ item.registers, r.Real) :
    ∀ i ∈ a.instructions, Instruction.Valid i := by
  intro i hi r hr
  obtain ⟨item, hitem, hinstr⟩ := List.mem_filterMap.mp hi
  cases item with
  | instruction i' note =>
    obtain rfl := Option.some.inj hinstr
    exact (h _ hitem r (List.mem_filterMap.mpr ⟨_, hr, rfl⟩)).slot_lt
  | _ => cases hinstr

theorem decodes_words (valid : ∀ i ∈ a.instructions, Instruction.Valid i) :
    (Bytecode.ofList (a.words value)).Decodes 0 (a.instructions.map (·.lower value)) := by
  have hcode : ∀ m : Machine, m.code = .ofList (a.words value) →
      m.code.words.toList = a.words value := by
    rintro m hm
    rw [hm]
    rfl
  have hsuffix : ∀ before after, a = before ++ after →
    (Bytecode.ofList (a.words value)).Decodes before.size
      (after.instructions.map (·.lower value)) := by
    intro before after ha
    induction after generalizing before with
    | nil =>
      have hsize : (Bytecode.ofList (a.words value)).size = before.size := by
        rw [List.append_nil] at ha
        rw [← ha, ← length_words value a, Bytecode.size]
        rfl
      exact hsize ▸ .done
    | cons item after ih =>
      have hrest := ih (before ++ [item]) (by simp [ha])
      rw [size_append, size_cons, size_nil, Nat.add_zero] at hrest
      cases item with
      | instruction i note =>
        have here : a.At before.size [.instruction i note] := ⟨before, after, by simp [ha], rfl⟩
        refine .next (fun m hm hpc => ?_) ?_
        · exact Machine.fetch_at (hcode m hm) (valid i (mem_instructions here.mem)) (hpc ▸ here)
        · rwa [show (i.lower value).width = i.width from Instr.width_map _ _ i]
      | label | static | comment => exact hrest
  exact hsuffix [] a rfl

/-! ### Steps from place to place -/

theorem At.instruction_or_end (h : a.At pc []) : (∃ i note, a.At pc [.instruction i note]) ∨
    pc = a.size := by
  obtain ⟨before, after, ha, rfl⟩ := h
  rw [List.append_nil] at ha
  induction after generalizing before with
  | nil => exact .inr (by rw [ha, List.append_nil])
  | cons item after ih =>
    have hrest := ih (before ++ [item]) (by simp [ha])
    cases item with
    | instruction i note => exact .inl ⟨i, note, before, after, by simp [ha], rfl⟩
    | label | static | comment =>
      rwa [size_append, size_cons, size_nil] at hrest

end Assembly

/-- Whether the instruction is no jump, or a jump to one of these labels. -/
def Instruction.jumpsAmong (labels : List Label) : Instruction → Bool
  | .jmp (.value (.label l)) | .branch _ (.label l) => labels.contains l
  | .jmp _ | .branch .. => false
  | .halt | .mov .. | .arith .. | .cmp .. | .memRead .. | .memWrite .. | .memCopy .. => true

def Item.codeLabel? : Item → Option Label
  | .label l => some l
  | .static .. | .instruction .. | .comment _ => none

def Assembly.codeLabels (a : Assembly) : List Label := a.filterMap Item.codeLabel?

theorem Assembly.At.of_codeLabel {a : Assembly} (h : l ∈ a.codeLabels) :
    ∃ pc, a.At pc [.label l] := by
  obtain ⟨item, hitem, hl⟩ := List.mem_filterMap.mp h
  cases item with
  | label l' =>
    obtain rfl := Option.some.inj hl
    obtain ⟨before, after, rfl⟩ := List.append_of_mem hitem
    exact ⟨_, before, after, by simp, rfl⟩
  | _ => cases hl

/-- Failures to find an instruction, or the end of the code, where control goes. -/
def Failure.isDerailment : Failure → Bool
  | unknownOpcode .. | truncatedInstruction _ | invalidRegister .. | invalidJump .. => true
  | invalidAddress .. | divisionByZero _ | noComparison _ | stepBudgetExhausted .. => false

namespace Machine

/-- Some steps lead from one machine to another, the last of which may have ended the run. -/
inductive Reaches (m : Machine) : Machine → Prop
  | start : m.Reaches m
  | step (before : m.Reaches m₁) (done : Machine.step m₁ = .ok status m₂) : m.Reaches m₂
  | failure (before : m.Reaches m₁) (failed : Machine.step m₁ = .error e m₂) : m.Reaches m₂

/-- What holds of a machine after a step, unless that was derailed. -/
def Keeps (P : Machine → Prop) : EStateM.Result Failure Machine Status → Prop
  | .ok _ m => P m
  | .error e m => e.isDerailment = false ∧ P m

variable {m m' : Machine} {a : Assembly} {value : Label → Word} {P : Machine → Prop}

/-- What all steps keep, all runs keep, and none of them is derailed. -/
theorem Reaches.keeps (hstep : ∀ m, P m → Keeps P (Machine.step m)) (hm : P m) (h : m.Reaches m') :
    P m' := by
  induction h with
  | start => exact hm
  | step before done ih =>
    have hkeeps := hstep _ ih
    rwa [done] at hkeeps
  | failure before failed ih =>
    have hkeeps := hstep _ ih
    rw [failed] at hkeeps
    exact hkeeps.2

theorem runFor_keeps (hstep : ∀ m, P m → Keeps P (Machine.step m)) (hm : P m)
    (h : m.runFor n = .inr (.error e)) : e.isDerailment = false := by
  induction n generalizing m with
  | zero => cases h
  | succ n ih =>
    rw [runFor] at h
    have hkeeps := hstep m hm
    cases hs : Machine.step m with
    | ok status m' =>
      rw [hs] at hkeeps
      cases status with
      | running =>
        simp only [hs] at h
        exact ih hkeeps h
      | halted => simp [hs] at h
    | error e' m' =>
      rw [hs] at hkeeps
      obtain rfl : e' = e := by simpa [hs] using h
      exact hkeeps.1

/-- The machine runs this code and is between two instructions of it. -/
def Between (a : Assembly) (value : Label → Word) (m : Machine) : Prop :=
  m.code.words.toList = a.words value ∧ a.At m.pc []

theorem Between.jump {pc : Nat} (h : m.Between a value) (small : a.size < 2 ^ 31)
    (target : a.At pc [.label l]) (hl : value l = .ofNat pc) (fault : Nat) :
    Keeps (Between a value) (m.jump fault (value l)) := by
  have hle := target.size_le
  have hbound : pc < 2 ^ 31 := by omega
  have hnat : (Int32.ofNat pc).toNatClampNeg = pc := Int32.toNatClampNeg_ofNat_of_lt hbound
  have hinside : 0 ≤ Int32.ofNat pc ∧ (Int32.ofNat pc).toNatClampNeg ≤ m.code.size :=
    ⟨zero_le_ofNat hbound, by rw [hnat, size_code h.1]; omega⟩
  rw [hl, Machine.jump, if_pos hinside]
  exact ⟨h.1, by simpa [hnat] using target.left (x := []) (y := [_])⟩

theorem Between.exec (h : m.Between a value) (small : a.size < 2 ^ 31)
    (labels : ∀ pc l, a.At pc [.label l] → value l = .ofNat pc)
    (jumps : Instruction.jumpsAmong a.codeLabels i = true)
    (fault : Nat) : Keeps (Between a value) (Machine.exec fault (i.lower value) m) := by
  cases i with
  | halt | mov | cmp => exact h
  | arith kind op target rhs =>
    simp only [Instruction.lower, Instr.map, Machine.exec]
    split
    · exact h
    · exact ⟨rfl, h⟩
  | memRead | memWrite =>
    simp only [Instruction.lower, Instr.map, Machine.exec]
    split
    · exact h
    · exact ⟨rfl, h⟩
  | memCopy =>
    simp only [Instruction.lower, Instr.map, Machine.exec]
    split
    · exact ⟨rfl, h⟩
    · split
      · exact ⟨rfl, h⟩
      · exact h
  | jmp target =>
    cases target with
    | register r => cases jumps
    | value v =>
      cases v with
      | immediate w => cases jumps
      | label l =>
        obtain ⟨pc, hpc⟩ := Assembly.At.of_codeLabel (List.contains_iff_mem.mp jumps)
        exact h.jump small hpc (labels pc l hpc) fault
  | branch relation target =>
    cases target with
    | immediate w => cases jumps
    | label l =>
      obtain ⟨pc, hpc⟩ := Assembly.At.of_codeLabel (List.contains_iff_mem.mp jumps)
      simp only [Instruction.lower, Instr.map, Machine.exec, Value.word]
      split
      · exact ⟨rfl, h⟩
      · split
        · exact h.jump small hpc (labels pc l hpc) fault
        · exact h

theorem Between.step (h : m.Between a value) (small : a.size < 2 ^ 31)
    (labels : ∀ pc l, a.At pc [.label l] → value l = .ofNat pc)
    (valid : ∀ i ∈ a.instructions, Instruction.Valid i)
    (jumps : ∀ i ∈ a.instructions, Instruction.jumpsAmong a.codeLabels i = true) :
    Keeps (Between a value) (Machine.step m) := by
  rcases h.2.instruction_or_end with ⟨i, note, here⟩ | hend
  · have hi := Assembly.mem_instructions here.mem
    have hafter : (m.advance i.width).Between a value :=
      ⟨h.1, by simpa [Item.size, advance] using here.tail⟩
    simp only [Machine.step, fetch_at h.1 (valid i hi) here]
    split
    · exact ⟨rfl, h⟩
    · have hexec := hafter.exec small labels (jumps i hi) m.pc
      simpa [Machine.advance, Instruction.lower] using hexec
  · have hnone : m.fetch = .ok none := by
      have hout : m.code.words[m.pc]? = none := by
        rw [Array.getElem?_eq_none_iff]
        exact Nat.le_of_eq ((size_code h.1).trans hend.symm)
      simp only [Machine.fetch, hout]
    simp only [Machine.step, hnone]
    exact h

end Machine

/-- The offsets of instructions and the length of the code are what instructions from the first on
take up. -/
theorem Assembly.At.eq_sum {a : Assembly} (h : a.At pc []) :
    ∃ k, pc = ((a.instructions.take k).map Instr.width).sum := by
  obtain ⟨before, after, rfl, rfl⟩ := h
  exact ⟨before.instructions.length, by simp [Assembly.size_eq]⟩

/-- The words of a text that assembles decode to its instructions, with registers of the machine,
and its code labels stand for the words in front of them. If it is not too long for words to be
offsets, and all of its jumps and branches go to code labels, then a machine is between two
instructions or at the end of the code, wherever a run has led it, and always finds an instruction
there. -/
theorem ofAssembly_keeps_boundaries (h : Bytecode.ofAssembly source = .ok b) :
    ∃ (items : List SourceItem) (a : Assembly) (value : Label → Word),
      Assembly.read source.chars = .ok items ∧ a = items.map SourceItem.item ∧
      a.Values value ∧ (∀ l ∈ a.used, l ∈ a.defined) ∧ (∀ i ∈ a.instructions, Instruction.Valid i) ∧
      b.Decodes 0 (a.instructions.map (·.lower value)) ∧
      (b.size < 2 ^ 31 → (∀ i ∈ a.instructions, Instruction.jumpsAmong a.codeLabels i = true) →
        ∀ config : MachineConfig,
          (∀ m, (Machine.load b config).Reaches m →
            ∃ k, m.pc = ((a.instructions.take k).map Instr.width).sum) ∧
          ∀ n e, (Machine.load b config).runFor n = .inr (.error e) → e.isDerailment = false) := by
  obtain ⟨items, a, hread, ha, distinct, closed, real, rfl⟩ := Bytecode.ofAssembly_eq_ok h
  have valid := Assembly.valid_of_real real
  refine ⟨items, a, a.value, hread, ha, Assembly.values_value distinct, closed, valid,
    Assembly.decodes_words valid, ?_⟩
  intro small jumps config
  have hsize : (Bytecode.ofList (a.words a.value)).size = a.size := Assembly.length_words a.value a
  have hstep : ∀ m : Machine, m.Between a a.value →
      Machine.Keeps (Machine.Between a a.value) (Machine.step m) :=
    fun m hm => hm.step (hsize ▸ small) (fun pc l => Assembly.value_at distinct) valid jumps
  have hstart : (Machine.load (.ofList (a.words a.value)) config).Between a a.value :=
    ⟨rfl, [], a, rfl, rfl⟩
  exact ⟨fun m hm => (hm.keeps hstep hstart).2.eq_sum, fun n e he =>
    Machine.runFor_keeps hstep hstart he⟩

/-- Jumps ahead and back, two labels on a line, one behind all instructions, and statics in between.
-/
def SourceText.zigzag : SourceText := .ofString
  ".static cell 2\nagain: more: cmp r0, 3\n jge end # leave\n add r0, 1\n.static last 1\n mov sp last\n jmp again\nend:"

theorem ofAssembly_keeps_boundaries_zigzag :
    ∃ b items, Bytecode.ofAssembly .zigzag = .ok b ∧ b.size = 13 ∧
    Assembly.read SourceText.zigzag.chars = .ok items ∧
    (∀ i ∈ Assembly.instructions (items.map SourceItem.item),
      Instruction.jumpsAmong (Assembly.codeLabels (items.map SourceItem.item)) i = true) ∧
    ∀ m, (Machine.load b ⟨16, none⟩).Reaches m →
      ∃ k, m.pc = (((Assembly.instructions (items.map SourceItem.item)).take k).map
        Instr.width).sum := by
  have hassembles : ((Bytecode.ofAssembly .zigzag).toOption.filter (·.size = 13)).isSome =
      true := by decide +kernel
  have hjumps : ((Assembly.read SourceText.zigzag.chars).toOption.all fun items =>
      (Assembly.instructions (items.map SourceItem.item)).all
        (Instruction.jumpsAmong (Assembly.codeLabels (items.map SourceItem.item)))) = true := by
    decide +kernel
  obtain ⟨b, hb⟩ := Option.isSome_iff_exists.mp hassembles
  obtain ⟨hb, hsize⟩ := Option.filter_eq_some_iff.mp hb
  have hsize : b.size = 13 := by simpa using hsize
  have hassembly := toOption_eq_some.mp hb
  obtain ⟨items, a, value, hread, rfl, -, -, -, -, hruns⟩ := ofAssembly_keeps_boundaries hassembly
  rw [toOption_eq_some.mpr hread, Option.all_some, List.all_eq_true] at hjumps
  exact ⟨b, items, hassembly, hsize, hread, hjumps, (hruns (by omega) hjumps ⟨16, none⟩).1⟩

end WordScript
