import Mathlib.Algebra.Ring.Int.Defs
import Mathlib.Algebra.Ring.Nat
import WordScript.Machine.Run

/-!
# Assembled programs

What the machine does with assembled code, said of the assembly: an `Image` is assembly with values
for its labels and a memory size, a `State` is an offset in it and what registers and memory hold.
`Image.Step` goes line by line. A machine that shows a state takes the steps of its image
(`Machine.Shows.step`), so nothing after this module decodes a word.
-/

namespace WordScript

/-! ### Words of assembly -/

variable {ρ ρ' τ σ : Type}

def Operand.map (f : ρ → ρ') (g : τ → σ) : Operand ρ τ → Operand ρ' σ
  | .register r => .register (f r)
  | .value v => .value (g v)

def Operand.encoded (slot : ρ → Nat) : Operand ρ Word → Word
  | .register r => .ofNat (slot r)
  | .value w => w

@[simp] theorem Operand.kind_map (f : ρ → ρ') (g : τ → σ) (o : Operand ρ τ) :
    (o.map f g).kind = o.kind := by
  cases o <;> rfl

namespace Instr

def map (f : ρ → ρ') (g : τ → σ) : Instr ρ τ → Instr ρ' σ
  | halt => halt
  | mov target source => mov (f target) (source.map f g)
  | arith kind op target rhs => arith kind op (f target) (rhs.map f g)
  | cmp kind lhs rhs => cmp kind (f lhs) (rhs.map f g)
  | jmp target => jmp (target.map f g)
  | branch relation target => branch relation (g target)
  | memRead target address => memRead (f target) (f address)
  | memWrite address source => memWrite (f address) (source.map f g)
  | memCopy target source => memCopy (f target) (f source)

@[simp] theorem opcode_map (f : ρ → ρ') (g : τ → σ) (i : Instr ρ τ) :
    (i.map f g).opcode = i.opcode := by
  cases i <;> simp [map, opcode]

@[simp] theorem width_map (f : ρ → ρ') (g : τ → σ) (i : Instr ρ τ) :
    (i.map f g).width = i.width := by
  simp [width]

theorem operands_map (f : ρ → ρ') (g : τ → σ) (i : Instr ρ τ) :
    (i.map f g).operands = i.operands.map (Operand.map f g) := by
  cases i <;> rfl

theorem words_eq (slot : ρ → Nat) (i : Instr ρ Word) :
    i.words slot = i.opcode.word :: i.operands.map (Operand.encoded slot) := by
  rw [words]
  congr 2

theorem length_words (slot : ρ → Nat) (i : Instr ρ Word) : (i.words slot).length = i.width := by
  have hkinds := congrArg List.length i.kind_operands
  simp only [List.length_map] at hkinds
  simp [words, width, Opcode.width, Opcode.arity, hkinds, Nat.add_comm]

end Instr

def Value.word (value : Label → Word) : Value → Word
  | .immediate w => w
  | .label l => value l

def Item.size : Item → Nat
  | .instruction i _ => i.width
  | .static .. | .label _ | .comment _ => 0

def Item.words (value : Label → Word) : Item → List Word
  | .instruction i _ => (i.map (fun r => r) (Value.word value)).words Register.slot
  | .static .. | .label _ | .comment _ => []

theorem Item.length_words (value : Label → Word) (item : Item) :
    (item.words value).length = item.size := by
  cases item <;> simp [words, size, Instr.length_words]

namespace Assembly

def size : Assembly → Nat
  | [] => 0
  | item :: rest => item.size + size rest

@[simp] theorem size_nil : size [] = 0 := rfl

@[simp] theorem size_cons : size (item :: rest) = item.size + size rest := rfl

@[simp] theorem size_append (a b : Assembly) : (a ++ b).size = a.size + b.size := by
  induction a with
  | nil => simp
  | cons item a ih => simp only [List.cons_append, size_cons, ih, Nat.add_assoc]

def words (value : Label → Word) (a : Assembly) : List Word := a.flatMap (Item.words value)

theorem length_words (value : Label → Word) (a : Assembly) : (a.words value).length = a.size := by
  induction a with
  | nil => rfl
  | cons item a ih =>
    rw [words, List.flatMap_cons, ← words, List.length_append, ih, Item.length_words, size_cons]

/-- `a.At pc code`: the code is a part of `a`, and its first word has offset `pc`. -/
def At (a : Assembly) (pc : Nat) (code : Assembly) : Prop :=
  ∃ before after, a = before ++ code ++ after ∧ before.size = pc

namespace At

variable {a : Assembly}

theorem left (h : a.At pc (x ++ y)) : a.At pc x := by
  obtain ⟨before, after, rfl, rfl⟩ := h
  exact ⟨before, y ++ after, by simp, rfl⟩

theorem right (h : a.At pc (x ++ y)) : a.At (pc + x.size) y := by
  obtain ⟨before, after, rfl, rfl⟩ := h
  exact ⟨before ++ x, after, by simp, by simp⟩

theorem head (h : a.At pc (item :: rest)) : a.At pc [item] := left (y := rest) h

theorem tail (h : a.At pc (item :: rest)) : a.At (pc + item.size) rest := by
  simpa using right (x := [item]) h

theorem size_le (h : a.At pc code) : pc + code.size ≤ a.size := by
  obtain ⟨before, after, rfl, rfl⟩ := h
  simp only [size_append]
  omega

theorem mem (h : a.At pc [item]) : item ∈ a := by
  obtain ⟨before, after, rfl, -⟩ := h
  simp

end At

end Assembly

/-! ### Images and their steps -/

structure Store where
  registers : Register → Word
  memory : Int → Word
  /-- How the last comparison came out. -/
  flags : Option Comparison

namespace Store

variable {s : Store}

def set (s : Store) (r : Register) (w : Word) : Store :=
  { s with registers := fun r' => if r' = r then w else s.registers r' }

def write (s : Store) (address : Int) (w : Word) : Store :=
  { s with memory := fun z => if z = address then w else s.memory z }

def compared (s : Store) (c : Comparison) : Store := { s with flags := some c }

@[simp] theorem registers_set :
    (s.set r w).registers r' = if r' = r then w else s.registers r' := rfl

@[simp] theorem memory_set : (s.set r w).memory = s.memory := rfl

@[simp] theorem registers_write : (s.write z w).registers = s.registers := rfl

@[simp] theorem memory_write : (s.write z w).memory z' = if z' = z then w else s.memory z' := rfl

@[simp] theorem registers_compared : (s.compared c).registers = s.registers := rfl

@[simp] theorem memory_compared : (s.compared c).memory = s.memory := rfl

@[simp] theorem flags_compared : (s.compared c).flags = some c := rfl

end Store

def Instruction.straight : Instruction → Bool
  | .halt | .jmp _ | .branch .. => false
  | .mov .. | .arith .. | .cmp .. | .memRead .. | .memWrite .. | .memCopy .. => true

inductive Trap
  | division
  | address
  deriving DecidableEq, Repr

def Trap.Explains : Trap → Failure → Prop
  | division, e => ∃ pc, e = .divisionByZero pc
  | address, e => ∃ pc address, e = .invalidAddress pc address

/-- Assembly with values for its labels, and the memory it runs in. -/
structure Image where
  code : Assembly
  value : Label → Word
  memoryWords : Nat

structure State where
  pc : Nat
  store : Store

namespace Image

variable (img : Image)

def Holds (w : Word) : Prop := 0 ≤ w ∧ w.toInt < img.memoryWords

instance (w : Word) : Decidable (img.Holds w) := inferInstanceAs (Decidable (_ ∧ _))

def operand (s : Store) : Operand Register Value → Word
  | .register r => s.registers r
  | .value v => v.word img.value

@[simp] theorem operand_register : img.operand s (.register r) = s.registers r := rfl

@[simp] theorem operand_immediate : img.operand s (.value (.immediate w)) = w := rfl

@[simp] theorem operand_label : img.operand s (.value (.label l)) = img.value l := rfl

def exec (s : Store) : Instruction → Except Trap Store
  | .mov target source => .ok (s.set target (img.operand s source))
  | .arith kind op target rhs =>
    match Word.arithmetic? kind op (s.registers target) (img.operand s rhs) with
    | some w => .ok (s.set target w)
    | none => .error .division
  | .cmp kind lhs rhs => .ok (s.compared (Word.compare kind (s.registers lhs) (img.operand s rhs)))
  | .memRead target address =>
    if img.Holds (s.registers address) then
      .ok (s.set target (s.memory (s.registers address).toInt))
    else .error .address
  | .memWrite address source =>
    if img.Holds (s.registers address) then
      .ok (s.write (s.registers address).toInt (img.operand s source))
    else .error .address
  | .memCopy target source =>
    if img.Holds (s.registers source) ∧ img.Holds (s.registers target) then
      .ok (s.write (s.registers target).toInt (s.memory (s.registers source).toInt))
    else .error .address
  | .halt | .jmp _ | .branch .. => .ok s

inductive Step : State → State → Prop
  | straight (here : img.code.At pc [.instruction i comment]) (goes : i.straight = true)
      (done : img.exec s i = .ok s') : Step ⟨pc, s⟩ ⟨pc + i.width, s'⟩
  | jump (here : img.code.At pc [.instruction (.jmp target) comment])
      (aim : img.operand s target = .ofNat pc') (inside : pc' ≤ img.code.size) :
      Step ⟨pc, s⟩ ⟨pc', s⟩
  | taken (here : img.code.At pc [.instruction (.branch relation target) comment])
      (compared : s.flags = some c) (holds : relation.holds c = true)
      (aim : target.word img.value = .ofNat pc') (inside : pc' ≤ img.code.size) :
      Step ⟨pc, s⟩ ⟨pc', s⟩
  | passed (here : img.code.At pc [.instruction (.branch relation target) comment])
      (compared : s.flags = some c) (fails : relation.holds c = false) : Step ⟨pc, s⟩ ⟨pc + 2, s⟩

inductive Traps : State → Trap → Prop
  | straight (here : img.code.At pc [.instruction i comment]) (fails : img.exec s i = .error t) :
      Traps ⟨pc, s⟩ t

inductive Halts : State → Prop
  | halt (here : img.code.At pc [.instruction .halt comment]) : Halts ⟨pc, s⟩

end Image

def Instruction.Valid (i : Instruction) : Prop := ∀ r, .register r ∈ i.operands →
    r.slot < registerCount

/-- What assembling ensures: labels stand for offsets that words can hold, and all registers exist.
-/
structure Image.Proper (img : Image) : Prop where
  labels : ∀ pc l, img.code.At pc [.label l] → img.value l = .ofNat pc
  registers : ∀ i ∈ img.code.instructions, i.Valid
  small : img.code.size < 2 ^ 31

theorem Image.Proper.valid {img : Image} (hp : img.Proper)
    (here : img.code.At pc [.instruction i comment]) : Instruction.Valid i :=
  hp.registers i (List.mem_filterMap.mpr ⟨_, here.mem, rfl⟩)

/-- `m.Shows img x`: the machine runs the image and is in this state. -/
structure Machine.Shows (m : Machine) (img : Image) (x : State) : Prop where
  code : m.code.words.toList = img.code.words img.value
  size : m.memory.size = img.memoryWords
  pc : m.pc = x.pc
  registers : ∀ (r : Register) (h : r.slot < registerCount), m.register ⟨r.slot, h⟩ =
    x.store.registers r
  memory : ∀ n (h : n < m.memory.size), m.memory[n] = x.store.memory n
  flags : m.flags = x.store.flags

/-! ### Decoding -/

theorem zero_le_ofNat (h : n < 2 ^ 31) : (0 : Word) ≤ .ofNat n := by
  rw [Int32.le_iff_toInt_le, Int32.toInt_ofNat_of_lt h]
  exact Int.natCast_nonneg n

theorem Slot.ofWord_ofNat (r : Slot) : Slot.ofWord (.ofNat r.val) = .ok r := by
  have hbound : r.val < 2 ^ 31 := Nat.lt_trans r.isLt (by decide)
  have hword : (Int32.ofNat r.val).toNatClampNeg = r.val := Int32.toNatClampNeg_ofNat_of_lt hbound
  have hin : 0 ≤ Int32.ofNat r.val ∧ (Int32.ofNat r.val).toNatClampNeg < registerCount :=
    ⟨zero_le_ofNat hbound, by rw [hword]; exact r.isLt⟩
  rw [Slot.ofWord, dif_pos hin]
  congr

theorem Opcode.ofWord?_word (o : Opcode) : Opcode.ofWord? o.word = some o := by
  have hsmall : o.number < table.size := (Array.getElem?_eq_some_iff.mp o.table_number).1
  have hbound : o.number < 2 ^ 31 := Nat.lt_of_lt_of_le hsmall (by decide)
  rw [ofWord?, word, if_pos (zero_le_ofNat hbound), Int32.toNatClampNeg_ofNat_of_lt hbound,
    o.table_number]

namespace Instr

theorem decodeOperand_encoded (o : Operand Slot Word) :
    decodeOperand o.kind (o.encoded Fin.val) = .ok o := by
  cases o with
  | register r => exact congrArg (Except.map Operand.register) (Slot.ofWord_ofNat r)
  | value v => rfl

/-- Decoding takes the operand words that an instruction has and ignores others. -/
theorem decode_words (i : Instr Slot Word) (ha : ∀ w, (i.words Fin.val)[1]? = some w → a = w)
    (hb : ∀ w, (i.words Fin.val)[2]? = some w → b = w) : decode i.opcode a b = .ok i := by
  cases i with
  | halt => rfl
  | jmp target =>
    obtain rfl : a = target.encoded Fin.val := ha _ rfl
    simp only [decode, opcode, decodeOperand_encoded]
    rfl
  | branch relation target =>
    obtain rfl := ha _ rfl
    rfl
  | mov r o | arith _ _ r o | cmp _ r o | memWrite r o =>
    obtain rfl : a = .ofNat r.val := ha _ rfl
    obtain rfl : b = o.encoded Fin.val := hb _ rfl
    simp only [decode, opcode, decodeOperand_encoded, Slot.ofWord_ofNat]
    rfl
  | memRead r r' | memCopy r r' =>
    obtain rfl : a = .ofNat r.val := ha _ rfl
    obtain rfl : b = .ofNat r'.val := hb _ rfl
    simp only [decode, opcode, Slot.ofWord_ofNat]
    rfl

end Instr

def Register.toSlot (r : Register) : Slot := if h : r.slot < registerCount then ⟨r.slot, h⟩ else 0

theorem Register.slot_inj {r r' : Register} (h : r.slot = r'.slot) : r = r' := by
  cases r <;> cases r' <;> simp_all [slot]

theorem Register.val_toSlot {r : Register} (h : r.slot < registerCount) :
    r.toSlot.val = r.slot := by
  simp [toSlot, h]

def Instruction.lower (value : Label → Word) (i : Instruction) : Instr Slot Word :=
  i.map Register.toSlot (Value.word value)

theorem Instruction.words_lower {i : Instruction} (h : i.Valid) (comment : Option String) :
    (i.lower value).words Fin.val = (Item.instruction i comment).words value := by
  simp only [lower, Item.words, Instr.words_eq, Instr.opcode_map, Instr.operands_map, List.map_map]
  congr 1
  refine List.map_congr_left fun o ho => ?_
  cases o with
  | register r => simp [Operand.map, Operand.encoded, Register.val_toSlot (h r ho)]
  | value v => rfl

namespace Machine

variable {m : Machine} {img : Image} {x y : State} {s : Store} {pc budget : Nat} {a : Assembly}
  {value : Label → Word}

theorem words_at {item : Item} (hcode : m.code.words.toList = a.words value)
    (here : a.At m.pc [item]) (k : Nat)
    (hk : k < (item.words value).length) : m.code.words[m.pc + k]? = (item.words value)[k]? := by
  obtain ⟨before, after, ha, hpc⟩ := here
  have hsplit : m.code.words.toList = before.words value ++
      (item.words value ++ after.words value) := by
    rw [hcode, ha]
    simp [Assembly.words]
  have hlength := Assembly.length_words value before
  rw [← Array.getElem?_toList, hsplit, List.getElem?_append_right (by omega),
    show m.pc + k - (before.words value).length = k by omega, List.getElem?_append_left hk]

theorem size_code (hcode : m.code.words.toList = a.words value) : m.code.size = a.size := by
  rw [Bytecode.size, ← Array.length_toList, hcode, Assembly.length_words]

/-- Where an instruction of the assembly starts, the machine finds it. -/
theorem fetch_at (hcode : m.code.words.toList = a.words value) (hv : Instruction.Valid i)
    (here : a.At m.pc [.instruction i comment]) : m.fetch = .ok (some (i.lower value)) := by
  have hwords : (i.lower value).words Fin.val = (Item.instruction i comment).words value :=
    Instruction.words_lower hv comment
  have hword : ∀ k w, ((i.lower value).words Fin.val)[k]? = some w →
      m.code.words[m.pc + k]? = some w := by
    intro k w hw
    have hk := (List.getElem?_eq_some_iff.mp hw).1
    rw [words_at hcode here k (hwords ▸ hk), ← hwords, hw]
  have hopcode : m.code.words[m.pc]? = some (i.lower value).opcode.word := hword 0 _ rfl
  have hsize : m.pc + (i.lower value).opcode.width ≤ m.code.size := by
    have hle := here.size_le
    have hwidth : (i.lower value).opcode.width = i.width := Instr.width_map _ _ i
    simp only [Assembly.size_cons, Assembly.size_nil, Item.size] at hle
    rw [size_code hcode, hwidth]
    omega
  have hdecode : Instr.decode (i.lower value).opcode (m.code.words.getD (m.pc + 1) 0)
      (m.code.words.getD (m.pc + 2) 0) = .ok (i.lower value) := by
    refine Instr.decode_words _ ?_ ?_ <;> intro w hw <;>
      rw [Array.getD_eq_getD_getElem?, hword _ w hw, Option.getD_some]
  simp only [Machine.fetch, hopcode, Opcode.ofWord?_word, Nat.not_lt.mpr hsize, ↓reduceIte, hdecode]

theorem Shows.fetch (hp : img.Proper) (h : m.Shows img x)
    (here : img.code.At x.pc [.instruction i comment]) : m.fetch = .ok (some (i.lower img.value)) :=
  fetch_at h.code (hp.valid here) (h.pc ▸ here)

theorem load_shows (a : Assembly) (value : Label → Word) (config : MachineConfig) :
    (Machine.load (.ofList (a.words value)) config).Shows ⟨a, value, config.memoryWords⟩
      ⟨0, ⟨fun _ => 0, fun _ => 0, none⟩⟩ where
  code := rfl
  size := by simp [Machine.load]
  pc := rfl
  registers r h := by simp [Machine.load, Machine.register]
  memory n h := by simp [Machine.load]
  flags := rfl

/-! ### Steps of the machine -/

def advance (m : Machine) (width : Nat) : Machine :=
  { m with pc := m.pc + width, steps := m.steps + 1 }

theorem Shows.advance (h : m.Shows img ⟨pc, s⟩) (width : Nat) :
    (m.advance width).Shows img ⟨pc + width, s⟩ where
  code := h.code
  size := h.size
  pc := congrArg (· + width) h.pc
  registers := h.registers
  memory := h.memory
  flags := h.flags

theorem Shows.step_spent (hp : img.Proper) (h : m.Shows img x)
    (here : img.code.At x.pc [.instruction i comment]) (hspent : m.spentBudget? = some budget) :
    step m = .error (.stepBudgetExhausted m.pc budget) m := by
  simp only [step, h.fetch hp here, hspent]

theorem Shows.step_exec (hp : img.Proper) (h : m.Shows img x)
    (here : img.code.At x.pc [.instruction i comment]) (hleft : m.spentBudget? = none) :
    step m = exec m.pc (i.lower img.value) (m.advance i.width) := by
  simp only [step, h.fetch hp here, hleft, Machine.advance, Instruction.lower, Instr.width_map]

theorem Shows.register (h : m.Shows img x) (hr : r.slot < registerCount) :
    m.register r.toSlot = x.store.registers r := by
  rw [← h.registers r hr, Register.toSlot, dif_pos hr]

theorem Shows.operand (h : m.Shows img x) (ho : ∀ r, o = .register r → r.slot < registerCount) :
    m.operand (o.map Register.toSlot (Value.word img.value)) = img.operand x.store o := by
  cases o with
  | register r => exact h.register (ho r rfl)
  | value v => rfl

theorem Shows.set (h : m.Shows img ⟨pc, s⟩) (hr : r.slot < registerCount) (w : Word) :
    (m.setRegister r.toSlot w).Shows img ⟨pc, s.set r w⟩ where
  code := h.code
  size := h.size
  pc := h.pc
  registers := by
    intro r' hr'
    have hslot : r.toSlot.val = r.slot := Register.val_toSlot hr
    simp only [Machine.register, setRegister, Store.registers_set]
    by_cases he : r' = r
    · subst he
      simp [← hslot]
    · have hne : r.slot ≠ r'.slot := fun heq => he (Register.slot_inj heq.symm)
      rw [if_neg he, ← h.registers r' hr']
      simp [Machine.register, hslot, Vector.getElem_set_ne, hne]
  memory := h.memory
  flags := h.flags

theorem Shows.cell?_of_holds (h : m.Shows img x) (hw : img.Holds w) :
    ∃ cell, m.cell? w = some cell ∧ (cell.val : Int) = w.toInt := by
  have hzero : 0 ≤ w.toInt := by simpa using Int32.le_iff_toInt_le.mp hw.1
  have hcell : 0 ≤ w ∧ w.toNatClampNeg < m.memory.size := by
    refine ⟨hw.1, ?_⟩
    rw [← Int32.toNat_toInt, h.size]
    have := hw.2
    omega
  refine ⟨_, dif_pos hcell, ?_⟩
  have hnat := Int32.toNat_toInt w
  simp only
  omega

theorem Shows.cell?_of_not_holds (h : m.Shows img x) (hw : ¬img.Holds w) : m.cell? w = none := by
  refine dif_neg fun hcell => hw ⟨hcell.1, ?_⟩
  have hzero : 0 ≤ w.toInt := by simpa using Int32.le_iff_toInt_le.mp hcell.1
  have hlt := hcell.2
  rw [← Int32.toNat_toInt, h.size] at hlt
  omega

theorem Shows.write (h : m.Shows img ⟨pc, s⟩) {cell : Fin m.memory.size}
    (hcell : (cell.val : Int) = z) (w : Word) :
    Shows { m with memory := m.memory.set cell w } img ⟨pc, s.write z w⟩ where
  code := h.code
  size := by simpa using h.size
  pc := h.pc
  registers := h.registers
  memory := by
    intro n hn
    simp only [Array.size_set] at hn
    simp only [Array.getElem_set, Store.memory_write, h.memory n hn]
    by_cases he : cell.val = n
    · simp [he, ← hcell]
    · simp only [he, ↓reduceIte, ← hcell, Int.ofNat_inj, Ne.symm he]
  flags := h.flags

theorem Shows.jump (hp : img.Proper) (h : m.Shows img ⟨pc, s⟩) (inside : pc' ≤ img.code.size)
    (fault : Nat) :
    ∃ m', m.jump fault (.ofNat pc') = .ok .running m' ∧ m'.Shows img ⟨pc', s⟩ ∧
    m'.budget = m.budget := by
  have hbound : pc' < 2 ^ 31 := Nat.lt_of_le_of_lt inside hp.small
  have hsize : m.code.size = img.code.size := size_code h.code
  have hnat : (Int32.ofNat pc').toNatClampNeg = pc' := Int32.toNatClampNeg_ofNat_of_lt hbound
  have hvalid : 0 ≤ Int32.ofNat pc' ∧ (Int32.ofNat pc').toNatClampNeg ≤ m.code.size :=
    ⟨zero_le_ofNat hbound, by rw [hnat, hsize]; exact inside⟩
  refine ⟨_, if_pos hvalid, ?_, rfl⟩
  exact ⟨h.code, h.size, hnat, h.registers, h.memory, h.flags⟩

/-- An instruction without a jump does to the machine what it does to the store. -/
theorem Shows.exec (h : m.Shows img ⟨pc, s⟩) (hv : Instruction.Valid i) (goes : i.straight = true)
    (fault : Nat) :
    (∃ s' m', img.exec s i = .ok s' ∧ exec fault (i.lower img.value) m = .ok .running m' ∧
      m'.Shows img ⟨pc, s'⟩ ∧ m'.budget = m.budget) ∨
    ∃ t e, img.exec s i = .error t ∧ exec fault (i.lower img.value) m = .error e m ∧
    t.Explains e := by
  have hoperand : ∀ o ∈ i.operands,
      m.operand (o.map Register.toSlot (Value.word img.value)) = img.operand s o := by
    rintro o ho
    refine h.operand ?_
    rintro r rfl
    exact hv r ho
  cases i with
  | halt | jmp | branch => simp [Instruction.straight] at goes
  | mov target source =>
    refine .inl ⟨_, _, rfl, rfl, ?_, rfl⟩
    rw [hoperand source (by simp [Instr.operands])]
    exact h.set (hv target (by simp [Instr.operands])) _
  | arith kind op target rhs =>
    have htarget : target.slot < registerCount := hv target (by simp [Instr.operands])
    have hresult := hoperand rhs (by simp [Instr.operands])
    simp only [Image.exec, Machine.exec, Instruction.lower, Instr.map, hresult, h.register htarget]
    cases Word.arithmetic? kind op (s.registers target) (img.operand s rhs) with
    | some w => exact .inl ⟨_, _, rfl, rfl, h.set htarget w, rfl⟩
    | none => exact .inr ⟨_, _, rfl, rfl, fault, rfl⟩
  | cmp kind lhs rhs =>
    refine .inl ⟨_, _, rfl, rfl, ?_, rfl⟩
    have hcompared := hoperand rhs (by simp [Instr.operands])
    have hlhs := h.register (hv lhs (by simp [Instr.operands]))
    exact ⟨h.code, h.size, h.pc, h.registers, h.memory, by simp [hcompared, hlhs]⟩
  | memRead target address =>
    have htarget : target.slot < registerCount := hv target (by simp [Instr.operands])
    have haddress := h.register (hv address (by simp [Instr.operands]))
    simp only [Image.exec, Machine.exec, Instruction.lower, Instr.map, haddress]
    by_cases hholds : img.Holds (s.registers address)
    · obtain ⟨cell, hcell, hz⟩ := h.cell?_of_holds hholds
      have hread : m.memory[cell] = s.memory (s.registers address).toInt :=
        hz ▸ h.memory cell cell.isLt
      simp only [hholds, ↓reduceIte, hcell, hread]
      exact .inl ⟨_, _, rfl, rfl, h.set htarget _, rfl⟩
    · simp only [hholds, ↓reduceIte, h.cell?_of_not_holds hholds]
      exact .inr ⟨_, _, rfl, rfl, fault, _, rfl⟩
  | memWrite address source =>
    have haddress := h.register (hv address (by simp [Instr.operands]))
    have hsource := hoperand source (by simp [Instr.operands])
    simp only [Image.exec, Machine.exec, Instruction.lower, Instr.map, haddress, hsource]
    by_cases hholds : img.Holds (s.registers address)
    · obtain ⟨cell, hcell, hz⟩ := h.cell?_of_holds hholds
      simp only [hholds, ↓reduceIte, hcell]
      exact .inl ⟨_, _, rfl, rfl, h.write hz _, rfl⟩
    · simp only [hholds, ↓reduceIte, h.cell?_of_not_holds hholds]
      exact .inr ⟨_, _, rfl, rfl, fault, _, rfl⟩
  | memCopy target source =>
    have htarget := h.register (hv target (by simp [Instr.operands]))
    have hsource := h.register (hv source (by simp [Instr.operands]))
    simp only [Image.exec, Machine.exec, Instruction.lower, Instr.map, htarget, hsource]
    -- The source is read before the target is written, so its fault comes first.
    by_cases hread : img.Holds (s.registers source)
    · obtain ⟨from', hfrom, hz⟩ := h.cell?_of_holds hread
      by_cases hwritten : img.Holds (s.registers target)
      · obtain ⟨to', hto, hz'⟩ := h.cell?_of_holds hwritten
        have hcopied : m.memory[from'] = s.memory (s.registers source).toInt :=
          hz ▸ h.memory from' from'.isLt
        simp only [hread, hwritten, and_self, ↓reduceIte, hfrom, hto, hcopied]
        exact .inl ⟨_, _, rfl, rfl, h.write hz' _, rfl⟩
      · simp only [hread, hwritten, and_false, ↓reduceIte, hfrom, h.cell?_of_not_holds hwritten]
        exact .inr ⟨_, _, rfl, rfl, fault, _, rfl⟩
    · simp only [hread, false_and, ↓reduceIte, h.cell?_of_not_holds hread]
      exact .inr ⟨_, _, rfl, rfl, fault, _, rfl⟩

theorem exec_taken (hf : m.flags = some c) (holds : relation.holds c = true) :
    exec pc (.branch relation w) m = m.jump pc w := by
  simp only [exec, hf, holds, ↓reduceIte]

theorem exec_passed (hf : m.flags = some c) (fails : relation.holds c = false) :
    exec pc (.branch relation w) m = .ok .running m := by
  simp [exec, hf, fails]

/-- A machine takes the steps of its image, unless its budget is spent. -/
theorem Shows.step (hp : img.Proper) (h : m.Shows img x) (hs : img.Step x y) :
    (∃ budget, m.spentBudget? = some budget ∧
      Machine.step m = .error (.stepBudgetExhausted m.pc budget) m) ∨
    ∃ m', Machine.step m = .ok .running m' ∧ m'.Shows img y ∧ m'.budget = m.budget := by
  cases hspent : m.spentBudget? with
  | some budget =>
    refine .inl ⟨budget, rfl, ?_⟩
    cases hs with
    | straight here | jump here | taken here | passed here => exact h.step_spent hp here hspent
  | none =>
    right
    cases hs with
    | @straight _ i _ _ _ here goes done =>
      rw [h.step_exec hp here hspent]
      rcases (h.advance i.width).exec (hp.valid here) goes m.pc with
        ⟨_, m', hexec, hrun, hshows, hbudget⟩ | ⟨_, _, hexec, -⟩
      · obtain rfl := Except.ok.inj (done.symm.trans hexec)
        exact ⟨m', hrun, hshows, hbudget⟩
      · exact absurd (done.symm.trans hexec) (by simp)
    | @jump _ target _ _ _ here aim inside =>
      have htarget : m.operand (target.map Register.toSlot (Value.word img.value)) = _ :=
        (h.operand fun r hr => hp.valid here r (by simp [Instr.operands, hr])).trans aim
      rw [h.step_exec hp here hspent]
      change ∃ m', Machine.jump _ _ (m.operand _) = _ ∧ _
      rw [htarget]
      exact (h.advance 2).jump hp inside m.pc
    | taken here compared holds aim inside =>
      obtain ⟨m', hjump, hm'⟩ := (h.advance 2).jump hp inside m.pc
      rw [← aim] at hjump
      exact ⟨m', (h.step_exec hp here hspent).trans <|
        (exec_taken ((h.advance 2).flags.trans compared) holds).trans hjump, hm'⟩
    | passed here compared fails =>
      rw [h.step_exec hp here hspent]
      exact ⟨m.advance 2, exec_passed ((h.advance 2).flags.trans compared) fails, h.advance 2, rfl⟩

/-- A machine fails where its image does, unless its budget is spent before. -/
theorem Shows.trap (hp : img.Proper) (h : m.Shows img x) (ht : img.Traps x t) :
    (∃ budget, m.spentBudget? = some budget ∧
      Machine.step m = .error (.stepBudgetExhausted m.pc budget) m) ∨
    ∃ e m', Machine.step m = .error e m' ∧ t.Explains e := by
  obtain @⟨_, i, _, _, _, here, fails⟩ := ht
  cases hspent : m.spentBudget? with
  | some budget => exact .inl ⟨budget, rfl, h.step_spent hp here hspent⟩
  | none =>
    right
    rw [h.step_exec hp here hspent]
    have goes : i.straight = true := by
      cases i <;> simp [Image.exec] at fails <;> rfl
    rcases (h.advance i.width).exec (hp.valid here) goes m.pc with ⟨_, _, hexec, -⟩ |
      ⟨_, e, hexec, hrun, ht⟩
    · exact absurd (fails.symm.trans hexec) (by simp)
    · obtain rfl := Except.error.inj (fails.symm.trans hexec)
      exact ⟨e, _, hrun, ht⟩

theorem Shows.halt (hp : img.Proper) (h : m.Shows img x) (hh : img.Halts x) :
    (∃ budget, m.spentBudget? = some budget ∧
      Machine.step m = .error (.stepBudgetExhausted m.pc budget) m) ∨
    ∃ m' x', Machine.step m = .ok .halted m' ∧ m'.Shows img x' ∧ x'.store = x.store := by
  obtain ⟨here⟩ := hh
  cases hspent : m.spentBudget? with
  | some budget => exact .inl ⟨budget, rfl, h.step_spent hp here hspent⟩
  | none =>
    right
    rw [h.step_exec hp here hspent]
    exact ⟨_, _, rfl, h.advance _, rfl⟩

end Machine

end WordScript
