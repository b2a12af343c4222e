import WordScript.Proofs.Assembly.Symbols

/-!
# Direct encoding

Assembly can be turned into words without its text: an instruction becomes its opcode and a word for
each operand, a code label the number of words in front of it, and a static the number of static
words in front of it. The text of the assembly assembles to the same words (`ofAssembly_encoding`).
-/

namespace WordScript

def Operand.encoding (value : Label → Word) : Operand Register Value → Word
  | .register r => .ofNat r.slot
  | .value (.immediate w) => w
  | .value (.label l) => value l

def Instruction.encoding (value : Label → Word) (i : Instruction) : List Word :=
  i.opcode.word :: i.operands.map (Operand.encoding value)

def Operand.register? : Operand Register Value → Option Register
  | .register r => some r
  | .value _ => none

instance : (r : Register) → Decidable r.Real
  | .sp => isTrue trivial
  | .general k => inferInstanceAs (Decidable (k < generalRegisters))

theorem Register.Real.slot_lt {r : Register} (h : r.Real) : r.slot < registerCount := by
  cases r with
  | sp => decide
  | general k => exact Nat.succ_lt_succ h

def Item.registers : Item → List Register
  | .instruction i _ => i.operands.filterMap Operand.register?
  | .static .. | .label _ | .comment _ => []

def Item.comment? : Item → Option String
  | .instruction _ note => note
  | .comment s => some s
  | .static .. | .label _ => none

def Item.staticWords : Item → Nat
  | .static _ words => words
  | .label _ | .instruction .. | .comment _ => 0

namespace Assembly

def encoding (value : Label → Word) (a : Assembly) : List Word :=
  a.instructions.flatMap fun i => Instruction.encoding value i

def staticWords : Assembly → Nat
  | [] => 0
  | item :: rest => item.staticWords + staticWords rest

/-- A code label stands for the code words in front of it, a static for the static words in front of
it. -/
structure Values (a : Assembly) (value : Label → Word) : Prop where
  code : ∀ (before : Assembly) l after, a = before ++ .label l :: after →
    value l = .ofNat (before.encoding value).length
  static : ∀ (before : Assembly) l n after, a = before ++ .static l n :: after →
    value l = .ofNat before.staticWords

theorem words_eq_encoding (value : Label → Word) (a : Assembly) :
    a.words value = a.encoding value := by
  induction a with
  | nil => rfl
  | cons item a ih =>
    rw [words, List.flatMap_cons, ← words, ih]
    cases item with
    | instruction i note =>
      have hoperand : ∀ o : Operand Register Value,
          (o.map (fun r => r) (Value.word value)).encoded Register.slot = o.encoding value := by
        intro o
        cases o with
        | register r => rfl
        | value v => cases v <;> rfl
      have hwords : (Item.instruction i note).words value = Instruction.encoding value i := by
        rw [Item.words, Instr.words_eq, Instr.opcode_map, Instr.operands_map, List.map_map,
          Instruction.encoding]
        congr 1
        exact List.map_congr_left fun o _ => hoperand o
      rw [hwords]
      rfl
    | static | label | comment => rfl

theorem length_encoding (value : Label → Word) (a : Assembly) :
    (a.encoding value).length = a.size := by
  rw [← words_eq_encoding, length_words]

theorem staticWords_append (a b : Assembly) :
    (a ++ b).staticWords = a.staticWords + b.staticWords := by
  induction a with
  | nil => simp [staticWords]
  | cons item a ih => simp only [List.cons_append, staticWords, ih, Nat.add_assoc]

theorem symbol?_static {a b : Assembly} (h : (a ++ .static l n :: b).defined.Nodup) :
    (a ++ .static l n :: b).symbol? offset address l = some (address + a.staticWords) := by
  induction a generalizing offset address with
  | nil => simp [symbol?, staticWords]
  | cons item a ih =>
    cases item with
    | label l' | static l' n' =>
      simp only [List.cons_append, defined_label, defined_static, List.nodup_cons] at h
      have hne : l' ≠ l := by
        rintro rfl
        simp at h
      simp [symbol?, hne, ih h.2, staticWords, Item.staticWords, Nat.add_assoc]
    | instruction | comment =>
      simp only [List.cons_append, symbol?, staticWords, Item.staticWords, Nat.zero_add]
      exact ih h

theorem values_value {a : Assembly} (h : a.defined.Nodup) : a.Values a.value where
  code := by
    rintro before l after rfl
    rw [length_encoding, value, symbol?_label h, Nat.zero_add, Option.getD_some]
  static := by
    rintro before l n after rfl
    rw [value, symbol?_static h, Nat.zero_add, Option.getD_some]

theorem staticWords_le {a : Assembly} (h : .static l n ∈ a) : n ≤ a.staticWords := by
  obtain ⟨before, after, rfl⟩ := List.append_of_mem h
  simp only [staticWords_append, staticWords, Item.staticWords]
  omega

theorem writable_of_parts {a : Assembly} (registers : ∀ item ∈ a, ∀ r ∈ item.registers, r.Real)
    (labels : ∀ l ∈ a.defined, l.Symbolic)
    (comments : ∀ item ∈ a, ∀ s ∈ item.comment?, '\n' ∉ s.toList)
    (closed : ∀ l ∈ a.used, l ∈ a.defined) (statics : a.staticWords < sizeBound) :
    ∀ item ∈ a, item.Writable := by
  intro item hitem
  have hdefined : ∀ l, item.defines? = some l → l.Symbolic := fun l hl =>
    labels l (List.mem_filterMap.mpr ⟨item, hitem, hl⟩)
  cases item with
  | label l => exact hdefined l rfl
  | static l n => exact ⟨hdefined l rfl, Nat.lt_of_le_of_lt (staticWords_le hitem) statics⟩
  | comment s => exact comments _ hitem s rfl
  | instruction i note =>
    refine ⟨fun o ho => ?_, fun s hs => comments _ hitem s hs⟩
    cases o with
    | register r => exact registers _ hitem r (List.mem_filterMap.mpr ⟨_, ho, rfl⟩)
    | value v =>
      cases v with
      | immediate w => trivial
      | label l =>
        have hused : l ∈ a.used :=
          List.mem_flatMap.mpr ⟨_, hitem, List.mem_filterMap.mpr ⟨_, ho, rfl⟩⟩
        exact labels l (closed l hused)

end Assembly

/-- The text of an assembly assembles to its direct encoding, if its registers are those of the
machine, its labels are symbols that are no register names, defined once each and defined if used,
its comments stay on their lines, and static memory has less than 2³¹ words. Opcodes are those of
the mnemonics for operands of these kinds. -/
theorem ofAssembly_encoding {a : Assembly} (registers : ∀ item ∈ a, ∀ r ∈ item.registers, r.Real)
    (labels : ∀ l ∈ a.defined, l.Symbolic)
    (comments : ∀ item ∈ a, ∀ s ∈ item.comment?, '\n' ∉ s.toList)
    (distinct : a.defined.Nodup) (closed : ∀ l ∈ a.used, l ∈ a.defined)
    (statics : a.staticWords < 2 ^ 31) (file : Option String) :
    ∃ value, a.Values value ∧ Bytecode.ofAssembly
      ⟨a.text, file⟩ = .ok (.ofList (a.encoding value)) ∧
      (∀ l (n : Nat), .static l n ∈ a → 0 ≤ (value l).toInt ∧ (value l).toInt + n ≤ a.staticWords) ∧
      ∀ i ∈ a.instructions, Opcode.select? i.opcode.mnemonic (i.operands.map Operand.kind) =
        some i.opcode := by
  have writable :=
    Assembly.writable_of_parts registers labels comments closed (Nat.lt_trans statics (by decide))
  have values := Assembly.values_value distinct
  refine ⟨a.value, values, ?_, ?_, ?_⟩
  · rw [← Assembly.words_eq_encoding]
    exact Bytecode.ofAssembly_text writable distinct closed file
  · intro l n hmem
    obtain ⟨before, after, ha⟩ := List.append_of_mem hmem
    have hsum : a.staticWords = Assembly.staticWords before + (n + Assembly.staticWords after) := by
      rw [ha, Assembly.staticWords_append]
      rfl
    rw [values.static before l n after ha, Int32.toInt_ofNat_of_lt (by omega)]
    omega
  · intro i _
    rw [i.kind_operands]
    exact i.opcode.select?_mnemonic

/-- A loop with a jump ahead and one back, a static behind another, and comments. -/
def Assembly.countdown : Assembly :=
  [.comment "counts down: a, b # c", .static ⟨"static.a"⟩ 3, .static ⟨"_b.1"⟩ 2,
    .instruction (.mov (.general 15) (.value (.label ⟨"_b.1"⟩))) (some "where b is"),
    .label ⟨".L0"⟩, .instruction (.cmp .float (.general 15) (.value (.immediate (-5)))) none,
    .instruction (.branch .lessEqual (.label ⟨".L1"⟩)) none,
    .instruction (.arith .integer .sub (.general 15) (.register .sp)) (some ""),
    .instruction (.jmp (.value (.label ⟨".L0"⟩))) none, .label ⟨".L1"⟩, .instruction .halt none]

theorem ofAssembly_encoding_countdown : ∃ value, Assembly.countdown.Values value ∧
    value ⟨"_b.1"⟩ = 3 ∧ value ⟨".L1"⟩ = 13 ∧
    Bytecode.ofAssembly ⟨Assembly.countdown.text, none⟩ =
      .ok (.ofList (Assembly.countdown.encoding value)) := by
  obtain ⟨value, hvalues, hwords, -⟩ :=
    ofAssembly_encoding (a := .countdown) (by decide) (by decide) (by decide)
    (by decide) (by decide) (by decide) none
  refine ⟨value, hvalues, hvalues.static (Assembly.countdown.take 2) _ 2 (Assembly.countdown.drop
    3) rfl, ?_, hwords⟩
  rw [hvalues.code (Assembly.countdown.take 9) _ (Assembly.countdown.drop 10) rfl,
    Assembly.length_encoding]
  rfl

end WordScript
