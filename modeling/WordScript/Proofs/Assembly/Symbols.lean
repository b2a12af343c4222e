import WordScript.Assembly.Assemble
import WordScript.Proofs.Assembly.Reading

/-!
# Assembled text

The words that the text of an assembly is assembled to. A code label stands for the number of code
words in front of it, and a static for the number of static words in front of it
(`Assembly.symbol?`). If labels are defined once and all that are used are defined, the text
assembles to the words of its lines.
-/

namespace WordScript

def Item.defines? : Item → Option Label
  | .label l | .static l _ => some l
  | .instruction .. | .comment _ => none

def Operand.label? : Operand Register Value → Option Label
  | .value (.label l) => some l
  | .value (.immediate _) | .register _ => none

def Item.uses : Item → List Label
  | .instruction i _ => i.operands.filterMap Operand.label?
  | .static .. | .label _ | .comment _ => []

namespace Assembly

def defined (a : Assembly) : List Label := a.filterMap Item.defines?

def used (a : Assembly) : List Label := a.flatMap Item.uses

/-- What a label stands for, with this many words of code and of static memory in front of the
lines. -/
def symbol? (offset address : Nat) : Assembly → Label → Option Nat
  | [], _ => none
  | .label l' :: rest, l => if l' = l then some offset else symbol? offset address rest l
  | .static l' words :: rest, l =>
    if l' = l then some address else symbol? offset (address + words) rest l
  | .instruction i _ :: rest, l => symbol? (offset + i.width) address rest l
  | .comment _ :: rest, l => symbol? offset address rest l

def value (a : Assembly) (l : Label) : Word := .ofNat ((a.symbol? 0 0 l).getD 0)

@[simp] theorem defined_nil : defined [] = [] := rfl

@[simp] theorem defined_label : defined (.label l :: a) = l :: defined a := rfl

@[simp] theorem defined_static : defined (.static l n :: a) = l :: defined a := rfl

@[simp] theorem defined_instruction : defined (.instruction i note :: a) = defined a := rfl

@[simp] theorem defined_comment : defined (.comment s :: a) = defined a := rfl

@[simp] theorem defined_append (a b : Assembly) : (a ++ b).defined = a.defined ++ b.defined :=
  List.filterMap_append

@[simp] theorem used_nil : used [] = [] := rfl

@[simp] theorem used_cons : used (item :: a) = item.uses ++ used a := rfl

theorem symbol?_eq_none {a : Assembly} (h : l ∉ a.defined) : a.symbol? offset address l = none := by
  induction a generalizing offset address with
  | nil => rfl
  | cons item a ih =>
    cases item with
    | label l' | static l' words =>
      simp only [defined_label, defined_static, List.mem_cons, not_or] at h
      rw [symbol?, if_neg (Ne.symm h.1), ih h.2]
    | instruction | comment => exact ih h

theorem symbol?_isSome {a : Assembly} (offset address : Nat) (h : l ∈ a.defined) :
    (a.symbol? offset address l).isSome = true := by
  induction a generalizing offset address with
  | nil => cases h
  | cons item a ih =>
    cases item with
    | label l' | static l' words =>
      simp only [defined_label, defined_static, List.mem_cons] at h
      rw [symbol?]
      split
      · rfl
      · next hne => exact ih _ _ (h.resolve_left (Ne.symm hne))
    | instruction | comment => exact ih _ _ h

theorem symbol?_label {a b : Assembly} (h : (a ++ .label l :: b).defined.Nodup) :
    (a ++ .label l :: b).symbol? offset address l = some (offset + a.size) := by
  induction a generalizing offset address with
  | nil => simp [symbol?]
  | cons item a ih =>
    cases item with
    | label l' | static l' words =>
      simp only [List.cons_append, defined_label, defined_static, List.nodup_cons] at h
      have hne : l' ≠ l := by
        rintro rfl
        simp at h
      simp [symbol?, hne, ih h.2, Item.size]
    | instruction i note =>
      simp only [List.cons_append, symbol?, size_cons, Item.size]
      rw [ih h, Nat.add_assoc]
    | comment s =>
      simp only [List.cons_append, symbol?, size_cons, Item.size, Nat.zero_add]
      exact ih h

theorem value_at {a : Assembly} (h : a.defined.Nodup) (here : a.At pc [.label l]) :
    a.value l = .ofNat pc := by
  obtain ⟨before, after, rfl, rfl⟩ := here
  simp only [List.append_assoc, List.singleton_append] at h ⊢
  rw [value, symbol?_label h, Nat.zero_add, Option.getD_some]

/-! ### Comments -/

theorem defined_bare (a : Assembly) : a.bare.defined = a.defined := by
  induction a with
  | nil => rfl
  | cons item a ih => cases item <;> simp_all [bare, Item.bare?, List.filterMap_cons]

theorem used_bare (a : Assembly) : a.bare.used = a.used := by
  induction a with
  | nil => rfl
  | cons item a ih => cases item <;> simp_all [bare, Item.bare?, List.filterMap_cons, Item.uses]

theorem words_bare (value : Label → Word) (a : Assembly) : a.bare.words value = a.words value := by
  induction a with
  | nil => rfl
  | cons item a ih =>
    cases item <;> simp_all [bare, Item.bare?, List.filterMap_cons, words, Item.words]

theorem symbol?_bare (a : Assembly) (offset address : Nat) (l : Label) :
    a.bare.symbol? offset address l = a.symbol? offset address l := by
  induction a generalizing offset address with
  | nil => rfl
  | cons item a ih => cases item <;> simp_all [bare, Item.bare?, List.filterMap_cons, symbol?]

/-! ### The two passes -/

theorem ofNat_add (m n : Nat) : (Int32.ofNat m + .ofNat n : Word) = .ofNat (m + n) :=
  (Int32.ofNat_add m n).symm

theorem lookup_defined {table : SymbolTable} (rest : Label → Option Nat) (h : rest l = none)
    (l' : Label) : ((rest l').map Int32.ofNat).or (((l.name, .ofNat n) :: table).lookup l'.name) =
      ((if l = l' then some n else rest l').map Int32.ofNat).or (table.lookup l'.name) := by
  by_cases he : l = l'
  · subst he
    simp [h]
  · have hne : (l'.name == l.name) = false := by
      simpa using fun hname => he (congrArg Label.mk hname.symm)
    simp [List.lookup_cons, hne, he]

theorem lookup_new {table : SymbolTable} {a : Assembly} (distinct : (l :: a.defined).Nodup)
    (new : ∀ l' ∈ l :: a.defined, table.lookup l'.name = none) :
    ∀ l' ∈ a.defined, ((l.name, w) :: table).lookup l'.name = none := by
  intro l' hl'
  have hne : (l'.name == l.name) = false := by
    refine beq_false_of_ne fun hname => (List.nodup_cons.mp distinct).1 ?_
    obtain rfl : l' = l := congrArg Label.mk hname
    exact hl'
  simp [List.lookup_cons, hne, new l' (by simp [hl'])]

theorem collectSymbols_eq {a : Assembly} {items : List SourceItem} (table : SymbolTable)
    (offset address : Nat) (h : items.map SourceItem.item = a) (distinct : a.defined.Nodup)
    (new : ∀ l ∈ a.defined, table.lookup l.name = none) :
    ∃ table', collectSymbols table (.ofNat offset) (.ofNat address) items = .ok table' ∧
      ∀ l : Label, table'.lookup l.name = ((a.symbol? offset address l).map Int32.ofNat).or
        (table.lookup l.name) := by
  induction items generalizing a table offset address with
  | nil =>
    subst h
    exact ⟨table, rfl, fun l => rfl⟩
  | cons item items ih =>
    subst h
    cases item with
    | instruction i =>
      obtain ⟨table', htable, hlookup⟩ := ih table (offset + i.width) address rfl distinct new
      refine ⟨table', ?_, fun l => ?_⟩
      · rw [collectSymbols, ofNat_add, htable]
      · simp only [hlookup l, List.map_cons, SourceItem.item, symbol?, Instr.width_map]
    | label name =>
      have hname : table.lookup name.value = none := new ⟨name.value⟩ (by simp [SourceItem.item])
      obtain ⟨table', htable, hlookup⟩ := ih _ offset address rfl
        (List.nodup_cons.mp distinct).2 (lookup_new (w := .ofNat offset) distinct new)
      refine ⟨table', ?_, fun l => ?_⟩
      · rw [collectSymbols, hname]
        exact htable
      · exact (hlookup l).trans (lookup_defined (symbol? offset address (items.map SourceItem.item))
          (symbol?_eq_none (List.nodup_cons.mp distinct).1) l)
    | static name words =>
      have hname : table.lookup name.value = none := new ⟨name.value⟩ (by simp [SourceItem.item])
      obtain ⟨table', htable, hlookup⟩ := ih _ offset (address + words) rfl
        (List.nodup_cons.mp distinct).2 (lookup_new (w := .ofNat address) distinct new)
      refine ⟨table', ?_, fun l => ?_⟩
      · rw [collectSymbols, hname, ofNat_add]
        exact htable
      · exact (hlookup l).trans (lookup_defined
          (symbol? offset (address + words) (items.map SourceItem.item))
          (symbol?_eq_none (List.nodup_cons.mp distinct).1) l)

theorem resolve_eq {table : SymbolTable} {f : Label → Word} {v : Located Value}
    (known : ∀ l, v.value = .label l → table.lookup l.name = some (f l)) :
    resolve table v = .ok (v.value.word f) := by
  rw [resolve]
  cases hv : v.value with
  | immediate w => rfl
  | label l => simp only [known l hv, Value.word]

theorem resolve_operand {table : SymbolTable} {f : Label → Word}
    {o : Operand Register (Located Value)}
    (known : ∀ l ∈ (o.map (fun r => r) Located.value).label?, table.lookup l.name = some (f l)) :
    o.mapM (resolve table) = .ok ((o.map (fun r => r) Located.value).map (fun r => r)
      (Value.word f)) := by
  cases o with
  | register r => rfl
  | value v =>
    have hv := resolve_eq (v := v) (f := f) fun l hl =>
      known l (by simp [Operand.map, Operand.label?, hl])
    simp only [Operand.mapM, hv]
    rfl

theorem resolve_instr {table : SymbolTable} {f : Label → Word} {i : Instr Register (Located Value)}
    (known : ∀ l ∈ (SourceItem.instruction i).item.uses, table.lookup l.name = some (f l)) :
    i.mapM (resolve table) = .ok ((i.map (fun r => r) Located.value).map (fun r => r)
      (Value.word f)) := by
  have hop : ∀ o ∈ i.operands, ∀ l ∈ (o.map (fun r => r) Located.value).label?,
      table.lookup l.name = some (f l) := by
    intro o ho l hl
    refine known l ?_
    simp only [SourceItem.item, Item.uses, Instr.operands_map, List.mem_filterMap, List.mem_map]
    exact ⟨_, ⟨o, ho, rfl⟩, hl⟩
  cases i with
  | mov _ o | arith _ _ _ o | cmp _ _ o | jmp o | memWrite _ o =>
    have ho := resolve_operand (hop o (by simp [Instr.operands]))
    simp only [Instr.mapM, ho]
    rfl
  | branch relation v =>
    have hv := resolve_eq (v := v) fun l hl => hop (.value v) (by simp [Instr.operands]) l
      (by simp [Operand.map, Operand.label?, hl])
    simp only [Instr.mapM, hv]
    rfl
  | halt | memRead | memCopy => rfl

theorem encode_eq {a : Assembly} {items : List SourceItem} {table : SymbolTable} {f : Label → Word}
    (h : items.map SourceItem.item = a) (known : ∀ l ∈ a.used, table.lookup l.name = some (f l)) :
    encode table items = .ok (a.words f) := by
  induction items generalizing a with
  | nil =>
    subst h
    rfl
  | cons item items ih =>
    subst h
    cases item with
    | label | static => exact ih (a := items.map SourceItem.item) rfl known
    | instruction i =>
      have hrest := ih rfl fun l hl => known l (by simp [hl])
      have hfirst := resolve_instr (i := i) fun l hl => known l (by simp [hl])
      simp only [encode, hfirst, hrest]
      rfl

end Assembly

/-- A text whose labels are defined once, and are defined if used, assembles to the words of its
lines. -/
theorem Bytecode.ofAssembly_read {a : Assembly} {items : List SourceItem}
    (hread : Assembly.read source.chars = .ok items)
    (hitems : items.map SourceItem.item = a) (distinct : a.defined.Nodup)
    (closed : ∀ l ∈ a.used, l ∈ a.defined) :
    Bytecode.ofAssembly source = .ok (.ofList (a.words a.value)) := by
  obtain ⟨table, htable, hlookup⟩ := Assembly.collectSymbols_eq [] 0 0 hitems distinct (by simp)
  have hknown : ∀ l ∈ a.used, table.lookup l.name = some (a.value l) := by
    intro l hl
    obtain ⟨n, hn⟩ := Option.isSome_iff_exists.mp (Assembly.symbol?_isSome 0 0 (closed l hl))
    rw [hlookup l, hn, Assembly.value, hn]
    rfl
  have hsymbols : Assembly.collectSymbols [] 0 0 items = .ok table := htable
  simp only [Bytecode.ofAssembly, hread, bind_eq_ok, pure_eq_ok]
  exact ⟨items, rfl, table, hsymbols, _, Assembly.encode_eq hitems hknown, rfl⟩

theorem Bytecode.ofAssembly_text {a : Assembly} (writable : ∀ item ∈ a, item.Writable)
    (distinct : a.defined.Nodup) (closed : ∀ l ∈ a.used, l ∈ a.defined) (file : Option String) :
    Bytecode.ofAssembly ⟨a.text, file⟩ = .ok (.ofList (a.words a.value)) := by
  obtain ⟨items, hread, hitems⟩ := Assembly.read_text writable
  have hvalue : a.bare.value = a.value := by
    funext l
    rw [Assembly.value, Assembly.value, Assembly.symbol?_bare]
  rw [← Assembly.words_bare, ← hvalue]
  exact ofAssembly_read hread hitems (by rwa [Assembly.defined_bare])
    (by rwa [Assembly.used_bare, Assembly.defined_bare])

end WordScript
