import WordScript.Proofs.Machine.Normal
import WordScript.Proofs.Safety.Programs

/-!
# Static memory

The labels of strings and static variables stand for consecutive parts of memory, from its start on.
The code in front of a program's initial values sets the stack pointer to the end of these parts and
writes each string to its own: `static_memory` says what memory holds when it has run.
-/

namespace WordScript

/-- The parts of static memory with their words: strings, and then static variables. -/
def Emit.areas (structs : Structs) (strings : LiteralPool) (statics : List StaticVariable) :
    List (Label × Nat) :=
  strings.entries.map (fun e => (e.1, LiteralPool.wordsOf e.2)) ++ statics.map fun v =>
    (v.label, structs.words v.type)

/-- The table has the parts one behind the other, from `start` to `stop`. -/
def SymbolTable.Lays (table : SymbolTable) (start : Nat) : List (Label × Nat) → (stop : Nat) → Prop
  | [], stop => start = stop
  | (l, words) :: rest, stop => table.lookup l.name = some (.ofNat start) ∧
      table.Lays (start + words) rest stop

def LiteralPool.stored (s : String) : List Word := .ofNat s.length :: s.toList.map fun ch =>
    .ofNat ch.toNat

def Emit.prologue (structs : Structs) (strings : LiteralPool) (statics : List StaticVariable) :
    Assembly :=
  opening structs strings statics ++ stringsCode strings

/-! ### Addresses -/

namespace SymbolTable.Lays

variable {table : SymbolTable} {start stop : Nat} {xs ys : List (Label × Nat)}

theorem append_iff : table.Lays start (xs ++ ys) stop ↔ ∃ middle, table.Lays start xs middle ∧
    table.Lays middle ys stop := by
  induction xs generalizing start with
  | nil => simp [Lays]
  | cons x xs ih =>
    obtain ⟨l, words⟩ := x
    simp only [List.cons_append, Lays, ih, and_assoc]
    constructor
    · rintro ⟨h, m, hx, hy⟩
      exact ⟨m, h, hx, hy⟩
    · rintro ⟨m, h, hx, hy⟩
      exact ⟨h, m, hx, hy⟩

theorem stop_eq (h : table.Lays start xs stop) : stop = start + (xs.map Prod.snd).sum := by
  induction xs generalizing start with
  | nil => exact h.symm
  | cons x xs ih =>
    obtain ⟨l, words⟩ := x
    rw [ih h.2, List.map_cons, List.sum_cons, Nat.add_assoc]

end SymbolTable.Lays

namespace Emit

/-- What the first pass of the assembler finds for parts of static memory that stand in a row. -/
theorem lays_of_symbols {table : SymbolTable} {code : Assembly} (front : Assembly)
    {xs : List (Label × Nat)}
    (distinct : (front ++ (xs.map fun x => reserveStatic x.1 x.2) ++ code).defined.Nodup)
    (symbols : ∀ l : Label, table.lookup l.name =
      ((front ++ (xs.map fun x => reserveStatic x.1 x.2) ++ code).symbol? 0 0 l).map Int32.ofNat)
    (small : ∀ x ∈ xs, x.2 < sizeBound) :
    table.Lays front.staticWords xs (front.staticWords + (xs.map Prod.snd).sum) := by
  induction xs generalizing front with
  | nil => rfl
  | cons x xs ih =>
    obtain ⟨l, words⟩ := x
    have hwords : words % sizeBound = words :=
      Nat.mod_eq_of_lt (small (l, words) List.mem_cons_self)
    have hshift : front ++ (((l, words) :: xs).map fun x => reserveStatic x.1 x.2) ++ code =
        (front ++ [.static l words]) ++ (xs.map fun x => reserveStatic x.1 x.2) ++ code := by
      simp [reserveStatic, hwords]
    have hfront : Assembly.staticWords (front ++ [.static l words]) =
        front.staticWords + words := by
      rw [Assembly.staticWords_append]
      rfl
    rw [hshift] at distinct symbols
    have hrest := ih _ distinct symbols fun y hy => small y (List.mem_cons_of_mem _ hy)
    rw [hfront] at hrest
    refine ⟨?_, by simpa [Nat.add_assoc] using hrest⟩
    simp only [List.append_assoc, List.cons_append] at distinct symbols
    rw [symbols l, Assembly.symbol?_static distinct, Nat.zero_add, Option.map_some]

theorem reserved_eq (structs : Structs) (strings : LiteralPool) (statics : List StaticVariable) :
    reserved structs strings statics = (areas structs strings statics).map fun x =>
      reserveStatic x.1 x.2 := by
  simp only [reserved, areas, List.map_append, List.map_map]
  rfl

theorem sum_areas (structs : Structs) (strings : LiteralPool) (statics : List StaticVariable) :
    ((areas structs strings statics).map Prod.snd).sum =
      strings.words + structs.totalWords (statics.map StaticVariable.type) := by
  simp only [areas, List.map_append, List.map_map, List.sum_append, Structs.totalWords_eq]
  rw [← LiteralPool.sum_entries]
  rfl

theorem EmitsProgram.lays (h : EmitsProgram c statics p a) (complete : a.Complete p)
    (small : c.strings.words + c.structs.totalWords (statics.map StaticVariable.type) < sizeBound) :
    ∃ items table, Assembly.read a.text.toList = .ok items ∧
    Assembly.collectSymbols [] 0 0 items = .ok table ∧
      (∀ l ∈ a.defined, table.lookup l.name = some (a.value l)) ∧
      table.Lays 0 (areas c.structs c.strings statics)
        (c.strings.words + c.structs.totalWords (statics.map StaticVariable.type)) := by
  obtain ⟨items, hread, hitems⟩ := Assembly.read_text complete.writable
  obtain ⟨table, htable, hlookup⟩ := Assembly.collectSymbols_eq [] 0 0 hitems
    (by rw [Assembly.defined_bare]; exact complete.distinct) (by simp)
  have hsymbols : ∀ l : Label, table.lookup l.name = (a.symbol? 0 0 l).map Int32.ofNat := by
    intro l
    rw [hlookup l, Assembly.symbol?_bare, List.lookup_nil, Option.or_none]
  refine ⟨items, table, hread, htable, fun l hl => ?_, ?_⟩
  · obtain ⟨n, hn⟩ := Option.isSome_iff_exists.mp (Assembly.symbol?_isSome 0 0 hl)
    rw [hsymbols, Assembly.value, hn]
    rfl
  · obtain ⟨code, rfl⟩ := h.reserves
    have hdistinct := complete.distinct
    rw [reserved_eq] at hsymbols hdistinct
    have hall : ∀ x ∈ areas c.structs c.strings statics, x.2 < sizeBound := by
      intro x hx
      obtain ⟨before, after, hsplit⟩ := List.append_of_mem hx
      have hsum := sum_areas c.structs c.strings statics
      rw [hsplit] at hsum
      simp only [List.map_append, List.map_cons, List.sum_append, List.sum_cons] at hsum
      omega
    have hlays := lays_of_symbols [] hdistinct hsymbols hall
    rw [sum_areas] at hlays
    simpa [Assembly.staticWords] using hlays

end Emit

/-! ### Code without jumps, step by step -/

namespace Machine

theorem steps_of_exec {pc : Nat} {i : Instr Slot Word} {m m' : Machine}
    (h : exec pc i m = .ok status m') : m'.steps = m.steps := by
  have hjump : ∀ target, m.jump pc target = .ok status m' → m'.steps = m.steps := by
    intro target h
    rw [jump] at h
    split at h <;> cases h
    rfl
  cases i <;> simp only [exec] at h
  case jmp => exact hjump _ h
  case branch =>
    split at h
    · cases h
    · split at h
      · exact hjump _ h
      · cases h
        rfl
  all_goals
    repeat' split at h
    all_goals cases h
    all_goals rfl

theorem Shows.step_affords {m : Machine} {pc : Nat} (h : m.Shows img ⟨pc, s⟩)
    (here : img.code.At pc [.instruction i comment])
    (valid : Instruction.Valid i) (affords : ∀ budget ∈ m.budget, m.steps < budget)
    (goes : i.straight = true) (done : img.exec s i = .ok s') :
    ∃ m', Machine.step m = .ok .running m' ∧ m'.Shows img ⟨pc + i.width, s'⟩ ∧
    m'.budget = m.budget ∧ m'.steps = m.steps + 1 := by
  have hleft : m.spentBudget? = none := by
    rw [spentBudget?, Option.filter_eq_none_iff]
    intro budget hbudget
    simpa using affords budget hbudget
  have hfetch : m.fetch = .ok (some (i.lower img.value)) := by
    have hat : img.code.At m.pc [.instruction i comment] := by
      rw [h.pc]
      exact here
    exact fetch_at h.code valid hat
  have hstep : Machine.step m = Machine.exec m.pc (i.lower img.value) (m.advance i.width) := by
    simp only [Machine.step, hfetch, hleft, Machine.advance, Instruction.lower, Instr.width_map]
  rcases (h.advance i.width).exec valid goes m.pc with ⟨_, m', hexec, hrun, hshows, hbudget⟩ |
    ⟨_, _, hexec, -⟩
  · obtain rfl := Except.ok.inj (done.symm.trans hexec)
    exact ⟨m', hstep.trans hrun, hshows, hbudget, steps_of_exec hrun⟩
  · exact absurd (done.symm.trans hexec) (by simp)

/-- A machine runs code without jumps in one step for each instruction, if it can afford that. -/
theorem Shows.run_straight {m : Machine} {pc : Nat} {code : Assembly} {s : Store}
    (h : m.Shows img ⟨pc, s⟩) (here : img.code.At pc code)
    (valid : ∀ i ∈ img.code.instructions, Instruction.Valid i)
    (affords : ∀ budget ∈ m.budget, m.steps + code.instructions.length ≤ budget)
    (hwp : img.wp (fun _ => False) code Q s) :
    ∃ m' s', m.runFor code.instructions.length = .inl m' ∧
    m'.Shows img ⟨pc + code.size, s'⟩ ∧ Q s' := by
  induction code generalizing pc s m with
  | nil => exact ⟨m, s, rfl, h, hwp⟩
  | cons item code ih =>
    cases item with
    | static | label | comment =>
      obtain ⟨m', s', hrun, hm', hQ⟩ := ih h here.tail affords hwp
      exact ⟨m', s', hrun, by simpa [Item.size] using hm', hQ⟩
    | instruction i note =>
      obtain ⟨goes, hwp⟩ := hwp
      have hlength : Assembly.instructions (.instruction i note :: code) =
          i :: Assembly.instructions code := rfl
      cases hexec : img.exec s i with
      | error t =>
        rw [hexec] at hwp
        exact hwp.elim
      | ok s₁ =>
        rw [hexec] at hwp
        obtain ⟨m₁, hstep, hm₁, hbudget, hsteps⟩ := h.step_affords here.head
          (valid i (List.mem_filterMap.mpr ⟨_, here.head.mem, rfl⟩))
          (fun budget hb => by
            have := affords budget hb
            simp only [hlength, List.length_cons] at this
            omega) goes hexec
        obtain ⟨m', s', hrun, hm', hQ⟩ := ih hm₁ here.tail
          (fun budget hb => by
            have := affords budget (hbudget ▸ hb)
            simp only [hlength, List.length_cons] at this
            omega) hwp
        refine ⟨m', s', ?_, by simpa [Item.size, Nat.add_assoc] using hm', hQ⟩
        simp only [hlength, List.length_cons, runFor, hstep]
        exact hrun

end Machine

/-! ### Strings -/

/-- Memory starts with these words, and is zero from there on. -/
def Store.Filled (s : Store) (ws : List Word) : Prop := ∀ i : Nat, s.memory i = ws.getD i 0

namespace Store.Filled

variable {s : Store} {ws : List Word}

theorem set (h : s.Filled ws) (r : Register) (w : Word) : (s.set r w).Filled ws := h

theorem write (h : s.Filled ws) (w : Word) : (s.write ws.length w).Filled (ws ++ [w]) := by
  intro i
  rw [memory_write]
  split
  · next hi =>
    obtain rfl : i = ws.length := by omega
    simp
  · next hi =>
    rw [h i]
    rcases Nat.lt_trichotomy i ws.length with hlt | rfl | hgt
    · simp [List.getD_eq_getElem?_getD, List.getElem?_append_left hlt]
    · exact absurd rfl hi
    · have hlength : (ws ++ [w]).length ≤ i := by
        rw [List.length_append, List.length_singleton]
        exact hgt
      rw [List.getD_eq_getElem?_getD, List.getD_eq_getElem?_getD,
        List.getElem?_eq_none (Nat.le_of_lt hgt), List.getElem?_eq_none hlength]

end Store.Filled

namespace Emit

variable {img : Image} {Q : Store → Prop} {s : Store} {ws : List Word} {ok : Trap → Prop}

theorem wp_fillChars {chars : List Char} (hr : s.registers (.general 0) = .ofInt (ws.length - 1))
    (filled : s.Filled ws)
    (room : ws.length + chars.length < 2 ^ 31) (memory : ws.length + chars.length ≤ img.memoryWords)
    (h : ∀ s', s'.registers .sp = s.registers .sp →
      s'.Filled (ws ++ chars.map fun ch => .ofNat ch.toNat) → Q s') :
    img.wp ok (chars.flatMap fun ch =>
      [line (increase (.general 0) (word 1)), line (.memWrite (.general 0) (count ch.toNat))]) Q
        s := by
  induction chars generalizing s ws with
  | nil => exact h s rfl (by simpa using filled)
  | cons ch chars ih =>
    simp only [List.length_cons] at room memory
    have hz : Addressable ws.length := ⟨by omega, by omega⟩
    have hcursor : (s.set (.general 0) (s.registers (.general 0) + 1)).registers (.general 0) =
        .ofInt ws.length := by
      rw [Store.registers_set, if_pos rfl, hr, ofInt_add_one]
      congr 1
      omega
    refine Image.wp_add.mpr (Image.wp_memWrite hcursor hz (fun _ => ?_) fun hno => by omega)
    have hlength : (ws ++ [Int32.ofNat ch.toNat]).length = ws.length + 1 := by simp
    refine ih ?_ ((filled.set _ _).write (.ofNat ch.toNat)) (by omega) (by omega) fun s' hsp hs' =>
      h s' hsp ?_
    · rw [hlength]
      refine hcursor.trans (congrArg _ ?_)
      omega
    · simpa using hs'

theorem wp_fillString {l : Label} {text : String} (hl : img.value l = .ofNat ws.length)
    (filled : s.Filled ws) (room : ws.length + LiteralPool.wordsOf text < 2 ^ 31)
    (memory : ws.length + LiteralPool.wordsOf text ≤ img.memoryWords)
    (h : ∀ s', s'.registers .sp = s.registers .sp → s'.Filled (ws ++ LiteralPool.stored text) →
      Q s') :
    img.wp ok (fillString (.general 0) l text) Q s := by
  have hwords : LiteralPool.wordsOf text = 1 + text.toList.length := by
    rw [LiteralPool.wordsOf, String.length_toList]
  have hz : Addressable ws.length := ⟨by omega, by omega⟩
  have hcursor : (s.set (.general 0) (img.value l)).registers (.general 0) = .ofInt ws.length := by
    rw [Store.registers_set, if_pos rfl, hl, Int32.ofInt_eq_ofNat]
  refine Image.wp_mov.mpr (Image.wp_memWrite hcursor hz (fun _ => ?_) fun hno => by omega)
  have hlength : (ws ++ [Int32.ofNat text.length]).length = ws.length + 1 := by simp
  refine wp_fillChars ?_ ((filled.set _ _).write (.ofNat text.length)) (by omega) (by omega)
    fun s' hsp hs' => h s' hsp ?_
  · rw [hlength]
    refine hcursor.trans (congrArg _ ?_)
    omega
  · simpa [LiteralPool.stored] using hs'

theorem length_stored (text : String) :
    (LiteralPool.stored text).length = LiteralPool.wordsOf text := by
  rw [LiteralPool.stored, List.length_cons, List.length_map, String.length_toList,
    LiteralPool.wordsOf, Nat.add_comm]

theorem wp_fillEntries {table : SymbolTable} {entries : List (Label × String)}
    (lays : table.Lays ws.length (entries.map fun e => (e.1, LiteralPool.wordsOf e.2)) stop)
    (values : ∀ e ∈ entries, table.lookup e.1.name = some (img.value e.1)) (filled : s.Filled ws)
    (room : stop < 2 ^ 31) (memory : stop ≤ img.memoryWords)
    (h : ∀ s', s'.registers .sp = s.registers .sp →
      s'.Filled (ws ++ entries.flatMap fun e => LiteralPool.stored e.2) → Q s') :
    img.wp ok (entries.flatMap fun e => fillString (.general 0) e.1 e.2) Q s := by
  induction entries generalizing s ws with
  | nil => exact h s rfl (by simpa using filled)
  | cons e entries ih =>
    have hstop := lays.stop_eq
    simp only [List.map_cons, List.sum_cons] at hstop
    obtain ⟨hfirst, hrest⟩ := lays
    have hl : img.value e.1 = .ofNat ws.length :=
      Option.some.inj ((values e List.mem_cons_self).symm.trans hfirst)
    rw [List.flatMap_cons, Image.wp_append]
    refine wp_fillString hl filled (by omega) (by omega) fun s₁ hsp₁ hs₁ => ?_
    have hlength : (ws ++ LiteralPool.stored e.2).length = ws.length + LiteralPool.wordsOf e.2 := by
      rw [List.length_append, length_stored]
    refine ih (hlength ▸ hrest) (fun e' he' => values e' (List.mem_cons_of_mem _ he')) hs₁
      fun s₂ hsp₂ hs₂ => ?_
    exact h s₂ (hsp₂.trans hsp₁) (by simpa using hs₂)

theorem EmitsProgram.prologue (h : EmitsProgram c statics p a) :
    ∃ rest, a = prologue c.structs c.strings statics ++ rest := by
  cases h with
  | @mk initsCode _ bodyCode _ _ functionsCode _ _ _ _ =>
    exact ⟨initsCode ++ (bodyCode ++ ([line .halt] ++ functionsCode)), by simp [Emit.prologue]⟩

theorem EmitsProgram.defines_string (h : EmitsProgram c statics p a) (he : e ∈ c.strings.entries) :
    e.1 ∈ a.defined := by
  obtain ⟨code, rfl⟩ := h.reserves
  rw [Assembly.defined_append, defined_reserved, ← LiteralPool.fst_entries]
  exact List.mem_append_left _ (List.mem_append_left _ (List.mem_map_of_mem he))

theorem instructions_prologue (structs : Structs) (strings : LiteralPool)
    (statics : List StaticVariable) : (prologue structs strings statics).instructions =
      .mov .sp (count (strings.words + structs.totalWords (statics.map StaticVariable.type))) ::
        (stringsCode strings).instructions := by
  have hreserved : (reserved structs strings statics).instructions = [] := by
    rw [Assembly.instructions, List.filterMap_eq_nil_iff]
    intro item hitem
    obtain ⟨l, words, rfl⟩ := mem_reserved hitem
    rfl
  have hopening : opening structs strings statics = reserved structs strings statics ++
    [noted (.mov .sp
      (count (strings.words + structs.totalWords (statics.map StaticVariable.type))))
      "stack starts after statics"] := rfl
  rw [prologue, hopening, Assembly.instructions, List.filterMap_append, List.filterMap_append,
    ← Assembly.instructions, hreserved]
  rfl

/-- The code in front of the initial values does what it should, on a machine with room for static
memory. -/
theorem wp_prologue {c : EmitContext} {statics : List StaticVariable} {table : SymbolTable}
    (lays : table.Lays 0 (areas c.structs c.strings statics) n)
    (values : ∀ e ∈ c.strings.entries, table.lookup e.1.name = some (img.value e.1))
    (small : n < 2 ^ 31) (memory : n ≤ img.memoryWords) (filled : s.Filled []) :
    img.wp ok (prologue c.structs c.strings statics)
      (fun s' => s'.registers .sp = .ofNat n ∧
        s'.Filled (c.strings.strings.flatMap LiteralPool.stored)) s := by
  have hn := lays.stop_eq
  rw [sum_areas, Nat.zero_add] at hn
  obtain ⟨middle, hstrings, hstatics⟩ := SymbolTable.Lays.append_iff.mp lays
  have hmiddle := hstatics.stop_eq
  have hreserved : img.wp ok (reserved c.structs c.strings statics) (fun s' => s' = s) s := by
    rw [reserved_eq]
    generalize areas c.structs c.strings statics = xs
    induction xs with
    | nil => rfl
    | cons x xs ih => exact ih
  have hopening : img.wp ok (opening c.structs c.strings statics)
      (fun s' => s'.registers .sp = .ofNat n ∧ s'.Filled []) s := by
    refine Image.wp_append.mpr (Image.wp_mono ?_ hreserved)
    rintro _ rfl
    refine Image.wp_mov.mpr ⟨?_, filled.set _ _⟩
    rw [Store.registers_set, if_pos rfl, hn]
    rfl
  refine Image.wp_append.mpr (Image.wp_mono ?_ hopening)
  rintro s₁ ⟨hsp, hs₁⟩
  refine wp_fillEntries hstrings values hs₁ (by omega) (by omega) fun s₂ hsp₂ hs₂ =>
    ⟨hsp₂.trans hsp, ?_⟩
  rw [List.nil_append, ← List.flatMap_map, LiteralPool.snd_entries] at hs₂
  exact hs₂

end Emit

theorem LiteralPool.length_flatMap_stored (texts : List String) :
    (texts.flatMap stored).length = totalWords texts := by
  induction texts with
  | nil => rfl
  | cons text texts ih =>
    rw [List.flatMap_cons, List.length_append, Emit.length_stored, ih, totalWords]

/-- The address of a string is behind the strings in front of it. -/
theorem SymbolTable.Lays.string {table : SymbolTable} {pool : LiteralPool}
    (lays : table.Lays 0 (Emit.areas structs pool statics) n) (h : text ∈ pool.strings) :
    ∃ l front back, pool.label? text = some l ∧ pool.strings = front ++ text :: back ∧
      table.lookup l.name = some (.ofNat (LiteralPool.totalWords front)) := by
  obtain ⟨front, back, hsplit⟩ := List.append_of_mem h
  have hplace : pool.strings[front.length]? = some text := by simp [hsplit]
  refine ⟨.string front.length, front, back, LiteralPool.label?_getElem hplace, hsplit, ?_⟩
  obtain ⟨_, hstrings, -⟩ := append_iff.mp lays
  rw [LiteralPool.entries_eq, hsplit, List.zipIdx_append, List.map_append,
    List.map_append] at hstrings
  obtain ⟨address, hfront, hback⟩ := append_iff.mp hstrings
  have hsum : ((front.zipIdx.map fun e => (Label.string e.2, e.1)).map fun e =>
    LiteralPool.wordsOf e.2).sum =
      LiteralPool.totalWords front := by
    calc _ = ((front.zipIdx.map Prod.fst).map LiteralPool.wordsOf).sum := by
          rw [List.map_map, List.map_map]
          rfl
      _ = _ := by rw [List.zipIdx_map_fst, LiteralPool.totalWords_eq]
  obtain rfl : address = LiteralPool.totalWords front := by
    have hstop := hfront.stop_eq
    rw [List.map_map, Nat.zero_add] at hstop
    exact hstop.trans hsum
  simpa using hback.1

theorem Machine.Shows.memory_eq {m : Machine} {pc : Nat} {s : Store} (h : m.Shows img ⟨pc, s⟩)
    (filled : s.Filled ws) (fits : ws.length ≤ img.memoryWords) :
    m.memory.toList = ws ++ List.replicate (img.memoryWords - ws.length) 0 := by
  have hsize := h.size
  refine List.ext_getElem (by simp; omega) fun i hi hi' => ?_
  rw [Array.getElem_toList, h.memory i (by simpa using hi), filled i, List.getElem_append]
  split
  · next hlt => rw [List.getD_eq_getElem?_getD, List.getElem?_eq_getElem hlt, Option.getD_some]
  · next hge =>
    rw [List.getD_eq_getElem?_getD, List.getElem?_eq_none (by omega), List.getElem_replicate]
    rfl

open Emit in
/-- Strings and static variables take up memory from its start to where the stack begins, one behind
the other, and when the code in front of the initial values has run, the strings are there and the
rest is zero. -/
theorem static_memory {p : Program} (parsed : Program.ofSource source = .ok p)
    (compiled : Assembly.ofSource source = .ok a) (tables : Structs.ofDecls p.structs = .ok structs)
    (declared : StaticVariable.declare structs [] p.statics = .ok statics)
    (total : n = (LiteralPool.collect p).words + structs.totalWords
      (statics.map StaticVariable.type)) (small : n < 2 ^ 31)
    (file : Option String) :
    ∃ items table b rest, Assembly.read a.text.toList = .ok items ∧
    Assembly.collectSymbols [] 0 0 items = .ok table ∧
      Bytecode.ofScript source file = .ok b ∧ table.Lays 0 (areas structs (.collect p) statics) n ∧
      a = prologue structs (.collect p) statics ++ rest ∧
      (prologue structs (.collect p) statics).instructions.head? = some (.mov .sp (count n)) ∧
      ∀ config : MachineConfig, n ≤ config.memoryWords →
        (∀ budget ∈ config.budget, (prologue structs (.collect p) statics).instructions.length ≤
          budget) →
        ∃ m, (Machine.load b config).runFor
          (prologue structs (.collect p) statics).instructions.length = .inl m ∧
          m.pc = (prologue structs (.collect p) statics).size ∧ m.sp = .ofNat n ∧
          (∀ text ∈ p.literals, ∃ l address, (LiteralPool.collect p).label? text = some l ∧
            table.lookup l.name = some (.ofNat address) ∧
            (m.memory.toList.drop address).take (LiteralPool.wordsOf text) =
            LiteralPool.stored text) ∧
          m.memory.toList = (LiteralPool.collect p).strings.flatMap LiteralPool.stored ++
            List.replicate (config.memoryWords - (LiteralPool.collect p).words) 0 := by
  have hp := Program.ofSource_wellNamed parsed
  have hprogram := Assembly.ofProgram_of_source parsed compiled
  have complete := Assembly.ofProgram_complete hp hprogram
  obtain ⟨_, functions, _, hs, hf, hv, emitted⟩ := ofProgram_emits hp hprogram
  obtain rfl := Except.ok.inj (tables.symm.trans hs)
  obtain rfl := Except.ok.inj (declared.symm.trans hv)
  have bound : (LiteralPool.collect p).words + structs.totalWords
      (statics.map StaticVariable.type) < sizeBound :=
    total ▸ Nat.lt_trans small (by decide)
  obtain ⟨items, table, hread, htable, hvalues, hlays⟩ := emitted.lays complete bound
  rw [← total] at hlays
  obtain ⟨rest, hrest⟩ := emitted.prologue
  refine ⟨items, table, _, rest, hread, htable, Bytecode.ofScript_words parsed compiled file, hlays,
    hrest, ?_, ?_⟩
  · rw [instructions_prologue, total]
    rfl
  · intro config memory affords
    have hstrings : ∀ e ∈ (LiteralPool.collect p).entries, table.lookup e.1.name =
        some (a.value e.1) :=
      fun e he => hvalues e.1 (emitted.defines_string he)
    have hwp : Image.wp ⟨a, a.value, config.memoryWords⟩ (fun _ => False) _ _
        ⟨fun _ => 0, fun _ => 0, none⟩ :=
      wp_prologue hlays hstrings small memory fun _ => rfl
    obtain ⟨m, s, hrun, hm, hsp, hfilled⟩ :=
      (Machine.load_shows a a.value config).run_straight ⟨[], rest, hrest, rfl⟩
      complete.valid (fun budget hb => (Nat.zero_add _).symm ▸ affords budget hb) hwp
    have hlength := LiteralPool.length_flatMap_stored (LiteralPool.collect p).strings
    have hroom : (LiteralPool.collect p).words ≤ config.memoryWords :=
      Nat.le_trans (total ▸ Nat.le_add_right _ _) memory
    have hmemory := hm.memory_eq hfilled (hlength ▸ hroom)
    rw [hlength] at hmemory
    refine ⟨m, hrun, hm.pc.trans (Nat.zero_add _), hm.sp.trans hsp, fun text htext => ?_, hmemory⟩
    obtain ⟨l, front, back, hlabel, hsplit, hlookup⟩ :=
      hlays.string (LiteralPool.mem_collect_literals.mpr htext)
    refine ⟨l, _, hlabel, hlookup, ?_⟩
    rw [hmemory, hsplit, List.flatMap_append, List.flatMap_cons, List.append_assoc,
      List.append_assoc,
      ← LiteralPool.length_flatMap_stored, List.drop_left, ← length_stored, List.take_left]

def SourceText.greets : SourceText :=
  .ofString "static int& s = \"hi\"; static int n; s = \"é\"; s = \"hi\";"

open Emit in
theorem static_memory_greets : ∃ p a structs statics b m, Program.ofSource .greets = .ok p ∧
    Assembly.ofSource .greets = .ok a ∧ Structs.ofDecls p.structs = .ok structs ∧
    StaticVariable.declare structs [] p.statics = .ok statics ∧
    (LiteralPool.collect p).words + structs.totalWords (statics.map StaticVariable.type) = 7 ∧
    Bytecode.ofScript .greets none = .ok b ∧ (Machine.load b ⟨8, some 11⟩).runFor 11 = .inl m ∧
    m.sp = 7 ∧ m.memory.toList = [2, 104, 105, 1, 233, 0, 0, 0] := by
  have hrun : (do
      let p ← (Program.ofSource .greets).toOption
      let a ← (Assembly.ofSource .greets).toOption
      let structs ← (Structs.ofDecls p.structs).toOption
      let statics ← (StaticVariable.declare structs [] p.statics).toOption
      pure ((LiteralPool.collect p).words, structs.totalWords (statics.map StaticVariable.type),
        (prologue structs (.collect p) statics).instructions.length,
        (LiteralPool.collect p).strings.flatMap LiteralPool.stored)) =
      some (5, 2, 11, [2, 104, 105, 1, 233]) := by decide +kernel
  obtain ⟨p, hp, hrun⟩ := of_toOption_bind hrun
  obtain ⟨a, ha, hrun⟩ := of_toOption_bind hrun
  obtain ⟨structs, hs, hrun⟩ := of_toOption_bind hrun
  obtain ⟨statics, hv, hrun⟩ := of_toOption_bind hrun
  simp only [Option.pure_def, Option.some.injEq, Prod.mk.injEq] at hrun
  obtain ⟨hwords, htotal, hlength, hstored⟩ := hrun
  obtain ⟨_, _, b, _, -, -, hb, -, -, -, hmachine⟩ :=
    static_memory hp ha hs hv (by rw [hwords, htotal]) (by decide) none
  obtain ⟨m, hm, -, hsp, -, hmemory⟩ := hmachine ⟨8, some 11⟩ (by decide) (by simp [hlength])
  rw [hlength] at hm
  rw [hstored, hwords] at hmemory
  exact ⟨p, a, structs, statics, b, m, hp, ha, hs, hv, by rw [hwords, htotal], hb, hm, hsp, hmemory⟩

end WordScript
