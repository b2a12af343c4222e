import WordScript.Proofs.Emit.Statements
import WordScript.Proofs.Machine.Logic

/-!
# Templates

What the patterns do that generated code is made of: pushing and popping, copying words, saving and
restoring registers, tests and jumps. Addresses are integers here; words hold them as long as they
are `Addressable`.
-/

namespace WordScript

/-! ### Words as addresses -/

theorem ofInt_add_ofNat (z : Int) (n : Nat) : Int32.ofInt z + .ofNat n = .ofInt (z + n) := by
  rw [Int32.ofInt_add, Int32.ofInt_eq_ofNat]

theorem ofInt_sub_ofNat (z : Int) (n : Nat) : Int32.ofInt z - .ofNat n = .ofInt (z - n) := by
  rw [Int32.ofInt_sub, Int32.ofInt_eq_ofNat]

theorem ofInt_add_one (z : Int) : Int32.ofInt z + 1 = .ofInt (z + 1) := ofInt_add_ofNat z 1

theorem add_ofNat_eq (a : Word) (i : Nat) : a + .ofNat i = .ofInt (a.toInt + i) := by
  rw [← ofInt_add_ofNat, Int32.ofInt_toInt]

theorem toInt_add_ofNat {a : Word} {i : Nat} (nonneg : 0 ≤ a.toInt) (small : a.toInt + i < 2 ^ 31) :
    (a + .ofNat i).toInt = a.toInt + i := by
  rw [add_ofNat_eq, Addressable.toInt ⟨by omega, small⟩]

/-- From this address on there are `n` words of memory, and words can hold their addresses. -/
structure Image.Fits (img : Image) (z : Int) (n : Nat) : Prop where
  nonneg : 0 ≤ z
  small : z + n < 2 ^ 31
  inside : z + n ≤ img.memoryWords

instance (img : Image) (z : Int) (n : Nat) : Decidable (img.Fits z n) :=
  decidable_of_iff (0 ≤ z ∧ z + n < 2 ^ 31 ∧ z + n ≤ img.memoryWords)
    ⟨fun h => ⟨h.1, h.2.1, h.2.2⟩, fun h => ⟨h.nonneg, h.small, h.inside⟩⟩

namespace Image.Fits

variable {img : Image} {z : Int} {m n : Nat}

theorem mono (h : img.Fits z n) (hle : m ≤ n) : img.Fits z m :=
  ⟨h.nonneg, by have := h.small; omega, by have := h.inside; omega⟩

theorem push (h : img.Fits z n) (hle : m + k ≤ n) : img.Fits (z + m) k :=
  ⟨by have := h.nonneg; omega, by have := h.small; omega, by have := h.inside; omega⟩

theorem addressable (h : img.Fits z n) (hn : 1 ≤ n) : Addressable z :=
  ⟨h.nonneg, by have := h.small; omega⟩

theorem lt (h : img.Fits z n) (hn : 1 ≤ n) : z < img.memoryWords := by
  have := h.inside
  omega

end Image.Fits

/-! ### Stores -/

/-- Memory after `n` words have been copied one by one from `source` to `target`. -/
def copied (memory : Int → Word) (target source : Int) : Nat → Int → Word
  | 0 => memory
  | n + 1 => copied (fun z => if z = target then memory source else memory z) (target + 1)
      (source + 1) n

theorem copied_outside {memory : Int → Word} {z target source : Int} {n : Nat}
    (h : z < target ∨ target + n ≤ z) : copied memory target source n z = memory z := by
  induction n generalizing memory target source with
  | zero => rfl
  | succ n ih => rw [copied, ih (by omega), if_neg (by omega)]

/-- Words arrive as they were unless the copy runs into words that are still to be read. -/
theorem copied_inside {memory : Int → Word} {target source : Int} {n i : Nat} (hi : i < n)
    (h : target ≤ source ∨ source + n ≤ target) :
    copied memory target source n (target + i) = memory (source + i) := by
  induction n generalizing memory target source i with
  | zero => omega
  | succ n ih =>
    rw [copied]
    cases i with
    | zero =>
      rw [copied_outside (by omega)]
      simp
    | succ i =>
      rw [show target + (i + 1 : Nat) = target + 1 + i by omega, ih (by omega) (by omega),
        if_neg (by omega), show source + 1 + i = source + (i + 1 : Nat) by omega]

/-- The words from `z` on are what `f` says of these registers. -/
def Saved (memory : Int → Word) (z : Int) (saved : List Register) (f : Register → Word) : Prop :=
  ∀ (i : Nat) r, saved[i]? = some r → memory (z + i) = f r

namespace Store

@[ext] theorem ext {s s' : Store} (hr : ∀ r, s.registers r = s'.registers r)
    (hm : ∀ z, s.memory z = s'.memory z) (hf : s.flags = s'.flags) : s = s' := by
  obtain ⟨registers, memory, flags⟩ := s
  obtain ⟨registers', memory', flags'⟩ := s'
  obtain rfl : registers = registers' := funext hr
  obtain rfl : memory = memory' := funext hm
  obtain rfl : flags = flags' := hf
  rfl

variable {s : Store}

theorem set_self (h : s.registers r = w) : s.set r w = s := by
  refine ext (fun r' => ?_) (fun _ => rfl) rfl
  rw [registers_set]
  split <;> simp_all

def pushed (s : Store) (z : Int) (w : Word) : Store := (s.write z w).set .sp (.ofInt (z + 1))

def popped (s : Store) (z : Int) (r : Register) : Store := (s.set .sp (.ofInt z)).set r (s.memory z)

def moved (s : Store) (target source : Register) (z z' : Int) (n : Nat) : Store where
  registers r := if r = target then .ofInt (z + n) else if r = source then .ofInt (z' + n)
    else s.registers r
  memory := copied s.memory z z' n
  flags := s.flags

@[simp] theorem set_set : (s.set r w).set r w' = s.set r w' := by
  refine ext (fun r' => ?_) (fun _ => rfl) rfl
  simp only [registers_set]
  split <;> rfl

theorem moved_zero (ht : s.registers target = .ofInt z) (hs : s.registers source = .ofInt z') :
    s.moved target source z z' 0 = s := by
  refine ext (fun r => ?_) (fun _ => rfl) rfl
  simp only [moved, Int.natCast_zero, Int.add_zero]
  split
  · simp_all
  · split <;> simp_all

theorem moved_succ : (s.moved target source z z' 1).moved target source (z + 1) (z' + 1) n =
    s.moved target source z z' (n + 1) := by
  refine ext (fun r => ?_) (fun _ => rfl) rfl
  simp only [moved, Int.natCast_add, Int.natCast_one, Int.add_assoc, Int.add_comm 1]
  split
  · rfl
  · split <;> rfl

theorem set_comm (h : r ≠ r') : (s.set r w).set r' w' = (s.set r' w').set r w := by
  refine ext (fun q => ?_) (fun _ => rfl) rfl
  simp only [registers_set]
  split
  · next he => rw [if_neg (he ▸ Ne.symm h)]
  · rfl

theorem moved_set (h : r = target ∨ r = source) :
    (s.set r w).moved target source z z' n = s.moved target source z z' n := by
  refine ext (fun q => ?_) (fun _ => rfl) rfl
  simp only [moved, registers_set]
  grind

theorem moved_one : s.moved target source z z' 1 =
    ((s.write z (s.memory z')).set source (.ofInt (z' + 1))).set target (.ofInt (z + 1)) :=
  ext (fun _ => rfl) (fun _ => rfl) rfl

@[simp] theorem registers_pushed :
    (s.pushed z w).registers r = if r = .sp then .ofInt (z + 1) else s.registers r := rfl

@[simp] theorem memory_pushed : (s.pushed z w).memory z' = if z' = z then w else s.memory z' := rfl

@[simp] theorem registers_popped : (s.popped z r).registers r' =
    if r' = r then s.memory z else if r' = .sp then .ofInt z else s.registers r' := rfl

@[simp] theorem memory_popped : (s.popped z r).memory = s.memory := rfl

@[simp] theorem registers_moved : (s.moved target source z z' n).registers r =
    if r = target then .ofInt (z + n) else if r = source then .ofInt (z' + n) else
      s.registers r := rfl

@[simp] theorem memory_moved : (s.moved target source z z' n).memory = copied s.memory z z' n := rfl

/-- `s'` has `n` words more than `s` on the stack, from `z` on. Other than these, only `sp` and the
registers in `used` may differ. -/
structure Pushes (s s' : Store) (z : Int) (n : Nat) (used : List Register) : Prop where
  sp : s'.registers .sp = .ofInt (z + n)
  registers : ∀ r, r ≠ .sp → r ∉ used → s'.registers r = s.registers r
  memory : ∀ a, a < z ∨ z + n ≤ a → s'.memory a = s.memory a

theorem Pushes.trans (h : s.Pushes s₁ z 0 used) (h' : s₁.Pushes s₂ z n []) :
    s.Pushes s₂ z n used where
  sp := h'.sp
  registers r hr hused := (h'.registers r hr List.not_mem_nil).trans (h.registers r hr hused)
  memory a ha := (h'.memory a ha).trans (h.memory a (by omega))

theorem pushes_pushed : s.Pushes (s.pushed z w) z 1 [] where
  sp := by simp [pushed]
  registers r hr _ := by simp [hr]
  memory a ha := if_neg (by omega)

theorem pushes_moved : s.Pushes (s.moved .sp source z z' n) z n [source] where
  sp := by simp [moved]
  registers r hr hs := by simp_all
  memory a ha := copied_outside ha

end Store

namespace Image

open Emit

variable {img : Image} {ok : Trap → Prop} {G : State → Prop} {Q : Store → Prop}
  {s : Store} {pc : Nat} {z z' : Int} {n : Nat}

@[simp] theorem operand_word : img.operand s (word w) = w := rfl

@[simp] theorem operand_labelled : img.operand s (labelled l) = img.value l := rfl

/-! ### Pushing and popping -/

theorem wp_push (hsp : s.registers .sp = .ofInt z) (hz : Addressable z)
    (h : z < img.memoryWords → img.wp ok rest Q (s.pushed z (img.operand s v)))
    (hno : img.memoryWords ≤ z → ok .address) :
    img.wp ok (.instruction (.memWrite .sp v) comment :: .instruction (increase .sp (count 1))
      comment' :: rest)
      Q s := by
  refine wp_memWrite hsp hz (fun hlt => ?_) hno
  have hup : s.registers .sp + .ofNat 1 = .ofInt (z + 1) := by
    rw [hsp, ofInt_add_ofNat, Int.natCast_one]
  simp only [increase, count, word, wp_add, operand_immediate, Store.registers_write, hup]
  exact h hlt

theorem wp_pop (hsp : s.registers .sp = .ofInt (z + 1)) (hz : Addressable z)
    (h : z < img.memoryWords → img.wp ok rest Q (s.popped z r))
    (hno : img.memoryWords ≤ z → ok .address) :
    img.wp ok (.instruction (decrease .sp (count 1)) comment :: .instruction (.memRead r .sp)
      comment' :: rest)
      Q s := by
  have hdown : s.registers .sp - .ofNat 1 = .ofInt z := by
    rw [hsp, ofInt_sub_ofNat, Int.natCast_one, Int.add_sub_cancel]
  simp only [decrease, count, word, wp_sub, operand_immediate, hdown]
  refine wp_memRead ?_ hz (fun hlt => ?_) hno
  · simp
  · exact h hlt

theorem wp_pushCode (hsp : s.registers .sp = .ofInt z) (hz : Addressable z)
    (h : z < img.memoryWords → Q (s.pushed z (img.operand s v)))
    (hno : img.memoryWords ≤ z → ok .address) : img.wp ok (pushCode v) Q s := wp_push hsp hz h hno

theorem wp_popCode (hsp : s.registers .sp = .ofInt (z + 1)) (hz : Addressable z)
    (h : z < img.memoryWords → Q (s.popped z r)) (hno : img.memoryWords ≤ z → ok .address) :
    img.wp ok (popCode r) Q s := wp_pop hsp hz h hno

theorem wp_lowerSp (hsp : s.registers .sp = .ofInt (z + n)) (h : Q (s.set .sp (.ofInt z))) :
    img.wp ok (lowerSp n) Q s := by
  by_cases hn : n = 0
  · subst hn
    rw [Store.set_self (by simpa using hsp)] at h
    simpa [lowerSp] using h
  · have hdown : s.registers .sp - .ofNat n = .ofInt z := by
      rw [hsp, ofInt_sub_ofNat, Int.add_sub_cancel]
    simpa [lowerSp, hn, line, decrease, count, word, hdown] using h

theorem wp_roomCode (hsp : s.registers .sp = .ofInt z) (h : Q (s.set .sp (.ofInt (z + n)))) :
    img.wp ok (roomCode n type) Q s := by
  by_cases hn : n = 0
  · subst hn
    rw [Store.set_self (by simpa using hsp)] at h
    simpa [roomCode] using h
  · simpa [roomCode, hn, noted, increase, count, word, hsp, ofInt_add_ofNat] using h

theorem wp_dropCode (hsp : s.registers .sp = .ofInt (z + n)) (h : Q (s.set .sp (.ofInt z))) :
    img.wp ok (dropCode comment n) Q s := by
  by_cases hn : n = 0
  · subst hn
    rw [Store.set_self (by simpa using hsp)] at h
    simpa [dropCode] using h
  · have hdown : s.registers .sp - .ofNat n = .ofInt z := by
      rw [hsp, ofInt_sub_ofNat, Int.add_sub_cancel]
    simpa [dropCode, hn, decrease, count, word, hdown] using h

theorem wp_flatMap_lowerSp {sizes : List Nat} (hsp : s.registers .sp = .ofInt (z + sizes.sum))
    (h : Q (s.set .sp (.ofInt z))) : img.wp ok (sizes.flatMap lowerSp) Q s := by
  induction sizes generalizing s with
  | nil =>
    rw [Store.set_self (by simpa using hsp)] at h
    exact h
  | cons n sizes ih =>
    rw [List.flatMap_cons, wp_append]
    refine wp_lowerSp (z := z + sizes.sum) ?_ (ih (by simp) ?_)
    · rw [hsp, List.sum_cons]
      congr 1
      omega
    · rwa [Store.set_set]

/-! ### Copying -/

/-- Words copied one by one, by lines that copy one word each. -/
theorem wp_replicate {block : Assembly} (hne : target ≠ source)
    (hblock : ∀ {s : Store} {z z' : Int} {Q : Store → Prop}, s.registers target = .ofInt z →
      s.registers source = .ofInt z' → Addressable z → Addressable z' →
      (z < img.memoryWords ∧ z' < img.memoryWords) ∨ ok .address →
      Q (s.moved target source z z' 1) → img.wp ok block Q s)
    (ht : s.registers target = .ofInt z) (hs : s.registers source = .ofInt z')
    (hz : 0 ≤ z ∧ z + n ≤ 2 ^ 31) (hz' : 0 ≤ z' ∧ z' + n ≤ 2 ^ 31)
    (hfits : (z + n ≤ img.memoryWords ∧ z' + n ≤ img.memoryWords) ∨ ok .address)
    (h : Q (s.moved target source z z' n)) : img.wp ok (List.replicate n block).flatten Q s := by
  induction n generalizing s z z' with
  | zero => rwa [Store.moved_zero ht hs] at h
  | succ n ih =>
    rw [List.replicate_succ, List.flatten_cons, wp_append]
    refine hblock ht hs ⟨hz.1, by omega⟩ ⟨hz'.1, by omega⟩ (hfits.imp_left fun h => by omega) ?_
    have ht' : (s.moved target source z z' 1).registers target = .ofInt (z + 1) := by simp
    have hs' : (s.moved target source z z' 1).registers source = .ofInt (z' + 1) := by
      simp [Ne.symm hne]
    refine ih ht' hs' (by omega) (by omega) (hfits.imp_left fun h => by omega) ?_
    rwa [Store.moved_succ]

theorem wp_copyWords (hne : target ≠ source) (ht : s.registers target = .ofInt z)
    (hs : s.registers source = .ofInt z') (hz : 0 ≤ z ∧ z + n ≤ 2 ^ 31)
    (hz' : 0 ≤ z' ∧ z' + n ≤ 2 ^ 31)
    (hfits : (z + n ≤ img.memoryWords ∧ z' + n ≤ img.memoryWords) ∨ ok .address)
    (h : Q (s.moved target source z z' n)) : img.wp ok (copyWords target source n) Q s := by
  refine wp_replicate hne ?_ ht hs hz hz' hfits h
  intro s z z' Q ht hs hz hz' hfits h
  refine wp_memCopy ht hz hs hz' (fun _ _ => ?_) (fun hno => hfits.resolve_left (by omega))
  simp only [line, increase, word, wp_add, wp_nil, operand_immediate, Store.registers_set,
    Store.registers_write, Ne.symm hne, ↓reduceIte, ht, hs, ofInt_add_one]
  rwa [Store.set_comm hne, ← Store.moved_one]

theorem wp_pushCopyCode (hsp : s.registers .sp = .ofInt z)
    (hs : s.registers (.general k) = .ofInt z')
    (hz : 0 ≤ z ∧ z + n ≤ 2 ^ 31) (hz' : 0 ≤ z' ∧ z' + n ≤ 2 ^ 31)
    (hfits : (z + n ≤ img.memoryWords ∧ z' + n ≤ img.memoryWords) ∨ ok .address)
    (h : Q (s.moved .sp (.general k) z z' n)) : img.wp ok (pushCopyCode (.general k) n) Q s := by
  refine wp_replicate (by simp) ?_ hsp hs hz hz' hfits h
  intro s z z' Q ht hs hz hz' hfits h
  refine wp_memCopy ht hz hs hz' (fun _ _ => ?_) (fun hno => hfits.resolve_left (by omega))
  simp only [line, increase, word, wp_add, wp_nil, operand_immediate, Store.registers_set,
    Store.registers_write, reduceCtorEq, ↓reduceIte, ht, hs, ofInt_add_one]
  rwa [← Store.moved_one]

theorem wp_store (hsp : s.registers .sp = .ofInt (z + n))
    (hs : s.registers (.general k) = .ofInt z')
    (hz : 0 ≤ z ∧ z + n ≤ 2 ^ 31) (hz' : 0 ≤ z' ∧ z' + n ≤ 2 ^ 31)
    (hfits : (z' + n ≤ img.memoryWords ∧ z + n ≤ img.memoryWords) ∨ ok .address)
    (h : Q (s.moved (.general k) .sp z' z n)) : img.wp ok (store n (.general k)) Q s := by
  have hdown : s.registers .sp - .ofNat n = .ofInt z := by
    rw [hsp, ofInt_sub_ofNat, Int.add_sub_cancel]
  simp only [store, line, decrease, count, word, wp_sub, operand_immediate, hdown]
  refine wp_copyWords (by simp) (by simpa using hs) (by simp) hz' hz hfits ?_
  rwa [Store.moved_set (.inr rfl)]

theorem wp_zerosCode (hsp : s.registers .sp = .ofInt z) (hz : 0 ≤ z ∧ z + n ≤ 2 ^ 31)
    (hfits : z + n ≤ img.memoryWords ∨ ok .address)
    (h : ∀ s', s'.registers .sp = .ofInt (z + n) → (∀ a, z ≤ a → a < z + n → s'.memory a = 0) →
      (∀ a, a < z ∨ z + n ≤ a → s'.memory a = s.memory a) → Q s') :
    img.wp ok (zerosCode n) Q s := by
  induction n generalizing s z with
  | zero => exact h s (by simpa using hsp) (fun a _ _ => by omega) (fun _ _ => rfl)
  | succ n ih =>
    have hcode : zerosCode (n + 1) = pushCode (word 0) ++ zerosCode n := by
      simp [zerosCode, List.replicate_succ, pushCode, count]
    rw [hcode, wp_append]
    refine wp_pushCode hsp ⟨hz.1, by omega⟩ (fun _ => ?_) (fun _ => hfits.resolve_left (by omega))
    refine ih (z := z + 1) (by simp) (by omega) (hfits.imp_left fun h => by omega) ?_
    intro s' hsp' hzero hkeep
    refine h s' (by rw [hsp']; congr 1; omega) (fun a ha ha' => ?_) (fun a ha => ?_)
    · by_cases he : a = z
      · rw [hkeep a (by omega), Store.memory_pushed, if_pos he]
        rfl
      · exact hzero a (by omega) (by omega)
    · rw [hkeep a (by omega), Store.memory_pushed, if_neg (by omega)]

/-! ### Addresses and fields -/

theorem wp_pointAt_stack (hsp : s.registers .sp = .ofInt z)
    (h : Q (s.set (.general k) (.ofInt (z + offset)))) :
    img.wp ok (pointAt (.general k) (.stack offset) comment) Q s := by
  simp only [pointAt, noted, line, increase, word, wp_mov, wp_add, wp_nil, operand_register,
    operand_immediate, Store.registers_set, ↓reduceIte, Store.set_set, hsp, ← Int32.ofInt_add]
  exact h

theorem wp_pointAt_static (h : Q (s.set (.general k) (img.value l))) :
    img.wp ok (pointAt (.general k) (.static l) comment) Q s := wp_mov.mpr h

theorem wp_fieldCode (hk : s.registers (.general k) = .ofInt z)
    (h : Q (s.set (.general k) (.ofInt (z + n)))) :
    img.wp ok (fieldCode name n (.general k)) Q s := by
  by_cases hn : n = 0
  · subst hn
    rw [Store.set_self (by simpa using hk)] at h
    simpa [fieldCode] using h
  · simpa [fieldCode, hn, noted, increase, count, word, hk, ofInt_add_ofNat] using h

theorem wp_selectCode {structWords : Nat} {field : Field}
    (hsp : s.registers .sp = .ofInt (z + structWords))
    (hz : 0 ≤ z) (hin : z + field.offset + n ≤ 2 ^ 31)
    (hfits : z + field.offset + n ≤ img.memoryWords ∨ ok .address)
    (h : Q (s.moved .sp (.general k) z (z + field.offset) n)) :
    img.wp ok (selectCode structWords field (.general k) n) Q s := by
  have hcode : selectCode structWords field (.general k) n = lowerSp structWords ++
      (noted (.mov (.general k) (.register .sp)) s!".{field.name}" ::
        (if field.offset = 0 then [] else [line (increase (.general k) (count field.offset))])) ++
      pushCopyCode (.general k) n := by simp [selectCode]
  rw [hcode, wp_append, wp_append]
  refine wp_lowerSp hsp ?_
  have hmoved : Q (((s.set .sp (.ofInt z)).set (.general k) (.ofInt (z + field.offset))).moved
    .sp (.general k) z
      (z + field.offset) n) := by rwa [Store.moved_set (.inr rfl), Store.moved_set (.inl rfl)]
  have hcopy : img.wp ok (pushCopyCode (.general k) n) Q
      ((s.set .sp (.ofInt z)).set (.general k) (.ofInt (z + field.offset))) :=
    wp_pushCopyCode (by simp) (by simp) (by omega) (by omega)
      (hfits.imp_left fun h => by omega) hmoved
  by_cases ho : field.offset = 0
  · simpa [ho, noted] using hcopy
  · simpa [ho, noted, line, increase, count, word, ofInt_add_ofNat] using hcopy

/-! ### Saving and restoring registers -/

theorem wp_saveCode {saved : List Register} (hsp : s.registers .sp = .ofInt z)
    (hz : 0 ≤ z ∧ z + saved.length ≤ 2 ^ 31)
    (hfits : z + saved.length ≤ img.memoryWords ∨ ok .address) (hne : ∀ r ∈ saved, r ≠ .sp)
    (h : ∀ s', s'.registers .sp = .ofInt (z + saved.length) →
      (∀ r, r ≠ .sp → s'.registers r = s.registers r) → Saved s'.memory z saved s.registers →
      (∀ a, a < z → s'.memory a = s.memory a) → Q s') :
    img.wp ok (saveCode saved) Q s := by
  induction saved generalizing s z with
  | nil =>
    exact h s (by simpa using hsp) (fun _ _ => rfl) (fun i r hi => by simp at hi) (fun _ _ => rfl)
  | cons r saved ih =>
    simp only [List.length_cons, Int.natCast_add, Int.natCast_one] at hz hfits h
    simp only [saveCode, List.flatMap_cons, List.cons_append, List.nil_append, noted, line]
    refine wp_push hsp ⟨hz.1, by omega⟩ (fun _ => ?_) (fun _ => hfits.resolve_left (by omega))
    refine ih (z := z + 1) (by simp) (by omega) (hfits.imp_left fun h => by omega)
      (fun r hr => hne r (by simp [hr])) ?_
    intro s' hsp' hr' hsaved hmem
    refine h s' (by rw [hsp']; congr 1; omega) (fun q hq => by rw [hr' q hq]; simp [hq]) ?_ ?_
    · intro i q hq
      cases i with
      | zero =>
        obtain rfl : r = q := by simpa using hq
        rw [Int.natCast_zero, Int.add_zero, hmem z (by omega)]
        simp
      | succ i =>
        have hq' : saved[i]? = some q := by simpa using hq
        have hqsp : q ≠ .sp := hne q (by simp [List.mem_of_getElem? hq'])
        have := hsaved i q hq'
        rw [show z + (i + 1 : Nat) = z + 1 + i by omega, this]
        simp [hqsp]
    · intro a ha
      rw [hmem a (by omega), Store.memory_pushed, if_neg (by omega)]

theorem wp_restoreCode {saved : List Register} {f : Register → Word}
    (hsp : s.registers .sp = .ofInt (z + saved.length)) (hz : 0 ≤ z ∧ z + saved.length ≤ 2 ^ 31)
    (hfits : z + saved.length ≤ img.memoryWords ∨ ok .address) (hne : ∀ r ∈ saved, r ≠ .sp)
    (hsaved : Saved s.memory z saved.reverse f)
    (h : ∀ s', s'.registers .sp = .ofInt z → (∀ r ∈ saved, s'.registers r = f r) →
      (∀ r, r ≠ .sp → r ∉ saved → s'.registers r = s.registers r) → s'.memory = s.memory → Q s') :
    img.wp ok (restoreCode saved) Q s := by
  induction saved generalizing s with
  | nil => exact h s (by simpa using hsp) (by simp) (fun _ _ _ => rfl) rfl
  | cons r saved ih =>
    simp only [List.length_cons, Int.natCast_add, Int.natCast_one, ← Int.add_assoc] at hz hfits hsp
    have hr : r ≠ .sp := hne r (by simp)
    have hvalue : s.memory (z + saved.length) = f r := hsaved saved.length r (by simp)
    simp only [restoreCode, List.flatMap_cons, List.cons_append, List.nil_append, noted, line]
    refine wp_pop hsp ⟨by omega, by omega⟩ (fun _ => ?_) (fun _ => hfits.resolve_left (by omega))
    refine ih (by simp [Ne.symm hr]) (by omega) (hfits.imp_left fun h => by omega)
      (fun q hq => hne q (by simp [hq])) ?_ ?_
    · intro i q hq
      refine hsaved i q ?_
      rw [List.reverse_cons, List.getElem?_append_left (List.getElem?_eq_some_iff.mp hq).1, hq]
    · intro s' hsp' hin hout hmem
      refine h s' hsp' (fun q hq => ?_) (fun q hq hq' => ?_) hmem
      · by_cases hq' : q ∈ saved
        · exact hin q hq'
        · obtain rfl : q = r := by simpa [hq'] using hq
          rw [hout q hr hq']
          simp [hvalue]
      · simp only [List.mem_cons, not_or] at hq'
        rw [hout q hq hq'.2]
        simp [hq, hq'.1]

/-- Registers restored from below `n` words of result, and the result moved down. The words of the
result may overlap with where they go. -/
theorem wp_slideCode {saved : List Register} {f : Register → Word}
    (hsp : s.registers .sp = .ofInt (z + saved.length + n))
    (hz : saved ≠ [] → 0 ≤ z ∧ z + saved.length + n ≤ 2 ^ 31)
    (hfits : saved ≠ [] → z + saved.length + n ≤ img.memoryWords ∨ ok .address)
    (hne : ∀ r ∈ saved, r ≠ .sp)
    (hfree : saved ≠ [] → n ≠ 0 → .general k ∉ saved) (hsaved : Saved s.memory z saved f)
    (h : ∀ s', s'.registers .sp = .ofInt (z + n) → (∀ r ∈ saved, s'.registers r = f r) →
      (∀ a, a < z → s'.memory a = s.memory a) →
      (∀ i < n, s'.memory (z + i) = s.memory (z + saved.length + i)) → Q s') :
    img.wp ok (slideCode saved n (.general k)) Q s := by
  by_cases he : saved = []
  · subst he
    simpa [slideCode] using h s (by simpa using hsp) (by simp) (fun _ _ => rfl) (fun i _ => by simp)
  have hz := hz he
  have hfits := hfits he
  simp only [slideCode, he, ↓reduceIte]
  rw [wp_append, wp_append]
  refine wp_lowerSp hsp ?_
  refine wp_restoreCode (f := f) (z := z) (by simp) (by simpa using by omega)
    (by simpa using hfits.imp_left fun h => by omega) (by simpa using hne)
    (by simpa using hsaved) ?_
  intro s' hsp' hin hout hmem
  by_cases hn : n = 0
  · subst hn
    simpa using h s' (by simpa using hsp') (by simpa using hin) (fun a _ => by rw [hmem]; rfl)
      (fun i hi => by omega)
  · simp only [hn, ↓reduceIte, line, increase, count, word, wp_mov, wp_add, operand_register,
      operand_immediate, Store.registers_set, Store.set_set, hsp', ofInt_add_ofNat]
    refine wp_copyWords (by simp) (by simpa using hsp') (Store.registers_set.trans (if_pos rfl))
      (by omega)
      (by omega) (hfits.imp_left fun h => by omega) ?_
    refine h _ (by simp) (fun r hr => ?_) (fun a ha => ?_) (fun i hi => ?_)
    · have hk : r ≠ .general k := fun h => hfree he hn (h ▸ hr)
      simp [hk, hne r hr, hin r (by simpa using hr)]
    · simp only [Store.memory_moved, Store.memory_set, hmem]
      exact copied_outside (by omega)
    · simp only [Store.memory_moved, Store.memory_set, hmem]
      exact copied_inside hi (.inl (by omega))

/-! ### Operators -/

theorem wp_arithmeticCode (hlr : l ≠ r) (hsp : s.registers .sp = .ofInt (z + 2))
    (hz : 0 ≤ z ∧ z + 2 ≤ 2 ^ 31) (hfits : z + 2 ≤ img.memoryWords ∨ ok .address)
    (h : ∀ s' w, Word.arithmetic? kind op (s.memory z) (s.memory (z + 1)) = some w →
      s.Pushes s' z 1 [.general l, .general r] → s'.memory z = w → Q s')
    (hno : Word.arithmetic? kind op (s.memory z) (s.memory (z + 1)) = none → ok .division) :
    img.wp ok (arithmeticCode kind op (.general l) (.general r)) Q s := by
  have haddress : ∀ a : Int, img.memoryWords ≤ a → a < z + 2 → ok .address := fun a ha hlt =>
    hfits.resolve_left (by omega)
  rw [arithmeticCode, wp_append, wp_append]
  refine wp_popCode (z := z + 1) (by rw [hsp]; congr 1; omega) ⟨by omega, by omega⟩ (fun _ => ?_)
    (fun hno => haddress _ hno (by omega))
  refine wp_popCode (z := z) (by simp) ⟨by omega, by omega⟩ (fun _ => ?_)
    (fun hno => haddress _ hno (by omega))
  have hleft : ((s.popped (z + 1) (.general r)).popped z (.general l)).registers (.general l) =
      s.memory z := by
    simp
  have hright : ((s.popped (z + 1) (.general r)).popped z (.general l)).registers (.general r) =
      s.memory (z + 1) := by simp [Ne.symm hlr]
  refine wp_arith (fun w hw => ?_) (fun hw => hno ?_)
  · rw [operand_register, hleft, hright] at hw
    refine wp_pushCode (z := z) (by simp) ⟨by omega, by omega⟩
      (fun _ => h _ w hw ⟨by simp, ?_, ?_⟩ (by simp))
      (fun hno => haddress _ hno (by omega))
    · intro q hq hused
      simp only [List.mem_cons, List.not_mem_nil, or_false, not_or] at hused
      simp [hq, hused.1, hused.2]
    · intro a ha
      simpa using fun he : a = z => by omega
  · rwa [operand_register, hleft, hright] at hw

theorem wp_negateCode (hsp : s.registers .sp = .ofInt (z + 1)) (hz : Addressable z)
    (hfits : z < img.memoryWords ∨ ok .address)
    (h : ∀ s' w, Word.arithmetic? (numKind type) .mul (s.memory z) (minusOne type) = some w →
      s.Pushes s' z 1 [.general k] → s'.memory z = w → Q s') :
    img.wp ok (negateCode type (.general k)) Q s := by
  have haddress : img.memoryWords ≤ z → ok .address := fun hno => hfits.resolve_left (by omega)
  rw [negateCode, wp_append]
  refine wp_popCode hsp hz (fun _ => ?_) haddress
  refine wp_arith (fun w hw => ?_) (fun hw => ?_)
  · refine wp_pushCode (z := z) (by simp) hz
      (fun _ => h _ w (by simpa using hw) ⟨by simp, ?_, ?_⟩ (by simp)) haddress
    · intro q hq hused
      simp only [List.mem_cons, List.not_mem_nil, or_false] at hused
      simp [hq, hused]
    · intro a ha
      simpa using fun he : a = z => by omega
  · cases hk : numKind type <;> simp [hk, Word.arithmetic?] at hw

theorem wp_updateCode (hao : k ≠ o) (har : k ≠ r) (hor : o ≠ r)
    (hsp : s.registers .sp = .ofInt (z + 1)) (hz : Addressable z)
    (ha : s.registers (.general k) = .ofInt z') (hz' : Addressable z')
    (hfits : (z < img.memoryWords ∧ z' < img.memoryWords) ∨ ok .address)
    (h : ∀ s' w, Word.arithmetic? kind op (s.memory z') (s.memory z) = some w →
      s'.registers .sp = .ofInt (z + 1) →
      (∀ q, q ≠ .sp → q ≠ .general o → q ≠ .general r → s'.registers q = s.registers q) →
      s'.memory z = w → s'.memory z' = w → (∀ a, a ≠ z → a ≠ z' → s'.memory a = s.memory a) → Q s')
    (hno : Word.arithmetic? kind op (s.memory z') (s.memory z) = none → ok .division) :
    img.wp ok (updateCode kind op (.general k) (.general o) (.general r)) Q s := by
  have haddress : img.memoryWords ≤ z ∨ img.memoryWords ≤ z' → ok .address := fun hno =>
    hfits.resolve_left (by omega)
  rw [updateCode, wp_append]
  refine wp_popCode hsp hz (fun _ => ?_) (fun hno => haddress (.inl hno))
  refine wp_memRead (z := z') (by simp [hao, ha]) hz' (fun _ => ?_) (fun hno => haddress (.inr hno))
  refine wp_arith (fun w hw => ?_) (fun hw => hno (by simpa [hor] using hw))
  refine wp_memWrite (z := z') (by simp [hao, har, ha]) hz' (fun _ => ?_)
    (fun hno => haddress (.inr hno))
  refine wp_pushCode (z := z) (by simp) hz (fun _ => ?_) (fun hno => haddress (.inl hno))
  refine h _ w (by simpa [hor] using hw) (by simp) (fun q hsp ho hr => by simp [hsp, ho, hr])
    (by simp) (by simp)
    (fun a hne hne' => by simp [hne, hne'])

theorem wp_compareCode (hlr : l ≠ r) (hsp : s.registers .sp = .ofInt (z + 2))
    (hz : 0 ≤ z ∧ z + 2 ≤ 2 ^ 31) (hfits : z + 2 ≤ img.memoryWords ∨ ok .address)
    (h : ∀ s', s'.flags = some (Word.compare kind (s.memory z) (s.memory (z + 1))) →
      s.Pushes s' z 0 [.general l, .general r] → Q s') :
    img.wp ok (popCode (.general r) ++ popCode (.general l) ++
      [line (.cmp kind (.general l) (.register (.general r)))]) Q s := by
  have haddress : ∀ a : Int, img.memoryWords ≤ a → a < z + 2 → ok .address := fun a ha hlt =>
    hfits.resolve_left (by omega)
  rw [wp_append, wp_append]
  refine wp_popCode (z := z + 1) (by rw [hsp]; congr 1; omega) ⟨by omega, by omega⟩ (fun _ => ?_)
    (fun hno => haddress _ hno (by omega))
  refine wp_popCode (z := z) (by simp) ⟨by omega, by omega⟩ (fun _ => ?_)
    (fun hno => haddress _ hno (by omega))
  refine wp_cmp.mpr (h _ (by simp [Ne.symm hlr]) ⟨by simp, ?_, fun _ _ => rfl⟩)
  intro q hq hused
  simp only [List.mem_cons, List.not_mem_nil, or_false, not_or] at hused
  simp [hq, hused.1, hused.2]

theorem wp_zeroTest (hsp : s.registers .sp = .ofInt (z + 1)) (hz : Addressable z)
    (hfits : z < img.memoryWords ∨ ok .address)
    (h : ∀ s', s'.flags = some (Word.compare (numKind type) (s.memory z) 0) →
      s.Pushes s' z 0 [.general k] → Q s') :
    img.wp ok (popCode (.general k) ++ [line (zeroTest (.general k) type)]) Q s := by
  rw [wp_append]
  refine wp_popCode hsp hz (fun _ => ?_) (fun hno => hfits.resolve_left (by omega))
  refine wp_cmp.mpr (h _ (by simp) ⟨by simp, ?_, fun _ _ => rfl⟩)
  intro q hq hused
  simp only [List.mem_cons, List.not_mem_nil, or_false] at hused
  simp [hq, hused]

/-! ### Tests and jumps -/

namespace Closed

variable (hG : img.Closed ok G) (hp : img.Proper)
include hG hp

theorem pushRelation (compared : s.flags = some c) (hsp : s.registers .sp = .ofInt z)
    (hz : Addressable z)
    (hno : img.memoryWords ≤ z → ok .address) : img.Leads G (relationCode rel yes done)
      (fun s' => s.Pushes s' z 1 [] ∧ s'.memory z = if rel.holds c then 1 else 0) s := by
  intro pc here h
  have hyes : img.code.At (pc + 7) [.label yes] := here.tail.tail.tail.head
  have hdone : img.code.At (pc + 10) [.label done] := here.tail.tail.tail.tail.tail.head
  have hup : s.registers .sp + .ofNat 1 = .ofInt (z + 1) := by
    rw [hsp, ofInt_add_ofNat, Int.natCast_one]
  refine hG.branch hp here.head hyes compared (fun hc => ?_) (fun hc => ?_)
  · refine hG.run here.tail.tail.tail (wp_label.mpr (wp_memWrite hsp hz (fun _ => ?_) hno))
    simp only [line, increase, count, wp_label, wp_add, operand_word, Store.registers_write, hup]
    exact h _ ⟨Store.pushes_pushed, by simp [hc]⟩
  · refine hG.run here.tail.head (wp_memWrite hsp hz (fun _ => ?_) hno)
    refine hG.jump hp here.tail.tail.head hdone (hG.run here.tail.tail.tail.tail.tail ?_)
    simp only [line, increase, count, wp_label, wp_add, operand_word, Store.registers_write, hup]
    exact h _ ⟨Store.pushes_pushed, by simp [hc]⟩

theorem pushTest (hsp : s.registers .sp = .ofInt (z + 1)) (hz : Addressable z)
    (hfits : z < img.memoryWords ∨ ok .address) :
    img.Leads G (popCode (.general k) ++ [line (zeroTest (.general k) type)] ++
      relationCode rel yes done)
      (fun s' => s.Pushes s' z 1 [.general k] ∧
        s'.memory z =
          if rel.holds (Word.compare (numKind type) (s.memory z) 0) then 1 else 0) s := by
  refine (hG.leads (wp_zeroTest hsp hz hfits fun s₁ hflags hpop => And.intro hflags hpop)).append ?_
  rintro s₁ ⟨hflags, hpop⟩
  refine (hG.pushRelation hp hflags (by simpa using hpop.sp) hz fun hno =>
    hfits.resolve_left (by omega)).imp ?_
  exact fun s₂ h => ⟨hpop.trans h.1, h.2⟩

theorem pushComparison (hlr : l ≠ r) (hsp : s.registers .sp = .ofInt (z + 2))
    (hz : 0 ≤ z ∧ z + 2 ≤ 2 ^ 31) (hfits : z + 2 ≤ img.memoryWords ∨ ok .address) :
    img.Leads G (popCode (.general r) ++ popCode (.general l) ++
        [line (.cmp kind (.general l) (.register (.general r)))] ++ relationCode rel yes done)
      (fun s' => s.Pushes s' z 1 [.general l, .general r] ∧
        s'.memory z =
          if rel.holds (Word.compare kind (s.memory z) (s.memory (z + 1))) then 1 else 0) s := by
  refine (hG.leads (wp_compareCode hlr hsp hz hfits fun s₁ hflags hpop =>
    And.intro hflags hpop)).append ?_
  rintro s₁ ⟨hflags, hpop⟩
  refine (hG.pushRelation hp hflags (by simpa using hpop.sp) ⟨by omega, by omega⟩ fun hno =>
    hfits.resolve_left (by omega)).imp ?_
  exact fun s₂ h => ⟨hpop.trans h.1, h.2⟩

theorem test (here : img.code.At pc (testCode (.general k) type rel l))
    (target : img.code.At pc' [.label l])
    (hsp : s.registers .sp = .ofInt (z + 1)) (hz : Addressable z)
    (hfits : z < img.memoryWords ∨ ok .address) (taken : ∀ s', s.Pushes s' z 0 [.general k] →
      rel.holds (Word.compare (numKind type) (s.memory z) 0) = true → G ⟨pc', s'⟩)
    (passed : ∀ s', s.Pushes s' z 0 [.general k] →
      rel.holds (Word.compare (numKind type) (s.memory z) 0) = false →
      G ⟨pc + (testCode (.general k) type rel l).size, s'⟩) : G ⟨pc, s⟩ := by
  have hcode : testCode (.general k) type rel l =
      (popCode (.general k) ++ [line (zeroTest (.general k) type)]) ++
      [line (.branch rel (.label l))] := by
    simp [testCode]
  rw [hcode] at here
  refine hG.run here.left (wp_zeroTest hsp hz hfits fun s' hflags hpop => ?_)
  exact hG.branch hp here.right target hflags (taken s' hpop) (passed s' hpop)

theorem pushUndecided (here : img.code.At pc (logicCode op decided done))
    (hsp : s.registers .sp = .ofInt z) (hz : Addressable z)
    (h : G ⟨pc + (logicCode op decided done).size, s.pushed z (undecidedValue op)⟩)
    (hno : img.memoryWords ≤ z → ok .address) : G ⟨pc, s⟩ := by
  have hdone : img.code.At (pc + 8) [.label done] := here.tail.tail.tail.tail.head
  have hup : s.registers .sp + .ofNat 1 = .ofInt (z + 1) := by
    rw [hsp, ofInt_add_ofNat, Int.natCast_one]
  refine hG.run here.head (wp_memWrite hsp hz (fun _ => ?_) hno)
  refine hG.jump hp here.tail.head hdone (hG.run here.tail.tail.tail.tail ?_)
  simp only [line, increase, count, wp_label, wp_add, operand_word, Store.registers_write, hup]
  exact h

omit hp in
theorem pushDecided (here : img.code.At pc (logicCode op decided done))
    (hsp : s.registers .sp = .ofInt z) (hz : Addressable z)
    (h : G ⟨pc + (logicCode op decided done).size, s.pushed z (decidedValue op)⟩)
    (hno : img.memoryWords ≤ z → ok .address) : G ⟨pc + 5, s⟩ := by
  have hup : s.registers .sp + .ofNat 1 = .ofInt (z + 1) := by
    rw [hsp, ofInt_add_ofNat, Int.natCast_one]
  refine hG.run here.tail.tail (wp_label.mpr (wp_memWrite hsp hz (fun _ => ?_) hno))
  simp only [line, increase, count, wp_label, wp_add, operand_word, Store.registers_write, hup]
  exact h

/-- Both operands of `and` or `or` where they are needed, and the result. `P` and `R` say what the
code for an operand leaves, with its word on the stack at `z`. -/
theorem logic {P R : Store → Prop} (hleft : img.Leads G left P s)
    (hP : ∀ s₁, P s₁ → s₁.registers .sp = .ofInt (z + 1))
    (hright : ∀ s₁ s₂, P s₁ → s₁.Pushes s₂ z 0 [.general k] →
      (deciding op).holds (Word.compare (numKind a) (s₁.memory z) 0) = false →
      img.Leads G right R s₂) (hR : ∀ s₁, R s₁ → s₁.registers .sp = .ofInt (z + 1))
    (hz : Addressable z) (hfits : z < img.memoryWords ∨ ok .address)
    (first : ∀ s₁ s₂, P s₁ → s₁.Pushes s₂ z 0 [.general k] →
      (deciding op).holds (Word.compare (numKind a) (s₁.memory z) 0) = true →
      Q (s₂.pushed z (decidedValue op))) (second : ∀ s₁ s₂, R s₁ → s₁.Pushes s₂ z 0 [.general k] →
      (deciding op).holds (Word.compare (numKind b) (s₁.memory z) 0) = true →
      Q (s₂.pushed z (decidedValue op))) (neither : ∀ s₁ s₂, R s₁ → s₁.Pushes s₂ z 0 [.general k] →
      (deciding op).holds (Word.compare (numKind b) (s₁.memory z) 0) = false →
      Q (s₂.pushed z (undecidedValue op))) :
    img.Leads G (left ++ testCode (.general k) a (deciding op) l ++
      (right ++ testCode (.general k) b (deciding op) l) ++ logicCode op l done) Q s := by
  intro pc here h
  have hsp : ∀ {s₁ s₂ : Store}, s₁.Pushes s₂ z 0 [.general k] →
      s₂.registers .sp = .ofInt z := fun hpop => by
    simpa using hpop.sp
  have hno : img.memoryWords ≤ z → ok .address := fun hno => hfits.resolve_left (by omega)
  simp only [List.append_assoc] at here
  simp only [Assembly.size_append, ← Nat.add_assoc] at h
  have hend := here.right.right.right.right
  have htarget := hend.tail.tail.head
  refine hleft pc here.left fun s₁ h₁ => ?_
  refine hG.test hp here.right.left htarget (hP s₁ h₁) hz hfits (fun s₂ hpop hd => ?_)
    (fun s₂ hpop hd => ?_)
  · exact hG.pushDecided hend (hsp hpop) hz (h _ (first s₁ s₂ h₁ hpop hd)) hno
  refine hright s₁ s₂ h₁ hpop hd _ here.right.right.left fun s₃ h₃ => ?_
  refine hG.test hp here.right.right.right.left htarget (hR s₃ h₃) hz hfits (fun s₄ hpop hd => ?_)
    (fun s₄ hpop hd => ?_)
  · exact hG.pushDecided hend (hsp hpop) hz (h _ (second s₃ s₄ h₃ hpop hd)) hno
  · exact hG.pushUndecided hp hend (hsp hpop) hz (h _ (neither s₃ s₄ h₃ hpop hd)) hno

theorem ifThen {P : Store → Prop} (htest : img.Leads G testing P s)
    (hP : ∀ s₁, P s₁ → s₁.registers .sp = .ofInt (z + 1)) (hz : Addressable z)
    (hfits : z < img.memoryWords ∨ ok .address)
    (hyes : ∀ s₁ s₂, P s₁ → s₁.Pushes s₂ z 0 [.general k] →
      Relation.equal.holds (Word.compare (numKind type) (s₁.memory z) 0) = false →
      img.Leads G yes Q s₂) (hno : ∀ s₁ s₂, P s₁ → s₁.Pushes s₂ z 0 [.general k] →
      Relation.equal.holds (Word.compare (numKind type) (s₁.memory z) 0) = true → Q s₂) :
    img.Leads G (testing ++ testCode (.general k) type .equal l ++ yes ++ [.label l]) Q s := by
  intro pc here h
  simp only [List.append_assoc] at here
  simp only [Assembly.size_append, ← Nat.add_assoc] at h
  refine htest pc here.left fun s₁ h₁ => ?_
  refine hG.test hp here.right.left here.right.right.right (hP s₁ h₁) hz hfits
    (fun s₂ hpop hd => ?_) (fun s₂ hpop hd => ?_)
  · exact h s₂ (hno s₁ s₂ h₁ hpop hd)
  · exact hyes s₁ s₂ h₁ hpop hd _ here.right.right.left fun s₃ h₃ => h s₃ h₃

theorem ifThenElse {P : Store → Prop} (htest : img.Leads G testing P s)
    (hP : ∀ s₁, P s₁ → s₁.registers .sp = .ofInt (z + 1)) (hz : Addressable z)
    (hfits : z < img.memoryWords ∨ ok .address)
    (hyes : ∀ s₁ s₂, P s₁ → s₁.Pushes s₂ z 0 [.general k] →
      Relation.equal.holds (Word.compare (numKind type) (s₁.memory z) 0) = false →
      img.Leads G yes Q s₂) (hno : ∀ s₁ s₂, P s₁ → s₁.Pushes s₂ z 0 [.general k] →
      Relation.equal.holds (Word.compare (numKind type) (s₁.memory z) 0) = true →
      img.Leads G no Q s₂) :
    img.Leads G (testing ++ testCode (.general k) type .equal l ++ yes ++
      line (.jmp (labelled done)) :: .label l :: no ++ [.label done]) Q s := by
  intro pc here h
  simp only [List.append_assoc, List.cons_append] at here
  simp only [Assembly.size_append, Assembly.size_cons, ← Nat.add_assoc] at h
  have hother := here.right.right.right.tail.head
  have hend := here.right.right.right.tail.tail.right
  refine htest pc here.left fun s₁ h₁ => ?_
  refine hG.test hp here.right.left hother (hP s₁ h₁) hz hfits (fun s₂ hpop hd => ?_)
    (fun s₂ hpop hd => ?_)
  · exact hno s₁ s₂ h₁ hpop hd _ here.right.right.right.tail.tail.left fun s₃ h₃ => h s₃ h₃
  · refine hyes s₁ s₂ h₁ hpop hd _ here.right.right.left fun s₃ h₃ => ?_
    exact hG.jump hp here.right.right.right.head hend (h s₃ h₃)

theorem loop {P R : Store → Prop} (here : img.code.At pc (.label start ::
      (testing ++ testCode (.general k) type .equal done ++ repeated ++
      [line (.jmp (labelled start)), .label done]))) (htest : img.Leads G testing P s)
    (hP : ∀ s₁, P s₁ → s₁.registers .sp = .ofInt (z + 1)) (hz : Addressable z)
    (hfits : z < img.memoryWords ∨ ok .address)
    (hround : ∀ s₁ s₂, P s₁ → s₁.Pushes s₂ z 0 [.general k] →
      Relation.equal.holds (Word.compare (numKind type) (s₁.memory z) 0) = false →
      img.Leads G repeated R s₂) (hagain : ∀ s₃, R s₃ → ∀ x, img.Step x ⟨pc, s₃⟩ → G x)
    (hpast : ∀ s₁ s₂, P s₁ → s₁.Pushes s₂ z 0 [.general k] →
      Relation.equal.holds (Word.compare (numKind type) (s₁.memory z) 0) = true →
      G ⟨pc + Assembly.size (.label start ::
        (testing ++ testCode (.general k) type .equal done ++ repeated ++
        [line (.jmp (labelled start)), .label done])), s₂⟩) : G ⟨pc, s⟩ := by
  have hstart := here.head
  simp only [List.append_assoc] at here
  simp only [Assembly.size_append, Assembly.size_cons, ← Nat.add_assoc] at hpast
  have hrest := here.tail
  have hend := hrest.right.right.right.tail
  refine htest pc hrest.left fun s₁ h₁ => ?_
  refine hG.test hp hrest.right.left hend (hP s₁ h₁) hz hfits (fun s₂ hpop hd => ?_)
    (fun s₂ hpop hd => ?_)
  · exact hpast s₁ s₂ h₁ hpop hd
  · refine hround s₁ s₂ h₁ hpop hd _ hrest.right.right.left fun s₃ h₃ => hagain s₃ h₃ _ ?_
    refine .jump hrest.right.right.right.head (hp.labels pc _ hstart) ?_
    have := hstart.size_le
    omega

theorem enter (here : img.code.At pc (enterCode back f)) (callee : img.code.At pc' [.label f.label])
    (hsp : s.registers .sp = .ofInt z) (hz : Addressable z) (h : z < img.memoryWords →
      ∀ x, img.Step x ⟨pc', s.pushed z (.ofNat (pc + (enterCode back f).size))⟩ → G x)
    (hno : img.memoryWords ≤ z → ok .address) : G ⟨pc, s⟩ := by
  have hback : img.value back = .ofNat (pc + 8) := hp.labels _ _ here.tail.tail.tail.head
  have hpush : img.code.At pc [line (.memWrite .sp (labelled back)),
    line (increase .sp (word 1))] :=
    here.left (y := [_, _])
  refine hG.run hpush (wp_push hsp hz (fun hlt => ?_) hno)
  rw [operand_labelled, hback]
  refine h hlt _ (.jump here.tail.tail.head (hp.labels pc' _ callee) ?_)
  have := callee.size_le
  omega

omit hp in
/-- Out of a function that was entered with `sp` at `b`, to the return address below. -/
theorem leave (here : img.code.At pc (leaveCode depth (.general k)))
    (hsp : s.registers .sp = .ofInt (b + depth)) (hb : Addressable (b - 1))
    (hback : s.memory (b - 1) = .ofNat pc') (inside : pc' ≤ img.code.size)
    (h : ∀ s', s'.registers .sp = .ofInt (b - 1) →
      (∀ r, r ≠ .sp → r ≠ .general k → s'.registers r = s.registers r) →
      s'.memory = s.memory → G ⟨pc', s'⟩)
    (hno : img.memoryWords ≤ b - 1 → ok .address) : G ⟨pc, s⟩ := by
  have hcode : leaveCode depth (.general k) =
      [line (.mov (.general k) (.register .sp)),
        line (decrease (.general k) (word (.ofInt (depth + 1)))),
        line (.memRead (.general k) (.general k)),
        line (decrease .sp (word (.ofInt (depth + 1))))] ++
        [line (.jmp (.register (.general k)))] := rfl
  have hdown : s.registers .sp - .ofInt (depth + 1) = .ofInt (b - 1) := by
    rw [hsp, ← Int32.ofInt_sub]
    congr 1
    omega
  rw [hcode] at here
  refine hG.run here.left ?_
  simp only [line, decrease, wp_mov, wp_sub, operand_register, operand_word,
    Store.registers_set, ↓reduceIte, Store.set_set, hdown]
  refine wp_memRead (z := b - 1) (by simp) hb (fun _ => ?_) hno
  simp only [wp_sub, operand_word, Store.set_set, Store.registers_set, reduceCtorEq, ↓reduceIte,
    hdown, wp_nil]
  have hto : s.memory (b - 1) = .ofNat pc' →
    ∀ s' : Store, s'.registers (.general k) = s.memory (b - 1) →
      img.operand s' (.register (.general k)) = .ofNat pc' := fun hm s' hr => hr.trans hm
  refine hG.step _ _ (.jump here.right (hto hback _ (by simp)) inside) (h _ (by simp) ?_ rfl)
  intro r hr hk
  simp [hr, hk]

end Closed

theorem wp_resultCode (htr : n ≠ 0 → t ≠ r) (hsp : s.registers .sp = .ofInt z)
    (hz : 0 ≤ z - n ∧ z ≤ 2 ^ 31) (hslot : n ≠ 0 → 0 ≤ z + slot ∧ z + slot + n ≤ 2 ^ 31)
    (hfits : n ≠ 0 → (z + slot + n ≤ img.memoryWords ∧ z ≤ img.memoryWords) ∨ ok .address)
    (h : ∀ s', s'.registers .sp = .ofInt z → s'.memory = copied s.memory (z + slot) (z - n) n →
      Q s') :
    img.wp ok (resultCode slot n (.general t) (.general r)) Q s := by
  by_cases hn : n = 0
  · subst hn
    simpa [resultCode] using h s hsp rfl
  · have hdown : s.registers .sp - .ofNat n = .ofInt (z - n) := by rw [hsp, ofInt_sub_ofNat]
    have hup : s.registers .sp + .ofInt slot = .ofInt (z + slot) := by rw [hsp, Int32.ofInt_add]
    simp only [resultCode, hn, ↓reduceIte, noted, line, increase, decrease, count, wp_mov,
      wp_add, wp_sub,
      operand_register, operand_word, Store.registers_set, Store.set_set, reduceCtorEq, hup, hdown]
    have htr := htr hn
    refine wp_copyWords (by simpa using htr) ?_ (Store.registers_set.trans (if_pos rfl))
      (hslot hn) (by omega)
      ((hfits hn).imp_left fun h => by omega) (h _ ?_ rfl)
    · simp [htr]
    · simpa using hsp

end Image

end WordScript
