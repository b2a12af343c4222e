import WordScript.Proofs.Typing

/-!
# Declared tables are sound

The tables of structs and functions that a program's declarations make. Structs have different
names, a field stored by value has a struct declared before, and fields stay inside their struct.
Methods and no other functions have a receiver.
-/

namespace WordScript

namespace Structs

structure Sound (s : Structs) : Prop where
  declared : ∀ t ∈ s.entries, t.declared = true
  named : ∀ t ∈ s.entries, t.name ≠ ""
  distinct : (s.entries.map (·.name)).Nodup
  known : ∀ t ∈ s.entries, ∀ f ∈ t.fields, ∀ id, f.type = .struct id → id < s.entries.length
  fit : ∀ t ∈ s.entries, ∀ f ∈ t.fields, f.offset + s.words f.type ≤ t.words

/-! ### Types of one size -/

@[simp] theorem words_void (s : Structs) : s.words .void = 0 := rfl

@[simp] theorem words_int (s : Structs) : s.words .int = 1 := rfl

@[simp] theorem words_float (s : Structs) : s.words .float = 1 := rfl

@[simp] theorem words_reference (s : Structs) (t : ValueType) : s.words (.reference t) = 1 := rfl

theorem words_of_isNumber {s : Structs} {t : ValueType} (h : t.isNumber = true) :
    s.words t = 1 := by
  cases t <;> simp_all [ValueType.isNumber]

theorem nameOf_inj {s : Structs} (hs : s.Sound) (h : s.nameOf a = s.nameOf b) :
    s.words (.struct a) = s.words (.struct b) := by
  simp only [nameOf, get?, words] at *
  cases ha : s.entries[a]? <;> cases hb : s.entries[b]? <;> simp only [ha, hb, Option.elim] at h ⊢
  · exact absurd h.symm (hs.named _ (List.mem_of_getElem? hb))
  · exact absurd h (hs.named _ (List.mem_of_getElem? ha))
  · next t u =>
    obtain ⟨hal, hat⟩ := List.getElem?_eq_some_iff.mp ha
    obtain ⟨hbl, hbt⟩ := List.getElem?_eq_some_iff.mp hb
    have hab : a = b := by
      have hnames : (s.entries.map (·.name))[a]? = (s.entries.map (·.name))[b]? := by
        simp [ha, hb, h]
      exact (List.getElem?_inj (by simpa using hal) hs.distinct).mp hnames
    subst hab
    simp_all

theorem words_of_same {s : Structs} (hs : s.Sound) {a b : ValueType} (h : s.same a b = true) :
    s.words a = s.words b := by
  cases a <;> cases b <;> simp [same] at h <;> simp [words]
  exact nameOf_inj hs h

/-- A value that is accepted at a place has its size. -/
theorem words_of_accepts {s : Structs} (hs : s.Sound) {place value : ValueType}
    (h : s.accepts place value = true) : s.words place = s.words value := by
  simp only [accepts, Bool.or_eq_true] at h
  rcases h with h | h
  · exact words_of_same hs h
  · split at h <;> simp_all [words]

/-! ### Adding a struct -/

theorem words_append {s : Structs} {t : StructType} {type : ValueType}
    (h : ∀ id, type = .struct id → id < s.entries.length) :
    (⟨s.entries ++ [t]⟩ : Structs).words type = s.words type := by
  cases type with
  | struct id => simp [words, get?, List.getElem?_append_left (h id rfl)]
  | _ => rfl

theorem layOut_fit {s : Structs} {fields : List (String × ValueType)}
    (hf : f ∈ s.layOut offset fields) : (f.name, f.type) ∈ fields ∧
      f.offset + s.words f.type ≤ offset + s.totalWords (fields.map Prod.snd) := by
  induction fields generalizing offset with
  | nil => simp [layOut] at hf
  | cons field rest ih =>
    obtain ⟨name, type⟩ := field
    simp only [layOut, List.mem_cons] at hf
    rcases hf with rfl | hf
    · simp only [List.mem_cons, true_or, List.map_cons, totalWords, true_and]
      omega
    · obtain ⟨hm, hw⟩ := ih hf
      simp only [List.mem_cons, hm, or_true, List.map_cons, totalWords, true_and]
      omega

theorem references_struct {base : ValueType} {id : Nat} (h : base.references n = .struct id) :
    base = .struct id := by
  cases n with
  | zero => exact h
  | succ n => simp [ValueType.references] at h

theorem resolve_known {s : Structs} {id : Nat} (h : s.resolve t = .ok (.struct id)) :
    id < s.entries.length := by
  have hbase : s.baseType? t.name = some (.struct id) := by
    simp only [resolve] at h
    split at h
    · simp at h
    · split at h <;> simp at h
    · next base _ hb =>
      rw [Except.ok.injEq] at h
      rw [hb, references_struct h]
  simp only [baseType?] at hbase
  split at hbase <;> simp [find?, List.findIdx?_eq_some_iff_getElem] at hbase
  obtain ⟨h, _⟩ := hbase
  exact h

theorem declareFields_known {s : Structs} (hs : s.entries.length = self + 1)
    (hb : ∀ field ∈ before, ∀ id, field.2 = .struct id → id < self)
    (h : s.declareFields self name before decls = .ok fields) :
    ∀ field ∈ fields, ∀ id, field.2 = .struct id → id < self := by
  induction decls generalizing before with
  | nil =>
    simp only [declareFields, Except.ok.injEq] at h
    exact h ▸ hb
  | cons decl decls ih =>
    obtain ⟨type, field⟩ := decl
    simp only [declareFields, refuse_eq_ok, bind_eq_ok, mapError_eq_ok] at h
    obtain ⟨_, type, ht, hself, _, h⟩ := h
    refine ih ?_ h
    simp only [List.mem_append, List.mem_singleton]
    rintro field (hf | rfl) id hid
    · exact hb field hf id hid
    · simp only at hid
      subst hid
      have hlt := resolve_known ht
      have hne : id ≠ self := fun he => hself (by rw [he])
      omega

theorem sound_empty : empty.Sound where
  declared := by simp [empty]
  named := by simp [empty]
  distinct := by simp [empty]
  known := by simp [empty]
  fit := by simp [empty]

theorem declare_sound {s s' : Structs} (hs : s.Sound) (hn : decl.name.text ≠ "")
    (h : s.declare decl = .ok s') : s'.Sound := by
  simp only [declare, refuse_eq_ok, bind_eq_ok, pure_eq_ok] at h
  obtain ⟨hnew, fields, hfields, rfl⟩ := h
  have hknown := declareFields_known (by simp) (by simp) hfields
  have hlay : ∀ f ∈ s.layOut 0 fields, ∀ id, f.type = .struct id → id < s.entries.length :=
    fun f hf id hid => hknown _ (layOut_fit hf).1 id hid
  have hfresh : ∀ t ∈ s.entries, t.name ≠ decl.name.text := by
    intro t ht he
    refine hnew ?_
    simp only [find?, List.findIdx?_isSome, List.any_eq_true]
    exact ⟨t, ht, by simp [hs.declared t ht, he]⟩
  constructor <;> simp only [List.mem_append, List.mem_singleton]
  · rintro t (ht | rfl)
    · exact hs.declared t ht
    · rfl
  · rintro t (ht | rfl)
    · exact hs.named t ht
    · exact hn
  · rw [List.map_append, List.nodup_append]
    refine ⟨hs.distinct, by simp, ?_⟩
    rintro a ha b hb rfl
    obtain ⟨t, ht, rfl⟩ := List.mem_map.mp ha
    simp only [List.map_cons, List.map_nil, List.mem_singleton] at hb
    exact hfresh t ht hb
  · rintro t (ht | rfl) f hf id hid
    · have := hs.known t ht f hf id hid
      simp; omega
    · have := hlay f hf id hid
      simp; omega
  · rintro t (ht | rfl) f hf
    · rw [words_append (hs.known t ht f hf)]
      exact hs.fit t ht f hf
    · rw [words_append (hlay f hf)]
      simpa [build] using (layOut_fit hf).2

theorem ofDecls_sound {decls : List StructDecl} (hn : ∀ d ∈ decls, d.name.text ≠ "")
    (h : ofDecls decls = .ok s) : s.Sound :=
  foldlM_keeps (fun d hd _ _ hs h => declare_sound hs (hn d hd) h) sound_empty h

end Structs

/-! ### Functions -/

namespace Functions

/-- A method's receiver is a reference to its struct; other functions have none. -/
inductive ReceiverFits : FunctionName → Option ValueType → Prop
  | free {name : String} : ReceiverFits (.free name) none
  | method {owner name : String} {id : Nat} :
      ReceiverFits (.method owner name) (some (.reference (.struct id)))

def All (f : Functions) (P : FunctionName → Signature → Prop) : Prop :=
  ∀ name signature, f.get? name = some signature → P name signature

def Sound (f : Functions) : Prop :=
  ∀ name signature, f.get? name = some signature → ReceiverFits name signature.receiver

theorem get?_append {f : Functions}
    (h : (⟨f.entries ++ [(name, signature)]⟩ : Functions).get? n = some t) :
    f.get? n = some t ∨ n = name ∧ t = signature := by
  simp only [get?, List.lookup_append, Option.or_eq_some_iff] at h
  rcases h with h | ⟨_, h⟩
  · exact .inl h
  · simp only [List.lookup_cons, List.lookup_nil] at h
    split at h
    · next hn => exact .inr ⟨by simpa using hn, by simpa using h.symm⟩
    · simp at h

section
variable {P : FunctionName → Signature → Prop} {f f' : Functions}

theorem declare_all (hf : f.All P) (hP : ∀ params returns,
      declareParams structs receiver.isSome [] decl.params = .ok params →
      P name ⟨params, returns, receiver⟩)
    (h : f.declare structs name receiver decl = .ok f') : f'.All P := by
  simp only [declare, refuse_eq_ok, bind_eq_ok, mapError_eq_ok, pure_eq_ok] at h
  obtain ⟨_, returns, _, params, hparams, rfl⟩ := h
  intro n signature hn
  rcases get?_append hn with hn | ⟨rfl, rfl⟩
  · exact hf n signature hn
  · exact hP params returns hparams

/-- What holds of each function as it is declared holds of all functions of a program. -/
theorem ofProgram_all (hP : ∀ name receiver decls params returns, ReceiverFits name receiver →
      declareParams structs receiver.isSome [] decls = .ok params →
      P name ⟨params, returns, receiver⟩) (h : ofProgram structs p = .ok f) : f.All P := by
  simp only [ofProgram, bind_eq_ok] at h
  obtain ⟨g, hg, h⟩ := h
  have hempty : empty.All P := by
    intro name signature h
    simp [empty, get?] at h
  have hfree : g.All P :=
    foldlM_keeps (P := (·.All P)) (fun d _ _ _ hf h =>
      declare_all hf (fun _ _ => hP _ _ _ _ _ .free) h) hempty hg
  refine foldlM_keeps (P := (·.All P)) (fun d _ f f' hf h => ?_) hfree h
  simp only [declareMethods] at h
  split at h
  · simp at h
  · exact foldlM_keeps (P := (·.All P)) (fun m _ _ _ hf h =>
      declare_all hf (fun _ _ => hP _ _ _ _ _ .method) h) hf h

end

theorem ofProgram_sound (h : ofProgram structs p = .ok f) : f.Sound :=
  ofProgram_all (P := fun name signature => ReceiverFits name signature.receiver)
    (fun _ _ _ _ _ fits _ => fits) h

theorem Sound.receiver_words {f : Functions} (h : f.Sound) (hget : f.get? name = some s)
    (structs : Structs) : ∀ type, s.receiver = some type → structs.words type = 1 := by
  intro type htype
  have hfits := h name s hget
  rw [htype] at hfits
  cases hfits
  rfl

theorem declareParams_distinct {isMethod : Bool} {before params : List (String × ValueType)}
    {decls : List (TypeName × Name)}
    (hb : (before.map Prod.fst).Nodup ∧ (isMethod = true → "this" ∉ before.map Prod.fst))
    (h : declareParams structs isMethod before decls = .ok params) :
    (params.map Prod.fst).Nodup ∧ (isMethod = true → "this" ∉ params.map Prod.fst) := by
  induction decls generalizing before with
  | nil =>
    obtain rfl : before = params := by simpa [declareParams] using h
    exact hb
  | cons decl decls ih =>
    obtain ⟨type, name⟩ := decl
    simp only [declareParams, refuse_eq_ok, bind_eq_ok, Bool.or_eq_true, not_or] at h
    obtain ⟨⟨hnew, hthis⟩, type, _, h⟩ := h
    have hfresh : name.text ∉ before.map Prod.fst := by simpa using hnew
    refine ih ⟨?_, fun hm => ?_⟩ h
    · rw [List.map_append, List.nodup_append]
      exact ⟨hb.1, by simp, by rintro a ha b hb rfl; simp_all⟩
    · have hname : name.text ≠ "this" := by simpa [hm] using hthis
      simpa [hname.symm] using hb.2 hm

end Functions

end WordScript
