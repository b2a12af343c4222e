import WordScript.Parser.Program
import WordScript.Proofs.Declared

/-!
# The layout of structs

A struct stores by value only what was declared before it, so no struct contains itself, not even
through others, and the size of every type can be found by following its fields. Fields lie next to
each other in the order of their declaration. Hence whatever two paths of field names lead to lies
apart, unless one of them goes on where the other ends (`ofDecls_laidOut`).
-/

namespace WordScript

/-- What every step keeps of the elements taken so far, a whole fold keeps of all of them. -/
theorem foldlM_history {f : β → α → Except ε β} {P : List α → β → Prop}
    {before l : List α} {b b' : β}
    (hstep : ∀ before a b b', P before b → f b a = .ok b' → P (before ++ [a]) b') (hb : P before b)
    (h : l.foldlM f b = .ok b') : P (before ++ l) b' := by
  induction l generalizing before b with
  | nil => simpa [pure_eq_ok.mp h] using hb
  | cons a l ih =>
    rw [List.foldlM_cons, bind_eq_ok] at h
    obtain ⟨t, ht, h⟩ := h
    simpa using ih (hstep before a b t hb ht) h

namespace Structs

/-! ### Following fields -/

/-- A field of the struct number `outer` stores the struct number `inner` by value. -/
def Contains (s : Structs) (outer inner : Nat) : Prop :=
  ∃ t, s.get? outer = some t ∧ ∃ f ∈ t.fields, f.type = .struct inner

/-- The words of a type, found by following fields to no more than this depth. -/
def measure? (s : Structs) : Nat → ValueType → Option Nat
  | 0, _ => none
  | depth + 1, type =>
    match type with
    | .void => some 0
    | .int | .float | .ptr | .reference _ => some 1
    | .struct id => do
      let t ← s.get? id
      t.fields.foldlM (fun total f => (s.measure? depth f.type).map (total + ·)) 0

/-- Where the field names lead to from the start of a value, through structs stored by value: an
offset and what is there. -/
def access? (s : Structs) : ValueType → List String → Option (Nat × ValueType)
  | type, [] => some (0, type)
  | type, name :: path =>
    match type with
    | .struct id => do
      let f ← (← s.get? id).field? name
      let there ← s.access? f.type path
      return (f.offset + there.1, there.2)
    | _ => none

/-- The fields cover the words from `start` to `stop`, each one from where the one before it ends.
-/
def Tiles (s : Structs) : Nat → List Field → Nat → Prop
  | start, [], stop => start = stop
  | start, f :: rest, stop => f.offset = start ∧ s.Tiles (start + s.words f.type) rest stop

variable {s : Structs} {fields : List Field} {start stop : Nat}

theorem access?_cons {id : Nat} {o : Nat} {type : ValueType}
    (h : s.access? (.struct id) (name :: path) = some (o, type)) :
    ∃ t f o', s.get? id = some t ∧ t.field? name = some f ∧
      s.access? f.type path = some (o', type) ∧ o = f.offset + o' := by
  simp only [access?, Option.bind_eq_bind, Option.bind_eq_some_iff] at h
  obtain ⟨t, ht, f, hf, ⟨o', type'⟩, hrest, h⟩ := h
  cases h
  exact ⟨t, f, o', ht, hf, hrest, rfl⟩

theorem field?_mem {t : StructType} {f : Field} (hf : t.field? name = some f) :
    f ∈ t.fields ∧ f.name = name :=
  ⟨List.mem_of_find?_eq_some hf, by simpa using List.find?_some hf⟩

theorem find?_name {fields : List Field} {f : Field} (distinct : (fields.map Field.name).Nodup)
    (hf : f ∈ fields) : fields.find? (·.name == f.name) = some f := by
  induction fields with
  | nil => cases hf
  | cons first rest ih =>
    rw [List.map_cons, List.nodup_cons] at distinct
    rcases List.mem_cons.mp hf with rfl | inRest
    · simp
    · have hne : first.name ≠ f.name := fun heq => distinct.1 (heq ▸ List.mem_map_of_mem inRest)
      simpa [List.find?_cons, hne] using ih distinct.2 inRest

theorem access?_struct {o : Nat} {type whole : ValueType}
    (h : s.access? whole (name :: path) = some (o, type)) : ∃ id, whole = .struct id := by
  cases whole with
  | struct id => exact ⟨id, rfl⟩
  | _ => cases h

/-! ### Fields next to each other -/

namespace Tiles

theorem congr {s' : Structs} (h : s.Tiles start fields stop)
    (same : ∀ f ∈ fields, s'.words f.type = s.words f.type) : s'.Tiles start fields stop := by
  induction fields generalizing start with
  | nil => exact h
  | cons f rest ih =>
    refine ⟨h.1, ?_⟩
    rw [same f List.mem_cons_self]
    exact ih h.2 fun g hg => same g (List.mem_cons_of_mem f hg)

theorem mem (h : s.Tiles start fields stop) :
    start ≤ stop ∧ ∀ f ∈ fields, start ≤ f.offset ∧ f.offset + s.words f.type ≤ stop := by
  induction fields generalizing start with
  | nil => exact ⟨Nat.le_of_eq h, by simp⟩
  | cons f rest ih =>
    obtain ⟨rfl, h⟩ := h
    obtain ⟨hle, hrest⟩ := ih h
    refine ⟨by omega, fun g hg => ?_⟩
    rcases List.mem_cons.mp hg with rfl | hg
    · exact ⟨Nat.le_refl _, hle⟩
    · have := hrest g hg
      omega

theorem apart {f g : Field} (h : s.Tiles start fields stop) (hf : f ∈ fields) (hg : g ∈ fields)
    (hne : f ≠ g) :
    f.offset + s.words f.type ≤ g.offset ∨ g.offset + s.words g.type ≤ f.offset := by
  induction fields generalizing start with
  | nil => cases hf
  | cons first rest ih =>
    obtain ⟨rfl, h⟩ := h
    rcases List.mem_cons.mp hf with rfl | inRest <;> rcases List.mem_cons.mp hg with rfl | inRest'
    · exact absurd rfl hne
    · exact .inl (h.mem.2 g inRest').1
    · exact .inr (h.mem.2 f inRest).1
    · exact ih h inRest inRest'

theorem foldlM {size : ValueType → Option Nat} (h : s.Tiles start fields stop)
    (hsize : ∀ f ∈ fields, size f.type = some (s.words f.type)) :
    fields.foldlM (fun total f => (size f.type).map (total + ·)) start = some stop := by
  induction fields generalizing start with
  | nil => exact congrArg some h
  | cons f rest ih =>
    rw [List.foldlM_cons, hsize f List.mem_cons_self]
    exact ih h.2 fun g hg => hsize g (List.mem_cons_of_mem f hg)

end Tiles

theorem tiles_layOut (s : Structs) (start : Nat) (fields : List (String × ValueType)) :
    s.Tiles start (s.layOut start fields) (start + s.totalWords (fields.map Prod.snd)) := by
  induction fields generalizing start with
  | nil => rfl
  | cons field rest ih =>
    refine ⟨rfl, ?_⟩
    have hrest := ih (start + s.words field.2)
    rw [Nat.add_assoc] at hrest
    exact hrest

/-! ### Tables in the order of declaration -/

/-- The entries are the declared structs in order, and so are their fields. What a struct stores by
value comes before it, and its fields tile it. -/
structure Ordered (decls : List StructDecl) (s : Structs) : Prop where
  names : s.entries.map (·.name) = decls.map (·.name.text)
  fields : s.entries.map (·.fields.map Field.name) = decls.map (·.fields.map (·.2.text))
  distinct : ∀ t ∈ s.entries, (t.fields.map Field.name).Nodup
  earlier : ∀ id t, s.get? id = some t →
    ∀ f ∈ t.fields, ∀ inner, f.type = .struct inner → inner < id
  tiles : ∀ t ∈ s.entries, s.Tiles 0 t.fields t.words

theorem declareFields_names {decls : List (TypeName × Name)}
    {before declared : List (String × ValueType)}
    (hb : (before.map Prod.fst).Nodup) (h : s.declareFields self name before decls = .ok declared) :
    declared.map Prod.fst = before.map Prod.fst ++ decls.map (·.2.text) ∧
    (declared.map Prod.fst).Nodup := by
  induction decls generalizing before with
  | nil =>
    obtain rfl : before = declared := by simpa [declareFields] using h
    exact ⟨by simp, hb⟩
  | cons decl decls ih =>
    obtain ⟨written, field⟩ := decl
    simp only [declareFields, refuse_eq_ok, bind_eq_ok, mapError_eq_ok] at h
    obtain ⟨hnew, type, -, -, -, h⟩ := h
    have hfresh : field.text ∉ before.map Prod.fst := by simpa using hnew
    obtain ⟨hnames, hdistinct⟩ := ih (by
      rw [List.map_append, List.nodup_append]
      exact ⟨hb, by simp, by rintro a ha b hb rfl; simp_all⟩) h
    exact ⟨by simpa using hnames, hdistinct⟩

theorem map_layOut (s : Structs) (start : Nat) (fields : List (String × ValueType)) :
    (s.layOut start fields).map Field.name = fields.map Prod.fst := by
  induction fields generalizing start with
  | nil => rfl
  | cons field rest ih => exact congrArg (field.1 :: ·) (ih _)

theorem ordered_empty : empty.Ordered [] where
  names := rfl
  fields := rfl
  distinct := by simp [empty]
  earlier := by simp [empty, get?]
  tiles := by simp [empty]

namespace Ordered

variable {decls : List StructDecl}

theorem known (h : s.Ordered decls) {t : StructType} (ht : t ∈ s.entries) {f : Field}
    (hf : f ∈ t.fields) : ∀ inner, f.type = .struct inner → inner < s.entries.length := by
  intro inner hinner
  obtain ⟨id, hid⟩ := List.getElem?_of_mem ht
  have hlt := (List.getElem?_eq_some_iff.mp hid).1
  exact Nat.lt_trans (h.earlier id t hid f hf inner hinner) hlt

theorem declare {s' : Structs} (h : s.Ordered decls) (hs : s.declare decl = .ok s') :
    s'.Ordered (decls ++ [decl]) := by
  simp only [Structs.declare, refuse_eq_ok, bind_eq_ok, pure_eq_ok] at hs
  obtain ⟨-, declared, hdeclared, rfl⟩ := hs
  obtain ⟨hnames, hdistinct⟩ := declareFields_names (by simp) hdeclared
  have hknown := declareFields_known (by simp) (by simp) hdeclared
  have hbefore : ∀ f ∈ s.layOut 0 declared, ∀ inner, f.type = .struct inner →
      inner < s.entries.length :=
    fun f hf inner hinner => hknown _ (layOut_fit hf).1 inner hinner
  constructor
  · simp [h.names, build]
  · simp [h.fields, build, map_layOut, hnames]
  · intro t ht
    rcases List.mem_append.mp ht with ht | ht
    · exact h.distinct t ht
    · obtain rfl := List.mem_singleton.mp ht
      simpa [build, map_layOut] using hdistinct
  -- An old entry keeps its number, and the new one has the number of entries so far.
  · intro id t ht
    rcases Nat.lt_or_ge id s.entries.length with hlt | hge
    · rw [get?, List.getElem?_append_left hlt] at ht
      exact h.earlier id t ht
    · rw [get?, List.getElem?_append_right hge, List.getElem?_singleton] at ht
      split at ht
      · obtain rfl := Option.some.inj ht
        intro f hf inner hinner
        exact Nat.lt_of_lt_of_le (hbefore f hf inner hinner) hge
      · cases ht
  · intro t ht
    rcases List.mem_append.mp ht with ht | ht
    -- Sizes of earlier structs do not change when one is added behind them.
    · exact (h.tiles t ht).congr fun f hf => words_append (h.known ht hf)
    · obtain rfl := List.mem_singleton.mp ht
      have htiles := tiles_layOut s 0 declared
      rw [Nat.zero_add] at htiles
      exact htiles.congr fun f hf => words_append (hbefore f hf)

theorem ofDecls (h : ofDecls decls = .ok s) : s.Ordered decls :=
  foldlM_history (P := fun decls s => s.Ordered decls) (fun _ _ _ _ => Ordered.declare)
    ordered_empty h

variable (h : s.Ordered decls)
include h

theorem contains_lt {outer inner : Nat} (hc : s.Contains outer inner) : inner < outer := by
  obtain ⟨t, ht, f, hf, hinner⟩ := hc
  exact h.earlier outer t ht f hf inner hinner

theorem tiles_struct {id : Nat} {t : StructType} (ht : s.get? id = some t) :
    s.Tiles 0 t.fields (s.words (.struct id)) := by
  have hwords : s.words (.struct id) = t.words := by rw [words, ht, Option.elim_some]
  exact hwords ▸ h.tiles t (List.mem_of_getElem? ht)

theorem access?_name {id : Nat} {t : StructType} {f : Field} (ht : s.get? id = some t)
    (hf : f ∈ t.fields) : s.access? (.struct id) [f.name] = some (f.offset, f.type) := by
  have hfield : t.field? f.name = some f := find?_name (h.distinct t (List.mem_of_getElem? ht)) hf
  simp only [access?, ht, hfield, Option.bind_eq_bind, Option.bind_some]
  rfl

/-- The fields of a struct are measured one step less deep. Each struct among them comes before it.
-/
theorem measure?_struct {id depth : Nat} (known : id < s.entries.length) (deep : id + 2 ≤ depth) :
    s.measure? depth (.struct id) = some (s.words (.struct id)) := by
  induction id using Nat.strongRecOn generalizing depth with
  | ind id ih =>
    have ht : s.get? id = some s.entries[id] := List.getElem?_eq_getElem known
    obtain ⟨depth, rfl⟩ := Nat.exists_eq_add_of_le' (Nat.le_trans (by omega : 1 ≤ id + 2) deep)
    simp only [measure?, ht, Option.bind_eq_bind, Option.bind_some]
    refine (h.tiles_struct ht).foldlM fun f hf => ?_
    cases hf' : f.type with
    | struct inner =>
      have hlt := h.earlier id _ ht f hf inner hf'
      exact ih inner hlt (by omega) (by omega)
    | void | int | float | ptr | reference =>
      obtain ⟨depth, rfl⟩ := Nat.exists_eq_add_of_le' (show 1 ≤ depth by omega)
      rfl

theorem measure?_resolved {written : TypeName} {type : ValueType} {depth : Nat}
    (resolved : s.resolve written = .ok type)
    (deep : s.entries.length < depth) : s.measure? depth type = some (s.words type) := by
  cases type with
  | struct id =>
    have known := resolve_known resolved
    exact h.measure?_struct known (by omega)
  | void | int | float | ptr | reference =>
    obtain ⟨depth, rfl⟩ := Nat.exists_eq_add_of_le' (show 1 ≤ depth by omega)
    rfl

/-- What a path leads to lies inside the value it starts from. -/
theorem access?_inside {whole type : ValueType} {o : Nat}
    (ha : s.access? whole path = some (o, type)) : o + s.words type ≤ s.words whole := by
  induction path generalizing whole o with
  | nil =>
    cases ha
    omega
  | cons name path ih =>
    obtain ⟨id, rfl⟩ := access?_struct ha
    obtain ⟨t, f, o', ht, hf, hrest, rfl⟩ := access?_cons ha
    have hinner := ih hrest
    have hfield := ((h.tiles_struct ht).mem.2 f (field?_mem hf).1).2
    omega

/-- Paths of which none goes on where the other ends lead apart: they part at two fields of one
struct. -/
theorem access?_apart {whole type type' : ValueType} {o o' : Nat}
    (ha : s.access? whole path = some (o, type))
    (ha' : s.access? whole path' = some (o', type')) (hno : ¬path <+: path')
    (hno' : ¬path' <+: path) : o + s.words type ≤ o' ∨ o' + s.words type' ≤ o := by
  induction path generalizing whole path' o o' with
  | nil => exact absurd List.nil_prefix hno
  | cons name path ih =>
    cases path' with
    | nil => exact absurd List.nil_prefix hno'
    | cons name' path' =>
      obtain ⟨id, rfl⟩ := access?_struct ha
      obtain ⟨t, f, i, ht, hf, hrest, rfl⟩ := access?_cons ha
      obtain ⟨t', g, j, ht', hg, hrest', rfl⟩ := access?_cons ha'
      obtain rfl := Option.some.inj (ht.symm.trans ht')
      -- Both paths go into one field, or they part here.
      by_cases hname : name = name'
      · subst hname
        obtain rfl := Option.some.inj (hf.symm.trans hg)
        have hinner := ih hrest hrest' (by simpa using hno) (by simpa using hno')
        omega
      · have hne : f ≠ g := by
          rintro rfl
          exact hname ((field?_mem hf).2.symm.trans (field?_mem hg).2)
        have hfields := (h.tiles_struct ht).apart (field?_mem hf).1 (field?_mem hg).1 hne
        have hinside := h.access?_inside hrest
        have hinside' := h.access?_inside hrest'
        omega

end Ordered

/-! ### Declared structs -/

structure LaidOut (s : Structs) (decls : List StructDecl) : Prop where
  names : s.entries.map (·.name) = decls.map (·.name.text)
  fields : s.entries.map (·.fields.map Field.name) = decls.map (·.fields.map (·.2.text))
  /-- A struct that is stored by value is declared before the one that it is stored in. -/
  earlier : ∀ outer inner, s.Contains outer inner → inner < outer
  wellFounded : WellFounded fun inner outer => s.Contains outer inner
  /-- Following the fields of a type comes to an end, and to its size. -/
  measured : ∀ written type, s.resolve written = .ok type →
    ∀ depth, s.entries.length < depth → s.measure? depth type = some (s.words type)
  tiles : ∀ id t, s.get? id = some t → s.Tiles 0 t.fields (s.words (.struct id))
  /-- The fields of a struct are where their names lead to. -/
  named : ∀ id t f, s.get? id = some t → f ∈ t.fields →
    s.access? (.struct id) [f.name] = some (f.offset, f.type)
  inside : ∀ id path o type, s.access? (.struct id) path = some (o, type) →
    o + s.words type ≤ s.words (.struct id)
  apart : ∀ id path path' o o' type type', s.access? (.struct id) path = some (o, type) →
    s.access? (.struct id) path' = some (o', type') → ¬path <+: path' → ¬path' <+: path →
    o + s.words type ≤ o' ∨ o' + s.words type' ≤ o

theorem ofDecls_laidOut {decls : List StructDecl} (declared : ofDecls decls = .ok s) :
    s.LaidOut decls := by
  have h := Ordered.ofDecls declared
  constructor
  · exact h.names
  · exact h.fields
  · exact fun _ _ => h.contains_lt
  · exact Subrelation.wf (fun hc => h.contains_lt hc) Nat.lt_wfRel.wf
  · exact fun _ _ resolved _ deep => h.measure?_resolved resolved deep
  · exact fun _ _ ht => h.tiles_struct ht
  · exact fun _ _ _ ht hf => h.access?_name ht hf
  · exact fun _ _ _ _ ha => h.access?_inside ha
  · exact fun _ _ _ _ _ _ _ ha ha' => h.access?_apart ha ha'

end Structs

def SourceText.nestsStructs : SourceText := .ofString
  ("struct None \x7b \x7d struct Pair \x7b int x; float y; \x7d " ++
    "struct Node \x7b Pair first; Node& next; None none; Pair second; \x7d")

theorem ofDecls_laidOut_nestsStructs :
    ∃ p s, Program.ofSource .nestsStructs = .ok p ∧ Structs.ofDecls p.structs = .ok s ∧
    s.words (.struct 2) = 5 ∧ s.access? (.struct 2) ["first", "y"] = some (1, .float) ∧
    s.access? (.struct 2) ["second", "x"] = some (3, .int) ∧ s.LaidOut p.structs := by
  have hrun : (do
      let p ← (Program.ofSource .nestsStructs).toOption
      (Structs.ofDecls p.structs).toOption.filter fun (s : Structs) =>
        decide (s.words (.struct 2) = 5 ∧
          s.access? (.struct 2) ["first", "y"] = some (1, ValueType.float) ∧
          s.access? (.struct 2) ["second", "x"] = some (3, ValueType.int))).isSome = true := by
    decide +kernel
  obtain ⟨s, hrun⟩ := Option.isSome_iff_exists.mp hrun
  obtain ⟨p, parsed, hrun⟩ := of_toOption_bind hrun
  obtain ⟨hs, hrun⟩ := Option.filter_eq_some_iff.mp hrun
  rw [toOption_eq_some] at hs
  obtain ⟨hwords, hfirst, hsecond⟩ := of_decide_eq_true hrun
  exact ⟨p, s, parsed, hs, hwords, hfirst, hsecond, Structs.ofDecls_laidOut hs⟩

end WordScript
