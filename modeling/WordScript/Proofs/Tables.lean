import WordScript.Emit.Program
import WordScript.Proofs.Declared
import WordScript.Proofs.Names

/-!
# Names in tables

The tables of a program hold what it declares, under proper names: structs and their fields,
functions in the order of their definitions and each once, and static variables.
-/

namespace WordScript

/-! ### Structs -/

namespace Structs

def Named (s : Structs) : Prop := ∀ t ∈ s.entries, IsName t.name ∧ ∀ f ∈ t.fields, IsName f.name

theorem declareFields_named {decls : List (TypeName × Name)} (hn : ∀ d ∈ decls, IsName d.2.text)
    (hb : ∀ f ∈ before, IsName f.1) (h : declareFields s self name before decls = .ok fields) :
    ∀ f ∈ fields, IsName f.1 := by
  induction decls generalizing before with
  | nil =>
    obtain rfl : before = fields := by simpa [declareFields] using h
    exact hb
  | cons decl decls ih =>
    obtain ⟨type, field⟩ := decl
    simp only [declareFields, refuse_eq_ok, bind_eq_ok, mapError_eq_ok] at h
    obtain ⟨_, type, _, _, _, h⟩ := h
    refine ih (fun d hd => hn d (by simp [hd])) ?_ h
    simp only [List.mem_append, List.mem_singleton]
    rintro f (hf | rfl)
    · exact hb f hf
    · exact hn _ List.mem_cons_self

theorem declare_named {s s' : Structs} (hs : s.Named) (hd : decl.WellNamed)
    (h : s.declare decl = .ok s') : s'.Named := by
  simp only [declare, refuse_eq_ok, bind_eq_ok, pure_eq_ok] at h
  obtain ⟨_, fields, hfields, rfl⟩ := h
  have hnames := declareFields_named hd.fields (by simp) hfields
  intro t ht
  rcases List.mem_append.mp ht with ht | ht
  · exact hs t ht
  · obtain rfl := List.mem_singleton.mp ht
    exact ⟨hd.name, fun f hf => hnames _ (layOut_fit hf).1⟩

theorem ofDecls_named {decls : List StructDecl} (hn : ∀ d ∈ decls, d.WellNamed)
    (h : ofDecls decls = .ok s) : s.Named :=
  foldlM_keeps (fun d hd _ _ hs h => declare_named hs (hn d hd) h) (by simp [Named, empty]) h

end Structs

/-! ### Functions -/

namespace Functions

def Declares (d : FunctionName × FunctionDecl) (e : FunctionName × Signature) : Prop :=
  e.1 = d.1 ∧ e.2.params.map Prod.fst = d.2.params.map (·.2.text)

/-- The table holds exactly these definitions, each once. -/
structure Holds (f : Functions) (ds : List (FunctionName × FunctionDecl)) : Prop where
  names : f.entries.map Prod.fst = ds.map Prod.fst
  distinct : (f.entries.map Prod.fst).Nodup
  declared : ∀ e ∈ f.entries, ∃ d ∈ ds, Declares d e

theorem declareParams_names {decls : List (TypeName × Name)}
    (h : declareParams structs isMethod before decls = .ok params) :
    params.map Prod.fst = before.map Prod.fst ++ decls.map (·.2.text) := by
  induction decls generalizing before with
  | nil =>
    obtain rfl : before = params := by simpa [declareParams] using h
    simp
  | cons decl decls ih =>
    obtain ⟨type, name⟩ := decl
    simp only [declareParams, refuse_eq_ok, bind_eq_ok] at h
    obtain ⟨_, type, _, h⟩ := h
    simp [ih h]

theorem declare_holds {f f' : Functions} (hf : f.Holds ds)
    (h : f.declare structs name receiver decl = .ok f') : f'.Holds (ds ++ [(name, decl)]) := by
  simp only [declare, refuse_eq_ok, bind_eq_ok, mapError_eq_ok, pure_eq_ok] at h
  obtain ⟨hnew, returns, _, params, hparams, rfl⟩ := h
  have hname : name ∉ f.entries.map Prod.fst := by
    intro hm
    obtain ⟨e, he, rfl⟩ := List.mem_map.mp hm
    exact hnew (List.lookup_isSome_iff.mpr ⟨e, he, by simp⟩)
  refine ⟨by simp [hf.names], ?_, ?_⟩
  · rw [List.map_append, List.nodup_append]
    refine ⟨hf.distinct, by simp, ?_⟩
    rintro a ha b hb rfl
    simp only [List.map_cons, List.map_nil, List.mem_singleton] at hb
    exact hname (hb ▸ ha)
  · intro e he
    rcases List.mem_append.mp he with he | he
    · obtain ⟨d, hd, hde⟩ := hf.declared e he
      exact ⟨d, by simp [hd], hde⟩
    · obtain rfl := List.mem_singleton.mp he
      exact ⟨(name, decl), by simp, rfl, by simpa using declareParams_names hparams⟩

theorem declareAll_holds {name : α → FunctionName} {receiver : Option ValueType}
    {decl : α → FunctionDecl} {l : List α} {f f' : Functions} (hf : f.Holds ds)
    (h : l.foldlM (fun f a => f.declare structs (name a) receiver (decl a)) f = .ok f') :
    f'.Holds (ds ++ l.map fun a => (name a, decl a)) := by
  induction l generalizing f ds with
  | nil => simpa [pure_eq_ok.mp h] using hf
  | cons a l ih =>
    rw [List.foldlM_cons, bind_eq_ok] at h
    obtain ⟨g, hg, h⟩ := h
    simpa using ih (declare_holds hf hg) h

theorem declareMethods_holds {f f' : Functions} (hf : f.Holds ds)
    (h : declareMethods structs f decl = .ok f') :
    f'.Holds (ds ++ decl.methods.map fun m => (.method decl.name.text m.name.text, m)) := by
  simp only [declareMethods] at h
  split at h
  · simp at h
  · exact declareAll_holds (α := FunctionDecl) hf h

theorem ofProgram_holds (h : ofProgram structs p = .ok f) : f.Holds p.definitions := by
  simp only [ofProgram, bind_eq_ok] at h
  obtain ⟨g, hg, h⟩ := h
  have hempty : empty.Holds [] := ⟨rfl, by simp [empty], by simp [empty]⟩
  have hfree := declareAll_holds (α := FunctionDecl) hempty hg
  rw [List.nil_append] at hfree
  unfold Program.definitions
  generalize p.functions.map (fun d : FunctionDecl => (FunctionName.free d.name.text, d)) =
    ds at hfree ⊢
  generalize p.structs = decls at h ⊢
  clear hg
  induction decls generalizing g ds with
  | nil => simpa [pure_eq_ok.mp h] using hfree
  | cons decl decls ih =>
    rw [List.foldlM_cons, bind_eq_ok] at h
    obtain ⟨g', hg', h⟩ := h
    simpa using ih g' _ (declareMethods_holds hfree hg') h

end Functions

/-! ### Static variables -/

theorem StaticVariable.declare_names {before statics : List StaticVariable}
    {decls : List StaticDecl}
    (hb : (before.map (·.name)).Nodup) (h : declare structs before decls = .ok statics) :
    statics.map (·.name) = before.map (·.name) ++ decls.map (·.name.text) ∧
    (statics.map (·.name)).Nodup := by
  induction decls generalizing before with
  | nil =>
    obtain rfl : before = statics := by simpa [declare] using h
    exact ⟨by simp, hb⟩
  | cons d decls ih =>
    simp only [declare, refuse_eq_ok, bind_eq_ok] at h
    obtain ⟨hnew, type, _, h⟩ := h
    obtain ⟨hnames, hdistinct⟩ := ih (by
      rw [List.map_append, List.nodup_append]
      refine ⟨hb, by simp, ?_⟩
      rintro a ha b hb rfl
      simp only [List.map_cons, List.map_nil, List.mem_singleton] at hb
      obtain ⟨v, hv, rfl⟩ := List.mem_map.mp ha
      exact hnew (List.any_eq_true.mpr ⟨v, hv, by simpa using hb⟩)) h
    exact ⟨by simpa using hnames, hdistinct⟩

end WordScript
