import WordScript.Proofs.Assembly.Symbols
import WordScript.Proofs.StackDiscipline
import WordScript.Proofs.Tables

/-!
# Labels of scripts

Strings, static variables, functions, methods and places in generated code all have labels of their
own. No two of them share one, and no label is taken for a register or a number.
-/

namespace WordScript

/-! ### Names in labels -/

def OneLine (s : String) : Prop := '\n' ∉ s.toList

theorem oneLine_ofList {cs : List Char} : OneLine (.ofList cs) ↔ '\n' ∉ cs := by simp [OneLine]

theorem isSymbolChar_of_isNameChar (h : isNameChar c = true) : Assembly.isSymbolChar c = true := by
  simp only [isNameChar, Bool.or_eq_true] at h
  rcases h with h | h <;> simp [Assembly.isSymbolChar, h]

theorem IsName.isNameChar (h : IsName s) (hc : c ∈ s.toList) : isNameChar c = true := by
  obtain ⟨d, ds, hs, hd, hds⟩ := h
  rw [hs, List.mem_cons] at hc
  rcases hc with rfl | hc
  · exact isNameChar_of_isNameStart hd
  · exact List.all_eq_true.mp hds c hc

theorem IsName.isSymbolChar (h : IsName s) : s.toList.all Assembly.isSymbolChar = true :=
  List.all_eq_true.mpr fun _ hc => isSymbolChar_of_isNameChar (h.isNameChar hc)

theorem IsName.dot_notMem (h : IsName s) : '.' ∉ s.toList :=
  fun hc => absurd (h.isNameChar hc) (by decide)

theorem IsName.oneLine (h : IsName s) : OneLine s := fun hc => absurd (h.isNameChar hc) (by decide)

def FunctionName.Proper : FunctionName → Prop
  | .free name => IsName name
  | .method owner name => IsName owner ∧ IsName name

theorem FunctionName.Proper.oneLine {f : FunctionName} (h : f.Proper) : OneLine f.text := by
  cases f with
  | free name => exact IsName.oneLine h
  | method owner name =>
    simpa [text, toString, OneLine] using ⟨IsName.oneLine h.1, IsName.oneLine h.2⟩

namespace Label

theorem toList_code (k : Nat) : (code k).name.toList = '.' :: 'L' :: Nat.toDigits 10 k := by
  simp [code, Nat.toList_repr, toString]

theorem toList_string (k : Nat) :
    (string k).name.toList = 's' :: 't' :: 'r' :: '.' :: Nat.toDigits 10 k := by
  simp [string, Nat.toList_repr, toString]

theorem toList_static (name : String) :
    (static name).name.toList = "static.".toList ++ name.toList := by
  simp [static, toString]

theorem toList_function (name : String) :
    (function name).name.toList = 'f' :: 'n' :: '.' :: name.toList := by
  simp [function, toString]

theorem toList_method (owner name : String) :
    (method owner name).name.toList = 'f' :: 'n' :: '.' ::
      (owner.toList ++ '.' :: name.toList) := by
  simp [method, toString]

theorem symbolic_of_symbol {l : Label} {c : Char} {cs : List Char} (text : l.name.toList = c :: cs)
    (start : Assembly.isSymbolStart c = true) (all : cs.all Assembly.isSymbolChar = true)
    (head : c ≠ 'r') (length : 2 ≤ cs.length) : l.Symbolic where
  symbol := by rw [text, Assembly.isSymbol, start, all]; rfl
  notSp := by
    intro h
    rw [h] at text
    have hcs : ['p'] = cs := (List.cons.inj text).2
    rw [← hcs] at length
    exact absurd length (by decide)
  notGeneral := by
    intro digits h
    rw [text, List.cons.injEq] at h
    exact absurd h.1 head

theorem isSymbolChar_toDigits (k : Nat) : (Nat.toDigits 10 k).all Assembly.isSymbolChar = true :=
  List.all_eq_true.mpr fun c hc => by
    simp [Assembly.isSymbolChar, Char.isAlphanum,
      Nat.isDigit_of_mem_toDigits (by decide) (by decide) hc]

theorem symbolic_code (k : Nat) : (code k).Symbolic := by
  obtain ⟨c, cs, hcs, -⟩ := toDigits_eq_cons k
  refine symbolic_of_symbol (toList_code k) (by decide) ?_ (by decide) (by simp [hcs])
  rw [List.all_cons, isSymbolChar_toDigits]
  rfl

theorem symbolic_string (k : Nat) : (string k).Symbolic := by
  refine symbolic_of_symbol (toList_string k) (by decide) ?_ (by decide) (by simp)
  rw [List.all_cons, List.all_cons, List.all_cons, isSymbolChar_toDigits]
  rfl

theorem symbolic_static {name : String} (h : IsName name) : (static name).Symbolic := by
  have htext : (static name).name.toList = 's' :: ("tatic.".toList ++ name.toList) :=
    toList_static name
  refine symbolic_of_symbol htext (by decide) ?_ (by decide) (by simp)
  rw [List.all_append, h.isSymbolChar]
  rfl

theorem symbolic_function {f : FunctionName} (h : f.Proper) : f.label.Symbolic := by
  cases f with
  | free name =>
    have hname : IsName name := h
    obtain ⟨c, cs, hcs, -⟩ := id hname
    refine symbolic_of_symbol (toList_function name) (by decide) ?_ (by decide) (by simp [hcs])
    rw [List.all_cons, List.all_cons, hname.isSymbolChar]
    rfl
  | method owner name =>
    refine symbolic_of_symbol (toList_method owner name) (by decide) ?_ (by decide) (by simp)
    rw [List.all_cons, List.all_cons, List.all_append, List.all_cons, h.1.isSymbolChar,
      h.2.isSymbolChar]
    rfl

/-! ### Different things have different labels -/

theorem toDigits_inj (h : Nat.toDigits 10 a = Nat.toDigits 10 b) : a = b := by
  rw [← Nat.ofDigitChars_ten_toDigits (n := a), h, Nat.ofDigitChars_ten_toDigits]

theorem string_inj {a b : Nat} (h : string a = string b) : a = b := by
  have htext := congrArg (fun l => l.name.toList) h
  simp only [toList_string, List.cons.injEq, true_and] at htext
  exact toDigits_inj htext

theorem static_inj {a b : String} (h : static a = static b) : a = b := by
  have htext := congrArg (fun l => l.name.toList) h
  simp only [toList_static, List.append_cancel_left_eq] at htext
  exact String.toList_inj.mp htext

/-- A name cannot be confused with a name behind another and a dot. -/
theorem function_inj {f g : FunctionName} (hf : f.Proper) (hg : g.Proper) (h : f.label = g.label) :
    f = g := by
  have htext := congrArg (fun l => l.name.toList) h
  cases f with
  | free a =>
    cases g with
    | free b =>
      simp only [FunctionName.label, toList_function, List.cons.injEq, true_and] at htext
      rw [String.toList_inj.mp htext]
    | method owner b =>
      simp only [FunctionName.label, toList_function, toList_method, List.cons.injEq,
        true_and] at htext
      exact absurd (htext ▸ List.mem_append_right _ List.mem_cons_self) (IsName.dot_notMem hf)
  | method owner a =>
    cases g with
    | free b =>
      simp only [FunctionName.label, toList_function, toList_method, List.cons.injEq,
        true_and] at htext
      exact absurd (htext ▸ List.mem_append_right _ List.mem_cons_self) (IsName.dot_notMem hg)
    | method owner' b =>
      simp only [FunctionName.label, toList_method, List.cons.injEq, true_and] at htext
      have howner := congrArg (List.takeWhile (· != '.')) htext
      have hspan : ∀ {s : String} (cs : List Char), IsName s →
          (s.toList ++ '.' :: cs).takeWhile (· != '.') = s.toList := by
        intro s cs hs
        rw [List.takeWhile_append_of_pos]
        · simp
        · intro c hc
          simpa using fun he : c = '.' => hs.dot_notMem (he ▸ hc)
      rw [hspan _ hf.1, hspan _ hg.1] at howner
      rw [howner, List.append_cancel_left_eq, List.cons.injEq] at htext
      rw [String.toList_inj.mp howner, String.toList_inj.mp htext.2]

theorem code_ne_string (i j : Nat) : code i ≠ string j := by
  intro h
  have htext := congrArg (fun l => l.name.toList) h
  simp [toList_code, toList_string] at htext

theorem code_ne_static (i : Nat) (name : String) : code i ≠ static name := by
  intro h
  have htext := congrArg (fun l => l.name.toList) h
  simp [toList_code, toList_static] at htext

theorem string_ne_static (i : Nat) (name : String) : string i ≠ static name := by
  intro h
  have htext := congrArg (fun l => l.name.toList) h
  simp [toList_string, toList_static] at htext

theorem string_ne_function (i : Nat) (f : FunctionName) : string i ≠ f.label := by
  intro h
  have htext := congrArg (fun l => l.name.toList) h
  cases f <;> simp [FunctionName.label, toList_string, toList_function, toList_method] at htext

theorem static_ne_function (name : String) (f : FunctionName) : static name ≠ f.label := by
  intro h
  have htext := congrArg (fun l => l.name.toList) h
  cases f <;> simp [FunctionName.label, toList_static, toList_function, toList_method] at htext

end Label

end WordScript
