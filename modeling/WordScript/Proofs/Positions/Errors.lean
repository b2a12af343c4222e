import WordScript.Proofs.Assembly.Boundaries
import WordScript.Proofs.Registers.Supply
import WordScript.Proofs.Positions.Parsing

/-!
# Places of errors

Every fault of a script and every fault of an assembly text is at a place of that text:
`errors_located`.
-/

namespace WordScript

variable {P : Span → Prop}

/-! ### Words of a line -/

namespace Assembly

theorem splitWords_boundary (h : word ∈ splitWords start cs) :
    ∃ n, word.1 = start + n ∧ Boundary cs n := by
  induction cs generalizing start word with
  | nil => cases h
  | cons c cs ih =>
    have hlater : ∀ word ∈ splitWords (start + c.utf8Size) cs, ∃ n, word.1 = start + n ∧
        Boundary (c :: cs) n := by
      intro word hword
      obtain ⟨n, hn, hcs⟩ := ih hword
      exact ⟨c.utf8Size + n, by rw [hn, Nat.add_assoc], hcs.append [c]⟩
    have hfirst : ∃ n, start = start + n ∧ Boundary (c :: cs) n := ⟨0, rfl, .zero _⟩
    rw [splitWords] at h
    split at h
    · exact hlater word h
    · split at h
      · obtain rfl := List.mem_singleton.mp h
        exact hfirst
      · next hwords =>
        rw [hwords] at hlater
        obtain ⟨hnext, hmore⟩ := List.forall_mem_cons.mp hlater
        split at h
        · rcases List.mem_cons.mp h with rfl | h
          · exact hfirst
          · exact hmore word h
        · rcases List.mem_cons.mp h with rfl | h
          · exact hfirst
          · exact hlater word h

theorem lineWords_boundary (h : word ∈ lineWords start line) :
    ∃ n, word.span.offset = start + n ∧ Boundary line n := by
  obtain ⟨w, hw, rfl⟩ := List.mem_map.mp h
  obtain ⟨n, hn, hbefore⟩ := splitWords_boundary hw
  have hline := hbefore.append_right (line.dropWhile (· != '#'))
  rw [List.takeWhile_append_dropWhile] at hline
  exact ⟨n, hn, hline⟩

end Assembly

/-! ### Reading assembly -/

/-- `x` fails only at spans as `P` says, and what it gives is as `Q` says. -/
structure Gives (P : Span → Prop) (Q : α → Prop) (x : Except (Fault κ) α) : Prop where
  failed : FailsAs (P ·.span) x
  given : ∀ a, x = .ok a → Q a

namespace Gives

variable {κ α β : Type} {Q : α → Prop} {R : β → Prop}

theorem ok (h : Q a) : Gives P Q (.ok a : Except (Fault κ) α) :=
  ⟨.ok, fun _ ha => Except.ok.inj ha ▸ h⟩

theorem error {e : Fault κ} (h : P e.span) : Gives P Q (.error e) :=
  ⟨.error h, fun _ ha => by cases ha⟩

theorem bind {x : Except (Fault κ) α} {f : α → Except (Fault κ) β} (hx : Gives P Q x)
    (hf : ∀ a, Q a → Gives P R (f a)) : Gives P R (x >>= f) := by
  cases x with
  | ok a => exact hf a (hx.given a rfl)
  | error e => exact .error (hx.failed e rfl)

theorem mapM {f : α → Except (Fault κ) β} {l : List α} (h : ∀ a ∈ l, Gives P R (f a)) :
    Gives P (fun bs => ∀ b ∈ bs, R b) (l.mapM f) := by
  induction l with
  | nil => exact .ok (List.forall_mem_nil _)
  | cons a l ih =>
    obtain ⟨ha, hl⟩ := List.forall_mem_cons.mp h
    rw [List.mapM_cons]
    exact ha.bind fun b hb => (ih hl).bind fun bs hbs => .ok (List.forall_mem_cons.mpr ⟨hb, hbs⟩)

end Gives

def Operand.Placed (P : Span → Prop) : Operand Register (Located Value) → Prop
  | .register _ => True
  | .value v => P v.span

def SourceItem.Placed (P : Span → Prop) : SourceItem → Prop
  | .label name => P name.span
  | .static name _ => P name.span
  | .instruction i => ∀ o ∈ i.operands, o.Placed P

namespace Assembly

variable {words args : List (Located (List Char))}

theorem spanLabels_placed (h : ∀ w ∈ words, P w.span) :
    (∀ item ∈ (spanLabels words).1, item.Placed P) ∧ ∀ w ∈ (spanLabels words).2, P w.span := by
  induction words with
  | nil => exact ⟨List.forall_mem_nil _, List.forall_mem_nil _⟩
  | cons word words ih =>
    obtain ⟨hword, hwords⟩ := List.forall_mem_cons.mp h
    simp only [spanLabels]
    split
    · exact ⟨List.forall_mem_cons.mpr ⟨hword, (ih hwords).1⟩, (ih hwords).2⟩
    · exact ⟨List.forall_mem_nil _, h⟩

theorem readStatic_gives (hdirective : P directive.span) (h : ∀ w ∈ args, P w.span) :
    Gives P (SourceItem.Placed P) (readStatic directive args) := by
  simp only [readStatic]
  split
  · next name size =>
    obtain ⟨hname, hsize⟩ := List.forall_mem_cons.mp h
    split
    · exact .error hname
    · split
      · exact .ok hname
      · exact .error (hsize size (List.mem_singleton_self _))
  · exact .error hdirective

theorem readInstruction_gives (hmnemonic : P mnemonic.span) (h : ∀ w ∈ args, P w.span) :
    Gives P (SourceItem.Placed P) (readInstruction mnemonic args) := by
  simp only [readInstruction]
  split
  · exact .error hmnemonic
  · split
    · exact .error hmnemonic
    · refine (Gives.mapM (R := Operand.Placed P) fun arg harg => ?_).bind fun ops hops => ?_
      · split
        · next o _ =>
          refine .ok ?_
          cases o with
          | register r => trivial
          | value v => exact h arg harg
        · exact .error (h arg harg)
      · split
        · next i hi =>
          refine .ok fun o ho => hops o ?_
          rwa [Instr.operands_ofMnemonic? hi] at ho
        · exact .error hmnemonic

theorem readLine_gives (h : ∀ w ∈ lineWords start line, P w.span) :
    Gives P (fun items => ∀ item ∈ items, item.Placed P) (readLine start line) := by
  obtain ⟨hlabels, hwords⟩ := spanLabels_placed h
  have hlast : ∀ item : SourceItem, item.Placed P →
      ∀ item' ∈ (spanLabels (lineWords start line)).1 ++ [item], item'.Placed P := by
    intro item hitem
    exact List.forall_mem_append.mpr ⟨hlabels, List.forall_mem_singleton.mpr hitem⟩
  simp only [readLine]
  split
  · exact .ok hlabels
  · next first args hsplit =>
    rw [hsplit] at hwords
    obtain ⟨hfirst, hargs⟩ := List.forall_mem_cons.mp hwords
    split
    · exact (readStatic_gives hfirst hargs).bind fun item hitem => .ok (hlast item hitem)
    · exact (readInstruction_gives hfirst hargs).bind fun item hitem => .ok (hlast item hitem)

/-- Reading a line in the middle of a text stays in that text. -/
theorem readLine_stays (front line after : List Char) :
    Gives (·.StartsIn (front ++ (line ++ after)))
      (fun items => ∀ item ∈ items, item.Placed (·.StartsIn (front ++ (line ++ after))))
      (readLine (byteLength front) line) := by
  refine readLine_gives fun w hw => ?_
  obtain ⟨n, hn, hline⟩ := lineWords_boundary hw
  have hplace := (hline.append_right after).append front
  rwa [← hn] at hplace

theorem readLines_stays (cut : Cut (· == '\n') lines cs) (front : List Char) :
    Gives (·.StartsIn (front ++ cs)) (fun items => ∀ item ∈ items,
      item.Placed (·.StartsIn (front ++ cs)))
      (readLines (byteLength front) lines) := by
  induction cut generalizing front with
  | @last part solid =>
    have hline := readLine_stays front part []
    rw [List.append_nil] at hline
    exact hline.bind fun items hitems => .ok (by simpa using hitems)
  | @more part c lines cs solid stop rest ih =>
    obtain rfl : c = '\n' := by simpa using stop
    have hsize : '\n'.utf8Size = 1 := rfl
    have hrest := ih (front ++ (part ++ ['\n']))
    rw [byteLength_append, byteLength_append, byteLength_cons, byteLength_nil, hsize, Nat.add_zero,
      ← Nat.add_assoc, List.append_assoc, List.append_assoc, List.singleton_append] at hrest
    exact (readLine_stays front part ('\n' :: cs)).bind fun items hitems =>
      hrest.bind fun items' hitems' => .ok (List.forall_mem_append.mpr ⟨hitems, hitems'⟩)

theorem read_stays (cs : List Char) :
    Gives (·.StartsIn cs) (fun items => ∀ item ∈ items, item.Placed (·.StartsIn cs)) (read cs) := by
  have hlines := readLines_stays (cut_splitWhere (· == '\n') cs) []
  exact ⟨hlines.failed.mapError fun _ he => he, fun items hitems =>
    hlines.given items (mapError_eq_ok.mp hitems)⟩

/-! ### Assembling -/

theorem collectSymbols_at {items : List SourceItem} (h : ∀ item ∈ items, item.Placed P)
    (table : SymbolTable)
    (offset address : Word) : FailsAs (P ·.span) (collectSymbols table offset address items) := by
  induction items generalizing table offset address with
  | nil => exact .ok
  | cons item items ih =>
    obtain ⟨hitem, hitems⟩ := List.forall_mem_cons.mp h
    cases item with
    | instruction i => exact ih hitems _ _ _
    | label name => exact .ite (fun _ => .error hitem) fun _ => ih hitems _ _ _
    | static name words => exact .ite (fun _ => .error hitem) fun _ => ih hitems _ _ _

theorem resolve_at (table : SymbolTable) {v : Located Value} (h : P v.span) :
    FailsAs (P ·.span) (resolve table v) := by
  unfold resolve
  split
  · exact .ok
  · split
    · exact .ok
    · exact .error h

theorem operand_at (table : SymbolTable) (h : Operand.Placed P o) :
    FailsAs (P ·.span) (o.mapM (resolve table)) := by
  cases o with
  | register r => exact .pure
  | value v => exact (resolve_at table h).map

theorem instruction_at (table : SymbolTable) {i : Instr Register (Located Value)}
    (h : ∀ o ∈ i.operands, o.Placed P) : FailsAs (P ·.span) (i.mapM (resolve table)) := by
  cases i with
  | halt | memRead | memCopy => exact .pure
  | mov _ o | arith _ _ _ o | cmp _ _ o | memWrite _ o =>
    exact (operand_at table (h o (by simp [Instr.operands]))).map
  | jmp o => exact (operand_at table (h o (by simp [Instr.operands]))).map
  | branch relation v => exact (resolve_at table (h (.value v) (by simp [Instr.operands]))).map

theorem encode_at (table : SymbolTable) {items : List SourceItem}
    (h : ∀ item ∈ items, item.Placed P) : FailsAs (P ·.span) (encode table items) := by
  induction items with
  | nil => exact .ok
  | cons item items ih =>
    obtain ⟨hitem, hitems⟩ := List.forall_mem_cons.mp h
    cases item with
    | instruction i => exact (instruction_at table hitem).bind fun _ _ => (ih hitems).map
    | label | static => exact ih hitems

end Assembly

theorem Bytecode.ofAssembly_at (source : SourceText) :
    FailsAs (·.span.StartsIn source.chars) (Bytecode.ofAssembly source) := by
  have hread := Assembly.read_stays source.chars
  refine hread.failed.bind fun items hitems => ?_
  have hplaced := hread.given items hitems
  exact (Assembly.collectSymbols_at hplaced _ _ _).bind fun _ _ =>
    (Assembly.encode_at _ hplaced).map

/-! ### Errors -/

theorem Assembly.ofSource_at (source : SourceText) :
    FailsAs (·.span.StartsIn source.chars) (Assembly.ofSource source) := by
  refine FailsAs.bind (FailsAs.mapError (P := fun e => e.span.StartsIn source.chars) ?_ fun _ he =>
    he) fun program parsed => ?_
  · exact fun e failed => Program.ofSource_fault failed
  · have hplaced := Program.ofSource_placed (mapError_eq_ok.mp parsed)
    exact (Assembly.ofProgram_at hplaced (.zero _)).mapError fun _ he => he

/-- The fault has a position in the text, which is where its span starts: on one of the lines, at a
column from 1 to one past the characters of that line. -/
def Fault.PointsInto (e : Fault κ) (source : SourceText) : Prop :=
  ∃ position line, (e.locate source).position? = some position ∧
    (∃ front back, source.chars = front ++ back ∧ byteLength front = e.span.offset ∧
      position = Position.start.advance front) ∧
    1 ≤ position.line ∧ position.line ≤ (splitLines source.chars).length ∧
    (splitLines source.chars)[position.line - 1]? = some line ∧ 1 ≤ position.column ∧
    position.column ≤ 1 + line.length

theorem Fault.pointsInto_of_startsIn {source : SourceText} {e : Fault κ}
    (h : e.span.StartsIn source.chars) : e.PointsInto source := by
  obtain ⟨front, back, hchars, hoffset⟩ := h
  obtain ⟨hfound, hon⟩ := SourceText.locate?_front hchars
  have hline := (List.getElem?_eq_some_iff.mp hon.found).1
  refine ⟨_, _, ?_, ⟨front, back, hchars, hoffset, rfl⟩, hon.first, by omega,
    hon.found, hon.left, ?_⟩
  · simp only [Fault.locate, Diagnostic.withSource, Diagnostic.position?, ← hoffset, hfound,
      Option.map_some]
  · rw [Nat.add_comm]
    exact hon.right

/-- Whatever is wrong with a text, as a script or as assembly, has a position in it. -/
theorem errors_located (source : SourceText) :
    (∀ e, Assembly.ofSource source = .error e → e.PointsInto source) ∧
      ∀ e, Bytecode.ofAssembly source = .error e → e.PointsInto source :=
  ⟨fun e failed => Fault.pointsInto_of_startsIn (Assembly.ofSource_at source e failed),
    fun e failed => Fault.pointsInto_of_startsIn (Bytecode.ofAssembly_at source e failed)⟩

def SourceText.unknownName : SourceText := .ofString "static int& s = 'é→';\ns = 'é' + x;"

def SourceText.unknownLabel : SourceText := .ofString "# é→\nstart: jmp end # é"

theorem errors_located_unknown :
    (∃ e, Assembly.ofSource .unknownName = .error e ∧
      (e.locate .unknownName).position? = some ⟨2, 11⟩ ∧
      e.PointsInto .unknownName) ∧
    ∃ e, Bytecode.ofAssembly .unknownLabel = .error e ∧
      (e.locate .unknownLabel).position? = some ⟨2, 12⟩ ∧ e.PointsInto .unknownLabel := by
  have hscript : Assembly.ofSource .unknownName = .error ⟨.type (.unknownIdentifier "x"), ⟨36, 1⟩,
    []⟩ := by decide +kernel
  have hassembly : Bytecode.ofAssembly .unknownLabel =
      .error ⟨.undefinedLabel "end", ⟨19, 3⟩, []⟩ := by decide +kernel
  exact ⟨⟨_, hscript, by decide +kernel, (errors_located _).1 _ hscript⟩,
    ⟨_, hassembly, by decide +kernel, (errors_located _).2 _ hassembly⟩⟩

end WordScript
