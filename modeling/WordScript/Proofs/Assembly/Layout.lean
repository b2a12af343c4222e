import WordScript.Proofs.Assembly.Symbols
import WordScript.Proofs.Places.Checks

/-!
# Layout of assembly

How the words of a text of assembly are set apart, what its comments say, which lines it leaves
blank and on which lines its labels stand is no part of the program: texts that differ in nothing
else assemble to the same words, or fail for the same cause (`ofAssembly_layout`).
-/

namespace WordScript

/-! ### Words without places -/

def Located.bare (x : Located α) : Located α := ⟨x.value, default⟩

def SourceItem.bare : SourceItem → SourceItem
  | .label name => .label name.bare
  | .static name words => .static name.bare words
  | .instruction i => .instruction (i.map (fun r => r) Located.bare)

namespace Assembly

def readRow (ws : List (Located (List Char))) : Except (Fault AssembleError) (List SourceItem) := do
  match (spanLabels ws).2 with
  | [] => return (spanLabels ws).1
  | first :: args =>
    let item ←
      if first.value = ".static".toList then readStatic first args else readInstruction first args
    return (spanLabels ws).1 ++ [item]

theorem spanLabels_bare (ws : List (Located (List Char))) :
    spanLabels (ws.map Located.bare) =
      ((spanLabels ws).1.map SourceItem.bare, (spanLabels ws).2.map Located.bare) := by
  induction ws with
  | nil => rfl
  | cons w ws ih =>
    have hvalue : w.bare.value = w.value := rfl
    simp only [List.map_cons, spanLabels, hvalue]
    cases labelName? w.value with
    | none => rfl
    | some name => rw [ih]; rfl

theorem bared_readStatic (directive : Located (List Char)) (args : List (Located (List Char))) :
    bared SourceItem.bare (readStatic directive args) = readStatic directive.bare
      (args.map Located.bare) := by
  rcases args with _ | ⟨name, _ | ⟨words, _ | _⟩⟩
  case cons.cons.nil =>
    simp only [readStatic, List.map_cons, List.map_nil, Located.bare, bared_ite]
    cases readNatBelow? sizeBound words.value <;> rfl
  all_goals rfl

theorem bared_mapM {f : α → Except (Fault κ) β} {g : α → α} {view : β → β}
    (h : ∀ a, bared view (f a) = f (g a)) (l : List α) :
    bared (List.map view) (l.mapM f) = (l.map g).mapM f := by
  induction l with
  | nil => rfl
  | cons a l ih =>
    rw [List.map_cons, List.mapM_cons, List.mapM_cons]
    exact bared_then (h a) fun _ => bared_then ih fun _ => rfl

theorem bared_readInstruction (mnemonic : Located (List Char)) (args : List (Located (List Char))) :
    bared SourceItem.bare (readInstruction mnemonic args) = readInstruction mnemonic.bare
      (args.map Located.bare) := by
  have htexts : (args.map Located.bare).map (fun arg => String.ofList arg.value) =
      args.map fun arg => String.ofList arg.value := by rw [List.map_map]; rfl
  simp only [readInstruction, show mnemonic.bare.value = mnemonic.value from rfl, htexts,
    List.length_map]
  cases Opcode.forms (String.ofList mnemonic.value) with
  | nil => rfl
  | cons form more =>
    rw [bared_ite]
    refine ite_congr rfl (fun _ => rfl) fun _ =>
      bared_then (v := List.map (Operand.map (fun r => r) Located.bare))
        (bared_mapM (fun arg => ?_) args) fun ops => ?_
    · rw [show arg.bare.value = arg.value from rfl]
      rcases readOperand? arg.value with _ | (_ | _) <;> rfl
    · rw [ofMnemonic?_map]
      cases Instr.ofMnemonic? (String.ofList mnemonic.value) ops <;> rfl

/-- What a line says does not depend on where its words stand, but for places. -/
theorem bared_readRow (ws : List (Located (List Char))) :
    bared (List.map SourceItem.bare) (readRow ws) = readRow (ws.map Located.bare) := by
  simp only [readRow, spanLabels_bare]
  cases (spanLabels ws).2 with
  | nil => rfl
  | cons first args =>
    have hlast : ∀ item : SourceItem, bared (κ := AssembleError) (List.map SourceItem.bare)
      (pure ((spanLabels ws).1 ++ [item])) =
        pure ((spanLabels ws).1.map SourceItem.bare ++ [item.bare]) := by
      intro item
      rw [bared_pure, List.map_append, List.map_singleton]
    rw [bared_ite]
    exact ite_congr rfl (fun _ => bared_then (bared_readStatic first args) hlast) fun _ =>
      bared_then (bared_readInstruction first args) hlast

/-! ### The two passes -/

theorem bared_collectSymbols (table : SymbolTable) (offset address : Word)
    (items : List SourceItem) : bared id (collectSymbols table offset address items) =
      collectSymbols table offset address (items.map SourceItem.bare) := by
  induction items generalizing table offset address with
  | nil => rfl
  | cons item items ih =>
    cases item <;> simp only [List.map_cons, SourceItem.bare, collectSymbols, Instr.width_map,
      bared_ite, bared_raise, ih]
    all_goals rfl

theorem bared_resolve (table : SymbolTable) (v : Located Value) :
    bared id (resolve table v) = resolve table v.bare := by
  obtain ⟨w | l, span⟩ := v
  · rfl
  · simp only [resolve, Located.bare]
    cases table.lookup l.name <;> rfl

theorem bared_resolveOperand (table : SymbolTable) (o : Operand Register (Located Value)) :
    bared id (o.mapM (resolve table)) = (o.map (fun r => r) Located.bare).mapM (resolve table) := by
  cases o with
  | register r => rfl
  | value v => exact bared_then (bared_resolve table v) fun _ => rfl

theorem bared_encode (table : SymbolTable) (items : List SourceItem) :
    bared id (encode table items) = encode table (items.map SourceItem.bare) := by
  induction items with
  | nil => rfl
  | cons item items ih =>
    cases item with
    | label | static => exact ih
    | instruction i =>
      refine bared_then ?_ fun _ => bared_then ih fun _ => rfl
      cases i with
      | mov _ o | arith _ _ _ o | cmp _ _ o | jmp o | memWrite _ o =>
        exact bared_then (bared_resolveOperand table o) fun _ => rfl
      | branch _ v => exact bared_then (bared_resolve table v) fun _ => rfl
      | halt | memRead | memCopy => rfl

/-! ### Rows of words -/

theorem exists_spells (cs : List Char) : ∃ ws, Spells ws cs := by
  induction cs with
  | nil => exact ⟨[], .blank isSeparator_nil⟩
  | cons c cs ih =>
    obtain ⟨ws, h⟩ := ih
    cases hc : isSeparator c with
    | true =>
      refine ⟨ws, ?_⟩
      cases h with
      | blank gap => exact .blank (isSeparator_cons hc gap)
      | word gap proper solid ends rest =>
        exact .word (isSeparator_cons hc gap) proper solid ends rest
    | false =>
      have hsolid : ∀ d ∈ [c], isSeparator d = false := List.forall_mem_singleton.mpr hc
      cases h with
      | blank gap =>
        have ends : Breaks cs := fun d hd => gap d (List.mem_of_mem_head? hd)
        exact ⟨[[c]], .word isSeparator_nil (by simp) hsolid ends (.blank gap)⟩
      | @word blanks w cs ws gap proper solid ends rest =>
        cases blanks with
        | nil =>
          exact ⟨(c :: w) :: ws, .word isSeparator_nil (by simp)
            (List.forall_mem_cons.mpr ⟨hc, solid⟩) ends rest⟩
        | cons d blanks =>
          have ends' : Breaks (d :: blanks ++ w ++ cs) := by
            rintro e ⟨⟩
            exact gap d List.mem_cons_self
          exact ⟨[c] :: w :: ws, .word isSeparator_nil (by simp) hsolid ends'
            (.word gap proper solid ends rest)⟩

def Holds (line : List Char) (ws : List (List Char)) : Prop := Spells ws (line.takeWhile (· != '#'))

def rowOf (line : List Char) : List (List Char) := (lineWords 0 line).map Located.value

theorem Holds.eq_rowOf (h : Holds line ws) : rowOf line = ws := map_value_lineWords h 0

theorem holds_rowOf (line : List Char) : Holds line (rowOf line) := by
  obtain ⟨ws, h⟩ := exists_spells (line.takeWhile (· != '#'))
  rwa [Holds.eq_rowOf h]

theorem bare_lineWords (start : Nat) (line : List Char) :
    (lineWords start line).map Located.bare = (rowOf line).map fun w => ⟨w, default⟩ := by
  rw [← map_value_lineWords (holds_rowOf line) start, List.map_map]
  rfl

def readRows : List (List (List Char)) → Except (Fault AssembleError) (List SourceItem)
  | [] => .ok []
  | row :: rows => do
    let items ← readRow (row.map fun w => ⟨w, default⟩)
    return items ++ (← readRows rows)

theorem bared_readLines (start : Nat) (lines : List (List Char)) :
    bared (List.map SourceItem.bare) (readLines start lines) = readRows (lines.map rowOf) := by
  induction lines generalizing start with
  | nil => rfl
  | cons line lines ih =>
    have hrow := bared_readRow (lineWords start line)
    rw [bare_lineWords] at hrow
    exact bared_then hrow fun _ => bared_then (ih _) fun _ => by rw [bared_pure, List.map_append]

theorem spanLabels_append {ls : List (Located (List Char))}
    (h : ∀ l ∈ ls, (labelName? l.value).isSome) :
    ∃ labels, ∀ ws, spanLabels (ls ++ ws) = (labels ++ (spanLabels ws).1, (spanLabels ws).2) := by
  induction ls with
  | nil => exact ⟨[], fun ws => rfl⟩
  | cons l ls ih =>
    obtain ⟨hl, hls⟩ := List.forall_mem_cons.mp h
    obtain ⟨name, hname⟩ := Option.isSome_iff_exists.mp hl
    obtain ⟨labels, hlabels⟩ := ih hls
    refine ⟨.label ⟨String.ofList name, l.span⟩ :: labels, fun ws => ?_⟩
    rw [List.cons_append, spanLabels, hname, hlabels]
    rfl

/-- Labels in front of a line may stand on a line of their own. -/
theorem readRow_append {ls : List (Located (List Char))} (h : ∀ l ∈ ls, (labelName? l.value).isSome)
    (ws : List (Located (List Char))) :
    readRow (ls ++ ws) = do return (← readRow ls) ++ (← readRow ws) := by
  obtain ⟨labels, hlabels⟩ := spanLabels_append h
  have halone : readRow ls = .ok labels := by
    have hnil := hlabels []
    rw [List.append_nil, spanLabels, List.append_nil] at hnil
    rw [readRow, hnil]
    rfl
  rw [halone, readRow, readRow, hlabels]
  cases (spanLabels ws).2 with
  | nil => rfl
  | cons first args =>
    show _ = (_ >>= fun b => pure (labels ++ b))
    dsimp only
    split <;> simp only [bind_assoc, pure_bind, List.append_assoc]

/-- The lines differ in layout only: in what sets words apart, in comments, in blank lines, and in
labels that stand on lines of their own. -/
inductive Relaid : List (List Char) → List (List Char) → Prop
  | refl : Relaid lines lines
  | symm (h : Relaid lines lines') : Relaid lines' lines
  | trans (h : Relaid lines₁ lines₂) (h' : Relaid lines₂ lines₃) : Relaid lines₁ lines₃
  | keep (line : List Char) (rest : Relaid lines lines') : Relaid (line :: lines) (line :: lines')
  | respace (words : Holds line ws) (words' : Holds line' ws) :
      Relaid (line :: lines) (line' :: lines)
  | blank (empty : Holds line []) : Relaid (line :: lines) lines
  | labels (words : Holds line (ls ++ ws)) (labels : ∀ l ∈ ls, (labelName? l).isSome)
      (front : Holds line₁ ls)
      (rest : Holds line₂ ws) : Relaid (line :: lines) (line₁ :: line₂ :: lines)

theorem Relaid.readRows_eq (h : Relaid lines lines') :
    readRows (lines.map rowOf) = readRows (lines'.map rowOf) := by
  induction h with
  | refl => rfl
  | symm _ ih => exact ih.symm
  | trans _ _ ih ih' => exact ih.trans ih'
  | keep line _ ih => simp only [List.map_cons, readRows, ih]
  | respace words words' => simp only [List.map_cons, words.eq_rowOf, words'.eq_rowOf]
  | @blank _ lines empty =>
    rw [List.map_cons, empty.eq_rowOf]
    cases h : readRows (lines.map rowOf) <;> simp only [readRows, h] <;> rfl
  | @labels line ls ws line₁ line₂ lines words labels front rest =>
    simp only [List.map_cons, words.eq_rowOf, front.eq_rowOf, rest.eq_rowOf, readRows,
      List.map_append]
    rw [readRow_append (by simpa using labels)]
    simp only [bind_assoc, pure_bind, List.append_assoc]

end Assembly

def Bytecode.ofRows (rows : List (List (List Char))) : Except (Fault AssembleError) Bytecode := do
  let items ← (Assembly.readRows rows).mapError (Fault.within "reading assembly")
  let table ← Assembly.collectSymbols [] 0 0 items
  return .ofList (← Assembly.encode table items)

theorem Bytecode.ofAssembly_alike (source : SourceText) :
    Alike Eq (ofAssembly source) (ofRows ((splitLines source.chars).map Assembly.rowOf)) := by
  have hread : bared (List.map SourceItem.bare) (Assembly.read source.chars) =
      (Assembly.readRows ((splitLines source.chars).map Assembly.rowOf)).mapError
      (Fault.within "reading assembly") := by
    rw [← Assembly.bared_readLines 0, Assembly.read]
    cases Assembly.readLines 0 (splitLines source.chars) <;> rfl
  have hbare : bared id (ofAssembly source) =
      ofRows ((splitLines source.chars).map Assembly.rowOf) :=
    bared_then hread fun items =>
      bared_then (Assembly.bared_collectSymbols [] 0 0 items) fun table =>
      bared_then (Assembly.bared_encode table items) fun _ => rfl
  exact hbare ▸ .bared _

/-- Texts of assembly that differ in layout only assemble to the same words, or fail for the same
cause. -/
theorem ofAssembly_layout {source source' : SourceText}
    (h : Assembly.Relaid (splitLines source.chars) (splitLines source'.chars)) :
    Alike Eq (Bytecode.ofAssembly source) (Bytecode.ofAssembly source') :=
  (Bytecode.ofAssembly_alike source).trans (by
    rw [Bytecode.ofRows, h.readRows_eq]
    exact (Bytecode.ofAssembly_alike source').symm)

theorem ofAssembly_layout_twoLabels :
    Alike Eq (Bytecode.ofAssembly (.ofString "a: b: mov r0,1 # one\n\njmp a"))
      (Bytecode.ofAssembly (.ofString "a:\nb:\tmov r0 , 1\njmp\ta,")) := by
  have hholds : ∀ {line ws}, Assembly.rowOf line = ws → Assembly.Holds line ws := fun h =>
    h ▸ Assembly.holds_rowOf _
  have hfirst : Assembly.Holds "a: b: mov r0,1 # one".toList
      (["a:".toList] ++ ["b:".toList, "mov".toList, "r0".toList, "1".toList]) := hholds (by decide)
  have hlast : Assembly.Holds "jmp a".toList ["jmp".toList, "a".toList] := hholds (by decide)
  exact ofAssembly_layout (.trans (.labels hfirst (by decide) (hholds (by decide))
    (hholds (by decide)))
    (.keep "a:".toList (.keep "b:\tmov r0 , 1".toList (.trans (.blank (hholds (by decide)))
      (.respace hlast (hholds (by decide)))))))

end WordScript
