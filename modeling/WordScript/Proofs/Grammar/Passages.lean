import WordScript.Proofs.Grammar.Reading
import WordScript.Proofs.Grammar.Statements

/-!
# What is written can be read: statements

On tokens that a statement is written with, the parser gives that statement and takes just these
tokens, unless an `else` follows that would belong to it (`statement_of_written`).
-/

namespace WordScript

/-! ### First tokens -/

theorem TypeWritten.head (h : TypeWritten types type' ts) :
    ∃ t us, ts = t :: us ∧ t.kind = .identifier ∧ t.text ∈ types := by
  obtain ⟨kind, known, -⟩ := h
  exact ⟨_, _, rfl, kind, known⟩

theorem DeclarationWritten.head (h : DeclarationWritten types d ts) :
    ∃ t us, ts = t :: us ∧ t.kind = .identifier ∧ t.text ∈ types := by
  cases h with
  | plain type | initialised type =>
    obtain ⟨t, us, rfl, kind, known⟩ := type.head
    exact ⟨t, _, rfl, kind, known⟩

theorem StatementWritten.head (h : StatementWritten types (.one s) ts) :
    ∃ t us, ts = t :: us ∧ t.kind ≠ .symbol .closeBrace := by
  cases h with
  | ret word | retValue word | ifThen word | ifThenElse word | loop word =>
    exact ⟨_, _, rfl, by simp [word.kind]⟩
  | block opened => exact ⟨_, _, rfl, by simp [opened]⟩
  | declare declaration =>
    obtain ⟨t, us, rfl, kind, -⟩ := declaration.head
    exact ⟨t, us, rfl, by simp [kind]⟩
  | expression value =>
    obtain ⟨t, us, rfl, hstarts, -⟩ := value.head
    refine ⟨t, _, rfl, fun h => ?_⟩
    simp [Token.starts, h, UnaryOp.ofSymbol?] at hstarts

namespace Parse

section
variable {α β : Type} {types : List String} {p : Parser} {a : α} {b : β}
  {mid rest ts : List Token} {t : Token}

namespace Gives

theorem expression (written : Written (.expr 1 e) ts) (hp : p.Sees (ts ++ rest) types)
    (ends : EndsExpr rest) : Gives types (fun _ => Parse.expression) p e rest := by
  obtain ⟨q, hexpr, hq⟩ := expression_of_written written hp ends
  exact ⟨q, 0, hq, fun _ _ => hexpr⟩

theorem map {x : Nat → Parse α} {f : α → β} (h : Gives types x p a rest) :
    Gives types (fun n => f <$> x n) p (f a) rest := by
  obtain ⟨q, N, hq, hx⟩ := h
  exact ⟨q, N, hq, fun n hn => by simp only [Functor.map, EStateM.map, hx n hn]⟩

theorem congr {x y : Nat → Parse α} (h : ∀ n, x n = y n) (hy : Gives types y p a rest) :
    Gives types x p a rest := by
  rwa [funext h]

theorem peekKeyword {f : Nat → Bool → Parse β} (h : p.Sees ts types)
    (hyes : ∀ t us q, ts = t :: us → t.kind = .identifier → t.text = word → q.Sees ts types →
      q.ahead = some t →
      Gives types (fun n => f n true) q b rest)
    (hno : ∀ q, Unlike word ts → q.Sees ts types → Gives types (fun n => f n false) q b rest) :
    Gives types (fun n => Parse.peekKeyword word >>= f n) p b rest := by
  obtain ⟨q, hpeek, hq, hahead⟩ := peek_sees h
  have hlook : Parse.peekKeyword word p =
      .ok (ts.head?.map Token.kind == some .identifier && q.currentText == word) q :=
    bind_ok.mpr ⟨_, q, hpeek, rfl⟩
  refine .step hlook ?_
  cases ts with
  | nil => exact hno q (by simp [Unlike]) hq
  | cons t us =>
    rw [Parser.currentText_of_ahead hahead]
    by_cases hword : t.kind = .identifier ∧ t.text = word
    · simp only [List.head?_cons, Option.map_some, hword.1, hword.2, beq_self_eq_true,
        Bool.and_self]
      exact hyes t us q rfl hword.1 hword.2 hq hahead
    · have hfalse : (some t.kind == some .identifier && t.text == word) = false := by
        rw [← Bool.not_eq_true]
        simpa using hword
      simp only [List.head?_cons, Option.map_some, hfalse]
      refine hno q (fun u hu hkind htext => ?_) hq
      obtain rfl : t = u := by simpa using hu
      exact hword ⟨hkind, htext⟩

theorem peekTypeName {f : Nat → Bool → Parse β} (h : p.Sees (t :: ts) types)
    (ht : t.kind = .identifier)
    (hyes : ∀ q, t.text ∈ types → q.Sees (t :: ts) types → q.ahead = some t →
      Gives types (fun n => f n true) q b rest)
    (hno : ∀ q, t.text ∉ types → q.Sees (t :: ts) types →
      Gives types (fun n => f n false) q b rest) :
    Gives types (fun n => Parse.peekTypeName >>= f n) p b rest := by
  obtain ⟨q, hpeek, hq, hahead⟩ := peek_sees h
  have hlook : Parse.peekTypeName p = .ok (types.contains t.text) q := by
    refine bind_ok.mpr ⟨_, q, hpeek, bind_ok.mpr ⟨q, q, rfl, ?_⟩⟩
    rw [Parser.currentText_of_ahead hahead, hq.types, List.head?_cons, Option.map_some, ht]
    rfl
  refine .step hlook ?_
  by_cases hknown : t.text ∈ types
  · simp only [List.contains_iff_mem.mpr hknown]
    exact hyes q hknown hq hahead
  · have hfalse : types.contains t.text = false := by
      rw [← Bool.not_eq_true, List.contains_iff_mem]
      exact hknown
    simp only [hfalse]
    exact hno q hknown hq

end Gives

/-! ### Declarations -/

theorem reads_marks (marks : ∀ m ∈ ms, m.kind = .symbol .ampersand)
    (stop : ∀ t ∈ rest.head?, t.kind ≠ .symbol .ampersand) (hp : p.Sees (ms ++ rest) types) :
    Gives types (fun n => repeatWhile (peekSymbol .ampersand) (symbol .ampersand) n) p
    (ms.map Token.span) rest := by
  induction ms generalizing p with
  | nil =>
    refine .succ (.peekSymbol hp (fun t us q heq hkind _ _ => ?_) fun q _ hq => .pure hq)
    exact absurd hkind (stop t (by rw [← List.nil_append rest, heq]; rfl))
  | cons m ms ih =>
    refine .succ (.peekSymbol hp (fun _ _ q _ _ hq _ => ?_) fun q hno _ =>
      absurd (marks m (by simp)) (hno m rfl))
    refine .symbol hq (marks m (by simp)) fun r hr => ?_
    exact (ih (fun m' hm' => marks m' (by simp [hm'])) hr).bind fun s hs => .pure hs

theorem Gives.typeName (written : TypeWritten types type' ts) (hp : p.Sees (ts ++ rest) types)
    (stop : ∀ t ∈ rest.head?, t.kind ≠ .symbol .ampersand) :
    Gives types (fun _ => Parse.typeName) p type' rest := by
  obtain ⟨kind, known, marks⟩ := written
  refine .within (.peekTypeName hp kind (fun q _ hq ht => ?_) fun q unknown _ =>
    absurd known unknown)
  simp only [↓reduceIte]
  refine .currentText ht (.currentSpan ht (.accept hq ht fun r hr => .get ?_))
  obtain ⟨s, N, hs, hmarks⟩ := reads_marks marks stop hr
  have hread :=
    ((marks_written r (Nat.le_max_right N _)).eq id).symm.trans (hmarks _ (Nat.le_max_left ..))
  refine .step hread ?_
  simp only [List.length_map]
  exact .pure hs

theorem Gives.variableDeclaration (written : DeclarationWritten types d ts)
    (hp : p.Sees (ts ++ rest) types) :
    Gives types (fun _ => Parse.variableDeclaration) p d rest := by
  cases written with
  | plain type name stop =>
    obtain ⟨kind, free⟩ := name
    rw [List.append_assoc] at hp
    refine .within ((Gives.typeName type hp (by simp [kind])).bind fun q hq =>
      .name hq kind free fun r hr => ?_)
    refine .peekSymbol hr (fun t us u heq hkind _ _ => ?_) fun u _ hu =>
      .symbol hu stop fun v hv => .pure hv
    obtain ⟨rfl, -⟩ := List.cons.inj heq
    simp [stop] at hkind
  | initialised type name equals value stop =>
    obtain ⟨kind, free⟩ := name
    simp only [List.append_assoc, List.cons_append, List.nil_append] at hp
    refine .within ((Gives.typeName type hp (by simp [kind])).bind fun q hq =>
      .name hq kind free fun r hr => ?_)
    refine .peekSymbol hr (fun t us u heq hkind hu ht => ?_) fun u hno _ =>
      absurd equals (hno _ rfl)
    obtain ⟨rfl, rfl⟩ := List.cons.inj heq
    refine .accept hu ht fun v hv => ?_
    refine (Gives.expression value hv (endsExpr_of_symbol stop (.inr (.inr rfl)))).map.bind
      fun w hw => ?_
    exact .symbol hw stop fun x hx => .pure hx

/-! ### Statements -/

theorem Gives.condition (opened : t₁.kind = .symbol .openParen) (written : Written (.expr 1 e) ts)
    (closed : t₂.kind = .symbol .closeParen) (hp : p.Sees (t₁ :: (ts ++ t₂ :: rest)) types) :
    Gives types (fun _ => Parse.condition) p e rest := by
  refine .symbol hp opened fun q hq => ?_
  refine (Gives.expression written hq (endsExpr_of_symbol closed (.inl rfl))).bind fun r hr => ?_
  exact .symbol hr closed fun s hs => .pure hs

theorem Gives.expressionStatement (written : Written (.expr 1 e) ts)
    (stop : t.kind = .symbol .semicolon) (hp : p.Sees (ts ++ t :: rest) types) :
    Gives types (fun _ => Parse.expressionStatement) p
    (.expression (e.span.join t.span) e) rest := by
  refine (Gives.expression written hp (endsExpr_of_symbol stop (.inr (.inr rfl)))).bind fun q hq =>
    ?_
  exact .symbol hq stop fun r hr => .pure hr

def ReadsPassage (types : List String) : Passage → List Token → Prop
  | .one s, ts => ∀ p rest, p.Sees (ts ++ rest) types → (s.dangling = true → Unlike "else" rest) →
    Gives types statementWithin p s rest
  | .many ss, ts => ∀ k p t rest, p.Sees (ts ++ t :: rest) types → t.kind = .symbol .closeBrace →
    Gives types (fun n => repeatWhile (return (← peek) != some (.symbol .closeBrace))
      (statementWithin (n + k)) n) p ss (t :: rest)

def plainStatement : Parse Statement := do
  if ← peekTypeName then
    let d ← variableDeclaration
    return .declare d.2.2.2 d.1 d.2.1 d.2.2.1
  else expressionStatement

theorem Gives.plain (kind : t.kind = .identifier)
    (free : t.text ≠ "if" ∧ t.text ≠ "while" ∧ t.text ≠ "return") (hp : p.Sees (t :: ts) types)
    (h : ∀ q, q.Sees (t :: ts) types → q.ahead = some t →
      Gives types (fun _ => plainStatement) q s rest) :
    Gives types statementWithin p s rest := by
  refine .succ (.within (.expectAny hp fun q hq ht => ?_))
  simp only [kind]
  refine .currentSpan ht (.currentText ht ?_)
  refine .congr (fun n => ?_) (h q hq ht)
  obtain ⟨hif, hwhile, hreturn⟩ := free
  split <;> first | rfl | contradiction

theorem ReadsPassage.of_written (h : StatementWritten types passage ts) :
    ReadsPassage types passage ts := by
  induction h with
  | ret word stop =>
    intro p rest hp _
    refine .succ (.within (.expectAny hp fun q hq ht => ?_))
    simp only [word.kind]
    refine .currentSpan ht (.currentText ht ?_)
    simp only [word.text]
    refine .accept hq ht fun r hr => .peekSymbol hr (fun _ _ u _ _ hu _ => ?_) fun u hno _ =>
      absurd stop (hno _ rfl)
    exact .symbol hu stop fun v hv => .pure hv
  | retValue word value stop =>
    intro p rest hp _
    simp only [List.append_assoc, List.cons_append, List.nil_append] at hp
    refine .succ (.within (.expectAny hp fun q hq ht => ?_))
    simp only [word.kind]
    refine .currentSpan ht (.currentText ht ?_)
    simp only [word.text]
    refine .accept hq ht fun r hr => .peekSymbol hr (fun t us _ heq hkind _ _ => ?_) fun u _ hu =>
      ?_
    -- No expression starts with a semicolon, so the value is not passed over.
    · obtain ⟨t', us', rfl, hstarts, -⟩ := value.head
      obtain ⟨rfl, -⟩ := List.cons.inj heq
      simp [Token.starts, hkind, UnaryOp.ofSymbol?] at hstarts
    · refine (Gives.expression value hu (endsExpr_of_symbol stop (.inr (.inr rfl)))).map.bind
        fun w hw => ?_
      exact .symbol hw stop fun x hx => .pure hx
  | @expression e ts t' value start stop =>
    intro p rest hp _
    rw [List.append_assoc] at hp
    obtain ⟨t, us, rfl, hstarts, -⟩ := value.head
    have hread : ∀ r, r.Sees (t :: us ++ ([t'] ++ rest)) types →
        Gives types (fun _ => Parse.expressionStatement) r
        (.expression (e.span.join t'.span) e) rest :=
      fun r hr => .expressionStatement value stop hr
    -- A statement is told by its first token: a name may open a declaration or be a keyword.
    cases hkind : t.kind with
    | identifier =>
      have hfree : t.text ≠ "if" ∧ t.text ≠ "while" ∧ t.text ≠ "return" := by
        refine ⟨?_, ?_, ?_⟩
        all_goals
          intro htext
          simp [Token.starts, hkind, htext, keywords] at hstarts
      refine .plain hkind hfree hp fun q hq _ => ?_
      exact .peekTypeName hq hkind (fun r known _ _ => absurd known (start t rfl hkind))
        fun r _ hr => hread r hr
    | symbol s =>
      refine .succ (.within (.expectAny hp fun q hq _ => ?_))
      rw [hkind]
      cases s <;> first | exact hread q hq | simp [Token.starts, hkind,
        UnaryOp.ofSymbol?] at hstarts
    | integer | float | string =>
      refine .succ (.within (.expectAny hp fun q hq _ => ?_))
      rw [hkind]
      exact hread q hq
  | declare declaration start =>
    intro p rest hp _
    obtain ⟨t, us, rfl, hkind, hknown⟩ := declaration.head
    refine .plain hkind ⟨start.1 t rfl hkind, start.2.1 t rfl hkind, start.2.2 t rfl hkind⟩ hp
      fun q hq _ => ?_
    refine .peekTypeName hq hkind (fun r _ hr _ => ?_) fun r hno _ => absurd hknown hno
    exact (Gives.variableDeclaration declaration hr).bind fun u hu => .pure hu
  | block opened statements closed ih =>
    intro p rest hp _
    simp only [List.append_assoc, List.cons_append, List.nil_append] at hp
    refine .succ (.within (.expectAny hp fun q hq ht => ?_))
    simp only [opened]
    have hblock : Gives types blockWithin q _ rest := .succ (.within (.symbol hq opened fun r hr =>
      (ih 0 r _ rest hr closed).bind fun u hu => .symbol hu closed fun v hv => .pure hv))
    exact hblock.bind fun r hr => .pure hr
  | ifThen word opened condition closed yes ih =>
    intro p rest hp hopen
    simp only [List.append_assoc, List.cons_append] at hp
    refine .succ (.within (.expectAny hp fun q hq ht => ?_))
    simp only [word.kind]
    refine .currentSpan ht (.currentText ht ?_)
    simp only [word.text]
    refine .accept hq ht fun r hr => (Gives.condition opened condition closed hr).within.bind
      fun u hu => ?_
    refine (ih u rest hu fun _ => hopen rfl).bind fun v hv =>
      .peekKeyword hv ?_ fun w _ hw => .pure hw
    -- An `else` would be taken as the one of this statement, so none may follow.
    rintro t ts w rfl hkind htext - -
    exact absurd htext (hopen rfl t rfl hkind)
  | ifThenElse word opened condition closed yes complete word' no ihy ihn =>
    intro p rest hp hopen
    simp only [List.append_assoc, List.cons_append] at hp
    refine .succ (.within (.expectAny hp fun q hq ht => ?_))
    simp only [word.kind]
    refine .currentSpan ht (.currentText ht ?_)
    simp only [word.text]
    refine .accept hq ht fun r hr => (Gives.condition opened condition closed hr).within.bind
      fun u hu => ?_
    -- The first branch has its own `else` or needs none, so it leaves this one alone.
    refine (ihy u _ hu (by simp [complete])).bind fun v hv =>
      .peekKeyword hv (fun t ts w heq _ _ hw htw => ?_) fun w hno _ => ?_
    · obtain ⟨rfl, rfl⟩ := List.cons.inj heq
      refine .accept hw htw fun x hx => ?_
      exact (ihn x rest hx hopen).bind fun y hy => .pure hy
    · exact absurd word'.text (hno _ rfl word'.kind)
  | loop word opened condition closed repeated ih =>
    intro p rest hp hopen
    simp only [List.append_assoc, List.cons_append] at hp
    refine .succ (.within (.expectAny hp fun q hq ht => ?_))
    simp only [word.kind]
    refine .currentSpan ht (.currentText ht ?_)
    simp only [word.text]
    refine .accept hq ht fun r hr => (Gives.condition opened condition closed hr).within.bind
      fun u hu => ?_
    exact (ih u rest hu hopen).bind fun v hv => .pure hv
  | nil =>
    intro k p t rest hp closed
    refine .succ (Gives.bind (.peek hp fun q hq _ => .pure hq) fun q hq => ?_)
    simp only [List.nil_append, List.head?_cons, Option.map_some, closed, bne_self_eq_false]
    exact .pure hq
  | @cons s ts ss us first others apart ih ihs =>
    intro k p t rest hp closed
    rw [List.append_assoc] at hp
    obtain ⟨t', ts, rfl, hhead⟩ := first.head
    refine .succ (Gives.bind (.peek hp fun q hq _ => .pure hq) fun q hq => ?_)
    have hmore : (some t'.kind != some (.symbol .closeBrace)) = true := by simpa using hhead
    simp only [List.cons_append, List.head?_cons, Option.map_some, hmore, ↓reduceIte]
    have hfirst : Gives types (fun n => statementWithin (n + 1 + k)) q s (us ++ t :: rest) := by
      simp only [Nat.add_assoc]
      refine (ih q (us ++ t :: rest) hq fun hopen u hu => ?_).later (1 + k)
      -- What follows the statement is the closing brace or the next statement, and neither is an
      -- `else`.
      cases us with
      | nil =>
        obtain rfl : t = u := by simpa using hu
        simp [closed]
      | cons u' us => exact apart hopen u hu
    refine hfirst.bind fun r hr => ?_
    simp only [Nat.add_assoc]
    exact (ihs (1 + k) r t rest hr closed).bind fun u hu => .pure hu

theorem statement_of_written (written : StatementWritten types (.one s) ts)
    (hp : p.Sees (ts ++ rest) types) (ends : s.dangling = true → Unlike "else" rest) :
    ∃ q, statement p = .ok s q ∧ q.Sees rest types := by
  have hreads : ReadsPassage types (.one s) ts := .of_written written
  obtain ⟨q, N, hq, hstatement⟩ := hreads p rest hp ends
  refine ⟨q, ?_, hq⟩
  rw [← statementWithin_of_allowance_le (Nat.le_max_right N p.allowance)]
  exact hstatement _ (Nat.le_max_left N p.allowance)

end

end Parse

end WordScript
