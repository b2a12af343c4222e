import WordScript.Parser.Program
import WordScript.Proofs.Success
import WordScript.Proofs.Tokens
import WordScript.Proofs.Grammar.Lexemes
import WordScript.Proofs.Positions.Texts

/-!
# What parsing comes to

A parser takes tokens off the front of its text, or it fails. `Outcome` says so of a parser with a
step allowance and of the same parser with a larger one: both take the same tokens and give the
same, or both fail with the same fault, or the smaller allowance was too small. There is a rule for
each action that parsers are made of.
-/

namespace WordScript

/-! ### Tokens and faults -/

def Token.Lexed (t : Token) : Prop := ∃ c c', Cursor.next c = .ok (some t) c'

theorem Token.Lexed.valid {t : Token} (h : t.Lexed) :
    ∃ l, ValidLexeme l ∧ t.kind = l.kind ∧ t.text = String.ofList l.text := by
  obtain ⟨c, c', h⟩ := h
  simp only [Cursor.next] at h
  split at h
  · cases h
  · next l hl =>
    cases h
    exact ⟨l, .of_lexeme hl, rfl, rfl⟩
  · cases h

/-- A number that was read off a text has a value. -/
theorem Token.Lexed.readable {t : Token} (h : t.Lexed) :
    (t.kind = .integer → (readWord? t.text.toList).isSome = true) ∧
      (t.kind = .float → (readFloat? t.text.toList).isSome = true) := by
  obtain ⟨l, hl, hkind, htext⟩ := h.valid
  rw [hkind, htext, String.toList_ofList]
  cases hl with
  | string | name | symbol => exact ⟨TokenKind.noConfusion, TokenKind.noConfusion⟩
  | integer _ value => exact ⟨fun _ => value, TokenKind.noConfusion⟩
  | float _ _ value => exact ⟨TokenKind.noConfusion, fun _ => value⟩

namespace Cursor

variable {c c' : Cursor} {t : Token}

/-- The fault that the tokens from here on end with, if they do not end with the text. -/
def fault? (c : Cursor) : Option (Fault LexError) := (TokenStream.drain ⟨c, false⟩).2.1

theorem fault?_some (h : next c = .ok (some t) c') : c.fault? = c'.fault? := by
  rw [fault?, TokenStream.drain]
  simp only [Bool.false_eq_true, ↓reduceIte]
  split
  · next t' c'' h' =>
    obtain ⟨-, rfl⟩ : some t' = some t ∧ c'' = c' := by simpa [h] using h'.symm
    rfl
  · next h' => simp [h] at h'
  · next h' => simp [h] at h'

theorem fault?_none (h : next c = .ok none c') : c.fault? = none ∧ c'.fault? = none :=
  ⟨(drain_none h).2, (drain_none (next_none h)).2⟩

theorem fault?_error (h : next c = .error e c') : c.fault? = some e := by
  rw [fault?, TokenStream.drain]
  simp only [Bool.false_eq_true, ↓reduceIte]
  split
  · next h' => simp [h] at h'
  · next h' => simp [h] at h'
  · next e' c'' h' =>
    obtain ⟨rfl, -⟩ : e' = e ∧ c'' = c' := by simpa [h] using h'.symm
    rfl

theorem next_none_rest (h : next c = .ok none c') : c'.rest = [] := by
  simp only [next] at h
  split at h
  · next hl =>
    cases h
    exact eq_nil_of_lexeme hl
  · cases h
  · cases h

/-- What holds of the token at every cursor that is reached holds of all tokens. -/
theorem forall_tokens {I : Cursor → Prop} {P : Token → Prop}
    (step : ∀ c t c', I c → next c = .ok (some t) c' → I c' ∧ P t) (h : I c) :
    ∀ t ∈ c.tokens, P t := by
  generalize hn : c.rest.length = n
  induction n using Nat.strongRecOn generalizing c with
  | ind n ih =>
    cases hnext : next c with
    | error e c' => simp [drain_error hnext]
    | ok first c' =>
      cases first with
      | none => simp [(drain_none hnext).1]
      | some first =>
        obtain ⟨hc', hfirst⟩ := step c first c' h hnext
        rw [(drain_some hnext).1]
        exact List.forall_mem_cons.mpr ⟨hfirst, ih _ (hn ▸ next_rest_lt hnext) hc' rfl⟩

theorem lexed_of_mem_tokens (h : t ∈ c.tokens) : t.Lexed :=
  forall_tokens (fun c _ c' _ hnext => ⟨trivial, c, c', hnext⟩) trivial t h

theorem InText.tokens {cs : List Char} (h : c.InText cs) : ∀ t ∈ c.tokens, t.span.StartsIn cs :=
  forall_tokens (fun _ t _ hc hnext =>
    ⟨(hc.next_ok hnext).1, ((hc.next_ok hnext).2 t rfl).startsIn⟩) h

end Cursor

namespace Parser

def tokens (p : Parser) : List Token := p.ahead.toList ++ p.cursor.tokens

structure InText (cs : List Char) (p : Parser) : Prop where
  cursor : p.cursor.InText cs
  ahead : ∀ t ∈ p.ahead, t.span.StartsIn cs

theorem InText.currentSpan {p : Parser} (h : p.InText cs) : p.currentSpan.StartsIn cs := by
  unfold Parser.currentSpan
  split
  · next t ht => exact h.ahead t ht
  · exact h.cursor.endOffset

/-- `q` is `p` after these tokens. `kept` tells whether no type was declared on the way. -/
structure Past (kept : Prop) (p : Parser) (ts : List Token) (q : Parser) : Prop where
  tokens : p.tokens = ts ++ q.tokens
  unread : q.unread + ts.length ≤ p.unread
  fault : q.cursor.fault? = p.cursor.fault?
  types : kept → q.typeNames = p.typeNames
  inText : ∀ cs, p.InText cs → q.InText cs

theorem unread_lt_allowance (p : Parser) : p.unread < p.allowance := by
  rw [allowance]
  omega

/-- A fault that `p` can report. It is at a place of the text. If it comes from the tokens, it is
the fault that they end with; a token that no text has would be the only other reason. -/
structure Reports (p : Parser) (e : Fault ParseError) : Prop where
  ended : e.cause ≠ .exhausted
  lexed : ∀ c, e.cause = .lex c →
    (∃ f, p.cursor.fault? = some f ∧ f.cause = c ∧ f.span = e.span ∧ f.contexts <+: e.contexts) ∨
    ∃ t ∈ p.tokens, ¬t.Lexed
  placed : ∀ cs, p.InText cs → e.span.StartsIn cs

variable {kept : Prop} {p q r : Parser} {ts us : List Token} {e : Fault ParseError}

theorem Past.refl : p.Past kept [] p := ⟨rfl, Nat.le_refl _, rfl, fun _ => rfl, fun _ h => h⟩

theorem Past.trans (h : p.Past kept ts q) (h' : q.Past kept us r) : p.Past kept (ts ++ us) r where
  tokens := by rw [h.tokens, h'.tokens, List.append_assoc]
  unread := by
    have hle := h.unread
    have hle' := h'.unread
    rw [List.length_append]
    omega
  fault := h'.fault.trans h.fault
  types hk := (h'.types hk).trans (h.types hk)
  inText cs hp := h'.inText cs (h.inText cs hp)

theorem Past.reports (h : p.Past kept ts q) (hq : q.Reports e) : p.Reports e := by
  refine ⟨hq.ended, fun c hc => ?_, fun cs hp => hq.placed cs (h.inText cs hp)⟩
  rcases hq.lexed c hc with hfault | ⟨t, ht, hlexed⟩
  · exact .inl (h.fault ▸ hfault)
  · exact .inr ⟨t, h.tokens ▸ List.mem_append_right ts ht, hlexed⟩

theorem Reports.within (h : p.Reports e) : p.Reports (e.within context) := by
  refine ⟨h.ended, fun c hc => ?_, h.placed⟩
  rcases h.lexed c hc with ⟨f, hf, hcause, hspan, hcontexts⟩ | hlexed
  · exact .inl ⟨f, hf, hcause, hspan, hcontexts.trans (List.prefix_append ..)⟩
  · exact .inr hlexed

theorem Reports.reject (h : cause ≠ .exhausted) (h' : ∀ c, cause ≠ .lex c) :
    p.Reports (.raise cause p.currentSpan) :=
  ⟨h, fun c hc => absurd hc (h' c), fun _ hp => hp.currentSpan⟩

end Parser

/-! ### Outcomes -/

namespace Parse

/-- What `x` comes to, and `y` beside it: both succeed as stated after the same tokens, or both fail
with the same fault, or `x` was too `short`. -/
def Outcome (kept : Prop) {α : Type} (x y : Parse α) (short : Prop) (p : Parser)
    (Q : α → List Token → Parser → Prop) : Prop :=
  (∃ a ts q, x p = .ok a q ∧ y p = .ok a q ∧ p.Past kept ts q ∧ Q a ts q) ∨
    (∃ e q, x p = .error e q ∧ y p = .error e q ∧ p.Reports e) ∨
      short ∧ ∃ e q, x p = .error e q ∧ e.cause = .exhausted

inductive Separated {α : Type} (I : α → List Token → Prop) : List α → List Token → Prop
  | one (item : I a ts) : Separated I [a] ts
  | more (item : I a ts) (comma : t.kind = .symbol .comma) (rest : Separated I as us) :
      Separated I (a :: as) (ts ++ t :: us)

section
variable {kept short : Prop} {α β γ : Type} {p : Parser} {P : α → List Token → Parser → Prop}
  {Q : β → List Token → Parser → Prop}

namespace Outcome

theorem bind {x y : Parse α} {f g : α → Parse β} (h : Outcome kept x y short p P)
    (hf : ∀ a ts q, p.Past kept ts q → P a ts q → Outcome kept (f a) (g a) short q fun b us r =>
      Q b (ts ++ us) r) :
    Outcome kept (x >>= f) (y >>= g) short p Q := by
  rcases h with ⟨a, ts, q, hx, hy, hpast, ha⟩ | ⟨e, q, hx, hy, he⟩ | ⟨hshort, e, q, hx, he⟩
  · have hnext : ∀ (z : Parse α) (k : α → Parse β), z p = .ok a q → (z >>= k) p = k a q := by
      intro z k hz
      simp only [Bind.bind, EStateM.bind, hz]
    rcases hf a ts q hpast ha with ⟨b, us, r, hfa, hga, hpast', hb⟩ | ⟨e, r, hfa, hga, he⟩ |
      ⟨hshort, e, r, hfa, he⟩
    · exact .inl ⟨b, ts ++ us, r, (hnext x f hx).trans hfa, (hnext y g hy).trans hga,
        hpast.trans hpast', hb⟩
    · exact .inr (.inl ⟨e, r, (hnext x f hx).trans hfa, (hnext y g hy).trans hga, hpast.reports he⟩)
    · exact .inr (.inr ⟨hshort, e, r, (hnext x f hx).trans hfa, he⟩)
  · exact .inr (.inl ⟨e, q, by simp only [Bind.bind, EStateM.bind, hx],
      by simp only [Bind.bind, EStateM.bind, hy], he⟩)
  · exact .inr (.inr ⟨hshort, e, q, by simp only [Bind.bind, EStateM.bind, hx], he⟩)

theorem mono {x y : Parse α} {P' : α → List Token → Parser → Prop} (h : Outcome kept x y short p P)
    (hP : ∀ a ts q, p.Past kept ts q → P a ts q → P' a ts q) : Outcome kept x y short p P' := by
  rcases h with ⟨a, ts, q, hx, hy, hpast, ha⟩ | hfail
  · exact .inl ⟨a, ts, q, hx, hy, hpast, hP a ts q hpast ha⟩
  · exact .inr hfail

theorem shorter {short' : Prop} {x y : Parse α} (h : Outcome kept x y short p P)
    (hs : short → short') : Outcome kept x y short' p P := by
  rcases h with hok | hfail | ⟨hshort, he⟩
  · exact .inl hok
  · exact .inr (.inl hfail)
  · exact .inr (.inr ⟨hs hshort, he⟩)

theorem eq {x y : Parse α} (h : Outcome kept x y short p P) (hs : ¬short) : y p = x p := by
  rcases h with ⟨a, ts, q, hx, hy, -⟩ | ⟨e, q, hx, hy, -⟩ | ⟨hshort, -⟩
  · rw [hx, hy]
  · rw [hx, hy]
  · exact absurd hshort hs

theorem ok {x y : Parse α} (h : Outcome kept x y short p P) (hx : x p = .ok a q) :
    ∃ ts, p.Past kept ts q ∧ P a ts q := by
  rcases h with ⟨b, ts, r, hx', -, hpast, hb⟩ | ⟨e, r, hx', -⟩ | ⟨-, e, r, hx', -⟩
  · obtain ⟨rfl, rfl⟩ : b = a ∧ r = q := by simpa [hx'] using hx
    exact ⟨ts, hpast, hb⟩
  · simp [hx'] at hx
  · simp [hx'] at hx

theorem also {x y : Parse α} (h : Outcome kept x y short p P) (hx : x p = .ok a q) :
    y p = .ok a q := by
  rcases h with ⟨b, ts, r, hx', hy, -⟩ | ⟨e, r, hx', -⟩ | ⟨-, e, r, hx', -⟩
  · rw [hy, ← hx', hx]
  · simp [hx'] at hx
  · simp [hx'] at hx

theorem error {x y : Parse α} (h : Outcome kept x y short p P) (hs : ¬short)
    (hx : x p = .error e q) : p.Reports e := by
  rcases h with ⟨b, ts, r, hx', -⟩ | ⟨e', r, hx', -, he⟩ | ⟨hshort, -⟩
  · simp [hx'] at hx
  · obtain ⟨rfl, rfl⟩ : e' = e ∧ r = q := by simpa [hx'] using hx
    exact he
  · exact absurd hshort hs

/-- Where types may be declared, a parser that declares none will do. -/
theorem bind_kept {x y : Parse α} {f g : α → Parse β} (h : Outcome True x y short p P)
    (hf : ∀ a ts q, p.Past True ts q → P a ts q → Outcome kept (f a) (g a) short q fun b us r =>
      Q b (ts ++ us) r) :
    Outcome kept (x >>= f) (y >>= g) short p Q := by
  have hloose : Outcome kept x y short p fun a ts q => p.Past True ts q ∧ P a ts q := by
    rcases h with ⟨a, ts, q, hx, hy, hpast, ha⟩ | hfail
    · exact .inl ⟨a, ts, q, hx, hy, ⟨hpast.tokens, hpast.unread, hpast.fault,
        fun _ => hpast.types trivial, hpast.inText⟩, hpast, ha⟩
    · exact .inr hfail
  exact hloose.bind fun a ts q _ ha => hf a ts q ha.1 ha.2

theorem pure (h : P a [] p) : Outcome kept (pure a) (Pure.pure a) short p P :=
  .inl ⟨a, [], p, rfl, rfl, .refl, h⟩

theorem map_bind {x y : Parse α} {f g : γ → Parse β} {h : α → γ} (hx : Outcome kept x y short p P)
    (hf : ∀ a ts q, p.Past kept ts q → P a ts q → Outcome kept (f (h a)) (g (h a)) short q
      fun b us r => Q b (ts ++ us) r) :
    Outcome kept (h <$> x >>= f) (h <$> y >>= g) short p Q := by
  rw [map_eq_pure_bind, bind_assoc, map_eq_pure_bind, bind_assoc]
  exact hx.bind hf

theorem within {x y : Parse α} (h : Outcome kept x y short p P) :
    Outcome kept (within context x) (WordScript.within context y) short p P := by
  rcases h with ⟨a, ts, q, hx, hy, hpast, ha⟩ | ⟨e, q, hx, hy, he⟩ | ⟨hshort, e, q, hx, he⟩
  · exact .inl ⟨a, ts, q, by simp only [WordScript.within, hx],
      by simp only [WordScript.within, hy], hpast, ha⟩
  · exact .inr (.inl ⟨e.within context, q, by simp only [WordScript.within, hx],
      by simp only [WordScript.within, hy], he.within⟩)
  · exact .inr (.inr ⟨hshort, e.within context, q, by simp only [WordScript.within, hx], he⟩)

theorem exhausted {y : Parse α} (h : short) : Outcome kept exhausted y short p P :=
  .inr (.inr ⟨h, _, _, rfl, rfl⟩)

theorem reject (h : cause ≠ .exhausted) (h' : ∀ c, cause ≠ .lex c) :
    Outcome kept (reject cause) (Parse.reject cause) short p P :=
  .inr (.inl ⟨_, p, rfl, rfl, .reject h h'⟩)

theorem reject_bind {f g : α → Parse β} (h : cause ≠ .exhausted) (h' : ∀ c, cause ≠ .lex c) :
    Outcome kept (Parse.reject cause >>= f) (Parse.reject cause >>= g) short p Q :=
  .inr (.inl ⟨_, p, rfl, rfl, .reject h h'⟩)

theorem get {f g : Parser → Parse β} (h : Outcome kept (f p) (g p) short p Q) :
    Outcome kept (get >>= f) (MonadState.get >>= g) short p Q := h

theorem currentSpan {f g : Span → Parse β}
    (h : Outcome kept (f p.currentSpan) (g p.currentSpan) short p Q) :
    Outcome kept (currentSpan >>= f) (Parse.currentSpan >>= g) short p Q := h

theorem currentText {f g : String → Parse β}
    (h : Outcome kept (f p.currentText) (g p.currentText) short p Q) :
    Outcome kept (currentText >>= f) (Parse.currentText >>= g) short p Q := h

theorem lookAhead : Outcome True Parse.peek Parse.peek short p fun kind ts q => ts = [] ∧
    ((p.tokens = [] ∧ q.tokens = [] ∧ kind = none) ∨
      ∃ t, q.ahead = some t ∧ kind = some t.kind) := by
  cases hahead : p.ahead with
  | some t =>
    have hpeek : Parse.peek p = .ok (some t.kind) p := by simp only [Parse.peek, hahead]
    exact .inl ⟨some t.kind, [], p, hpeek, hpeek, .refl, rfl, .inr ⟨t, hahead, rfl⟩⟩
  | none =>
    cases hnext : Cursor.next p.cursor with
    | error e c =>
      have hpeek : Parse.peek p = .error (e.map .lex) { p with cursor := c } := by
        simp only [Parse.peek, hahead, hnext]
      refine .inr (.inl ⟨_, _, hpeek, hpeek, ParseError.noConfusion, fun cause hc => .inl ?_,
        fun cs hp => ?_⟩)
      · exact ⟨e, Cursor.fault?_error hnext, ParseError.lex.inj hc, rfl, List.prefix_refl _⟩
      · exact (hp.cursor.next_error hnext).2
    | ok t c =>
      have hpeek : Parse.peek p = .ok (t.map (·.kind)) { p with cursor := c, ahead := t } := by
        simp only [Parse.peek, hahead, hnext]
      have hin : ∀ cs, p.InText cs →
          Parser.InText cs { p with cursor := c, ahead := t } := fun cs hp =>
        ⟨(hp.cursor.next_ok hnext).1, fun u hu => ((hp.cursor.next_ok hnext).2 u hu).startsIn⟩
      refine .inl ⟨_, [], _, hpeek, hpeek, ?_, rfl, ?_⟩
      · cases t with
        | none =>
          refine ⟨?_, ?_, ?_, fun _ => rfl, hin⟩
          · simp [Parser.tokens, hahead, (Cursor.drain_none hnext).1,
              (Cursor.drain_none (Cursor.next_none hnext)).1]
          · simp [Parser.unread, Cursor.next_none_rest hnext]
          · exact (Cursor.fault?_none hnext).2.trans (Cursor.fault?_none hnext).1.symm
        | some t =>
          refine ⟨?_, ?_, (Cursor.fault?_some hnext).symm, fun _ => rfl, hin⟩
          · simp [Parser.tokens, hahead, (Cursor.drain_some hnext).1]
          · have hlt := Cursor.next_rest_lt hnext
            simp only [Parser.unread, hahead, Option.isSome_some, Option.isSome_none,
              List.length_nil, ↓reduceIte, Bool.false_eq_true]
            omega
      · cases t with
        | none =>
          refine .inl ⟨?_, ?_, rfl⟩
          · simp [Parser.tokens, hahead, (Cursor.drain_none hnext).1]
          · simp [Parser.tokens, (Cursor.drain_none (Cursor.next_none hnext)).1]
        | some t => exact .inr ⟨t, rfl, rfl⟩

theorem peek {f g : Option TokenKind → Parse β}
    (hnil : ∀ q, p.Past True [] q → p.tokens = [] → q.tokens = [] →
      Outcome kept (f none) (g none) short q Q)
    (hcons : ∀ t q, p.Past True [] q → q.ahead = some t →
      Outcome kept (f (some t.kind)) (g (some t.kind)) short q Q) :
    Outcome kept (peek >>= f) (Parse.peek >>= g) short p Q := by
  refine lookAhead.bind_kept ?_
  rintro kind _ q hpast ⟨rfl, ⟨hp, hq, rfl⟩ | ⟨t, ht, rfl⟩⟩
  · exact hnil q hpast hp hq
  · exact hcons t q hpast ht

end Outcome

end

end Parse

/-! ### The token ahead -/

namespace Parser

variable {kept : Prop} {p : Parser} {t : Token}

theorem tokens_of_ahead (h : p.ahead = some t) : p.tokens = t :: p.cursor.tokens := by
  simp [tokens, h]

theorem currentSpan_of_ahead (h : p.ahead = some t) : p.currentSpan = t.span := by
  simp [currentSpan, h]

theorem currentText_of_ahead (h : p.ahead = some t) : p.currentText = t.text := by
  simp [currentText, h]

theorem past_ahead (h : p.ahead = some t) : p.Past kept [t] { p with ahead := none } where
  tokens := by simp [tokens, h]
  unread := by simp [unread, h]
  fault := rfl
  types _ := rfl
  inText _ hp := ⟨hp.cursor, by simp⟩

/-- Tokens from the text are tokens that a text has, so faults of tokens come from the text. -/
theorem Reports.of_start (h : (⟨c, none, names⟩ : Parser).Reports e) (he : e.cause = .lex cause) :
    ∃ f, c.fault? = some f ∧ f.cause = cause ∧ f.span = e.span ∧ f.contexts <+: e.contexts := by
  rcases h.lexed cause he with hfault | ⟨t, ht, hlexed⟩
  · exact hfault
  · exact absurd (Cursor.lexed_of_mem_tokens ht) hlexed

end Parser

namespace Parse

section
variable {kept short : Prop} {α β : Type} {p : Parser} {t : Token}
  {Q : β → List Token → Parser → Prop}

namespace Outcome

theorem accept {f g : Unit → Parse β} (h : p.ahead = some t)
    (hf : ∀ q, p.Past True [t] q → Outcome kept (f ()) (g ()) short q fun b us r =>
      Q b (t :: us) r) :
    Outcome kept (accept >>= f) (Parse.accept >>= g) short p Q := by
  have hskip : Outcome True Parse.accept Parse.accept short p fun _ ts _ => ts = [t] :=
    .inl ⟨(), [t], _, rfl, rfl, Parser.past_ahead h, rfl⟩
  refine hskip.bind_kept ?_
  rintro _ _ q hpast rfl
  exact hf q hpast

theorem expectAny {f g : TokenKind → Parse β} (hf : ∀ t q, p.Past True [] q → q.ahead = some t →
      Outcome kept (f t.kind) (g t.kind) short q Q) :
    Outcome kept (expectAny wanted >>= f) (Parse.expectAny wanted >>= g) short p Q := by
  have hexpect : Outcome True (Parse.expectAny wanted) (Parse.expectAny wanted) short
    p fun kind ts q => ts = [] ∧ ∃ t, q.ahead = some t ∧ kind = t.kind := by
    -- The end is reported where reading stood before looking ahead.
    have hget : Parse.expectAny wanted p = EStateM.bind Parse.peek (fun kind => kind.elim
        (Parse.failAt (.point p.cursor.offset) (.unexpectedEnd wanted)) EStateM.pure) p := by
      refine congrFun (congrArg (EStateM.bind Parse.peek ·) (funext fun kind => ?_)) p
      cases kind <;> rfl
    rw [Outcome, hget]
    rcases @lookAhead short p with ⟨_, _, q, hpeek, -, hpast, rfl, ⟨-, -, rfl⟩ | ⟨t, ht, rfl⟩⟩ |
      ⟨e, q, hpeek, -, he⟩ | ⟨hshort, e, q, hpeek, he⟩
    all_goals simp only [EStateM.bind, hpeek]
    · exact .inr (.inl ⟨_, q, rfl, rfl, ParseError.noConfusion, fun _ => ParseError.noConfusion,
        fun _ hp => hp.cursor.offset⟩)
    · exact .inl ⟨t.kind, [], q, rfl, rfl, hpast, rfl, t, ht, rfl⟩
    · exact .inr (.inl ⟨e, q, rfl, rfl, he⟩)
    · exact .inr (.inr ⟨hshort, e, q, rfl, he⟩)
  refine hexpect.bind_kept ?_
  rintro kind _ q hpast ⟨rfl, t, ht, rfl⟩
  exact hf t q hpast ht

theorem expectKind (kind : TokenKind) :
    Outcome True (Parse.expect kind) (Parse.expect kind) short p fun _ ts q =>
    ts = [] ∧ ∃ t, q.ahead = some t ∧ t.kind = kind := by
  refine expectAny fun t q _ ht => ?_
  by_cases hkind : t.kind = kind
  · rw [if_neg (not_not_intro hkind)]
    exact .pure ⟨rfl, t, ht, hkind⟩
  · rw [if_pos hkind]
    exact .reject ParseError.noConfusion fun _ => ParseError.noConfusion

theorem expect {f g : Unit → Parse β}
    (hf : ∀ t q, p.Past True [] q → q.ahead = some t → t.kind = kind →
      Outcome kept (f ()) (g ()) short q Q) :
    Outcome kept (expect kind >>= f) (Parse.expect kind >>= g) short p Q := by
  refine (expectKind kind).bind_kept ?_
  rintro _ _ q hpast ⟨rfl, t, ht, hkind⟩
  exact hf t q hpast ht hkind

theorem symbolSpan (s : Symbol) :
    Outcome True (Parse.symbol s) (Parse.symbol s) short p fun span ts _ =>
    ∃ t, ts = [t] ∧ t.kind = .symbol s ∧ span = t.span := by
  refine expect fun t q _ ht hkind => .currentSpan (.accept ht fun r _ => .pure ⟨t, rfl, hkind, ?_⟩)
  exact Parser.currentSpan_of_ahead ht

theorem symbol {f g : Span → Parse β}
    (hf : ∀ t q, t.kind = .symbol s → p.Past True [t] q →
      Outcome kept (f t.span) (g t.span) short q fun b us r => Q b (t :: us) r) :
    Outcome kept (symbol s >>= f) (Parse.symbol s >>= g) short p Q := by
  refine (symbolSpan s).bind_kept ?_
  rintro _ _ q hpast ⟨t, rfl, hkind, rfl⟩
  exact hf t q hkind hpast

theorem keywordToken (word : String) :
    Outcome True (Parse.keyword word) (Parse.keyword word) short p fun _ ts _ =>
    ∃ t, ts = [t] ∧ t.kind = .identifier ∧ t.text = word := by
  refine (within (expectKind .identifier)).bind ?_
  rintro _ _ q _ ⟨rfl, t, ht, hkind⟩
  refine .currentText ?_
  rw [Parser.currentText_of_ahead ht]
  by_cases hword : t.text = word
  · rw [if_neg (not_not_intro hword)]
    exact .inl ⟨(), [t], _, rfl, rfl, Parser.past_ahead ht, t, rfl, hkind, hword⟩
  · rw [if_pos hword]
    exact .reject_bind ParseError.noConfusion fun _ => ParseError.noConfusion

theorem keyword {f g : Unit → Parse β}
    (hf : ∀ t q, t.kind = .identifier → t.text = word → p.Past True [t] q →
      Outcome kept (f ()) (g ()) short q fun b us r => Q b (t :: us) r) :
    Outcome kept (keyword word >>= f) (Parse.keyword word >>= g) short p Q := by
  refine (keywordToken word).bind_kept ?_
  rintro _ _ q hpast ⟨t, rfl, hkind, hword⟩
  exact hf t q hkind hword hpast

theorem symbolAhead (s : Symbol) :
    Outcome True (Parse.peekSymbol s) (Parse.peekSymbol s) short p fun b ts q => ts = [] ∧
    ((∃ t, q.ahead = some t ∧ t.kind = .symbol s ∧ b = true) ∨
      (∀ t ∈ q.tokens.head?, t.kind ≠ .symbol s) ∧ b = false) := by
  refine peek (fun q _ _ hq => .pure ⟨rfl, .inr ⟨by simp [hq], rfl⟩⟩) fun t q _ ht =>
    .pure ⟨rfl, ?_⟩
  by_cases hkind : t.kind = .symbol s
  · exact .inl ⟨t, ht, hkind, by simp [hkind]⟩
  · exact .inr ⟨by simpa [Parser.tokens_of_ahead ht] using hkind, by simp [hkind]⟩

theorem peekSymbol {f g : Bool → Parse β}
    (hyes : ∀ t q, p.Past True [] q → q.ahead = some t → t.kind = .symbol s →
      Outcome kept (f true) (g true) short q Q)
    (hno : ∀ q, p.Past True [] q → (∀ t ∈ q.tokens.head?, t.kind ≠ .symbol s) →
      Outcome kept (f false) (g false) short q Q) :
    Outcome kept (peekSymbol s >>= f) (Parse.peekSymbol s >>= g) short p Q := by
  refine (symbolAhead s).bind_kept ?_
  rintro _ _ q hpast ⟨rfl, ⟨t, ht, hkind, rfl⟩ | ⟨hnone, rfl⟩⟩
  · exact hyes t q hpast ht hkind
  · exact hno q hpast hnone

theorem peekKeyword {f g : Bool → Parse β}
    (hyes : ∀ t q, p.Past True [] q → q.ahead = some t → t.kind = .identifier → t.text = word →
      Outcome kept (f true) (g true) short q Q)
    (hno : ∀ q, p.Past True [] q → (∀ t ∈ q.tokens.head?, t.kind = .identifier → t.text ≠ word) →
      Outcome kept (f false) (g false) short q Q) :
    Outcome kept (peekKeyword word >>= f) (Parse.peekKeyword word >>= g) short p Q := by
  have hfound : Outcome True (Parse.peekKeyword word) (Parse.peekKeyword word) short p fun b ts q =>
    ts = [] ∧ ((∃ t, q.ahead = some t ∧ (t.kind = .identifier ∧ t.text = word) ∧ b = true) ∨
        (∀ t ∈ q.tokens.head?, t.kind = .identifier → t.text ≠ word) ∧ b = false) := by
    refine peek (fun q _ _ hq => .currentText (.pure ⟨rfl, .inr ⟨by simp [hq], rfl⟩⟩))
      fun t q _ ht => .currentText (.pure ⟨rfl, ?_⟩)
    rw [Parser.currentText_of_ahead ht]
    by_cases hword : t.kind = .identifier ∧ t.text = word
    · exact .inl ⟨t, ht, hword, by simp [hword]⟩
    · exact .inr ⟨by simpa [Parser.tokens_of_ahead ht] using hword, by simpa using hword⟩
  refine hfound.bind_kept ?_
  rintro _ _ q hpast ⟨rfl, ⟨t, ht, hword, rfl⟩ | ⟨hnone, rfl⟩⟩
  · exact hyes t q hpast ht hword.1 hword.2
  · exact hno q hpast hnone

theorem peekTypeName {f g : Bool → Parse β}
    (hyes : ∀ t q, p.Past True [] q → q.ahead = some t → t.kind = .identifier →
      t.text ∈ q.typeNames →
      Outcome kept (f true) (g true) short q Q) (hno : ∀ q, p.Past True [] q →
      (∀ t ∈ q.tokens.head?, t.kind = .identifier → t.text ∉ q.typeNames) →
      Outcome kept (f false) (g false) short q Q) :
    Outcome kept (peekTypeName >>= f) (Parse.peekTypeName >>= g) short p Q := by
  have hfound : Outcome True Parse.peekTypeName Parse.peekTypeName short p fun b ts q => ts = [] ∧
      ((∃ t, q.ahead = some t ∧ (t.kind = .identifier ∧ t.text ∈ q.typeNames) ∧ b = true) ∨
        (∀ t ∈ q.tokens.head?, t.kind = .identifier → t.text ∉ q.typeNames) ∧ b = false) := by
    refine peek (fun q _ _ hq => .get (.pure ⟨rfl, .inr ⟨by simp [hq], rfl⟩⟩)) fun t q _ ht =>
      .get (.pure ⟨rfl, ?_⟩)
    rw [Parser.currentText_of_ahead ht]
    by_cases hknown : t.kind = .identifier ∧ t.text ∈ q.typeNames
    · exact .inl ⟨t, ht, hknown, by simp [hknown]⟩
    · exact .inr ⟨by simpa [Parser.tokens_of_ahead ht] using hknown, by simpa using hknown⟩
  refine hfound.bind_kept ?_
  rintro _ _ q hpast ⟨rfl, ⟨t, ht, hknown, rfl⟩ | ⟨hnone, rfl⟩⟩
  · exact hyes t q hpast ht hknown.1 hknown.2
  · exact hno q hpast hnone

theorem nameToken : Outcome True Parse.name Parse.name short p fun n ts _ => ∃ t, ts = [t] ∧
    t.kind = .identifier ∧
    (keywords.contains t.text || builtinTypes.contains t.text) = false ∧
    n = ⟨t.text, t.span, t.position⟩ := by
  refine .within (expect fun t q _ ht hkind => .currentText ?_)
  rw [Parser.currentText_of_ahead ht]
  split
  · exact .reject_bind ParseError.noConfusion fun _ => ParseError.noConfusion
  · next hfree =>
    refine .get ?_
    rw [ht]
    exact .accept ht fun r _ => .pure ⟨t, rfl, hkind, by simpa using hfree, rfl⟩

theorem name {f g : Name → Parse β} (hf : ∀ t q, t.kind = .identifier →
      (keywords.contains t.text || builtinTypes.contains t.text) = false →
      p.Past True [t] q → Outcome kept (f ⟨t.text, t.span, t.position⟩)
      (g ⟨t.text, t.span, t.position⟩) short q fun b us r => Q b (t :: us) r) :
    Outcome kept (name >>= f) (Parse.name >>= g) short p Q := by
  refine nameToken.bind_kept ?_
  rintro _ _ q hpast ⟨t, rfl, hkind, hfree, rfl⟩
  exact hf t q hkind hfree hpast

theorem declareType (name : String) :
    Outcome False (declareType name) (Parse.declareType name) short p fun _ ts q =>
    ts = [] ∧ q.typeNames = name :: p.typeNames :=
  .inl ⟨(), [], _, rfl, rfl,
    ⟨rfl, Nat.le_refl _, rfl, False.elim, fun _ hp => ⟨hp.cursor, hp.ahead⟩⟩, rfl, rfl⟩

/-- Rounds of a loop. Each of them takes a token, so there are no more than the text has. -/
theorem repeatWhile {more : Parse Bool} {body body' : Parse α} (bound : Nat)
    (P : Parser → List α → List Token → Parser → Prop)
    (hround : ∀ q, q.unread ≤ bound → Outcome kept more more False q fun b ts r => ts = [] ∧
      ((b = false ∧ P q [] [] r) ∨ (b = true ∧ Outcome kept body body' short r fun a us s =>
        us ≠ [] ∧ ∀ as vs u, s.Past kept vs u → P s as vs u → P q (a :: as) (us ++ vs) u)))
    (hbound : p.unread ≤ bound) (hlimit : limit ≤ limit') :
    Outcome kept (repeatWhile more body limit) (Parse.repeatWhile more body' limit') (short ∨
      limit ≤ p.unread) p (P p) := by
  induction limit generalizing limit' p with
  | zero => exact .exhausted (.inr (Nat.zero_le _))
  | succ limit ih =>
    obtain ⟨limit', rfl⟩ : ∃ k, limit' = k + 1 := ⟨limit' - 1, by omega⟩
    refine ((hround p hbound).shorter False.elim).bind ?_
    rintro _ _ q hq ⟨rfl, ⟨rfl, hstop⟩ | ⟨rfl, hbody⟩⟩
    · exact .pure hstop
    · refine (hbody.shorter .inl).bind ?_
      rintro a us r hr ⟨hne, hstep⟩
      have hpos := List.length_pos_iff.mpr hne
      have hqle := hq.unread
      have hrle := hr.unread
      refine ((ih (by omega) (Nat.le_of_succ_le_succ hlimit)).shorter ?_).bind fun as vs u hu has =>
        .pure ?_
      · rintro (hshort | hle)
        · exact .inl hshort
        · exact .inr (by omega)
      · simpa using hstep as vs u hu has

end Outcome

theorem Outcome.commaSeparated {item item' : Parse α} {I : α → List Token → Prop} (bound : Nat)
    (types : List String) (hitem : ∀ q, q.unread ≤ bound → (kept → q.typeNames = types) →
      Outcome kept item item' short q fun a ts _ => ts ≠ [] ∧ I a ts)
    (hbound : p.unread ≤ bound) (htypes : kept → p.typeNames = types) (hlimit : limit ≤ limit') :
    Outcome kept (commaSeparated item limit) (Parse.commaSeparated item' limit') (short ∨
      limit ≤ p.unread) p
      fun as ts _ => Separated I as ts := by
  induction limit generalizing limit' p with
  | zero => exact .exhausted (.inr (Nat.zero_le _))
  | succ limit ih =>
    obtain ⟨limit', rfl⟩ : ∃ k, limit' = k + 1 := ⟨limit' - 1, by omega⟩
    refine ((hitem p hbound htypes).shorter .inl).bind ?_
    rintro a ts q hq ⟨hne, ha⟩
    refine .peekSymbol (fun t r hr ht hkind => .accept ht fun u hu => ?_) fun r _ _ =>
      .pure (by simpa using .one ha)
    have hpos := List.length_pos_iff.mpr hne
    have hqle := hq.unread
    have hrle := hr.unread
    have hule := hu.unread
    have hutypes : kept → u.typeNames = types := fun hk =>
      (hu.types trivial).trans ((hr.types trivial).trans ((hq.types hk).trans (htypes hk)))
    refine ((ih (by omega) hutypes (Nat.le_of_succ_le_succ hlimit)).shorter ?_).bind
      fun as us v _ has => .pure ?_
    · rintro (hshort | hle)
      · exact .inl hshort
      · exact .inr (by omega)
    · simpa using Separated.more ha hkind has

end

end Parse

end WordScript
