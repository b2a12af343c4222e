import WordScript.Token.Stream

/-!
# The tokens of a text

What `TokenStream.drain` gives from a cursor on: the tokens, and whether they end with the text.
-/

namespace WordScript

def Token.shape (t : Token) : TokenKind × String := (t.kind, t.text)

namespace Cursor

/-- The tokens from here on, up to the end or the first fault. -/
def tokens (c : Cursor) : List Token := (TokenStream.drain ⟨c, false⟩).1

def Lexes (c : Cursor) : Prop := (TokenStream.drain ⟨c, false⟩).2.1 = none

theorem drain_some {c c' : Cursor} (h : next c = .ok (some t) c') :
    c.tokens = t :: c'.tokens ∧ (c.Lexes ↔ c'.Lexes) := by
  rw [tokens, Lexes, TokenStream.drain]
  simp only [Bool.false_eq_true, ↓reduceIte]
  split
  · next t' c'' h' =>
    obtain ⟨ht, rfl⟩ : some t' = some t ∧ c'' = c' := by simpa [h] using h'.symm
    obtain rfl := Option.some.inj ht
    exact ⟨rfl, .rfl⟩
  · next h' => simp [h] at h'
  · next h' => simp [h] at h'

theorem drain_none {c c' : Cursor} (h : next c = .ok none c') : c.tokens = [] ∧ c.Lexes := by
  rw [tokens, Lexes, TokenStream.drain]
  simp only [Bool.false_eq_true, ↓reduceIte]
  split
  · next h' => simp [h] at h'
  · exact ⟨rfl, rfl⟩
  · next h' => simp [h] at h'

theorem not_lexes {c c' : Cursor} (h : next c = .error e c') : ¬c.Lexes := by
  rw [Lexes, TokenStream.drain]
  simp only [Bool.false_eq_true, ↓reduceIte]
  split
  · next h' => simp [h] at h'
  · next h' => simp [h] at h'
  · simp

theorem drain_error {c c' : Cursor} (h : next c = .error e c') : c.tokens = [] := by
  rw [tokens, TokenStream.drain]
  simp only [Bool.false_eq_true, ↓reduceIte]
  split
  · next h' => simp [h] at h'
  · rfl
  · rfl

theorem eq_nil_of_lexeme {cs : List Char} (h : lexeme cs = .ok none) : cs = [] := by
  have hmap : ∀ x : Except Misreading Lexeme, x.map some ≠ .ok none := by
    intro x
    cases x <;> simp [Except.map]
  cases cs with
  | nil => rfl
  | cons c cs =>
    rw [lexeme] at h
    split at h
    · exact absurd h (hmap _)
    split at h
    · cases h
    split at h
    · exact absurd h (hmap _)
    split at h <;> cases h

theorem skipTrivia_end {c : Cursor} (h : c.rest = []) : c.skipTrivia = c := by
  obtain ⟨rest, offset, position⟩ := c
  obtain rfl : rest = [] := h
  rfl

theorem next_none {c c' : Cursor} (h : next c = .ok none c') : next c' = .ok none c' := by
  have hrest : c' = c.skipTrivia ∧ lexeme c.skipTrivia.rest = .ok none := by
    simp only [next] at h
    split at h
    · next hl =>
      cases h
      exact ⟨rfl, hl⟩
    · cases h
    · cases h
  obtain ⟨rfl, hl⟩ := hrest
  have hnil := eq_nil_of_lexeme hl
  simp only [next, skipTrivia_end hnil, hnil, lexeme]

end Cursor

end WordScript
