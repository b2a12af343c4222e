import WordScript.Proofs.Grammar.Parts
import WordScript.Proofs.Grammar.Passages
import WordScript.Proofs.Grammar.Spelling

/-!
# Printing

A printed form of statements: their tokens with single spaces between them, and every expression in
parentheses. Each piece that is printed is read as one token again (`tokens_spaced`).
-/

namespace WordScript

inductive Piece
  | symbol (s : Symbol)
  | word (text : String)
  | integer (value : Word)
  | string (content : String)
  deriving DecidableEq, Repr

namespace Piece

def shape : Piece → TokenKind × String
  | symbol s => (.symbol s, s.text)
  | word text => (.identifier, text)
  | integer value => (.integer, value.text)
  | string content => (.string, content)

/-- A double quote, or a single one around a text with a double one in it. -/
def quote (content : String) : Char := if content.toList.contains '"' then '\'' else '"'

def source : Piece → List Char
  | symbol s => s.text.toList
  | word text => text.toList
  | integer value => value.text.toList
  | string content => quote content :: (content.toList ++ [quote content])

def spaced : List Piece → List Char
  | [] => []
  | p :: ps => p.source ++ ps.flatMap fun q => ' ' :: q.source

end Piece

/-! ### Trees as pieces -/

def InfixOp.piece : InfixOp → Piece
  | .binary (.arithmetic .add) => .symbol .plus
  | .binary (.arithmetic .sub) => .symbol .minus
  | .binary (.arithmetic .mul) => .symbol .star
  | .binary (.arithmetic .div) => .symbol .slash
  | .binary (.relation .equal) => .symbol .doubleEquals
  | .binary (.relation .notEqual) => .symbol .notEquals
  | .binary (.relation .greater) => .symbol .greater
  | .binary (.relation .less) => .symbol .less
  | .binary (.relation .greaterEqual) => .symbol .greaterEquals
  | .binary (.relation .lessEqual) => .symbol .lessEquals
  | .binary (.logic .and) => .word "and"
  | .binary (.logic .or) => .word "or"
  | .assign none => .symbol .equals
  | .assign (some .add) => .symbol .plusEquals
  | .assign (some .sub) => .symbol .minusEquals
  | .assign (some .mul) => .symbol .starEquals
  | .assign (some .div) => .symbol .slashEquals

def UnaryOp.piece : UnaryOp → Piece
  | .negate => .symbol .minus
  | .not => .symbol .bang

def Piece.parenthesised (ps : List Piece) : List Piece :=
  .symbol .openParen :: (ps ++ [.symbol .closeParen])

def TypeName.pieces (t : TypeName) : List Piece :=
  .word t.name :: List.replicate t.references (.symbol .ampersand)

mutual

/-- An expression in parentheses. There is none for a float, whose digits are not kept. -/
def Expr.pieces : Expr → List Piece
  | .integer _ value => Piece.parenthesised [.integer value]
  | .float .. => []
  | .string _ content => Piece.parenthesised [.string content]
  | .var _ name => Piece.parenthesised [.word name]
  | .call _ callee args => Piece.parenthesised
      (callee.pieces ++ .symbol .openParen :: (Expr.allPieces args ++ [.symbol .closeParen]))
  | .binary _ op lhs rhs =>
    Piece.parenthesised (lhs.pieces ++ (InfixOp.binary op).piece :: rhs.pieces)
  | .unary _ op operand => Piece.parenthesised (op.piece :: operand.pieces)
  | .assign _ op target value =>
    Piece.parenthesised (target.pieces ++ (InfixOp.assign op).piece :: value.pieces)
  | .field _ base name => Piece.parenthesised (base.pieces ++ [.symbol .dot, .word name.text])
  | .addressOf _ inner => Piece.parenthesised (inner.pieces ++ [.symbol .ampersand])
  | .dereference _ inner => Piece.parenthesised (inner.pieces ++ [.symbol .commercialAt])
  | .sizeOf _ inner => Piece.parenthesised (.word "sizeof" :: Piece.parenthesised inner.pieces)

def Expr.allPieces : List Expr → List Piece
  | [] => []
  | [e] => e.pieces
  | e :: e' :: es => e.pieces ++ .symbol .comma :: Expr.allPieces (e' :: es)

end

mutual

/-- A statement. Its branches and bodies get no braces that they do not have. -/
def Statement.pieces : Statement → List Piece
  | .ret _ none => [.word "return", .symbol .semicolon]
  | .ret _ (some e) => .word "return" :: (e.pieces ++ [.symbol .semicolon])
  | .expression _ e => e.pieces ++ [.symbol .semicolon]
  | .declare _ type name none => type.pieces ++ [.word name.text, .symbol .semicolon]
  | .declare _ type name (some e) => type.pieces ++ .word name.text :: .symbol .equals ::
      (e.pieces ++ [.symbol .semicolon])
  | .block _ body => .symbol .openBrace :: (Statement.allPieces body ++ [.symbol .closeBrace])
  | .ifThen _ condition yes => .word "if" :: (Piece.parenthesised condition.pieces ++ yes.pieces)
  | .ifThenElse _ condition yes no =>
    .word "if" :: (Piece.parenthesised condition.pieces ++
      (yes.pieces ++ .word "else" :: no.pieces))
  | .loop _ condition body => .word "while" :: (Piece.parenthesised condition.pieces ++ body.pieces)

def Statement.allPieces : List Statement → List Piece
  | [] => []
  | s :: rest => s.pieces ++ Statement.allPieces rest

end

def Statement.printed (s : Statement) : List Char := Piece.spaced s.pieces

/-! ### Pieces as tokens -/

namespace Piece

def Lexical : Piece → Prop
  | symbol _ => True
  | word text => IsName text
  | integer value => 0 ≤ value.toInt
  | string content => '"' ∉ content.toList ∨ '\'' ∉ content.toList

variable {p : Piece}

theorem spelled (h : p.Lexical) : Spelled p.shape.1 p.shape.2.toList p.source := by
  cases p with
  | symbol s => exact .symbol s
  | word text =>
    obtain ⟨c, cs, htext, hstart, hmore⟩ := h
    simp only [shape, source, htext]
    exact .name hstart fun d hd => by simpa [isNameChar] using List.all_eq_true.mp hmore d hd
  | integer value =>
    have htext : value.text.toList = Nat.toDigits 10 value.toInt.toNat := by
      rcases text_eq value with ⟨htext, -⟩ | ⟨-, hneg⟩
      · exact htext
      · exact absurd h (Int.not_le.mpr hneg)
    have hdigits : (Nat.toDigits 10 value.toInt.toNat).all Char.isDigit = true :=
      List.all_eq_true.mpr fun c hc => Nat.isDigit_of_mem_toDigits (by decide) (by decide) hc
    have hsmall : value.toInt.toNat ≤ 2147483647 := by
      have := value.toInt_lt
      omega
    simp only [shape, source, htext]
    exact .integer Nat.toDigits_ne_nil hdigits (by rwa [Nat.ofDigitChars_ten_toDigits])
  | string content =>
    refine .string ?_ ?_
    · unfold quote
      split <;> simp
    · unfold quote
      split
      · next hmem => exact h.resolve_left (not_not_intro (List.contains_iff_mem.mp hmem))
      · next hmem => exact fun hin => hmem (List.contains_iff_mem.mpr hin)

theorem spaced_eq (ps : List Piece) : spaced ps = [' '].intercalate (ps.map source) := by
  cases ps with
  | nil => rfl
  | cons p ps => rw [spaced, List.map_cons, intercalate_cons, List.flatMap_map]

theorem tokens_spaced {ps : List Piece} (h : ∀ p ∈ ps, p.Lexical) :
    (Cursor.start (spaced ps)).tokens.map Token.shape = ps.map shape ∧
    (Cursor.start (spaced ps)).Lexes := by
  rw [spaced_eq]
  exact WordScript.tokens_spaced fun p hp => spelled (h p hp)

end Piece

end WordScript
