import Proofhouse.Formatter
import Proofhouse.LexerProperties

/-!
# Renderings scan to their own tokens

The tokens a rendering is meant to spell, and the proof that the lexer reads
exactly those, wherever the rendering stands in a text.
-/

set_option autoImplicit false

namespace Proofhouse

/-- A token without its place in a text. -/
def Token.face (token : Token) : TokenKind × String :=
  (token.kind, token.lexeme)

namespace Formatter

open Library Lexer

def literalFaces (value : I64) : List (TokenKind × String) :=
  if value.value < 0 then
    [(.minus, "-"), (.number, toString value.value.natAbs)]
  else [(.number, toString value.value.natAbs)]

def operatorKind : BinaryOperator → TokenKind
  | .add => .plus
  | .sub => .minus
  | .mul => .star
  | .div => .slash

def guardedFaces (child : Expr) (faces : List (TokenKind × String)) (floor : Nat) :
    List (TokenKind × String) :=
  if bindingPower child < floor then (.lParen, "(") :: (faces ++ [(.rParen, ")")]) else faces

/-- The faces of the tokens a rendering spells, in order. -/
def faces : Expr → List (TokenKind × String)
  | .number value => literalFaces value
  | .unaryOp .neg operand => (.minus, "-") :: guardedFaces operand (faces operand) unary
  | .binaryOp op left right =>
      guardedFaces left (faces left) (infixPowers op).1 ++
        (operatorKind op, (binarySymbol op).toString) ::
          guardedFaces right (faces right) (infixPowers op).2

/-- `chars` scans to tokens of these faces in front of whatever does not go on
with a digit. -/
def LexesTo (chars : List Char) (faces : List (TokenKind × String)) : Prop :=
  ∀ offset rest, StartsNoDigit rest →
    ∃ tokens, Scans isWhitespace offset (chars ++ rest) tokens rest ∧
      tokens.map Token.face = faces

theorem lexesTo_nil : LexesTo [] [] :=
  fun _ _ _ => ⟨[], .done, rfl⟩

theorem LexesTo.symbol {ch : Char} {kind : TokenKind} {chars : List Char}
    {faces : List (TokenKind × String)} (isSymbol : singleCharKind ch = some kind)
    (lexes : LexesTo chars faces) : LexesTo (ch :: chars) ((kind, ch.toString) :: faces) := by
  intro offset rest ends
  obtain ⟨tokens, scans, same⟩ := lexes (offset + ch.utf8Size) rest ends
  exact ⟨_, .symbol isSymbol scans, by rw [List.map_cons, same]; rfl⟩

theorem LexesTo.space {chars : List Char} {faces : List (TokenKind × String)}
    (lexes : LexesTo chars faces) : LexesTo (' ' :: chars) faces := by
  intro offset rest ends
  obtain ⟨tokens, scans, same⟩ := lexes (offset + ' '.utf8Size) rest ends
  exact ⟨tokens, .space rfl rfl rfl scans, same⟩

theorem LexesTo.append {left right : List Char} {leftFaces rightFaces : List (TokenKind × String)}
    (onLeft : LexesTo left leftFaces) (onRight : LexesTo right rightFaces)
    (nonempty : right ≠ []) (apart : StartsNoDigit right) :
    LexesTo (left ++ right) (leftFaces ++ rightFaces) := by
  intro offset rest ends
  have border : StartsNoDigit (right ++ rest) :=
    apart.append fun empty => absurd empty nonempty
  obtain ⟨leftTokens, leftScans, leftSame⟩ := onLeft offset (right ++ rest) border
  obtain ⟨rightTokens, rightScans, rightSame⟩ := onRight (offset + byteLength left) rest ends
  refine ⟨leftTokens ++ rightTokens, ?_, by rw [List.map_append, leftSame, rightSame]⟩
  rw [List.append_assoc]
  refine leftScans.append fun later place => ?_
  have same : later = offset + byteLength left := by
    simp only [byteLength_append] at place
    omega
  exact same ▸ rightScans

theorem lexesTo_digits (number : Nat) :
    LexesTo (Nat.toDigits 10 number) [(.number, toString number)] := by
  intro offset rest ends
  exact ⟨_, .number (digitRun_toDigits number) ends .done, rfl⟩

theorem toList_toString_int (value : Int) :
    (toString value).toList =
      if value < 0 then '-' :: Nat.toDigits 10 value.natAbs
      else Nat.toDigits 10 value.natAbs := by
  cases value with
  | ofNat magnitude =>
      rw [if_neg (by simp)]
      exact Nat.toList_repr
  | negSucc magnitude =>
      rw [if_pos (Int.negSucc_lt_zero magnitude)]
      change ("-" ++ (magnitude + 1).repr).toList = _
      rw [String.toList_append, Nat.toList_repr]
      rfl

theorem lexesTo_literal (value : I64) :
    LexesTo (toString value.value).toList (literalFaces value) := by
  rw [toList_toString_int, literalFaces]
  by_cases negative : value.value < 0
  · rw [if_pos negative, if_pos negative]
    exact (lexesTo_digits _).symbol rfl
  · rw [if_neg negative, if_neg negative]
    exact lexesTo_digits _

theorem LexesTo.guarded (child : Expr) {text : String} {faces : List (TokenKind × String)}
    (lexes : LexesTo text.toList faces) (floor : Nat) :
    LexesTo (guarded child text floor).toList (guardedFaces child faces floor) := by
  rw [Formatter.guarded, guardedFaces]
  by_cases loose : bindingPower child < floor
  · rw [if_pos loose, if_pos loose, String.toList_append, String.toList_append]
    have closes := LexesTo.symbol (rfl : singleCharKind ')' = some .rParen) lexesTo_nil
    exact (lexes.append closes (by simp) rfl).symbol rfl
  · rwa [if_neg loose, if_neg loose]

theorem singleCharKind_binarySymbol (op : BinaryOperator) :
    singleCharKind (binarySymbol op) = some (operatorKind op) := by
  cases op <;> rfl

theorem lexesTo_formatExpr (expr : Expr) : LexesTo (formatExpr expr).toList (faces expr) := by
  induction expr with
  | number value => exact lexesTo_literal value
  | unaryOp op operand ih =>
      cases op
      simp only [formatExpr, String.toList_append]
      exact (ih.guarded _ _).symbol rfl
  | binaryOp op left right leftIH rightIH =>
      have operator := singleCharKind_binarySymbol op
      have onRight := ((rightIH.guarded right (infixPowers op).2).space.symbol
        operator).space
      have whole := (leftIH.guarded left (infixPowers op).1).append onRight
        (by simp) rfl
      have same : (formatExpr (.binaryOp op left right)).toList =
          (Formatter.guarded left (formatExpr left) (infixPowers op).1).toList ++
            ' ' :: binarySymbol op :: ' ' ::
              (Formatter.guarded right (formatExpr right) (infixPowers op).2).toList := by
        cases op <;> simp [formatExpr, binarySymbol]
      rw [same]
      exact whole

theorem tokenize_formatExpr (expr : Expr) :
    ∃ tokens, tokenize (formatExpr expr) = .ok tokens ∧ tokens.map Token.face = faces expr := by
  obtain ⟨tokens, scans, same⟩ := lexesTo_formatExpr expr 0 [] trivial
  rw [List.append_nil] at scans
  exact ⟨tokens, tokenize_ok_iff.mpr scans, same⟩

end Formatter

end Proofhouse
