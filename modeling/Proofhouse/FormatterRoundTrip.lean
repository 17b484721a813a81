import Mathlib.Tactic.TFAE
import Proofhouse.FormatterLexing
import Proofhouse.Grammar

/-!
# Formatting and parsing are inverse

The tokens of a rendering derive the tree behind it, over any reading of
literals, so the formatter's binding powers agree with the parser's levels at
every position. On trees that text can spell, parsing undoes formatting.
-/

set_option autoImplicit false

namespace Proofhouse

open Library

def Expr.literals : Expr → List I64
  | .number value => [value]
  | .unaryOp _ operand => operand.literals
  | .binaryOp _ left right => left.literals ++ right.literals

namespace Formatter

/-- The phrase a rendering is when nothing stands around it. -/
def home : Expr → Phrase
  | .number _ | .unaryOp _ _ => .operand
  | .binaryOp op _ _ => .chain (infixPowers op).1

theorem infixOperator_operatorKind (op : BinaryOperator) :
    infixOperator (operatorKind op) = some (op, (infixPowers op).1) := by
  cases op <;> rfl

theorem infixPowers_snd (op : BinaryOperator) :
    (infixPowers op).2 = (infixPowers op).1 + 1 := by
  cases op <;> rfl

theorem additive_le_infixPowers (op : BinaryOperator) :
    Proofhouse.additive ≤ (infixPowers op).1 := by
  cases op <;> decide

theorem infixPowers_fst_lt_unary (op : BinaryOperator) : (infixPowers op).1 < unary := by
  cases op <;> decide

section Reading

variable {α : Type} {literal : String → Option α} {neg : α → α}
  {join : BinaryOperator → α → α → α} {zero : (literal "0").isSome = true}

private theorem derives_parentheses {child : Expr} {value : α}
    {childFaces : List (TokenKind × String)} {tokens : List Token}
    (own : ∀ inner : List Token, inner.map Token.face = childFaces →
      (tokenGrammar literal neg join zero).Derives (home child) inner value)
    (spelled : tokens.map Token.face = (.lParen, "(") :: (childFaces ++ [(.rParen, ")")])) :
    (tokenGrammar literal neg join zero).Derives .operand tokens value := by
  obtain ⟨opening, afterOpening, rfl, opens, spelledRest⟩ := List.map_eq_cons_iff.mp spelled
  obtain ⟨inner, closers, rfl, spelledInner, ends⟩ := List.map_eq_append_iff.mp spelledRest
  obtain ⟨closing, none, rfl, closes, ends⟩ := List.map_eq_cons_iff.mp ends
  cases List.map_eq_nil_iff.mp ends
  simp only [Token.face, Prod.mk.injEq] at opens closes
  refine .bracket ?_ ?_ (decide_eq_true closes.1)
  · simp only [tokenGrammar, openingWith, opens.1]
  · have derived := own inner spelledInner
    cases child with
    | number | unaryOp => exact .operand derived
    | binaryOp op => exact derived.loosen (additive_le_infixPowers op)

private theorem derives_guarded {child : Expr} {value : α} {floor : Nat}
    {childFaces : List (TokenKind × String)} {tokens : List Token}
    (own : ∀ inner : List Token, inner.map Token.face = childFaces →
      (tokenGrammar literal neg join zero).Derives (home child) inner value)
    (spelled : tokens.map Token.face = guardedFaces child childFaces floor) :
    (tokenGrammar literal neg join zero).Derives (.chain floor) tokens value := by
  rw [guardedFaces] at spelled
  by_cases loose : bindingPower child < floor
  · rw [if_pos loose] at spelled
    exact .operand (derives_parentheses own spelled)
  · rw [if_neg loose] at spelled
    have derived := own tokens spelled
    cases child with
    | number | unaryOp => exact .operand derived
    | binaryOp op => exact derived.loosen (Nat.le_of_not_lt loose)

private theorem derives_guarded_unary {child : Expr} {value : α}
    {childFaces : List (TokenKind × String)} {tokens : List Token}
    (own : ∀ inner : List Token, inner.map Token.face = childFaces →
      (tokenGrammar literal neg join zero).Derives (home child) inner value)
    (spelled : tokens.map Token.face = guardedFaces child childFaces unary) :
    (tokenGrammar literal neg join zero).Derives .operand tokens value := by
  rw [guardedFaces] at spelled
  cases child with
  | number => exact own tokens spelled
  | unaryOp => exact own tokens spelled
  | binaryOp op =>
      rw [bindingPower, if_pos (infixPowers_fst_lt_unary op)] at spelled
      exact derives_parentheses own spelled

/-- The tokens of a rendering derive `value`, whenever the tokens of its
literals do and `value` follows the tree above them. -/
theorem derives_of_faces (value : Expr → α)
    (negation : ∀ operand, value (.unaryOp .neg operand) = neg (value operand))
    (operation : ∀ op left right,
      value (.binaryOp op left right) = join op (value left) (value right))
    {expr : Expr} (reads : ∀ number ∈ expr.literals, ∀ tokens : List Token,
      tokens.map Token.face = literalFaces number →
        (tokenGrammar literal neg join zero).Derives .operand tokens (value (.number number)))
    {tokens : List Token} (spelled : tokens.map Token.face = faces expr) :
    (tokenGrammar literal neg join zero).Derives (home expr) tokens (value expr) := by
  induction expr generalizing tokens with
  | number number => exact reads number (by simp [Expr.literals]) tokens spelled
  | unaryOp op operand ih =>
      cases op
      obtain ⟨minus, rest, rfl, isMinus, spelled⟩ := List.map_eq_cons_iff.mp spelled
      simp only [Token.face, Prod.mk.injEq] at isMinus
      rw [negation]
      refine .prefixed ?_ (derives_guarded_unary (fun _ => ih reads) spelled)
      simp only [tokenGrammar, openingWith, isMinus.1]
  | binaryOp op left right leftIH rightIH =>
      obtain ⟨leftTokens, others, rfl, spelledLeft, spelled⟩ := List.map_eq_append_iff.mp spelled
      obtain ⟨operator, rightTokens, rfl, isOperator, spelledRight⟩ :=
        List.map_eq_cons_iff.mp spelled
      simp only [Token.face, Prod.mk.injEq] at isOperator
      rw [operation]
      refine .join ?_ (Nat.le_refl _)
        (derives_guarded (fun _ => leftIH fun number inLeft =>
          reads number (List.mem_append_left _ inLeft)) spelledLeft) ?_
      · simp only [tokenGrammar, isOperator.1, infixOperator_operatorKind, Option.map_some]
      · rw [← infixPowers_snd]
        exact derives_guarded (fun _ => rightIH fun number inRight =>
          reads number (List.mem_append_right _ inRight)) spelledRight

theorem derives_loosest {expr : Expr} {tokens : List Token} {value : α}
    (derived : (tokenGrammar literal neg join zero).Derives (home expr) tokens value) :
    (tokenGrammar literal neg join zero).Derives (.chain Proofhouse.additive) tokens value := by
  cases expr with
  | number | unaryOp => exact .operand derived
  | binaryOp op => exact derived.loosen (additive_le_infixPowers op)

end Reading

theorem digitRun_toString (number : Nat) : DigitRun (toString number).toList := by
  have digits := digitRun_toDigits number
  rwa [← Nat.toList_repr] at digits

@[simp] theorem decimalValue_toString (number : Nat) :
    decimalValue (toString number).toList = number := by
  have same := decimalValue_toDigits number
  rwa [← Nat.toList_repr] at same

theorem readLiteral_toString {value : I64} (nonnegative : 0 ≤ value.value) :
    readLiteral (toString value.value.natAbs) = some (.number value) := by
  have upper := value.le_greatest
  refine (readLiteral_eq_some_iff (digitRun_toString _)).mpr ⟨value, ?_, ?_, rfl⟩
  · rw [decimalValue_toString]
    omega
  · rw [decimalValue_toString]
    omega

private theorem derives_literalFaces {value : I64} (nonnegative : 0 ≤ value.value)
    {tokens : List Token} (spelled : tokens.map Token.face = literalFaces value) :
    exprGrammar.Derives .operand tokens (.number value) := by
  rw [literalFaces, if_neg (Int.not_lt.mpr nonnegative)] at spelled
  obtain ⟨token, none, rfl, isNumber, ends⟩ := List.map_eq_cons_iff.mp spelled
  cases List.map_eq_nil_iff.mp ends
  simp only [Token.face, Prod.mk.injEq] at isNumber
  refine .literal ((exprGrammar_opening_number isNumber.1).mpr ?_)
  rw [isNumber.2]
  exact readLiteral_toString nonnegative

end Formatter

theorem Spells.literals_nonneg {stratum : Stratum} {tokens : List Token} {expr : Expr}
    (spells : Spells stratum tokens expr) : ∀ value ∈ expr.literals, 0 ≤ value.value := by
  induction spells with
  | exprTerm _ ih | termFactor _ ih | negation _ _ ih | parentheses _ _ _ ih => exact ih
  | plus _ _ _ leftIH rightIH | minus _ _ _ leftIH rightIH | star _ _ _ leftIH rightIH
  | slash _ _ _ leftIH rightIH =>
      intro value member
      rcases List.mem_append.mp member with member | member
      · exact leftIH value member
      · exact rightIH value member
  | number _ _ same =>
      intro value member
      cases List.mem_singleton.mp member
      rw [same]
      exact Int.natCast_nonneg _

theorem parse_formatExpr_of_nonneg {expr : Expr}
    (nonnegative : ∀ value ∈ expr.literals, 0 ≤ value.value) :
    parse (formatExpr expr) = .ok expr := by
  obtain ⟨tokens, scanned, spelled⟩ := Formatter.tokenize_formatExpr expr
  have derived : exprGrammar.Derives (Formatter.home expr) tokens expr :=
    Formatter.derives_of_faces id (fun _ => rfl) (fun _ _ _ => rfl)
      (fun number member _ => Formatter.derives_literalFaces (nonnegative number member)) spelled
  exact parse_ok_iff.mpr ⟨tokens, scanned, Formatter.derives_loosest derived⟩

/-- A tree survives formatting and parsing exactly when some text spells it,
which is when no literal in it is negative. -/
theorem parse_formatExpr_tfae (expr : Expr) :
    List.TFAE [∀ value ∈ expr.literals, 0 ≤ value.value,
      parse (formatExpr expr) = .ok expr,
      ∃ text, parse text = .ok expr] := by
  tfae_have 1 → 2 := parse_formatExpr_of_nonneg
  tfae_have 2 → 3 := fun survives => ⟨formatExpr expr, survives⟩
  tfae_have 3 → 1 := by
    intro spelled
    obtain ⟨text, parsed⟩ := spelled
    obtain ⟨tokens, _, spells⟩ := (parse_eq_ok_iff_spells text expr).mp parsed
    exact spells.literals_nonneg
  tfae_finish

end Proofhouse
