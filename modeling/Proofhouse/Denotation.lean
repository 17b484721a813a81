import Proofhouse.RationalProperties

/-!
# Denotation of expressions

The exact value of a tree in the rationals, and the soundness of the walk for
it: the walk stands for that value, reports a division by zero where there is
none, or gives up with an overflow.
-/

set_option autoImplicit false

namespace Proofhouse

/-- The value of an operator on two numbers. Nothing is divided by zero. -/
def BinaryOperator.denote : BinaryOperator → ℚ → ℚ → Option ℚ
  | .add, left, right => some (left + right)
  | .sub, left, right => some (left - right)
  | .mul, left, right => some (left * right)
  | .div, left, right => if right = 0 then none else some (left / right)

/-- The value of a tree in the rationals, undefined where some divisor denotes
zero. -/
def Expr.denote : Expr → Option ℚ
  | .number value => some value.value
  | .unaryOp .neg operand => operand.denote.map fun value => -value
  | .binaryOp op left right =>
      left.denote.bind fun leftValue => right.denote.bind fun rightValue =>
        op.denote leftValue rightValue

/-- What a walk may report of a tree with this denotation. -/
inductive Sound : Option ℚ → Except EvalError Rational → Prop where
  | value {rational : Rational} : rational.Reduced → Sound (some rational.toRat) (.ok rational)
  | undefined : Sound none (.error .divisionByZero)
  | overflow {value} : Sound value (.error .overflow)

theorem Rational.Exact.sound {overflows : Prop} {value : ℚ} {result : Except EvalError Rational}
    (exactly : Exact overflows value result) : Sound (some value) result := by
  cases exactly with
  | ok _ reduced same => exact same ▸ .value reduced
  | overflow => exact .overflow

theorem apply_sound (op : BinaryOperator) {left right : Rational} (onLeft : left.Reduced)
    (onRight : right.Reduced) :
    Sound (op.denote left.toRat right.toRat) (apply op left right) := by
  cases op with
  | add => exact (Rational.checkedAdd_exact onLeft onRight).sound
  | sub => exact (Rational.checkedSub_exact onLeft onRight).sound
  | mul => exact (Rational.checkedMul_exact onLeft onRight).sound
  | div =>
      simp only [BinaryOperator.denote, onRight.toRat_eq_zero_iff, apply]
      by_cases zero : right.numerator.value = 0
      · rw [if_pos zero, Rational.checkedDiv_zero zero]
        exact .undefined
      · rw [if_neg zero]
        exact (Rational.checkedDiv_exact onLeft zero).sound

private theorem Sound.bind {value : Option ℚ} {result : Except EvalError Rational}
    {meaning : ℚ → Option ℚ} {next : Rational → Except EvalError Rational}
    (sound : Sound value result)
    (goesOn : ∀ rational, rational.Reduced → Sound (meaning rational.toRat) (next rational)) :
    Sound (value.bind meaning) (result >>= next) := by
  cases sound with
  | value reduced => exact goesOn _ reduced
  | undefined => exact .undefined
  | overflow => exact .overflow

theorem evaluate_sound (expr : Expr) : Sound expr.denote (evaluate expr) := by
  induction expr with
  | number value =>
      rw [Expr.denote, ← Rational.fromInteger_toRat]
      exact .value (Rational.fromInteger_reduced value)
  | unaryOp op operand ih =>
      cases op
      rw [Expr.denote, Option.map_eq_bind]
      exact ih.bind fun rational reduced => (Rational.checkedNeg_exact reduced).sound
  | binaryOp op left right leftIH rightIH =>
      exact leftIH.bind fun leftValue onLeft => rightIH.bind fun rightValue onRight =>
        apply_sound op onLeft onRight

/-- A value is the denotation in lowest terms over a positive denominator, and a
division by zero is reported of undefined trees only. An undefined tree has no
value, and a defined one fails with an overflow if at all. -/
theorem evaluate_agrees_with_denotation (expr : Expr) :
    (∀ rational, evaluate expr = .ok rational →
      expr.denote = some ((rational.numerator.value : ℚ) / rational.denominator.value) ∧
        0 < rational.denominator.value ∧
        Int.gcd rational.numerator.value rational.denominator.value = 1) ∧
    (evaluate expr = .error .divisionByZero → expr.denote = none) ∧
    (expr.denote = none → ∀ rational, evaluate expr ≠ .ok rational) ∧
    (expr.denote ≠ none → ∀ error, evaluate expr = .error error → error = .overflow) := by
  have sound := evaluate_sound expr
  generalize expr.denote = value at sound
  generalize evaluate expr = result at sound
  cases sound with
  | @value rational reduced =>
      refine ⟨fun _ same => ?_, fun failed => ?_, fun undefined => ?_, fun _ _ failed => ?_⟩
      · cases same
        exact ⟨rfl, reduced.positive, reduced.coprime⟩
      · cases failed
      · cases undefined
      · cases failed
  | undefined =>
      refine ⟨fun _ same => ?_, fun _ => rfl, fun _ _ same => ?_, fun defined => ?_⟩
      · cases same
      · cases same
      · exact absurd rfl defined
  | overflow =>
      refine ⟨fun _ same => ?_, fun failed => ?_, fun _ _ same => ?_, fun _ _ failed => ?_⟩
      · cases same
      · cases failed
      · cases same
      · cases failed
        rfl

end Proofhouse
