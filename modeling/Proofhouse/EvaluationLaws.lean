import Mathlib.Tactic.NormNum
import Proofhouse.Denotation
import Proofhouse.RationalValues

/-!
# Laws of evaluation

Lowest terms leave one pair for each number, so two trees of one denotation can
only differ in where they overflow. Sums and products overflow alike either way
round, so reordering their operands keeps every value.
-/

set_option autoImplicit false

namespace Proofhouse

/-!
## One denotation
-/

theorem Sound.agree {value : Option ℚ} {result other : Except EvalError Rational}
    (sound : Sound value result) (otherSound : Sound value other) :
    result = other ∨ result = .error .overflow ∨ other = .error .overflow := by
  cases sound with
  | @value rational reduced =>
      generalize onOther : some rational.toRat = denotation at otherSound
      cases otherSound with
      | value otherReduced =>
          exact .inl (congrArg _ (reduced.eq_of_toRat_eq otherReduced (Option.some.inj onOther)))
      | undefined => cases onOther
      | overflow => exact .inr (.inr rfl)
  | undefined =>
      cases otherSound with
      | undefined => exact .inl rfl
      | overflow => exact .inr (.inr rfl)
  | overflow => exact .inr (.inl rfl)

/-- Trees of one denotation evaluate alike, down to the halves of the value,
unless one of them overflows on the way. -/
theorem evaluate_agree_of_denote_eq {left right : Expr} (same : left.denote = right.denote) :
    evaluate left = evaluate right ∨ evaluate left = .error .overflow ∨
      evaluate right = .error .overflow :=
  (evaluate_sound left).agree (same ▸ evaluate_sound right)

/-- A half and a third make ten twelfths. -/
theorem evaluate_agree_of_denote_eq_five_sixths :
    evaluate (.binaryOp .add
        (.binaryOp .div (.number ⟨1, by decide, by decide⟩) (.number ⟨2, by decide, by decide⟩))
        (.binaryOp .div (.number ⟨1, by decide, by decide⟩) (.number ⟨3, by decide, by decide⟩))) =
      evaluate (.binaryOp .div (.number ⟨-10, by decide, by decide⟩)
        (.number ⟨-12, by decide, by decide⟩)) := by
  have same : (Expr.binaryOp .add
      (.binaryOp .div (.number ⟨1, by decide, by decide⟩) (.number ⟨2, by decide, by decide⟩))
      (.binaryOp .div (.number ⟨1, by decide, by decide⟩)
        (.number ⟨3, by decide, by decide⟩))).denote =
      (Expr.binaryOp .div (.number ⟨-10, by decide, by decide⟩)
        (.number ⟨-12, by decide, by decide⟩)).denote := by
    norm_num [Expr.denote, BinaryOperator.denote]
  rcases evaluate_agree_of_denote_eq same with alike | failed | failed
  · exact alike
  · exact absurd failed (by decide +kernel)
  · exact absurd failed (by decide +kernel)

/-!
## Operand order
-/

/-- Operators that take their operands either way round. -/
def BinaryOperator.Commutes : BinaryOperator → Prop
  | .add | .mul => True
  | .sub | .div => False

/-- The operands of some sums and products, at any depth, stand the other way
round. -/
inductive Expr.Reordered : Expr → Expr → Prop where
  | number (value : I64) : Reordered (.number value) (.number value)
  | unaryOp (op : UnaryOperator) {operand other : Expr} :
      Reordered operand other → Reordered (.unaryOp op operand) (.unaryOp op other)
  | binaryOp (op : BinaryOperator) {left right newLeft newRight : Expr} :
      Reordered left newLeft → Reordered right newRight →
      Reordered (.binaryOp op left right) (.binaryOp op newLeft newRight)
  | exchanged {op : BinaryOperator} {left right newLeft newRight : Expr} :
      op.Commutes → Reordered left newLeft → Reordered right newRight →
      Reordered (.binaryOp op left right) (.binaryOp op newRight newLeft)

theorem Expr.Reordered.symm {expr other : Expr} (reordered : expr.Reordered other) :
    other.Reordered expr := by
  induction reordered with
  | number value => exact .number value
  | unaryOp op _ ih => exact .unaryOp op ih
  | binaryOp op _ _ leftIH rightIH => exact .binaryOp op leftIH rightIH
  | exchanged commutes _ _ leftIH rightIH => exact .exchanged commutes rightIH leftIH

namespace Rational

theorem Exact.unique {overflows same : Prop} {value : ℚ} {result other : Except EvalError Rational}
    (exactly : Exact overflows value result) (otherExactly : Exact same value other)
    (iff : overflows ↔ same) : result = other := by
  cases exactly with
  | ok fits reduced onValue =>
      cases otherExactly with
      | ok _ otherReduced onOther =>
          exact congrArg _ (reduced.eq_of_toRat_eq otherReduced (onValue.trans onOther.symm))
      | overflow overflowed => exact absurd (iff.mpr overflowed) fits
  | overflow overflowed =>
      cases otherExactly with
      | ok fits _ _ => exact absurd (iff.mp overflowed) fits
      | overflow _ => rfl

/-- The two crossed products trade places, and the step overflows alike. -/
theorem apply_comm {op : BinaryOperator} (commutes : op.Commutes) {left right : Rational}
    (onLeft : left.Reduced) (onRight : right.Reduced) :
    apply op left right = apply op right left := by
  cases op with
  | add =>
      have exactly := checkedAdd_exact onLeft onRight
      rw [add_comm left.toRat] at exactly
      refine exactly.unique (checkedAdd_exact onRight onLeft) ?_
      rw [or_left_comm, add_comm (left.numerator.value * right.denominator.value),
        mul_comm left.denominator.value]
  | mul =>
      have exactly := checkedMul_exact onLeft onRight
      rw [mul_comm left.toRat] at exactly
      refine exactly.unique (checkedMul_exact onRight onLeft) ?_
      rw [mul_comm left.numerator.value, mul_comm left.denominator.value]
  | sub | div => exact absurd commutes id

end Rational

theorem evaluate_reduced {expr : Expr} {rational : Rational}
    (evaluated : evaluate expr = .ok rational) : rational.Reduced := by
  have sound := evaluate_sound expr
  rw [evaluated] at sound
  generalize expr.denote = value at sound
  cases sound with
  | value reduced => exact reduced

theorem evaluate_binaryOp_eq_ok_iff {op : BinaryOperator} {left right : Expr}
    {rational : Rational} :
    evaluate (.binaryOp op left right) = .ok rational ↔
      ∃ leftValue rightValue, evaluate left = .ok leftValue ∧ evaluate right = .ok rightValue ∧
        apply op leftValue rightValue = .ok rational := by
  rw [evaluate]
  cases onLeft : evaluate left with
  | error => simp [bind, Except.bind]
  | ok leftValue =>
      cases onRight : evaluate right with
      | error => simp [bind, Except.bind]
      | ok rightValue => simp [bind, Except.bind]

theorem Expr.Reordered.evaluate_ok {expr other : Expr} (reordered : expr.Reordered other)
    {rational : Rational} (evaluated : evaluate expr = .ok rational) :
    evaluate other = .ok rational := by
  induction reordered generalizing rational with
  | number => exact evaluated
  | @unaryOp op operand other _ ih =>
      cases op
      rw [evaluate] at evaluated ⊢
      cases onOperand : evaluate operand with
      | error error =>
          rw [onOperand] at evaluated
          cases evaluated
      | ok value =>
          rw [onOperand] at evaluated
          rw [ih onOperand]
          exact evaluated
  | binaryOp op _ _ leftIH rightIH =>
      obtain ⟨leftValue, rightValue, onLeft, onRight, applied⟩ :=
        evaluate_binaryOp_eq_ok_iff.mp evaluated
      exact evaluate_binaryOp_eq_ok_iff.mpr
        ⟨leftValue, rightValue, leftIH onLeft, rightIH onRight, applied⟩
  | exchanged commutes _ _ leftIH rightIH =>
      obtain ⟨leftValue, rightValue, onLeft, onRight, applied⟩ :=
        evaluate_binaryOp_eq_ok_iff.mp evaluated
      rw [Rational.apply_comm commutes (evaluate_reduced onLeft) (evaluate_reduced onRight)]
        at applied
      exact evaluate_binaryOp_eq_ok_iff.mpr
        ⟨rightValue, leftValue, rightIH onRight, leftIH onLeft, applied⟩

/-- Reordering sums and products keeps the value of a tree, and makes none fail. -/
theorem evaluate_reordered {expr other : Expr} (reordered : expr.Reordered other)
    (rational : Rational) : evaluate expr = .ok rational ↔ evaluate other = .ok rational :=
  ⟨reordered.evaluate_ok, reordered.symm.evaluate_ok⟩

theorem evaluate_reordered_seven :
    evaluate (.binaryOp .add (.number ⟨1, by decide, by decide⟩)
      (.binaryOp .mul (.number ⟨3, by decide, by decide⟩) (.number ⟨2, by decide, by decide⟩))) =
      .ok (.fromInteger ⟨7, by decide, by decide⟩) := by
  have product : Expr.Reordered
      (.binaryOp .mul (.number ⟨2, by decide, by decide⟩) (.number ⟨3, by decide, by decide⟩))
      (.binaryOp .mul (.number ⟨3, by decide, by decide⟩) (.number ⟨2, by decide, by decide⟩)) :=
    .exchanged trivial (.number _) (.number _)
  have reordered := @Expr.Reordered.exchanged .add _ _ _ _ trivial product
    (.number ⟨1, by decide, by decide⟩)
  exact (evaluate_reordered reordered _).mp (by decide +kernel)

end Proofhouse
