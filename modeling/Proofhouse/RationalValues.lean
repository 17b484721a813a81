import Mathlib.Data.Rat.Lemmas
import Proofhouse.RationalProperties

/-!
# Rational values

What holds of every value the constructors and the checked operations can
build, and when each of them fails.
-/

set_option autoImplicit false

namespace Proofhouse

open Library

namespace Rational

/-!
## Lowest terms
-/

theorem Exact.reduced {overflows : Prop} {value : ℚ} {result : Except EvalError Rational}
    {rational : Rational} (exactly : Exact overflows value result)
    (same : result = .ok rational) : rational.Reduced := by
  cases exactly with
  | ok _ reduced _ =>
      cases same
      exact reduced
  | overflow => cases same

/-- Two values in lowest terms are one number only when they are one pair. -/
theorem Reduced.eq_of_toRat_eq {left right : Rational} (onLeft : left.Reduced)
    (onRight : right.Reduced) (same : left.toRat = right.toRat) : left = right := by
  obtain ⟨numerators, denominators⟩ := Rat.div_int_inj onLeft.positive onRight.positive
    onLeft.coprime onRight.coprime same
  exact Rational.ext (BoundedInteger.ext numerators) (BoundedInteger.ext denominators)

theorem Reduced.denominator_eq_one {rational : Rational} (reduced : rational.Reduced)
    (zero : rational.numerator.value = 0) : rational.denominator.value = 1 := by
  have coprime := reduced.coprime
  have positive := reduced.positive
  rw [zero, Int.gcd_zero_left] at coprime
  omega

theorem Reduced.new_eq {rational : Rational} (reduced : rational.Reduced) :
    new rational.numerator rational.denominator = .ok rational := by
  have exactly := new_exact_of_pos rational.numerator reduced.positive
  generalize built : new rational.numerator rational.denominator = result at exactly
  cases exactly with
  | ok _ onResult same => rw [onResult.eq_of_toRat_eq reduced same]
  | overflow impossible => exact absurd impossible id

/-- What any finite composition of the constructors and the operations yields. -/
inductive Obtained : Rational → Prop where
  | fromInteger (value : I64) : Obtained (fromInteger value)
  | new {numerator denominator rational} :
      new numerator denominator = .ok rational → Obtained rational
  | checkedAdd {left right rational} : Obtained left → Obtained right →
      left.checkedAdd right = .ok rational → Obtained rational
  | checkedSub {left right rational} : Obtained left → Obtained right →
      left.checkedSub right = .ok rational → Obtained rational
  | checkedMul {left right rational} : Obtained left → Obtained right →
      left.checkedMul right = .ok rational → Obtained rational
  | checkedDiv {left right rational} : Obtained left → Obtained right →
      left.checkedDiv right = .ok rational → Obtained rational
  | checkedNeg {operand rational} : Obtained operand →
      operand.checkedNeg = .ok rational → Obtained rational

theorem Obtained.reduced {rational : Rational} (obtained : Obtained rational) :
    rational.Reduced := by
  induction obtained with
  | fromInteger value => exact fromInteger_reduced value
  | @new numerator denominator rational built =>
      by_cases zero : denominator.value = 0
      · rw [new_zero zero] at built
        cases built
      · exact (new_exact numerator zero).reduced built
  | checkedAdd _ _ built onLeft onRight => exact (checkedAdd_exact onLeft onRight).reduced built
  | checkedSub _ _ built onLeft onRight => exact (checkedSub_exact onLeft onRight).reduced built
  | checkedMul _ _ built onLeft onRight => exact (checkedMul_exact onLeft onRight).reduced built
  | @checkedDiv left right rational _ _ built onLeft _ =>
      by_cases zero : right.numerator.value = 0
      · rw [checkedDiv_zero zero] at built
        cases built
      · exact (checkedDiv_exact onLeft zero).reduced built
  | checkedNeg _ built onOperand => exact (checkedNeg_exact onOperand).reduced built

theorem obtained_values_canonical {rational : Rational} (obtained : Obtained rational) :
    0 < rational.denominator.value ∧
    Int.gcd rational.numerator.value rational.denominator.value = 1 ∧
    (rational.numerator.value = 0 → rational.denominator.value = 1) ∧
    new rational.numerator rational.denominator = .ok rational ∧
    ∀ other, Obtained other → (rational = other ↔ rational.toRat = other.toRat) := by
  have reduced := obtained.reduced
  refine ⟨reduced.positive, reduced.coprime, reduced.denominator_eq_one, reduced.new_eq,
    fun other onOther => ⟨fun same => same ▸ rfl, fun same => ?_⟩⟩
  exact reduced.eq_of_toRat_eq onOther.reduced same

/-- Six over minus four is three halves below zero, and is built from itself. -/
theorem obtained_values_canonical_three_halves :
    new ⟨-3, by decide, by decide⟩ ⟨2, by decide, by decide⟩ =
      .ok ⟨⟨-3, by decide, by decide⟩, ⟨2, by decide, by decide⟩⟩ := by
  have built : new ⟨6, by decide, by decide⟩ ⟨-4, by decide, by decide⟩ =
      .ok ⟨⟨-3, by decide, by decide⟩, ⟨2, by decide, by decide⟩⟩ := by decide +kernel
  obtain ⟨-, -, -, again, -⟩ := obtained_values_canonical (.new built)
  exact again

/-!
## Failures
-/

/-- An overflow just when `overflows`, otherwise exactly `value` in lowest terms,
and never a division by zero. -/
structure FailsJustWhen (overflows : Prop) (value : ℚ) (result : Except EvalError Rational) :
    Prop where
  overflow_iff : result = .error .overflow ↔ overflows
  ok_of_not : ¬overflows →
    ∃ rational, result = .ok rational ∧ rational.Reduced ∧ rational.toRat = value
  ne_divisionByZero : result ≠ .error .divisionByZero

theorem Exact.failsJustWhen {overflows : Prop} {value : ℚ} {result : Except EvalError Rational}
    (exactly : Exact overflows value result) : FailsJustWhen overflows value result := by
  cases exactly with
  | @ok rational fits reduced same =>
      refine ⟨⟨fun failed => ?_, fun overflowed => absurd overflowed fits⟩,
        fun _ => ⟨rational, rfl, reduced, same⟩, fun failed => ?_⟩
      · cases failed
      · cases failed
  | overflow overflowed =>
      refine ⟨⟨fun _ => overflowed, fun _ => rfl⟩, fun fits => absurd overflowed fits,
        fun failed => ?_⟩
      cases failed

theorem FailsJustWhen.congr {overflows same : Prop} {value : ℚ}
    {result : Except EvalError Rational} (fails : FailsJustWhen overflows value result)
    (iff : overflows ↔ same) : FailsJustWhen same value result :=
  propext iff ▸ fails

theorem outside_neg_iff {number : Int} (inside : ¬I64.Outside number) :
    I64.Outside (-number) ↔ number = I64.min.value := by
  unfold I64.Outside at *
  change _ ↔ number = -9223372036854775808
  omega

theorem outside_neg_value_iff (bounded : I64) :
    I64.Outside (-bounded.value) ↔ bounded = I64.min :=
  (outside_neg_iff (I64.not_outside bounded)).trans BoundedInteger.ext_iff.symm

theorem new_divisionByZero_iff {numerator denominator : I64} :
    new numerator denominator = .error .divisionByZero ↔ denominator.value = 0 := by
  constructor
  · intro failed
    by_contra nonzero
    exact (new_exact numerator nonzero).failsJustWhen.ne_divisionByZero failed
  · exact new_zero

theorem checkedDiv_divisionByZero_iff {left right : Rational} (onLeft : left.Reduced) :
    left.checkedDiv right = .error .divisionByZero ↔ right.numerator.value = 0 := by
  constructor
  · intro failed
    by_contra nonzero
    exact (checkedDiv_exact onLeft nonzero).failsJustWhen.ne_divisionByZero failed
  · exact checkedDiv_zero

theorem operations_fail_as_documented (numerator denominator : I64) {left right : Rational}
    (onLeft : left.Reduced) (onRight : right.Reduced) :
    (new numerator denominator = .error .divisionByZero ↔ denominator.value = 0) ∧
    (denominator.value ≠ 0 →
      FailsJustWhen (denominator.value < 0 ∧ (numerator = I64.min ∨ denominator = I64.min))
        (numerator.value / denominator.value) (new numerator denominator)) ∧
    FailsJustWhen
      (I64.Outside (left.numerator.value * right.denominator.value) ∨
        I64.Outside (right.numerator.value * left.denominator.value) ∨
        I64.Outside (left.numerator.value * right.denominator.value +
          right.numerator.value * left.denominator.value) ∨
        I64.Outside (left.denominator.value * right.denominator.value))
      (left.toRat + right.toRat) (left.checkedAdd right) ∧
    FailsJustWhen
      (I64.Outside (left.numerator.value * right.denominator.value) ∨
        I64.Outside (right.numerator.value * left.denominator.value) ∨
        I64.Outside (left.numerator.value * right.denominator.value -
          right.numerator.value * left.denominator.value) ∨
        I64.Outside (left.denominator.value * right.denominator.value))
      (left.toRat - right.toRat) (left.checkedSub right) ∧
    FailsJustWhen
      (I64.Outside (left.numerator.value * right.numerator.value) ∨
        I64.Outside (left.denominator.value * right.denominator.value))
      (left.toRat * right.toRat) (left.checkedMul right) ∧
    FailsJustWhen (left.numerator = I64.min) (-left.toRat) left.checkedNeg := by
  refine ⟨new_divisionByZero_iff, fun nonzero => ?_, ?_, ?_, ?_, ?_⟩
  · refine (new_exact numerator nonzero).failsJustWhen.congr ?_
    rw [outside_neg_value_iff, outside_neg_value_iff]
  · exact (checkedAdd_exact onLeft onRight).failsJustWhen
  · exact (checkedSub_exact onLeft onRight).failsJustWhen
  · exact (checkedMul_exact onLeft onRight).failsJustWhen
  · exact (checkedNeg_exact onLeft).failsJustWhen.congr (outside_neg_value_iff _)

/-- A third from a half leaves a sixth. -/
theorem operations_fail_as_documented_sixth :
    ∃ rational : Rational,
      checkedSub ⟨⟨1, by decide, by decide⟩, ⟨2, by decide, by decide⟩⟩
        ⟨⟨1, by decide, by decide⟩, ⟨3, by decide, by decide⟩⟩ = .ok rational ∧
      rational.Reduced ∧ rational.toRat = 1 / 6 := by
  have half : Reduced ⟨⟨1, by decide, by decide⟩, ⟨2, by decide, by decide⟩⟩ :=
    ⟨by decide, by decide⟩
  have third : Reduced ⟨⟨1, by decide, by decide⟩, ⟨3, by decide, by decide⟩⟩ :=
    ⟨by decide, by decide⟩
  obtain ⟨-, -, -, subtracts, -, -⟩ := operations_fail_as_documented I64.min I64.max half third
  obtain ⟨rational, same, reduced, value⟩ :=
    subtracts.ok_of_not (by unfold I64.Outside; decide)
  refine ⟨rational, same, reduced, value.trans ?_⟩
  norm_num [toRat]

/-- One of the two products of the flipped divisor leaves the range. -/
def FlippedProductOutside (left right : Rational) : Prop :=
  I64.Outside (left.numerator.value * right.denominator.value) ∨
    I64.Outside (left.denominator.value * right.numerator.value)

/-- Neither product leaves the range, and both divisions overflow: the least
integer by minus one, which has no spelling, and two by the least integer, which
is minus one over `2 ^ 62`. -/
theorem checkedDiv_overflows_within_range :
    ((fromInteger I64.min).Reduced ∧ (fromInteger ⟨-1, by decide, by decide⟩).Reduced ∧
      ¬FailsJustWhen
        (FlippedProductOutside (fromInteger I64.min) (fromInteger ⟨-1, by decide, by decide⟩))
        ((fromInteger I64.min).toRat / (fromInteger ⟨-1, by decide, by decide⟩).toRat)
        ((fromInteger I64.min).checkedDiv (fromInteger ⟨-1, by decide, by decide⟩))) ∧
    (fromInteger ⟨2, by decide, by decide⟩).Reduced ∧ (fromInteger I64.min).Reduced ∧
      ¬FailsJustWhen
        (FlippedProductOutside (fromInteger ⟨2, by decide, by decide⟩) (fromInteger I64.min))
        ((fromInteger ⟨2, by decide, by decide⟩).toRat / (fromInteger I64.min).toRat)
        ((fromInteger ⟨2, by decide, by decide⟩).checkedDiv (fromInteger I64.min)) := by
  refine ⟨⟨fromInteger_reduced _, fromInteger_reduced _, fun fails => ?_⟩,
    fromInteger_reduced _, fromInteger_reduced _, fun fails => ?_⟩
  · have outside := fails.overflow_iff.mp (by decide +kernel)
    revert outside
    unfold FlippedProductOutside I64.Outside
    decide
  · have outside := fails.overflow_iff.mp (by decide +kernel)
    revert outside
    unfold FlippedProductOutside I64.Outside
    decide

theorem checkedDiv_fails_as_amended {left right : Rational} (onLeft : left.Reduced) :
    (left.checkedDiv right = .error .divisionByZero ↔ right.numerator.value = 0) ∧
    (right.numerator.value ≠ 0 →
      FailsJustWhen
        (FlippedProductOutside left right ∨
          right.numerator.value < 0 ∧
            (left.numerator.value * right.denominator.value = I64.min.value ∨
              left.denominator.value * right.numerator.value = I64.min.value))
        (left.toRat / right.toRat) (left.checkedDiv right)) := by
  refine ⟨checkedDiv_divisionByZero_iff onLeft, fun nonzero => ?_⟩
  refine (checkedDiv_exact onLeft nonzero).failsJustWhen.congr ?_
  have sign : left.denominator.value * right.numerator.value < 0 ↔ right.numerator.value < 0 :=
    ⟨fun negative => by nlinarith [onLeft.positive],
      fun negative => Int.mul_neg_of_pos_of_neg onLeft.positive negative⟩
  unfold FlippedProductOutside
  by_cases onNumerator : I64.Outside (left.numerator.value * right.denominator.value)
  · simp only [onNumerator, true_or]
  · by_cases onDenominator : I64.Outside (left.denominator.value * right.numerator.value)
    · simp only [onDenominator, true_or, or_true]
    · rw [sign, outside_neg_iff onNumerator, outside_neg_iff onDenominator, or_assoc]

/-- A half goes one and a half times into three quarters. With two over the least
integer, and with the least integer over minus one, the sign cannot be moved. The least
integer over two has none to move. -/
theorem checkedDiv_fails_as_amended_half :
    (∃ rational : Rational,
      checkedDiv ⟨⟨3, by decide, by decide⟩, ⟨4, by decide, by decide⟩⟩
        ⟨⟨1, by decide, by decide⟩, ⟨2, by decide, by decide⟩⟩ = .ok rational ∧
      rational.Reduced ∧ rational.toRat = 3 / 2) ∧
    checkedDiv (fromInteger ⟨2, by decide, by decide⟩) (fromInteger I64.min) = .error .overflow ∧
    checkedDiv (fromInteger I64.min) (fromInteger ⟨-1, by decide, by decide⟩) =
      .error .overflow ∧
    ∃ rational : Rational,
      checkedDiv (fromInteger I64.min) (fromInteger ⟨2, by decide, by decide⟩) = .ok rational ∧
      rational.Reduced ∧ rational.toRat = -4611686018427387904 := by
  refine ⟨?_, ?_, ?_, ?_⟩
  · have reduced : Reduced ⟨⟨3, by decide, by decide⟩, ⟨4, by decide, by decide⟩⟩ :=
      ⟨by decide, by decide⟩
    obtain ⟨-, divides⟩ := @checkedDiv_fails_as_amended _
      ⟨⟨1, by decide, by decide⟩, ⟨2, by decide, by decide⟩⟩ reduced
    obtain ⟨rational, same, lowest, value⟩ := (divides (by decide)).ok_of_not
      (by unfold FlippedProductOutside I64.Outside; decide)
    refine ⟨rational, same, lowest, value.trans ?_⟩
    norm_num [toRat]
  · obtain ⟨-, divides⟩ := @checkedDiv_fails_as_amended _ (fromInteger I64.min)
      (fromInteger_reduced ⟨2, by decide, by decide⟩)
    exact (divides (by decide)).overflow_iff.mpr (.inr (by decide))
  · obtain ⟨-, divides⟩ := @checkedDiv_fails_as_amended _
      (fromInteger ⟨-1, by decide, by decide⟩) (fromInteger_reduced I64.min)
    exact (divides (by decide)).overflow_iff.mpr (.inr (by decide))
  · obtain ⟨-, divides⟩ := @checkedDiv_fails_as_amended _
      (fromInteger ⟨2, by decide, by decide⟩) (fromInteger_reduced I64.min)
    obtain ⟨rational, same, lowest, value⟩ := (divides (by decide)).ok_of_not
      (by unfold FlippedProductOutside I64.Outside; decide)
    refine ⟨rational, same, lowest, value.trans ?_⟩
    norm_num [toRat, fromInteger, I64.min]

end Rational

end Proofhouse
