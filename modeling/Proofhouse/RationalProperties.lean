import Mathlib.Algebra.Order.Field.Rat
import Mathlib.Data.Int.Cast.Field
import Mathlib.Data.Int.GCD
import Mathlib.Tactic.FieldSimp
import Mathlib.Tactic.Linarith
import Mathlib.Tactic.Ring
import Proofhouse.Evaluator

/-!
# Rational arithmetic is exact

Every operation either leaves the range of `i64` or yields the number it is
named after, in lowest terms over a positive denominator.
-/

set_option autoImplicit false

namespace Proofhouse

open Library

def I64.Outside (value : Int) : Prop :=
  ¬(-9223372036854775808 ≤ value ∧ value ≤ 9223372036854775807)

theorem I64.not_outside (bounded : I64) : ¬Outside bounded.value :=
  fun outside => outside ⟨bounded.least_le, bounded.le_greatest⟩

theorem divisorLoop_value {larger smaller : I64} (positive : 0 < larger.value)
    (nonnegative : 0 ≤ smaller.value) :
    (divisorLoop larger smaller).value = Int.gcd larger.value smaller.value := by
  induction larger, smaller using divisorLoop.induct with
  | case1 larger smaller zero =>
      rw [divisorLoop, if_pos zero, zero, Int.gcd_zero_right]
      omega
  | case2 larger smaller nonzero ih =>
      have remainder : (larger.remEuclid smaller).value = larger.value % smaller.value := rfl
      have step := Int.gcd_emod larger.value smaller.value
      rw [divisorLoop, if_neg nonzero, ih (by omega)
        (remainder ▸ Int.emod_nonneg larger.value nonzero), remainder, Int.gcd_comm, step]

theorem greatestCommonDivisor_value (numerator : I64) {denominator : I64}
    (positive : 0 < denominator.value) :
    (greatestCommonDivisor numerator denominator).value =
      Int.gcd numerator.value denominator.value := by
  have remainder : (numerator.remEuclid denominator).value =
      numerator.value % denominator.value := rfl
  rw [greatestCommonDivisor, divisorLoop_value positive
    (remainder ▸ Int.emod_nonneg numerator.value (by omega)), remainder, Int.gcd_comm,
    Int.gcd_emod]

theorem greatestCommonDivisor_pos (numerator : I64) {denominator : I64}
    (positive : 0 < denominator.value) :
    0 < (greatestCommonDivisor numerator denominator).value := by
  rw [greatestCommonDivisor_value numerator positive]
  exact_mod_cast Int.gcd_pos_of_ne_zero_right _ positive.ne'

theorem greatestCommonDivisor_dvd (numerator : I64) {denominator : I64}
    (positive : 0 < denominator.value) :
    (greatestCommonDivisor numerator denominator).value ∣ numerator.value ∧
      (greatestCommonDivisor numerator denominator).value ∣ denominator.value := by
  rw [greatestCommonDivisor_value numerator positive]
  exact ⟨Int.gcd_dvd_left _ _, Int.gcd_dvd_right _ _⟩

/-- Dividing by a positive divisor of the dividend stays within the type. -/
theorem I64.div_value {dividend divisor : I64} (positive : 0 < divisor.value)
    (divides : divisor.value ∣ dividend.value) :
    (dividend.div divisor).value = dividend.value / divisor.value := by
  have lower := dividend.least_le
  have upper := dividend.le_greatest
  obtain ⟨quotient, same⟩ := divides
  have exactly : dividend.value / divisor.value = quotient := by
    rw [same, Int.mul_ediv_cancel_left _ (by omega)]
  have least : -9223372036854775808 ≤ quotient := by nlinarith
  have greatest : quotient ≤ 9223372036854775807 := by nlinarith
  rw [I64.div, Int.tdiv_eq_ediv_of_dvd ⟨quotient, same⟩, exactly,
    BoundedInteger.clamp_value least]
  omega

namespace Rational

/-- The one shape every value holds. -/
structure Reduced (rational : Rational) : Prop where
  positive : 0 < rational.denominator.value
  coprime : Int.gcd rational.numerator.value rational.denominator.value = 1

def toRat (rational : Rational) : ℚ :=
  rational.numerator.value / rational.denominator.value

theorem Reduced.toRat_eq_zero_iff {rational : Rational} (reduced : rational.Reduced) :
    rational.toRat = 0 ↔ rational.numerator.value = 0 := by
  have positive := reduced.positive
  have nonzero : (rational.denominator.value : ℚ) ≠ 0 := by exact_mod_cast positive.ne'
  rw [toRat, div_eq_zero_iff]
  constructor
  · rintro (zero | zero)
    · exact_mod_cast zero
    · exact absurd zero nonzero
  · intro zero
    exact .inl (by exact_mod_cast zero)

/-- `Exact overflows value result`: the result is `value` in lowest terms, or an
overflow just when `overflows`. -/
inductive Exact (overflows : Prop) (value : ℚ) : Except EvalError Rational → Prop where
  | ok {rational} : ¬overflows → rational.Reduced → rational.toRat = value →
      Exact overflows value (.ok rational)
  | overflow : overflows → Exact overflows value (.error .overflow)

theorem Exact.congr {overflows same : Prop} {value : ℚ} {result : Except EvalError Rational}
    (exactly : Exact overflows value result) (iff : overflows ↔ same) :
    Exact same value result :=
  propext iff ▸ exactly

/-- A checked step overflows on its own, or hands its value to what follows. -/
theorem Exact.checked {overflows : Prop} {value : ℚ} {number : Int}
    {next : I64 → Except EvalError Rational}
    (goesOn : ∀ bounded : I64, bounded.value = number → Exact overflows value (next bounded)) :
    Exact (I64.Outside number ∨ overflows) value
      (orOverflow (BoundedInteger.ofInt? number) >>= next) := by
  cases checked : (BoundedInteger.ofInt? number : Option I64) with
  | none => exact .overflow (.inl (BoundedInteger.ofInt?_eq_none_iff.mp checked))
  | some bounded =>
      have same := BoundedInteger.ofInt?_eq_some_iff.mp checked
      refine (goesOn bounded same).congr ?_
      have inside := I64.not_outside bounded
      rw [same] at inside
      simp [inside]

theorem Exact.checked_last {value : ℚ} {number : Int} {next : I64 → Except EvalError Rational}
    (goesOn : ∀ bounded : I64, bounded.value = number → Exact False value (next bounded)) :
    Exact (I64.Outside number) value (orOverflow (BoundedInteger.ofInt? number) >>= next) :=
  (Exact.checked goesOn).congr (iff_of_eq (or_false _))

theorem reduced_exact (numerator : I64) {denominator : I64} (positive : 0 < denominator.value) :
    Exact False (numerator.value / denominator.value)
      (.ok (reduced numerator denominator (greatestCommonDivisor numerator denominator))) := by
  have divisor := greatestCommonDivisor_value numerator positive
  have commonPositive := greatestCommonDivisor_pos numerator positive
  obtain ⟨intoNumerator, intoDenominator⟩ := greatestCommonDivisor_dvd numerator positive
  have nonzero : (denominator.value : ℚ) ≠ 0 := by exact_mod_cast positive.ne'
  have counted : 0 < Int.gcd numerator.value denominator.value :=
    Int.gcd_pos_of_ne_zero_right _ positive.ne'
  generalize greatestCommonDivisor numerator denominator = common at *
  have numeratorValue := I64.div_value commonPositive intoNumerator
  have denominatorValue := I64.div_value commonPositive intoDenominator
  refine .ok id ⟨?_, ?_⟩ ?_
  · change 0 < (denominator.div common).value
    rw [denominatorValue]
    exact Int.ediv_pos_of_pos_of_dvd positive commonPositive.le intoDenominator
  · change Int.gcd (numerator.div common).value (denominator.div common).value = 1
    rw [numeratorValue, denominatorValue, divisor]
    exact Int.gcd_div_gcd_div_gcd counted
  · change ((numerator.div common).value : ℚ) / ((denominator.div common).value : ℚ) = _
    have commonNonzero : (common.value : ℚ) ≠ 0 := by exact_mod_cast commonPositive.ne'
    rw [numeratorValue, denominatorValue, Int.cast_div intoNumerator commonNonzero,
      Int.cast_div intoDenominator commonNonzero]
    field_simp

theorem new_zero {numerator denominator : I64} (zero : denominator.value = 0) :
    new numerator denominator = .error .divisionByZero := by
  rw [new, if_pos zero]

theorem new_exact (numerator : I64) {denominator : I64} (nonzero : denominator.value ≠ 0) :
    Exact (denominator.value < 0 ∧ (I64.Outside (-numerator.value) ∨
        I64.Outside (-denominator.value)))
      (numerator.value / denominator.value) (new numerator denominator) := by
  rw [new, if_neg nonzero]
  by_cases negative : denominator.value < 0
  · simp only [if_pos negative, pure_bind]
    refine (Exact.checked fun signed signedValue =>
      Exact.checked fun flipped flippedValue => ?_ : Exact
        (I64.Outside (-numerator.value) ∨ I64.Outside (-denominator.value) ∨ False) _ _).congr
          (by simp [negative])
    have exactly := reduced_exact signed (by omega : 0 < flipped.value)
    rw [signedValue, flippedValue] at exactly
    rwa [Int.cast_neg, Int.cast_neg, neg_div_neg_eq] at exactly
  · simp only [if_neg negative, pure_bind]
    exact (reduced_exact numerator (by omega)).congr (by simp [negative])

theorem new_exact_of_pos (numerator : I64) {denominator : I64} (positive : 0 < denominator.value) :
    Exact False (numerator.value / denominator.value) (new numerator denominator) :=
  (new_exact numerator (by omega)).congr (by simp; omega)

theorem fromInteger_reduced (value : I64) : (fromInteger value).Reduced :=
  ⟨Int.zero_lt_one, Int.gcd_one_right _⟩

@[simp] theorem fromInteger_toRat (value : I64) : (fromInteger value).toRat = value.value := by
  simp [fromInteger, toRat]

section Operations

variable {left right : Rational}

theorem combine_exact {join : I64 → I64 → Option I64} (joined : Int → Int → Int) {value : ℚ}
    (joins : ∀ first second, join first second =
      BoundedInteger.ofInt? (joined first.value second.value))
    (onLeft : left.Reduced) (onRight : right.Reduced)
    (meaning : (joined (left.numerator.value * right.denominator.value)
      (right.numerator.value * left.denominator.value) : ℚ) /
        (left.denominator.value * right.denominator.value) = value) :
    Exact (I64.Outside (left.numerator.value * right.denominator.value) ∨
        I64.Outside (right.numerator.value * left.denominator.value) ∨
        I64.Outside (joined (left.numerator.value * right.denominator.value)
          (right.numerator.value * left.denominator.value)) ∨
        I64.Outside (left.denominator.value * right.denominator.value))
      value (left.combine right join) := by
  have positive := Int.mul_pos onLeft.positive onRight.positive
  rw [combine]
  refine Exact.checked fun leftCross leftValue => Exact.checked fun rightCross rightValue => ?_
  rw [joins, leftValue, rightValue]
  refine Exact.checked fun numerator numeratorValue => ?_
  refine Exact.checked_last fun denominator denominatorValue => ?_
  have exactly := new_exact_of_pos numerator (denominatorValue ▸ positive)
  rwa [numeratorValue, denominatorValue, Int.cast_mul, meaning] at exactly

theorem Reduced.denominator_ne_zero (reduced : left.Reduced) :
    (left.denominator.value : ℚ) ≠ 0 := by
  exact_mod_cast reduced.positive.ne'

theorem checkedAdd_exact (onLeft : left.Reduced) (onRight : right.Reduced) :
    Exact (I64.Outside (left.numerator.value * right.denominator.value) ∨
        I64.Outside (right.numerator.value * left.denominator.value) ∨
        I64.Outside (left.numerator.value * right.denominator.value +
          right.numerator.value * left.denominator.value) ∨
        I64.Outside (left.denominator.value * right.denominator.value))
      (left.toRat + right.toRat) (left.checkedAdd right) := by
  have leftNonzero := onLeft.denominator_ne_zero
  have rightNonzero := onRight.denominator_ne_zero
  refine combine_exact (· + ·) (fun _ _ => rfl) onLeft onRight ?_
  simp only [toRat, Int.cast_add, Int.cast_mul]
  field_simp

theorem checkedSub_exact (onLeft : left.Reduced) (onRight : right.Reduced) :
    Exact (I64.Outside (left.numerator.value * right.denominator.value) ∨
        I64.Outside (right.numerator.value * left.denominator.value) ∨
        I64.Outside (left.numerator.value * right.denominator.value -
          right.numerator.value * left.denominator.value) ∨
        I64.Outside (left.denominator.value * right.denominator.value))
      (left.toRat - right.toRat) (left.checkedSub right) := by
  have leftNonzero := onLeft.denominator_ne_zero
  have rightNonzero := onRight.denominator_ne_zero
  refine combine_exact (· - ·) (fun _ _ => rfl) onLeft onRight ?_
  simp only [toRat, Int.cast_sub, Int.cast_mul]
  field_simp

theorem checkedMul_exact (onLeft : left.Reduced) (onRight : right.Reduced) :
    Exact (I64.Outside (left.numerator.value * right.numerator.value) ∨
        I64.Outside (left.denominator.value * right.denominator.value))
      (left.toRat * right.toRat) (left.checkedMul right) := by
  have positive := Int.mul_pos onLeft.positive onRight.positive
  rw [checkedMul]
  refine Exact.checked fun numerator numeratorValue => ?_
  refine Exact.checked_last fun denominator denominatorValue => ?_
  have exactly := new_exact_of_pos numerator (denominatorValue ▸ positive)
  rwa [numeratorValue, denominatorValue, Int.cast_mul, Int.cast_mul, ← div_mul_div_comm]
    at exactly

theorem checkedDiv_zero (zero : right.numerator.value = 0) :
    left.checkedDiv right = .error .divisionByZero := by
  rw [checkedDiv, if_pos zero]

/-- The sign of the divisor moves to the numerator at the end, where a half can
still overflow. -/
theorem checkedDiv_exact (onLeft : left.Reduced)
    (nonzero : right.numerator.value ≠ 0) :
    Exact (I64.Outside (left.numerator.value * right.denominator.value) ∨
        I64.Outside (left.denominator.value * right.numerator.value) ∨
        left.denominator.value * right.numerator.value < 0 ∧
          (I64.Outside (-(left.numerator.value * right.denominator.value)) ∨
            I64.Outside (-(left.denominator.value * right.numerator.value))))
      (left.toRat / right.toRat) (left.checkedDiv right) := by
  have product := mul_ne_zero onLeft.positive.ne' nonzero
  rw [checkedDiv, if_neg nonzero]
  refine Exact.checked fun numerator numeratorValue =>
    Exact.checked fun denominator denominatorValue => ?_
  have exactly := new_exact numerator (denominatorValue ▸ product)
  rwa [numeratorValue, denominatorValue, Int.cast_mul, Int.cast_mul,
    ← div_div_div_eq] at exactly

theorem checkedNeg_exact (reduced : left.Reduced) :
    Exact (I64.Outside (-left.numerator.value)) (-left.toRat) left.checkedNeg := by
  rw [checkedNeg]
  refine Exact.checked_last fun numerator numeratorValue => ?_
  refine .ok id ⟨reduced.positive, ?_⟩ ?_
  · change Int.gcd numerator.value left.denominator.value = 1
    rw [numeratorValue, Int.neg_gcd, reduced.coprime]
  · simp only [toRat, numeratorValue, Int.cast_neg, neg_div]

end Operations

end Rational

end Proofhouse
