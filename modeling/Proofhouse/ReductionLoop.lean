import Proofhouse.Library.WhileLoop
import Proofhouse.RationalProperties

/-!
# The reduction loop

The loop of `greatest_common_divisor` one pass at a time, and the two divisions
of `Rational::reduced`: nothing panics, the loop ends at the greatest common
divisor, and the divisions lose nothing.
-/

set_option autoImplicit false

namespace Proofhouse

open Library

/-- The variables of the loop. -/
structure DivisorState where
  larger : I64
  smaller : I64

/-- The loop as written, stuck where `rem_euclid` panics. -/
def divisorWhile : WhileLoop DivisorState where
  guard state := decide (state.smaller.value ≠ 0)
  body state := do
    let remainder ← state.larger.checkedRemEuclid state.smaller
    return ⟨state.smaller, remainder⟩

/-- What the variables hold when the loop is entered. -/
def divisorStart (numerator denominator : I64) : DivisorState :=
  ⟨denominator, numerator.remEuclid denominator⟩

/-- Both variables share their greatest common divisor with the pair that the
loop was entered for. -/
structure DivisorInvariant (common : Nat) (state : DivisorState) : Prop where
  positive : 0 < state.larger.value
  nonnegative : 0 ≤ state.smaller.value
  divisor : Int.gcd state.larger.value state.smaller.value = common

theorem I64.checkedRemEuclid_of_pos (dividend : I64) {divisor : I64}
    (positive : 0 < divisor.value) :
    dividend.checkedRemEuclid divisor = some (dividend.remEuclid divisor) :=
  if_neg (by omega)

theorem I64.remEuclid_bounds (dividend : I64) {divisor : I64} (positive : 0 < divisor.value) :
    0 ≤ (dividend.remEuclid divisor).value ∧
      (dividend.remEuclid divisor).value < divisor.value :=
  ⟨Int.emod_nonneg _ positive.ne', Int.emod_lt_of_pos _ positive⟩

/-- A quotient that divides without a remainder is in range. -/
theorem I64.checkedDiv_of_dvd {dividend divisor : I64} (positive : 0 < divisor.value)
    (divides : divisor.value ∣ dividend.value) :
    dividend.checkedDiv divisor = some (dividend.div divisor) := by
  rw [checkedDiv, if_neg positive.ne', BoundedInteger.ofInt?_eq_some_iff,
    I64.div_value positive divides, Int.tdiv_eq_ediv_of_dvd divides]

theorem DivisorInvariant.start (numerator : I64) {denominator : I64}
    (positive : 0 < denominator.value) :
    DivisorInvariant (Int.gcd numerator.value denominator.value)
      (divisorStart numerator denominator) := by
  refine ⟨positive, (I64.remEuclid_bounds numerator positive).1, ?_⟩
  change Int.gcd denominator.value (numerator.value % denominator.value) = _
  rw [Int.gcd_comm, Int.gcd_emod]

theorem DivisorInvariant.smaller_pos {common : Nat} {state : DivisorState}
    (invariant : DivisorInvariant common state) (goesOn : state.smaller.value ≠ 0) :
    0 < state.smaller.value :=
  lt_of_le_of_ne invariant.nonnegative goesOn.symm

/-- One pass divides by a positive number, and leaves less than it. -/
theorem divisorWhile_total (common : Nat) :
    divisorWhile.Total (DivisorInvariant common) fun state => state.smaller.value.toNat := by
  intro state invariant goesOn
  have positive := invariant.smaller_pos (of_decide_eq_true goesOn)
  obtain ⟨nonnegative, less⟩ := I64.remEuclid_bounds state.larger positive
  refine ⟨⟨state.smaller, state.larger.remEuclid state.smaller⟩, ?_,
    ⟨positive, nonnegative, ?_⟩, ?_⟩
  · change (state.larger.checkedRemEuclid state.smaller).bind _ = _
    rw [I64.checkedRemEuclid_of_pos _ positive]
    rfl
  · change Int.gcd state.smaller.value (state.larger.value % state.smaller.value) = common
    rw [Int.gcd_comm, Int.gcd_emod, invariant.divisor]
  · dsimp only
    omega

namespace Rational

/-- The divisor is the greatest that goes into both halves, and both divisions by
it have a result, exact and of the numerator's sign. -/
structure ReducesExactly (numerator denominator divisor : I64) : Prop where
  one_le : 1 ≤ divisor.value
  greatest : divisor.value = Int.gcd numerator.value denominator.value
  dvd_numerator : divisor.value ∣ numerator.value
  dvd_denominator : divisor.value ∣ denominator.value
  numerator_divided : numerator.checkedDiv divisor =
    some (reduced numerator denominator divisor).numerator
  denominator_divided : denominator.checkedDiv divisor =
    some (reduced numerator denominator divisor).denominator
  numerator_exact :
    (reduced numerator denominator divisor).numerator.value * divisor.value = numerator.value
  denominator_exact :
    (reduced numerator denominator divisor).denominator.value * divisor.value = denominator.value
  sign : (reduced numerator denominator divisor).numerator.value.sign = numerator.value.sign

theorem reducesExactly (numerator : I64) {denominator : I64} (positive : 0 < denominator.value) :
    ReducesExactly numerator denominator (greatestCommonDivisor numerator denominator) := by
  have greatest := greatestCommonDivisor_value numerator positive
  have divisorPositive := greatestCommonDivisor_pos numerator positive
  obtain ⟨intoNumerator, intoDenominator⟩ := greatestCommonDivisor_dvd numerator positive
  generalize greatestCommonDivisor numerator denominator = divisor at *
  have exactly : (numerator.div divisor).value * divisor.value = numerator.value := by
    rw [I64.div_value divisorPositive intoNumerator, Int.ediv_mul_cancel intoNumerator]
  refine ⟨divisorPositive, greatest, intoNumerator, intoDenominator,
    I64.checkedDiv_of_dvd divisorPositive intoNumerator,
    I64.checkedDiv_of_dvd divisorPositive intoDenominator, exactly, ?_, ?_⟩
  · change (denominator.div divisor).value * divisor.value = denominator.value
    rw [I64.div_value divisorPositive intoDenominator, Int.ediv_mul_cancel intoDenominator]
  · change (numerator.div divisor).value.sign = numerator.value.sign
    rw [← exactly, Int.sign_mul, Int.sign_eq_one_of_pos divisorPositive, mul_one]

end Rational

/-- No pass divides by anything but a positive number, each lowers what the next
divides by, and the loop ends where `reduced` has the divisor it needs. -/
theorem reduction_loop_safe (numerator : I64) {denominator : I64}
    (positive : 0 < denominator.value) :
    numerator.checkedRemEuclid denominator = some (numerator.remEuclid denominator) ∧
    (∀ state, divisorWhile.Reaches (divisorStart numerator denominator) state →
      state.smaller.value ≠ 0 → 0 < state.smaller.value ∧
        ∃ next, divisorWhile.body state = some next ∧
          next.smaller.value < state.smaller.value) ∧
    (∃ last, divisorWhile.Reaches (divisorStart numerator denominator) last ∧
      last.smaller.value = 0 ∧ last.larger = greatestCommonDivisor numerator denominator) ∧
    Rational.ReducesExactly numerator denominator
      (greatestCommonDivisor numerator denominator) := by
  have total := divisorWhile_total (Int.gcd numerator.value denominator.value)
  have initially := DivisorInvariant.start numerator positive
  refine ⟨I64.checkedRemEuclid_of_pos numerator positive, fun state reaches goesOn => ?_, ?_,
    Rational.reducesExactly numerator positive⟩
  · have invariant := total.holds initially reaches
    obtain ⟨next, taken, kept, lower⟩ := total state invariant (decide_eq_true goesOn)
    have less : next.smaller.value.toNat < state.smaller.value.toNat := lower
    exact ⟨invariant.smaller_pos goesOn, next, taken, by omega⟩
  · obtain ⟨last, reaches, ended, invariant⟩ := total.ends initially
    have zero : last.smaller.value = 0 := by simpa [divisorWhile] using ended
    have divisor := invariant.divisor
    have lastPositive := invariant.positive
    rw [zero, Int.gcd_zero_right] at divisor
    refine ⟨last, reaches, zero, BoundedInteger.ext ?_⟩
    rw [greatestCommonDivisor_value numerator positive]
    omega

/-- From the least integer over six the loop comes down to two. -/
theorem reduction_loop_safe_min :
    ∃ last, divisorWhile.Reaches (divisorStart I64.min ⟨6, by decide, by decide⟩) last ∧
      last.smaller.value = 0 ∧ last.larger.value = 2 := by
  have positive : 0 < (6 : Int) := by decide
  obtain ⟨-, -, ⟨last, reaches, zero, divisor⟩, -⟩ :=
    @reduction_loop_safe I64.min ⟨6, by decide, by decide⟩ positive
  refine ⟨last, reaches, zero, ?_⟩
  rw [divisor]
  decide +kernel

end Proofhouse
