import Proofhouse.Library.EuclideanDivisions
import Proofhouse.ReductionLoop

/-!
# Passes of the reduction loop

The loop makes one pass for each division of Euclid's algorithm. The largest
Fibonacci number of the type bounds them for every fraction, and is reached.
-/

set_option autoImplicit false

namespace Proofhouse

open Library

theorem I64.toNat_remEuclid {dividend divisor : I64} (nonnegative : 0 ≤ dividend.value)
    (positive : 0 < divisor.value) :
    (dividend.remEuclid divisor).value.toNat = dividend.value.toNat % divisor.value.toNat :=
  Int.toNat_emod nonnegative positive.le

theorem divisorWhile_pass {larger smaller : I64} (positive : 0 < smaller.value) :
    divisorWhile.Pass ⟨larger, smaller⟩ ⟨smaller, larger.remEuclid smaller⟩ := by
  refine ⟨decide_eq_true positive.ne', ?_⟩
  change (larger.checkedRemEuclid smaller).bind _ = _
  rw [I64.checkedRemEuclid_of_pos _ positive]
  rfl

/-- The loop follows the recursion that it was read as, division by division. -/
theorem divisorWhile_endsAfter {larger smaller : I64} (positive : 0 < larger.value)
    (nonnegative : 0 ≤ smaller.value) :
    ∃ last, divisorWhile.EndsAfter (divisions larger.value.toNat smaller.value.toNat)
        ⟨larger, smaller⟩ last ∧ last.larger = divisorLoop larger smaller := by
  induction larger, smaller using divisorLoop.induct with
  | case1 larger smaller zero =>
      rw [divisorLoop, if_pos zero, zero, Int.toNat_zero, divisions_zero]
      exact ⟨_, .none (decide_eq_false (not_not.mpr zero)), rfl⟩
  | case2 larger smaller nonzero ih =>
      have smallerPositive := lt_of_le_of_ne nonnegative (Ne.symm nonzero)
      obtain ⟨last, ends, same⟩ := ih smallerPositive
        (I64.remEuclid_bounds larger smallerPositive).1
      rw [I64.toNat_remEuclid positive.le smallerPositive] at ends
      rw [divisorLoop, if_neg nonzero, divisions_of_ne_zero (by omega)]
      exact ⟨last, ends.pass (divisorWhile_pass smallerPositive), same⟩

theorem fib_beyond : 9223372036854775807 < Nat.fib 93 := by
  decide +kernel

theorem passes_le_ninety {passes : Nat} {denominator : I64} (positive : 0 < denominator.value)
    (large : Nat.fib (passes + 2) ≤ denominator.value.toNat) : passes ≤ 90 := by
  by_contra many
  have above := denominator.le_greatest
  have beyond := fib_beyond
  have monotone := @Nat.fib_mono 93 _ (Nat.add_le_add_right (Nat.lt_of_not_le many) 2)
  omega

/-- The loop ends within ninety passes, at the greatest common divisor, and a
denominator is at least as large as the Fibonacci number two past its passes.
Some fraction takes all ninety. -/
theorem reduction_loop_passes :
    (∀ numerator denominator : I64, 0 < denominator.value →
      (∃ passes last, divisorWhile.EndsAfter passes (divisorStart numerator denominator) last) ∧
      ∀ passes last, divisorWhile.EndsAfter passes (divisorStart numerator denominator) last →
        last.larger = greatestCommonDivisor numerator denominator ∧
        Nat.fib (passes + 2) ≤ denominator.value.toNat ∧ passes ≤ 90) ∧
    ∃ numerator denominator : I64, 0 < denominator.value ∧
      ∃ last, divisorWhile.EndsAfter 90 (divisorStart numerator denominator) last := by
  constructor
  · intro numerator denominator positive
    obtain ⟨nonnegative, less⟩ := I64.remEuclid_bounds numerator positive
    obtain ⟨found, ends, same⟩ := divisorWhile_endsAfter positive nonnegative
    obtain ⟨large, -⟩ := @fib_le_of_divisions denominator.value.toNat
      (numerator.remEuclid denominator).value.toNat (by omega)
    refine ⟨⟨_, found, ends⟩, fun passes last alsoEnds => ?_⟩
    obtain ⟨rfl, rfl⟩ := ends.unique alsoEnds
    exact ⟨same, large, passes_le_ninety positive large⟩
  · refine ⟨⟨4660046610375530309, by decide, by decide⟩,
      ⟨7540113804746346429, by decide, by decide⟩, by decide, ?_⟩
    obtain ⟨last, comes, ended⟩ := Option.map_eq_some_iff.mp (show
      (divisorWhile.after 90 (divisorStart ⟨4660046610375530309, by decide, by decide⟩
        ⟨7540113804746346429, by decide, by decide⟩)).map divisorWhile.guard = some false by
      decide +kernel)
    exact ⟨last, comes, ended⟩

/-- Minus eight over thirteen leaves five, three, two and one, and nothing. -/
theorem reduction_loop_passes_thirteen :
    ∃ passes last, divisorWhile.EndsAfter passes
      (divisorStart ⟨-8, by decide, by decide⟩ ⟨13, by decide, by decide⟩) last ∧
      last.larger.value = 1 ∧ passes ≤ 90 := by
  obtain ⟨onFractions, -⟩ := reduction_loop_passes
  have positive : 0 < (13 : Int) := by decide
  obtain ⟨⟨passes, last, ends⟩, onEnds⟩ :=
    onFractions ⟨-8, by decide, by decide⟩ ⟨13, by decide, by decide⟩ positive
  obtain ⟨divisor, -, few⟩ := onEnds passes last ends
  refine ⟨passes, last, ends, ?_, few⟩
  rw [divisor]
  decide +kernel

end Proofhouse
