import Mathlib.Data.Int.GCD
import Proofhouse.Denotation
import Proofhouse.FormatterRoundTrip
import Proofhouse.RationalValues

/-!
# When a tree overflows

One step at most doubles the product of the halves it joins, and lowest terms
only make them smaller. A tree of few and small literals therefore evaluates
exactly. Where nothing is divided, the range of the parts decides alone.
-/

set_option autoImplicit false

namespace Proofhouse

open Library

namespace Rational

/-- Both halves are at most this far from zero. -/
structure Within (bound : Nat) (rational : Rational) : Prop where
  numerator : rational.numerator.value.natAbs ≤ bound
  denominator : rational.denominator.value.natAbs ≤ bound

theorem Within.mono {bound wider : Nat} {rational : Rational} (within : rational.Within bound)
    (wide : bound ≤ wider) : rational.Within wider :=
  ⟨within.numerator.trans wide, within.denominator.trans wide⟩

/-- Lowest terms are no larger than any other halves of the same number. -/
theorem Reduced.within {rational : Rational} (reduced : rational.Reduced) {numerator : Int}
    {denominator : Int} {bound : Nat} (nonzero : denominator ≠ 0)
    (value : rational.toRat = numerator / denominator) (above : numerator.natAbs ≤ bound)
    (below : denominator.natAbs ≤ bound) : rational.Within bound := by
  have own := reduced.denominator_ne_zero
  have other : (denominator : ℚ) ≠ 0 := by exact_mod_cast nonzero
  have crossed : rational.numerator.value * denominator =
      numerator * rational.denominator.value := by
    rw [toRat, div_eq_div_iff own other] at value
    exact_mod_cast value
  have coprime := reduced.coprime
  have intoNumerator : rational.numerator.value ∣ numerator :=
    Int.dvd_of_dvd_mul_left_of_gcd_one ⟨denominator, crossed.symm⟩ coprime
  have intoDenominator : rational.denominator.value ∣ denominator :=
    Int.dvd_of_dvd_mul_right_of_gcd_one ⟨numerator, crossed.trans (Int.mul_comm _ _)⟩
      (Int.gcd_comm _ _ ▸ coprime)
  constructor
  · by_cases zero : numerator = 0
    · subst zero
      rw [zero_mul, mul_eq_zero, or_iff_left nonzero] at crossed
      rw [crossed]
      exact Nat.zero_le _
    · exact (Nat.le_of_dvd (Int.natAbs_pos.mpr zero)
        (Int.natAbs_dvd_natAbs.mpr intoNumerator)).trans above
  · exact (Nat.le_of_dvd (Int.natAbs_pos.mpr nonzero)
      (Int.natAbs_dvd_natAbs.mpr intoDenominator)).trans below

theorem not_outside_of_natAbs {bound : Nat} (inside : bound ≤ 9223372036854775807) {value : Int}
    (within : value.natAbs ≤ bound) : ¬I64.Outside value := by
  rw [I64.Outside, not_not]
  omega

/-- A step that does not overflow, with a bound on both halves of its result. -/
theorem Exact.within {overflows : Prop} {bound : Nat} {result : Except EvalError Rational}
    {value : ℚ} (exactly : Exact overflows value result) (fits : ¬overflows)
    (numerator : Int) {denominator : Int} (nonzero : denominator ≠ 0)
    (same : value = numerator / denominator) (above : numerator.natAbs ≤ bound)
    (below : denominator.natAbs ≤ bound) :
    ∃ rational, result = .ok rational ∧ rational.Reduced ∧ rational.Within bound := by
  cases exactly with
  | overflow overflowed => exact absurd overflowed fits
  | @ok rational _ reduced onValue =>
      exact ⟨rational, rfl, reduced, reduced.within nonzero (onValue.trans same) above below⟩

section

variable {left right : Rational} {leftBound rightBound : Nat}

theorem natAbs_mul_le {first second : Int} (onFirst : first.natAbs ≤ leftBound)
    (onSecond : second.natAbs ≤ rightBound) :
    (first * second).natAbs ≤ leftBound * rightBound := by
  rw [Int.natAbs_mul]
  exact Nat.mul_le_mul onFirst onSecond

theorem apply_within (op : BinaryOperator) (onLeft : left.Reduced) (onRight : right.Reduced)
    (leftWithin : left.Within leftBound) (rightWithin : right.Within rightBound)
    (fits : 2 * (leftBound * rightBound) ≤ 9223372036854775807) :
    (∃ rational, apply op left right = .ok rational ∧ rational.Reduced ∧
      rational.Within (2 * (leftBound * rightBound))) ∨
    apply op left right = .error .divisionByZero := by
  obtain ⟨leftAbove, leftBelow⟩ := leftWithin
  obtain ⟨rightAbove, rightBelow⟩ := rightWithin
  have leftNonzero := onLeft.denominator_ne_zero
  have rightNonzero := onRight.denominator_ne_zero
  have leftCross := natAbs_mul_le leftAbove rightBelow
  have rightCross := natAbs_mul_le rightAbove leftBelow
  have below := natAbs_mul_le leftBelow rightBelow
  rw [Nat.mul_comm rightBound] at rightCross
  have inside : ∀ value : Int, value.natAbs ≤ 2 * (leftBound * rightBound) → ¬I64.Outside value :=
    fun value => not_outside_of_natAbs fits
  have nonzero := Int.ne_of_gt (Int.mul_pos onLeft.positive onRight.positive)
  cases op with
  | add =>
      have sum := Int.natAbs_add_le (left.numerator.value * right.denominator.value)
        (right.numerator.value * left.denominator.value)
      refine .inl ((checkedAdd_exact onLeft onRight).within ?_
        (left.numerator.value * right.denominator.value +
          right.numerator.value * left.denominator.value) nonzero ?_ (by omega) (by omega))
      · simp only [not_or]
        exact ⟨inside _ (by omega), inside _ (by omega), inside _ (by omega), inside _ (by omega)⟩
      · simp only [toRat]
        push_cast
        field_simp
  | sub =>
      have difference := Int.natAbs_sub_le (left.numerator.value * right.denominator.value)
        (right.numerator.value * left.denominator.value)
      refine .inl ((checkedSub_exact onLeft onRight).within ?_
        (left.numerator.value * right.denominator.value -
          right.numerator.value * left.denominator.value) nonzero ?_ (by omega) (by omega))
      · simp only [not_or]
        exact ⟨inside _ (by omega), inside _ (by omega), inside _ (by omega), inside _ (by omega)⟩
      · simp only [toRat]
        push_cast
        field_simp
  | mul =>
      have above := natAbs_mul_le leftAbove rightAbove
      refine .inl ((checkedMul_exact onLeft onRight).within ?_
        (left.numerator.value * right.numerator.value) nonzero ?_ (by omega) (by omega))
      · simp only [not_or]
        exact ⟨inside _ (by omega), inside _ (by omega)⟩
      · simp only [toRat]
        push_cast
        field_simp
  | div =>
      by_cases zero : right.numerator.value = 0
      · exact .inr (checkedDiv_zero zero)
      · have flipped := natAbs_mul_le leftBelow rightAbove
        have product := mul_ne_zero onLeft.positive.ne' zero
        have divisor : (right.numerator.value : ℚ) ≠ 0 := by exact_mod_cast zero
        refine .inl ((checkedDiv_exact onLeft zero).within ?_
          (left.numerator.value * right.denominator.value) product ?_ (by omega) (by omega))
        · simp only [not_or, not_and]
          refine ⟨inside _ (by omega), inside _ (by omega), fun _ => ⟨inside _ ?_, inside _ ?_⟩⟩
          · omega
          · omega
        · simp only [toRat]
          push_cast
          field_simp

theorem checkedNeg_within (reduced : left.Reduced) (within : left.Within leftBound)
    (fits : leftBound ≤ 9223372036854775807) :
    ∃ rational, left.checkedNeg = .ok rational ∧ rational.Reduced ∧ rational.Within leftBound := by
  obtain ⟨above, below⟩ := within
  have negated : (-left.numerator.value).natAbs ≤ leftBound := by omega
  refine (checkedNeg_exact reduced).within (not_outside_of_natAbs fits negated)
    (-left.numerator.value) reduced.positive.ne' ?_ negated below
  rw [toRat, Int.cast_neg, neg_div]

end

end Rational

/-- A bound on both halves of what the tree evaluates to. -/
def Expr.magnitude : Expr → Nat
  | .number value => max 1 value.value.natAbs
  | .unaryOp .neg operand => operand.magnitude
  | .binaryOp _ left right => 2 * (left.magnitude * right.magnitude)

theorem Expr.magnitude_pos (expr : Expr) : 0 < expr.magnitude := by
  induction expr with
  | number value => exact Nat.lt_of_lt_of_le Nat.one_pos (Nat.le_max_left _ _)
  | unaryOp op operand ih =>
      cases op
      exact ih
  | binaryOp op left right leftIH rightIH =>
      exact Nat.mul_pos Nat.two_pos (Nat.mul_pos leftIH rightIH)

theorem evaluate_within (expr : Expr) (fits : expr.magnitude ≤ 9223372036854775807) :
    (∃ rational, evaluate expr = .ok rational ∧ rational.Reduced ∧
      rational.Within expr.magnitude) ∨
    evaluate expr = .error .divisionByZero := by
  induction expr with
  | number value =>
      refine .inl ⟨.fromInteger value, rfl, Rational.fromInteger_reduced value, ?_, ?_⟩
      · exact Nat.le_max_right _ _
      · exact Nat.le_max_left _ _
  | unaryOp op operand ih =>
      cases op
      rw [evaluate]
      rcases ih fits with ⟨value, evaluated, reduced, within⟩ | failed
      · rw [evaluated]
        exact .inl (Rational.checkedNeg_within reduced within fits)
      · rw [failed]
        exact .inr rfl
  | binaryOp op left right leftIH rightIH =>
      have leftPositive := left.magnitude_pos
      have rightPositive := right.magnitude_pos
      rw [Expr.magnitude] at fits
      have leftFits : left.magnitude ≤ left.magnitude * right.magnitude :=
        Nat.le_mul_of_pos_right _ rightPositive
      have rightFits : right.magnitude ≤ left.magnitude * right.magnitude :=
        Nat.le_mul_of_pos_left _ leftPositive
      rw [evaluate]
      rcases leftIH (by omega) with ⟨leftValue, onLeft, leftReduced, leftWithin⟩ | failed
      · rw [onLeft]
        rcases rightIH (by omega) with ⟨rightValue, onRight, rightReduced, rightWithin⟩ | failed
        · rw [onRight]
          exact Rational.apply_within op leftReduced rightReduced leftWithin rightWithin fits
        · rw [failed]
          exact .inr rfl
      · rw [failed]
        exact .inr rfl

theorem two_mul_magnitude_le {expr : Expr} {bound : Nat} (positive : 0 < bound)
    (small : ∀ value ∈ expr.literals, value.value.natAbs ≤ bound) :
    2 * expr.magnitude ≤ (2 * bound) ^ expr.literals.length := by
  induction expr with
  | number value =>
      have within := small value (List.mem_singleton_self value)
      rw [Expr.magnitude, Expr.literals, List.length_singleton, Nat.pow_one]
      omega
  | unaryOp op operand ih =>
      cases op
      exact ih small
  | binaryOp op left right leftIH rightIH =>
      have onLeft := leftIH fun value member => small value (List.mem_append_left _ member)
      have onRight := rightIH fun value member => small value (List.mem_append_right _ member)
      have product := Nat.mul_le_mul onLeft onRight
      rw [Expr.magnitude, Expr.literals, List.length_append, Nat.pow_add]
      calc 2 * (2 * (left.magnitude * right.magnitude))
          = 2 * left.magnitude * (2 * right.magnitude) := by ring
        _ ≤ (2 * bound) ^ left.literals.length * (2 * bound) ^ right.literals.length := product

/-- A tree of few and small literals never overflows: the walk finds its exact
value, or the division by zero that leaves it without one. -/
theorem evaluate_exact_of_small {expr : Expr} {bound : Nat} (positive : 0 < bound)
    (small : ∀ value ∈ expr.literals, value.value.natAbs ≤ bound)
    (few : (2 * bound) ^ expr.literals.length < 2 ^ 64) :
    (∃ rational, evaluate expr = .ok rational ∧ rational.Reduced ∧
      expr.denote = some rational.toRat) ∨
    evaluate expr = .error .divisionByZero ∧ expr.denote = none := by
  have doubled := two_mul_magnitude_le positive small
  have sound := evaluate_sound expr
  rcases evaluate_within expr (by omega) with ⟨rational, evaluated, reduced, -⟩ | failed
  · rw [evaluated] at sound
    generalize expr.denote = value at sound
    cases sound
    exact .inl ⟨rational, evaluated, reduced, rfl⟩
  · rw [failed] at sound
    generalize expr.denote = value at sound
    cases sound
    exact .inr ⟨failed, rfl⟩

theorem evaluate_exact_of_small_quotient :
    ∃ rational : Rational,
      evaluate (.binaryOp .div (.number ⟨123456789, by decide, by decide⟩)
        (.number ⟨-987654321, by decide, by decide⟩)) = .ok rational ∧ rational.Reduced := by
  have few : (2 * 1000000000) ^ 2 < 2 ^ 64 := by decide
  have small : ∀ value ∈ (Expr.binaryOp .div (.number ⟨123456789, by decide, by decide⟩)
      (.number ⟨-987654321, by decide, by decide⟩)).literals,
      value.value.natAbs ≤ 1000000000 := by decide
  rcases evaluate_exact_of_small (by decide) small few with ⟨rational, evaluated, reduced, -⟩ |
    ⟨failed, -⟩
  · exact ⟨rational, evaluated, reduced⟩
  · exact absurd failed (by decide +kernel)

/-!
## Trees without division
-/

/-- The exact value of an operator other than division. -/
def BinaryOperator.onIntegers? : BinaryOperator → Int → Int → Option Int
  | .add, left, right => some (left + right)
  | .sub, left, right => some (left - right)
  | .mul, left, right => some (left * right)
  | .div, _, _ => none

/-- The exact value of a tree that divides nowhere. -/
def Expr.integer? : Expr → Option Int
  | .number value => some value.value
  | .unaryOp .neg operand => operand.integer?.map fun value => -value
  | .binaryOp op left right =>
      left.integer?.bind fun leftValue => right.integer?.bind fun rightValue =>
        op.onIntegers? leftValue rightValue

def Expr.subtrees : Expr → List Expr
  | .number value => [.number value]
  | .unaryOp op operand => .unaryOp op operand :: operand.subtrees
  | .binaryOp op left right => .binaryOp op left right :: (left.subtrees ++ right.subtrees)

/-- Every part of the tree has its value within the range of the type. -/
def Expr.Representable (expr : Expr) : Prop :=
  ∀ part ∈ expr.subtrees, ∀ value, part.integer? = some value → ¬I64.Outside value

namespace Rational

theorem Exact.integer {overflows : Prop} {value : Int} {result : Except EvalError Rational}
    (exactly : Exact overflows value result) (iff : overflows ↔ I64.Outside value) :
    (∃ bounded : I64, bounded.value = value ∧ result = .ok (.fromInteger bounded)) ∨
      I64.Outside value ∧ result = .error .overflow := by
  cases exactly with
  | overflow overflowed => exact .inr ⟨iff.mp overflowed, rfl⟩
  | @ok rational fits reduced onValue =>
      have inside := not_not.mp (fits ∘ iff.mpr)
      refine .inl ⟨⟨value, inside.1, inside.2⟩, rfl, congrArg Except.ok ?_⟩
      refine reduced.eq_of_toRat_eq (fromInteger_reduced _) ?_
      rw [onValue, fromInteger_toRat]

theorem apply_integers {op : BinaryOperator} (left right : I64) {value : Int}
    (onValue : op.onIntegers? left.value right.value = some value) :
    (∃ bounded : I64, bounded.value = value ∧
      apply op (.fromInteger left) (.fromInteger right) = .ok (.fromInteger bounded)) ∨
    I64.Outside value ∧
      apply op (.fromInteger left) (.fromInteger right) = .error .overflow := by
  have one : ¬I64.Outside 1 := by unfold I64.Outside; decide
  have leftInside := I64.not_outside left
  have rightInside := I64.not_outside right
  have leftReduced := fromInteger_reduced left
  have rightReduced := fromInteger_reduced right
  cases op with
  | add =>
      cases onValue
      have exactly := checkedAdd_exact leftReduced rightReduced
      rw [fromInteger_toRat, fromInteger_toRat, ← Int.cast_add] at exactly
      exact exactly.integer (by simp [fromInteger, one, leftInside, rightInside])
  | sub =>
      cases onValue
      have exactly := checkedSub_exact leftReduced rightReduced
      rw [fromInteger_toRat, fromInteger_toRat, ← Int.cast_sub] at exactly
      exact exactly.integer (by simp [fromInteger, one, leftInside, rightInside])
  | mul =>
      cases onValue
      have exactly := checkedMul_exact leftReduced rightReduced
      rw [fromInteger_toRat, fromInteger_toRat, ← Int.cast_mul] at exactly
      exact exactly.integer (by simp [fromInteger, one])
  | div => cases onValue

theorem checkedNeg_integer (operand : I64) :
    (∃ bounded : I64, bounded.value = -operand.value ∧
      (fromInteger operand).checkedNeg = .ok (.fromInteger bounded)) ∨
    I64.Outside (-operand.value) ∧ (fromInteger operand).checkedNeg = .error .overflow := by
  have exactly := checkedNeg_exact (fromInteger_reduced operand)
  rw [fromInteger_toRat, ← Int.cast_neg] at exactly
  exact exactly.integer (by simp [fromInteger])

end Rational

namespace Expr

theorem representable_unaryOp_iff {op : UnaryOperator} {operand : Expr} {value : Int}
    (exact : (unaryOp op operand).integer? = some value) :
    (unaryOp op operand).Representable ↔ ¬I64.Outside value ∧ operand.Representable := by
  simp only [Representable, subtrees, List.forall_mem_cons, exact, Option.some.injEq,
    forall_eq']

theorem representable_binaryOp_iff {op : BinaryOperator} {left right : Expr} {value : Int}
    (exact : (binaryOp op left right).integer? = some value) :
    (binaryOp op left right).Representable ↔
      ¬I64.Outside value ∧ left.Representable ∧ right.Representable := by
  simp only [Representable, subtrees, List.forall_mem_cons, List.forall_mem_append, exact,
    Option.some.injEq, forall_eq']

end Expr

/-- Without a division the walk is integer arithmetic, and overflows just when
some part of the tree has a value beyond the type. -/
theorem evaluate_divisionFree {expr : Expr} {value : Int} (exact : expr.integer? = some value) :
    (∃ bounded : I64, bounded.value = value ∧ evaluate expr = .ok (.fromInteger bounded)) ∧
      expr.Representable ∨
    evaluate expr = .error .overflow ∧ ¬expr.Representable := by
  induction expr generalizing value with
  | number literal =>
      cases exact
      refine .inl ⟨⟨literal, rfl, rfl⟩, ?_⟩
      intro part member value onPart
      cases List.mem_singleton.mp member
      cases onPart
      exact I64.not_outside literal
  | unaryOp op operand ih =>
      cases op
      rw [Expr.representable_unaryOp_iff exact, evaluate]
      obtain ⟨inner, onInner, rfl⟩ := Option.map_eq_some_iff.mp exact
      rcases ih onInner with ⟨⟨bounded, rfl, evaluated⟩, representable⟩ | ⟨failed, not⟩
      · rw [evaluated]
        rcases Rational.checkedNeg_integer bounded with ⟨result, same, negated⟩ |
          ⟨outside, negated⟩
        · exact .inl ⟨⟨result, same, negated⟩, same ▸ I64.not_outside result, representable⟩
        · exact .inr ⟨negated, fun both => both.1 outside⟩
      · rw [failed]
        exact .inr ⟨rfl, fun both => not both.2⟩
  | binaryOp op left right leftIH rightIH =>
      rw [Expr.representable_binaryOp_iff exact, evaluate]
      obtain ⟨leftValue, onLeft, rest⟩ := Option.bind_eq_some_iff.mp exact
      obtain ⟨rightValue, onRight, joined⟩ := Option.bind_eq_some_iff.mp rest
      rcases leftIH onLeft with ⟨⟨leftBounded, rfl, leftEvaluated⟩, leftFits⟩ | ⟨failed, not⟩
      · rw [leftEvaluated]
        rcases rightIH onRight with ⟨⟨rightBounded, rfl, rightEvaluated⟩, rightFits⟩ |
          ⟨failed, not⟩
        · rw [rightEvaluated]
          rcases Rational.apply_integers leftBounded rightBounded joined with
            ⟨result, same, applied⟩ | ⟨outside, applied⟩
          · exact .inl ⟨⟨result, same, applied⟩, same ▸ I64.not_outside result, leftFits,
              rightFits⟩
          · exact .inr ⟨applied, fun both => both.1 outside⟩
        · rw [failed]
          exact .inr ⟨rfl, fun both => not both.2.2⟩
      · rw [failed]
        exact .inr ⟨rfl, fun both => not both.2.1⟩

/-- The least integer is reached, and has no opposite. -/
theorem evaluate_divisionFree_least :
    evaluate (.unaryOp .neg (.binaryOp .sub
      (.unaryOp .neg (.number ⟨9223372036854775807, by decide, by decide⟩))
      (.number ⟨1, by decide, by decide⟩))) = .error .overflow := by
  have exact : (Expr.unaryOp .neg (.binaryOp .sub
      (.unaryOp .neg (.number ⟨9223372036854775807, by decide, by decide⟩))
      (.number ⟨1, by decide, by decide⟩))).integer? = some 9223372036854775808 := by decide
  rcases evaluate_divisionFree exact with ⟨⟨bounded, same, -⟩, -⟩ | ⟨failed, -⟩
  · have above := bounded.le_greatest
    rw [same] at above
    exact absurd above (by decide)
  · exact failed

end Proofhouse
