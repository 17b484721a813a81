import Proofhouse.Errors
import Proofhouse.Parser

/-!
# Evaluator

Exact rational arithmetic over `i64` halves, and the walk of an expression tree
that reduces it to its value.
-/

set_option autoImplicit false

namespace Proofhouse

open Library

/-- A numerator over a denominator. What the arithmetic below keeps of the pair
is stated as `Rational.Reduced`. -/
@[ext] structure Rational where
  numerator : I64
  denominator : I64
  deriving DecidableEq, Repr

/-- `ok_or(EvalError::Overflow)`. -/
def orOverflow {α : Type} : Option α → Except EvalError α
  | some value => .ok value
  | none => .error .overflow

theorem I64.remEuclid_natAbs_lt {dividend divisor : I64} (nonzero : divisor.value ≠ 0) :
    (dividend.remEuclid divisor).value.natAbs < divisor.value.natAbs := by
  have nonnegative := Int.emod_nonneg dividend.value nonzero
  have bounded := Int.emod_lt_abs dividend.value nonzero
  rw [Int.abs_eq_natAbs] at bounded
  change (dividend.value % divisor.value).natAbs < _
  omega

def divisorLoop (larger smaller : I64) : I64 :=
  if smaller.value = 0 then larger
  else divisorLoop smaller (larger.remEuclid smaller)
termination_by smaller.value.natAbs
decreasing_by
  rename_i nonzero
  exact I64.remEuclid_natAbs_lt nonzero

def greatestCommonDivisor (numerator denominator : I64) : I64 :=
  divisorLoop denominator (numerator.remEuclid denominator)

namespace Rational

def fromInteger (value : I64) : Rational :=
  ⟨value, ⟨1, by decide, by decide⟩⟩

/-- Both halves divided by a divisor that goes into them. -/
def reduced (numerator denominator divisor : I64) : Rational :=
  ⟨numerator.div divisor, denominator.div divisor⟩

def new (numerator denominator : I64) : Except EvalError Rational := do
  if denominator.value = 0 then
    .error .divisionByZero
  else
    -- A negative denominator hands its sign over to the numerator.
    let (signed, positive) ←
      if denominator.value < 0 then do
        let signed ← orOverflow numerator.checkedNeg
        let positive ← orOverflow denominator.checkedNeg
        pure (signed, positive)
      else pure (numerator, denominator)
    return reduced signed positive (greatestCommonDivisor signed positive)

/-- Cross-multiplication, with `join` on the crossed numerators. -/
def combine (left right : Rational) (join : I64 → I64 → Option I64) :
    Except EvalError Rational := do
  let leftCross ← orOverflow (left.numerator.checkedMul right.denominator)
  let rightCross ← orOverflow (right.numerator.checkedMul left.denominator)
  let numerator ← orOverflow (join leftCross rightCross)
  let denominator ← orOverflow (left.denominator.checkedMul right.denominator)
  new numerator denominator

def checkedAdd (left right : Rational) : Except EvalError Rational :=
  left.combine right BoundedInteger.checkedAdd

def checkedSub (left right : Rational) : Except EvalError Rational :=
  left.combine right BoundedInteger.checkedSub

def checkedMul (left right : Rational) : Except EvalError Rational := do
  let numerator ← orOverflow (left.numerator.checkedMul right.numerator)
  let denominator ← orOverflow (left.denominator.checkedMul right.denominator)
  new numerator denominator

def checkedDiv (left right : Rational) : Except EvalError Rational := do
  if right.numerator.value = 0 then
    .error .divisionByZero
  else
    let numerator ← orOverflow (left.numerator.checkedMul right.denominator)
    let denominator ← orOverflow (left.denominator.checkedMul right.numerator)
    new numerator denominator

def checkedNeg (operand : Rational) : Except EvalError Rational := do
  let numerator ← orOverflow operand.numerator.checkedNeg
  return ⟨numerator, operand.denominator⟩

end Rational

def apply : BinaryOperator → Rational → Rational → Except EvalError Rational
  | .add, left, right => left.checkedAdd right
  | .sub, left, right => left.checkedSub right
  | .mul, left, right => left.checkedMul right
  | .div, left, right => left.checkedDiv right

def evaluate : Expr → Except EvalError Rational
  | .number value => .ok (.fromInteger value)
  | .unaryOp .neg operand => do
      let value ← evaluate operand
      value.checkedNeg
  | .binaryOp op left right => do
      let leftValue ← evaluate left
      let rightValue ← evaluate right
      apply op leftValue rightValue

def evaluateText (text : String) : Except ExpressionError Rational := do
  let expr ← parse text
  (evaluate expr).mapError .eval

end Proofhouse
