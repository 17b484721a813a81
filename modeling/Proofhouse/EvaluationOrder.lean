import Proofhouse.Evaluator

/-!
# The order of evaluation

The walk goes from left to right and from the leaves up, and stops at the first
operator step that fails. What it has not come to by then changes nothing.
-/

set_option autoImplicit false

namespace Proofhouse

/-- A tree with one place left open. -/
inductive Context where
  | hole
  | negated (around : Context)
  | onLeft (op : BinaryOperator) (around : Context) (right : Expr)
  | onRight (op : BinaryOperator) (left : Expr) (around : Context)

/-- The tree with another in the open place. -/
def Context.fill (inner : Expr) : Context → Expr
  | .hole => inner
  | .negated around => .unaryOp .neg (around.fill inner)
  | .onLeft op around right => .binaryOp op (around.fill inner) right
  | .onRight op left around => .binaryOp op left (around.fill inner)

theorem Context.evaluate_congr {inner other : Expr} (same : evaluate inner = evaluate other)
    (context : Context) : evaluate (context.fill inner) = evaluate (context.fill other) := by
  induction context with
  | hole => exact same
  | negated around ih => simp only [fill, evaluate, ih]
  | onLeft op around right ih => simp only [fill, evaluate, ih]
  | onRight op left around ih => simp only [fill, evaluate, ih]

/-!
## The first step that fails
-/

/-- All that the walk comes to before the open place has a value. -/
def Context.Reached : Context → Prop
  | .hole => True
  | .negated around => around.Reached
  | .onLeft _ around _ => around.Reached
  | .onRight _ left around => (∃ value, evaluate left = .ok value) ∧ around.Reached

/-- The operator of the tree fails on operands that have values. -/
inductive StepFails : Expr → EvalError → Prop where
  | negation {operand value error} : evaluate operand = .ok value →
      value.checkedNeg = .error error → StepFails (.unaryOp .neg operand) error
  | operator {op left right leftValue rightValue error} : evaluate left = .ok leftValue →
      evaluate right = .ok rightValue → apply op leftValue rightValue = .error error →
      StepFails (.binaryOp op left right) error

theorem StepFails.evaluate_eq {failing : Expr} {error : EvalError}
    (fails : StepFails failing error) : evaluate failing = .error error := by
  cases fails with
  | negation onOperand step =>
      rw [evaluate, onOperand]
      exact step
  | operator onLeft onRight step =>
      rw [evaluate, onLeft, onRight]
      exact step

/-- A failure is that of the whole, wherever the walk comes to it. -/
theorem Context.Reached.evaluate_eq {context : Context} {failing : Expr} {error : EvalError}
    (reached : context.Reached) (fails : evaluate failing = .error error) :
    evaluate (context.fill failing) = .error error := by
  induction context with
  | hole => exact fails
  | negated around ih =>
      rw [fill, evaluate, ih reached]
      rfl
  | onLeft op around right ih =>
      rw [fill, evaluate, ih reached]
      rfl
  | onRight op left around ih =>
      obtain ⟨⟨value, onLeft⟩, reached⟩ := reached
      rw [fill, evaluate, onLeft, ih reached]
      rfl

theorem exists_first_failure {expr : Expr} {error : EvalError}
    (failed : evaluate expr = .error error) :
    ∃ (context : Context) (failing : Expr),
      expr = context.fill failing ∧ context.Reached ∧ StepFails failing error := by
  induction expr with
  | number value => cases failed
  | unaryOp op operand ih =>
      cases op
      cases onOperand : evaluate operand with
      | error other =>
          rw [evaluate, onOperand] at failed
          cases failed
          obtain ⟨context, failing, rfl, reached, fails⟩ := ih onOperand
          exact ⟨.negated context, failing, rfl, reached, fails⟩
      | ok value =>
          rw [evaluate, onOperand] at failed
          exact ⟨.hole, _, rfl, trivial, .negation onOperand failed⟩
  | binaryOp op left right leftIH rightIH =>
      cases onLeft : evaluate left with
      | error other =>
          rw [evaluate, onLeft] at failed
          cases failed
          obtain ⟨context, failing, rfl, reached, fails⟩ := leftIH onLeft
          exact ⟨.onLeft op context right, failing, rfl, reached, fails⟩
      | ok leftValue =>
          cases onRight : evaluate right with
          | error other =>
              rw [evaluate, onLeft, onRight] at failed
              cases failed
              obtain ⟨context, failing, rfl, reached, fails⟩ := rightIH onRight
              exact ⟨.onRight op left context, failing, rfl, ⟨⟨leftValue, onLeft⟩, reached⟩, fails⟩
          | ok rightValue =>
              rw [evaluate, onLeft, onRight] at failed
              exact ⟨.hole, _, rfl, trivial, .operator onLeft onRight failed⟩

/-- A step that fails itself has operands with values, so nothing in it fails. -/
theorem Context.Reached.eq_hole {context : Context} {failing : Expr} {error whole : EvalError}
    (reached : context.Reached) (fails : StepFails failing error)
    (outside : StepFails (context.fill failing) whole) : context = .hole := by
  cases context with
  | hole => rfl
  | negated around =>
      have inner : around.Reached := reached
      cases outside with
      | negation onOperand => cases onOperand.symm.trans (inner.evaluate_eq fails.evaluate_eq)
  | onLeft op around right =>
      have inner : around.Reached := reached
      cases outside with
      | operator onLeft => cases onLeft.symm.trans (inner.evaluate_eq fails.evaluate_eq)
  | onRight op left around =>
      cases outside with
      | operator _ onRight => cases onRight.symm.trans (reached.2.evaluate_eq fails.evaluate_eq)

/-- The walk comes to one failing step only. -/
theorem first_failure_unique {context other : Context} {failing otherFailing : Expr}
    {error otherError : EvalError} (reached : context.Reached) (fails : StepFails failing error)
    (otherReached : other.Reached) (otherFails : StepFails otherFailing otherError)
    (same : context.fill failing = other.fill otherFailing) :
    context = other ∧ failing = otherFailing := by
  induction context generalizing other with
  | hole =>
      obtain rfl : failing = other.fill otherFailing := same
      cases otherReached.eq_hole otherFails fails
      exact ⟨rfl, rfl⟩
  | negated around ih =>
      cases other with
      | hole =>
          obtain rfl := same
          cases reached.eq_hole fails otherFails
      | negated otherAround =>
          obtain ⟨rfl, rfl⟩ := @ih otherAround reached otherReached (Expr.unaryOp.inj same).2
          exact ⟨rfl, rfl⟩
      | onLeft | onRight => cases same
  | onLeft op around right ih =>
      cases other with
      | hole =>
          obtain rfl := same
          cases reached.eq_hole fails otherFails
      | negated => cases same
      | onLeft otherOp otherAround otherRight =>
          obtain ⟨rfl, inner, rfl⟩ := Expr.binaryOp.inj same
          obtain ⟨rfl, rfl⟩ := @ih otherAround reached otherReached inner
          exact ⟨rfl, rfl⟩
      | onRight otherOp left otherAround =>
          obtain ⟨-, inner, -⟩ := Expr.binaryOp.inj same
          obtain ⟨⟨value, onLeft⟩, -⟩ := otherReached
          have stops := @Context.Reached.evaluate_eq around _ _ reached fails.evaluate_eq
          cases (inner ▸ stops).symm.trans onLeft
  | onRight op left around ih =>
      cases other with
      | hole =>
          obtain rfl := same
          cases reached.eq_hole fails otherFails
      | negated => cases same
      | onLeft otherOp otherAround right =>
          obtain ⟨-, inner, -⟩ := Expr.binaryOp.inj same
          obtain ⟨⟨value, onLeft⟩, -⟩ := reached
          have stops :=
            @Context.Reached.evaluate_eq otherAround _ _ otherReached otherFails.evaluate_eq
          cases (inner ▸ stops).symm.trans onLeft
      | onRight otherOp otherLeft otherAround =>
          obtain ⟨rfl, rfl, inner⟩ := Expr.binaryOp.inj same
          obtain ⟨rfl, rfl⟩ := ih reached.2 otherReached.2 inner
          exact ⟨rfl, rfl⟩

/-- A failure of the walk is the failure of one step, the first it comes to. -/
theorem evaluate_error_iff_first (expr : Expr) (error : EvalError) :
    evaluate expr = .error error ↔
      ∃! step : Context × Expr,
        expr = step.1.fill step.2 ∧ step.1.Reached ∧ StepFails step.2 error := by
  constructor
  · intro failed
    obtain ⟨context, failing, rfl, reached, fails⟩ := exists_first_failure failed
    refine ⟨(context, failing), ⟨rfl, reached, fails⟩, ?_⟩
    rintro ⟨other, otherFailing⟩ ⟨same, otherReached, otherFails⟩
    obtain ⟨rfl, rfl⟩ := first_failure_unique reached fails otherReached otherFails same
    rfl
  · rintro ⟨⟨context, failing⟩, ⟨rfl, reached, fails⟩, -⟩
    exact reached.evaluate_eq fails.evaluate_eq

end Proofhouse
