import Proofhouse.CacheProperties
import Proofhouse.Concurrent

/-!
# Invariants of concurrent evaluation

What a request may rely on wherever it stands, which claims it holds, and what
one atomic step does to both. The invariants say nothing about other requests,
so they hold of any number of them at once.
-/

set_option autoImplicit false

namespace Proofhouse.Process

def expr : Process → Expr
  | .lookup ask | .cell ask _ _ => ask.expr
  | .compute expr _ => expr
  | .spawn op left right _ | .scope op left right _ _ _ | .leftOperand op left right _ _
  | .rightOperand op left right _ _ _ => .binaryOp op left right

/-- What a request may rely on: its cell is filed under its own rendering, and
the requests inside it are those of its operands. -/
def Fits (cache : ExprCache) : Process → Prop
  | .lookup _ => True
  | .cell ask handle point =>
      cache.Filed ask.expr handle ∧ point.Fits (evaluate ask.expr) (cache.cells handle)
  | .compute expr handle => cache.Filed expr handle
  | .spawn op left right handle => cache.Filed (.binaryOp op left right) handle
  | .scope op left right handle worker own =>
      cache.Filed (.binaryOp op left right) handle ∧ worker.expr = left ∧ own.expr = right ∧
        worker.Fits cache ∧ own.Fits cache
  | .leftOperand op left right handle reader =>
      cache.Filed (.binaryOp op left right) handle ∧ reader.expr = left ∧ reader.Fits cache
  | .rightOperand op left right handle leftValue reader =>
      cache.Filed (.binaryOp op left right) handle ∧ evaluate left = .ok leftValue ∧
        reader.expr = right ∧ reader.Fits cache

/-- The handles a request holds the claims of, those of the requests inside it
included. -/
def holding : Process → Multiset Nat
  | .lookup _ => 0
  | .cell _ handle point => if point.Holds then {handle} else 0
  | .compute _ handle | .spawn _ _ _ handle => {handle}
  | .scope _ _ _ handle worker own => {handle} + (worker.holding + own.holding)
  | .leftOperand _ _ _ handle reader | .rightOperand _ _ _ handle _ reader =>
      {handle} + reader.holding

def uncounted : Process → Nat
  | .cell _ _ .initializing => 1
  | .cell _ _ _ | .lookup _ | .compute _ _ | .spawn _ _ _ _ => 0
  | .scope _ _ _ _ worker own => worker.uncounted + own.uncounted
  | .leftOperand _ _ _ _ reader | .rightOperand _ _ _ _ _ reader => reader.uncounted

theorem uncounted_le_card_holding (process : Process) :
    process.uncounted ≤ process.holding.card := by
  induction process with
  | lookup | compute | spawn => exact Nat.zero_le _
  | cell ask handle point => cases point <;> simp [uncounted, holding, OnceValue.Filling.Holds]
  | scope _ _ _ _ worker own workerIH ownIH =>
      simp only [uncounted, holding, Multiset.card_add]
      omega
  | leftOperand _ _ _ _ reader ih | rightOperand _ _ _ _ _ reader ih =>
      simp only [uncounted, holding, Multiset.card_add]
      omega

@[simp] theorem evaluateShared_expr (expr : Expr) : (evaluateShared expr).expr = expr := by
  cases expr <;> rfl

theorem evaluateShared_fits (cache : ExprCache) (expr : Expr) :
    (evaluateShared expr).Fits cache := by
  cases expr <;> trivial

@[simp] theorem evaluateShared_holding (expr : Expr) : (evaluateShared expr).holding = 0 := by
  cases expr <;> rfl

@[simp] theorem evaluateShared_uncounted (expr : Expr) : (evaluateShared expr).uncounted = 0 := by
  cases expr <;> rfl

theorem result?_eq_some {process : Process} {value : Outcome}
    (returned : process.result? = some value) :
    ∃ ask handle, process = .cell ask handle (.returned value) := by
  unfold result? at returned
  split at returned
  · cases returned
    exact ⟨_, _, rfl⟩
  all_goals cases returned

theorem holding_of_result {process : Process} {value : Outcome}
    (returned : process.result? = some value) : process.holding = 0 ∧ process.uncounted = 0 := by
  obtain ⟨ask, handle, rfl⟩ := result?_eq_some returned
  exact ⟨rfl, rfl⟩

section Reliance

variable {cache cache' : ExprCache} {process process' : Process}

theorem Fits.mono (fits : process.Fits cache) (sound : cache.Sound) (ordered : cache.Le cache') :
    process.Fits cache' := by
  induction process with
  | lookup => trivial
  | cell ask handle point =>
      obtain ⟨filed, stands⟩ := fits
      exact ⟨ordered.entries filed, stands.mono (ordered.cells (sound.bounded filed))⟩
  | compute | spawn => exact ordered.entries fits
  | scope _ _ _ _ worker own workerIH ownIH =>
      obtain ⟨filed, left, right, workerFits, ownFits⟩ := fits
      exact ⟨ordered.entries filed, left, right, workerIH workerFits, ownIH ownFits⟩
  | leftOperand _ _ _ _ reader ih =>
      obtain ⟨filed, left, readerFits⟩ := fits
      exact ⟨ordered.entries filed, left, ih readerFits⟩
  | rightOperand _ _ _ _ _ reader ih =>
      obtain ⟨filed, value, right, readerFits⟩ := fits
      exact ⟨ordered.entries filed, value, right, ih readerFits⟩

theorem Fits.result (fits : process.Fits cache) {value : Outcome}
    (returned : process.result? = some value) :
    value = evaluate process.expr ∧
      ∃ handle, cache.Filed process.expr handle ∧ (cache.cells handle).state = .ready := by
  obtain ⟨ask, handle, rfl⟩ := result?_eq_some returned
  exact ⟨fits.2.1, handle, fits.1, fits.2.2⟩

theorem Step.expr {action : Action} (taken : Step cache process action cache' process') :
    process'.expr = process.expr := by
  cases taken <;> rfl

theorem Step.le {action : Action} (taken : Step cache process action cache' process') :
    cache.Le cache' := by
  induction taken with
  | entry entered => exact ExprCache.entry_le entered
  | cell advances => exact ExprCache.setCell_le (OnceValue.advances_of_advance advances).le
  | countEvaluate | countShared => exact ExprCache.countEvaluation_le _
  | compute | spawn | join | leftRead | leftFailed | rightRead | rightFailed => exact .refl _
  | worker _ ih | own _ ih | left _ ih | right _ ih => exact ih

theorem evaluate_left_failed {op : BinaryOperator} {left right : Expr} {error : EvalError}
    (failed : evaluate left = .error error) :
    evaluate (.binaryOp op left right) = .error error := by
  rw [evaluate, failed]
  rfl

theorem evaluate_right_failed {op : BinaryOperator} {left right : Expr} {leftValue : Rational}
    {error : EvalError} (value : evaluate left = .ok leftValue)
    (failed : evaluate right = .error error) :
    evaluate (.binaryOp op left right) = .error error := by
  rw [evaluate, value, failed]
  rfl

theorem evaluate_operands {op : BinaryOperator} {left right : Expr}
    {leftValue rightValue : Rational} (onLeft : evaluate left = .ok leftValue)
    (onRight : evaluate right = .ok rightValue) :
    evaluate (.binaryOp op left right) = apply op leftValue rightValue := by
  rw [evaluate, onLeft, onRight]
  rfl

theorem Step.sound {action : Action} (taken : Step cache process action cache' process')
    (sound : cache.Sound) (fits : process.Fits cache) : cache'.Sound ∧ process'.Fits cache' := by
  induction taken with
  | entry entered => exact ⟨sound.entry entered, ExprCache.entry_filed entered, trivial⟩
  | cell advances =>
      obtain ⟨filed, stands⟩ := fits
      obtain ⟨offers, fits⟩ :=
        (OnceValue.advances_of_advance advances).fits (sound.offers filed) stands
      refine ⟨sound.setCell filed offers, filed, ?_⟩
      rwa [ExprCache.setCell_cells_self]
  | countEvaluate | countShared => exact ⟨sound.countEvaluation, fits.1⟩
  | compute => exact ⟨sound, fits, rfl⟩
  | spawn =>
      exact ⟨sound, fits, evaluateShared_expr _, evaluateShared_expr _, evaluateShared_fits _ _,
        evaluateShared_fits _ _⟩
  | worker taken ih =>
      obtain ⟨filed, left, right, workerFits, ownFits⟩ := fits
      obtain ⟨sound', workerFits'⟩ := ih workerFits
      exact ⟨sound', taken.le.entries filed, taken.expr.trans left, right, workerFits',
        ownFits.mono sound taken.le⟩
  | own taken ih =>
      obtain ⟨filed, left, right, workerFits, ownFits⟩ := fits
      obtain ⟨sound', ownFits'⟩ := ih ownFits
      exact ⟨sound', taken.le.entries filed, left, taken.expr.trans right,
        workerFits.mono sound taken.le, ownFits'⟩
  | join => exact ⟨sound, fits.1, rfl, trivial⟩
  | left taken ih =>
      obtain ⟨filed, left, readerFits⟩ := fits
      obtain ⟨sound', readerFits'⟩ := ih readerFits
      exact ⟨sound', taken.le.entries filed, taken.expr.trans left, readerFits'⟩
  | leftRead returned =>
      obtain ⟨filed, rfl, readerFits⟩ := fits
      exact ⟨sound, filed, (readerFits.result returned).1.symm, rfl, trivial⟩
  | leftFailed returned =>
      obtain ⟨filed, rfl, readerFits⟩ := fits
      exact ⟨sound, filed,
        (evaluate_left_failed (readerFits.result returned).1.symm).symm⟩
  | right taken ih =>
      obtain ⟨filed, value, right, readerFits⟩ := fits
      obtain ⟨sound', readerFits'⟩ := ih readerFits
      exact ⟨sound', taken.le.entries filed, value, taken.expr.trans right, readerFits'⟩
  | rightRead returned =>
      obtain ⟨filed, value, rfl, readerFits⟩ := fits
      exact ⟨sound, filed,
        (evaluate_operands value (readerFits.result returned).1.symm).symm⟩
  | rightFailed returned =>
      obtain ⟨filed, value, rfl, readerFits⟩ := fits
      exact ⟨sound, filed,
        (evaluate_right_failed value (readerFits.result returned).1.symm).symm⟩

end Reliance

end Proofhouse.Process
