import Proofhouse.Cache

/-!
# Calls with a computation of their own

`get_or_compute` as its callers inside the crate may use it: every call brings a
computation, which may return anything or unwind. Any threads make such calls on
one table, in atomic steps.
-/

set_option autoImplicit false

namespace Proofhouse

/-- Where a thread stands: between calls, before the lookup, on the cell of its
tree, or inside the computation it brought. -/
inductive Getting where
  | idle
  | looking (expr : Expr)
  | filling (expr : Expr) (handle : Nat) (point : OnceValue.Filling Outcome)
  | computing (expr : Expr) (handle : Nat)
  deriving DecidableEq, Repr

inductive GettingEvent where
  | began (expr : Expr)
  | entered (expr : Expr)
  | advanced
  | counted (expr : Expr)
  | computed (expr : Expr) (outcome : Outcome)
  | unwound (expr : Expr)
  | returned (expr : Expr) (outcome : Outcome)
  deriving DecidableEq, Repr

/-- The atomic steps of a thread. The counter goes up inside the initializer and
ahead of the computation. -/
inductive GettingStep :
    ExprCache → Getting → GettingEvent → ExprCache → Getting → Prop where
  | began {cache expr} : GettingStep cache .idle (.began expr) cache (.looking expr)
  | entered {cache expr handle cache'} : cache.entry (formatExpr expr) = (handle, cache') →
      GettingStep cache (.looking expr) (.entered expr) cache' (.filling expr handle .claiming)
  | advanced {cache expr handle point cell' point'} :
      (cache.cells handle).advance point = some (cell', point') →
      GettingStep cache (.filling expr handle point) .advanced (cache.setCell handle cell')
        (.filling expr handle point')
  | counted {cache expr handle} :
      GettingStep cache (.filling expr handle .initializing) (.counted expr)
        cache.countEvaluation (.computing expr handle)
  | computed {cache expr handle outcome} :
      GettingStep cache (.computing expr handle) (.computed expr outcome) cache
        (.filling expr handle (.duplicating outcome))
  | unwound {cache expr handle} :
      GettingStep cache (.computing expr handle) (.unwound expr) cache .idle
  | returned {cache expr handle outcome} :
      GettingStep cache (.filling expr handle (.returned outcome)) (.returned expr outcome) cache
        .idle

/-- Runs of any threads that share one table. -/
abbrev GettingRuns {ι : Type} [DecidableEq ι] :
    List (ι × GettingEvent) → ExprCache × (ι → Getting) → Prop :=
  Library.Run (Library.Interleaves GettingStep) (.new, fun _ => .idle)

end Proofhouse
