import Mathlib.Data.Finmap
import Proofhouse.Evaluator
import Proofhouse.Formatter
import Proofhouse.Sync

/-!
# Expression cache

The table of values under canonical renderings. A cell is shared out by handle,
and what is done with it afterwards needs no part of the table but the cell.
-/

set_option autoImplicit false

namespace Proofhouse

/-- What a walk reports of a tree, a failure being an answer like any other. -/
abbrev Outcome : Type := Except EvalError Rational

/-- `entries` files the handle of a cell under a rendering, and `cells` are the
cells behind the handles given out so far, those below `allocated`. -/
structure ExprCache where
  entries : Finmap fun _ : String => Nat
  cells : Nat → OnceValue Outcome
  allocated : Nat
  evaluations : Nat

namespace ExprCache

def new : ExprCache :=
  ⟨∅, fun _ => .new, 0, 0⟩

/-- The handle filed under `key`, with an empty cell behind it when the key is
new. The whole lookup happens under the lock of the table. -/
def entry (cache : ExprCache) (key : String) : Nat × ExprCache :=
  match cache.entries.lookup key with
  | some handle => (handle, cache)
  | none =>
      (cache.allocated,
        { cache with
          entries := cache.entries.insert key cache.allocated
          cells := Function.update cache.cells cache.allocated .new
          allocated := cache.allocated + 1 })

def setCell (cache : ExprCache) (handle : Nat) (cell : OnceValue Outcome) : ExprCache :=
  { cache with cells := Function.update cache.cells handle cell }

/-- `fetch_add` on the counter, which no table can fill. -/
def countEvaluation (cache : ExprCache) : ExprCache :=
  { cache with evaluations := cache.evaluations + 1 }

end ExprCache

end Proofhouse
