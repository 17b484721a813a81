import Proofhouse.Cache

/-!
# Concurrent evaluation

Calls on a shared table as processes: what `get_or_compute` does for the plain
walk and for the forking one, up to the threads it spawns, in atomic steps.
-/

set_option autoImplicit false

namespace Proofhouse

/-- A request to the table: `ExprCache::evaluate` on a tree, or `get_or_compute`
on an infix node with the forking computation. -/
inductive Ask where
  | evaluate (expr : Expr)
  | shared (op : BinaryOperator) (left right : Expr)
  deriving DecidableEq, Repr

def Ask.expr : Ask → Expr
  | .evaluate expr => expr
  | .shared op left right => .binaryOp op left right

/-- Where a request stands: before the lookup, on its cell, or inside `init`. A
forking `init` runs the two sides of its node at once, a worker thread and its
own thread, and then asks the table for both. -/
inductive Process where
  | lookup (ask : Ask)
  | cell (ask : Ask) (handle : Nat) (point : OnceValue.Filling Outcome)
  | compute (expr : Expr) (handle : Nat)
  | spawn (op : BinaryOperator) (left right : Expr) (handle : Nat)
  | scope (op : BinaryOperator) (left right : Expr) (handle : Nat) (worker own : Process)
  | leftOperand (op : BinaryOperator) (left right : Expr) (handle : Nat) (reader : Process)
  | rightOperand (op : BinaryOperator) (left right : Expr) (handle : Nat) (leftValue : Rational)
      (reader : Process)
  deriving DecidableEq, Repr

def evaluateShared : Expr → Process
  | .number value => .lookup (.evaluate (.number value))
  | .unaryOp op operand => .lookup (.evaluate (.unaryOp op operand))
  | .binaryOp op left right => .lookup (.shared op left right)

namespace Process

def result? : Process → Option Outcome
  | .cell _ _ (.returned value) => some value
  | .cell _ _ _ | .lookup _ | .compute _ _ | .spawn _ _ _ _ | .scope _ _ _ _ _ _
  | .leftOperand _ _ _ _ _ | .rightOperand _ _ _ _ _ _ => none

/-- The next step on the cell is one more try at a claim that another request
holds: its value has not landed, and the step does not get past that. -/
def retries (cell : OnceValue Outcome) (point : OnceValue.Filling Outcome) : Bool :=
  !cell.isPublished &&
    match point with
    | .claiming => !cell.claim.1
    | .loading => true
    | .copying | .initializing | .duplicating _ | .storing _ | .publishing _ | .returned _ => false

/-- What a step does. A step on a cell says whether it is a retry. -/
inductive Action where
  | entry
  | cell (retry : Bool)
  | count
  | walk (expr : Expr)
  | spawn (op : BinaryOperator) (left right : Expr)
  | join
  | operand
  | apply (op : BinaryOperator) (left right : Expr)
  deriving DecidableEq, Repr

/-- The atomic steps of a request. The counter goes up first thing inside `init`,
and neither side of a scope waits for the other before the scope closes. -/
inductive Step : ExprCache → Process → Action → ExprCache → Process → Prop where
  | entry {cache ask handle cache'} : cache.entry (formatExpr ask.expr) = (handle, cache') →
      Step cache (.lookup ask) .entry cache' (.cell ask handle .claiming)
  | cell {cache ask handle point cell' point'} :
      (cache.cells handle).advance point = some (cell', point') →
      Step cache (.cell ask handle point) (.cell (retries (cache.cells handle) point))
        (cache.setCell handle cell') (.cell ask handle point')
  | countEvaluate {cache expr handle} :
      Step cache (.cell (.evaluate expr) handle .initializing) .count cache.countEvaluation
        (.compute expr handle)
  | countShared {cache op left right handle} :
      Step cache (.cell (.shared op left right) handle .initializing) .count
        cache.countEvaluation (.spawn op left right handle)
  | compute {cache expr handle} :
      Step cache (.compute expr handle) (.walk expr) cache
        (.cell (.evaluate expr) handle (.duplicating (evaluate expr)))
  | spawn {cache op left right handle} :
      Step cache (.spawn op left right handle) (.spawn op left right) cache
        (.scope op left right handle (evaluateShared left) (evaluateShared right))
  | worker {cache op left right handle worker own action cache' worker'} :
      Step cache worker action cache' worker' →
      Step cache (.scope op left right handle worker own) action cache'
        (.scope op left right handle worker' own)
  | own {cache op left right handle worker own action cache' own'} :
      Step cache own action cache' own' →
      Step cache (.scope op left right handle worker own) action cache'
        (.scope op left right handle worker own')
  | join {cache op left right handle worker own} :
      worker.result?.isSome = true → own.result?.isSome = true →
      Step cache (.scope op left right handle worker own) .join cache
        (.leftOperand op left right handle (.lookup (.evaluate left)))
  | left {cache op left right handle reader action cache' reader'} :
      Step cache reader action cache' reader' →
      Step cache (.leftOperand op left right handle reader) action cache'
        (.leftOperand op left right handle reader')
  | leftRead {cache op left right handle reader leftValue} :
      reader.result? = some (.ok leftValue) →
      Step cache (.leftOperand op left right handle reader) .operand cache
        (.rightOperand op left right handle leftValue (.lookup (.evaluate right)))
  | leftFailed {cache op left right handle reader error} :
      reader.result? = some (.error error) →
      Step cache (.leftOperand op left right handle reader) .operand cache
        (.cell (.shared op left right) handle (.duplicating (.error error)))
  | right {cache op left right handle leftValue reader action cache' reader'} :
      Step cache reader action cache' reader' →
      Step cache (.rightOperand op left right handle leftValue reader) action cache'
        (.rightOperand op left right handle leftValue reader')
  | rightRead {cache op left right handle leftValue reader rightValue} :
      reader.result? = some (.ok rightValue) →
      Step cache (.rightOperand op left right handle leftValue reader) (.apply op left right) cache
        (.cell (.shared op left right) handle
          (.duplicating (Proofhouse.apply op leftValue rightValue)))
  | rightFailed {cache op left right handle leftValue reader error} :
      reader.result? = some (.error error) →
      Step cache (.rightOperand op left right handle leftValue reader) .operand cache
        (.cell (.shared op left right) handle (.duplicating (.error error)))

end Process

/-- The steps of the threads `evaluate_parallel` forks, on the table they share. -/
def ParallelStep (before : ExprCache × Process) (action : Process.Action)
    (after : ExprCache × Process) : Prop :=
  Process.Step before.1 before.2 action after.1 after.2

/-- Runs of `evaluate_parallel` on a tree, from a table of its own. -/
abbrev ParallelRuns (expr : Expr) : List Process.Action → ExprCache × Process → Prop :=
  Library.Run ParallelStep (.new, evaluateShared expr)

structure EvaluateCall where
  argument : Expr
  process : Process

inductive CallEvent where
  | began (argument : Expr)
  | acted (action : Process.Action)
  | returned (argument : Expr) (value : Outcome)

/-- The steps of a thread that calls `ExprCache::evaluate` on one tree after the
other. -/
inductive CallStep :
    ExprCache → Option EvaluateCall → CallEvent → ExprCache → Option EvaluateCall → Prop where
  | began {cache argument} :
      CallStep cache none (.began argument) cache
        (some ⟨argument, .lookup (.evaluate argument)⟩)
  | acted {cache argument process action cache' process'} :
      Process.Step cache process action cache' process' →
      CallStep cache (some ⟨argument, process⟩) (.acted action) cache'
        (some ⟨argument, process'⟩)
  | returned {cache argument process value} : process.result? = some value →
      CallStep cache (some ⟨argument, process⟩) (.returned argument value) cache none

/-- Runs of any threads that share one table. -/
abbrev SharedRuns {ι : Type} [DecidableEq ι] :
    List (ι × CallEvent) → ExprCache × (ι → Option EvaluateCall) → Prop :=
  Library.Run (Library.Interleaves CallStep) (.new, fun _ => none)

end Proofhouse
