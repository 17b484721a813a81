import Proofhouse.ConcurrentWorkers
import Proofhouse.Library.Fairness

/-!
# The parallel walk under a fair schedule

Each step of the walk is that of one of its threads. A thread that tries a claim
again takes nothing from the others, so the walk returns wherever no thread that
can step is passed over for good.
-/

set_option autoImplicit false

namespace Proofhouse

open Library

namespace Process

inductive Side where
  | worker
  | own
  deriving DecidableEq, Repr

/-- The requests inside a request. -/
def inside : Process → List Process
  | .scope _ _ _ _ worker own => [worker, own]
  | .leftOperand _ _ _ _ reader | .rightOperand _ _ _ _ _ reader => [reader]
  | .lookup _ | .cell _ _ _ | .compute _ _ | .spawn _ _ _ _ => []

/-- The steps of the threads of a request. A worker goes by the sides of the scopes
that lead to it. The thread that made the request goes by none, and it is this one
that works on the scope's own side. -/
inductive ThreadStep :
    List Side → ExprCache → Process → Action → ExprCache → Process → Prop where
  | frame {cache process action cache' process'} :
      (∀ request ∈ process.inside, request.result?.isSome = true) →
      Step cache process action cache' process' →
      ThreadStep [] cache process action cache' process'
  | worker {thread cache op left right handle worker own action cache' worker'} :
      ThreadStep thread cache worker action cache' worker' →
      ThreadStep (.worker :: thread) cache (.scope op left right handle worker own) action cache'
        (.scope op left right handle worker' own)
  | own {cache op left right handle worker own action cache' own'} :
      ThreadStep [] cache own action cache' own' →
      ThreadStep [] cache (.scope op left right handle worker own) action cache'
        (.scope op left right handle worker own')
  | ownWorker {side sides cache op left right handle worker own action cache' own'} :
      ThreadStep (side :: sides) cache own action cache' own' →
      ThreadStep (.own :: side :: sides) cache (.scope op left right handle worker own) action
        cache' (.scope op left right handle worker own')
  | left {thread cache op left right handle reader action cache' reader'} :
      ThreadStep thread cache reader action cache' reader' →
      ThreadStep thread cache (.leftOperand op left right handle reader) action cache'
        (.leftOperand op left right handle reader')
  | right {thread cache op left right handle leftValue reader action cache' reader'} :
      ThreadStep thread cache reader action cache' reader' →
      ThreadStep thread cache (.rightOperand op left right handle leftValue reader) action cache'
        (.rightOperand op left right handle leftValue reader')

variable {cache cache' : ExprCache} {process process' request : Process} {action : Action}
  {sides : List Side}

theorem ThreadStep.step (taken : ThreadStep sides cache process action cache' process') :
    Step cache process action cache' process' := by
  induction taken with
  | frame _ taken => exact taken
  | worker _ ih => exact .worker ih
  | own _ ih | ownWorker _ ih => exact .own ih
  | left _ ih => exact .left ih
  | right _ ih => exact .right ih

theorem ThreadStep.own_side {op : BinaryOperator} {left right : Expr} {handle : Nat}
    {worker own own' : Process} (taken : ThreadStep sides cache own action cache' own') :
    ∃ sides, ThreadStep sides cache (.scope op left right handle worker own) action cache'
      (.scope op left right handle worker own') := by
  cases sides with
  | nil => exact ⟨_, .own taken⟩
  | cons => exact ⟨_, .ownWorker taken⟩

theorem Step.some_thread (taken : Step cache process action cache' process') :
    ∃ sides, ThreadStep sides cache process action cache' process' := by
  have single : ∀ {reader : Process} {value : Outcome}, reader.result? = some value →
      ∀ request ∈ [reader], request.result?.isSome = true := by
    intro reader value returned request member
    rw [List.mem_singleton.mp member, returned]
    rfl
  induction taken with
  | worker _ ih => exact ih.elim fun _ taken => ⟨_, .worker taken⟩
  | own _ ih => exact ih.elim fun _ taken => taken.own_side
  | left _ ih => exact ih.imp fun _ => .left
  | right _ ih => exact ih.imp fun _ => .right
  | entry entered => exact ⟨[], .frame nofun (.entry entered)⟩
  | cell advances => exact ⟨[], .frame nofun (.cell advances)⟩
  | countEvaluate => exact ⟨[], .frame nofun .countEvaluate⟩
  | countShared => exact ⟨[], .frame nofun .countShared⟩
  | compute => exact ⟨[], .frame nofun .compute⟩
  | spawn => exact ⟨[], .frame nofun .spawn⟩
  | join workerDone ownDone =>
      exact ⟨[], .frame (by simp [inside, workerDone, ownDone]) (.join workerDone ownDone)⟩
  | leftRead returned => exact ⟨[], .frame (single returned) (.leftRead returned)⟩
  | leftFailed returned => exact ⟨[], .frame (single returned) (.leftFailed returned)⟩
  | rightRead returned => exact ⟨[], .frame (single returned) (.rightRead returned)⟩
  | rightFailed returned => exact ⟨[], .frame (single returned) (.rightFailed returned)⟩

theorem Step.unfinished (taken : Step cache process action cache' process') :
    process.result?.isSome = false := by
  cases returned : process.result? with
  | none => rfl
  | some value =>
      obtain ⟨ask, handle, rfl⟩ := result?_eq_some returned
      cases taken with
      | cell advances => cases advances

theorem Step.not_returned (returned : ∀ inner ∈ process.inside, inner.result?.isSome = true)
    (member : request ∈ process.inside) : ¬Step cache request action cache' process' :=
  fun taken => absurd ((returned request member).symm.trans taken.unfinished) (by decide)

/-- A try at a claim that is held elsewhere leaves the table as it was. -/
theorem Step.unmoved (taken : Step cache process action cache' process')
    (retry : action = .cell true) : cache' = cache := by
  induction taken with
  | worker _ ih | own _ ih | left _ ih | right _ ih => exact ih retry
  | entry | countEvaluate | countShared | compute | spawn | join | leftRead | leftFailed
  | rightRead | rightFailed => cases retry
  | @cell ask handle point cell' point' taken =>
      obtain ⟨unready, waiting⟩ := retries_eq_true_iff.mp (Action.cell.inj retry)
      have same : cell' = cache.cells handle := by
        rcases waiting with ⟨rfl, claimed⟩ | rfl
        · cases OnceValue.advances_of_advance taken with
          | claimed empty => exact absurd empty claimed
          | taken => rfl
        · cases OnceValue.advances_of_advance taken <;> rfl
      rw [same, ExprCache.setCell, Function.update_eq_self]

section Threads

variable {other : Action} {cache'' : ExprCache} {process'' : Process}

theorem Step.progresses_of_frame
    (returned : ∀ request ∈ process.inside, request.result?.isSome = true)
    (taken : Step cache process action cache' process')
    (again : Step cache process other cache'' process'') (progresses : action.Progresses) :
    other.Progresses := by
  intro retry
  cases again with
  | entry | countEvaluate | countShared | compute | spawn | join | leftRead | leftFailed
  | rightRead | rightFailed => cases retry
  | cell =>
      cases taken with
      | cell => exact progresses retry
      | countEvaluate | countShared =>
          obtain ⟨-, ⟨impossible, -⟩ | impossible⟩ :=
            retries_eq_true_iff.mp (Action.cell.inj retry) <;> cases impossible
  | worker inner | own inner | left inner | right inner =>
      exact absurd inner (Step.not_returned returned (by simp [inside]))

/-- What a thread can do is more than a retry, or nothing but one. -/
theorem ThreadStep.progresses (taken : ThreadStep sides cache process action cache' process')
    (again : ThreadStep sides cache process other cache'' process'')
    (progresses : action.Progresses) : other.Progresses := by
  induction taken generalizing cache'' process'' with
  | frame returned taken =>
      cases again with
      | frame _ again => exact taken.progresses_of_frame returned again progresses
      | own inner | left inner | right inner =>
          exact absurd inner.step (Step.not_returned returned (by simp [inside]))
  | worker _ ih =>
      cases again with
      | worker again => exact ih again progresses
  | own taken ih =>
      cases again with
      | frame returned => exact absurd taken.step (Step.not_returned returned (by simp [inside]))
      | own again => exact ih again progresses
  | ownWorker _ ih =>
      cases again with
      | ownWorker again => exact ih again progresses
  | left taken ih =>
      cases again with
      | frame returned => exact absurd taken.step (Step.not_returned returned (by simp [inside]))
      | left again => exact ih again progresses
  | right taken ih =>
      cases again with
      | frame returned => exact absurd taken.step (Step.not_returned returned (by simp [inside]))
      | right again => exact ih again progresses

/-- A thread that tries again leaves every other one what it can do. -/
theorem ThreadStep.persists {spinning : List Side}
    (taken : ThreadStep sides cache process action cache' process')
    (spins : ThreadStep spinning cache process other cache'' process'')
    (progresses : action.Progresses) (retry : other = .cell true) :
    ∃ action cache' process', ThreadStep sides cache'' process'' action cache' process' ∧
      action.Progresses := by
  induction spins generalizing sides cache' process' with
  | frame returned spins =>
      cases taken with
      | frame _ taken =>
          exact absurd retry (taken.progresses_of_frame returned spins progresses)
      | worker inner | own inner | ownWorker inner | left inner | right inner =>
          exact absurd inner.step (Step.not_returned returned (by simp [inside]))
  | worker spins ih =>
      cases taken with
      | frame returned => exact absurd spins.step (Step.not_returned returned (by simp [inside]))
      | worker taken =>
          obtain ⟨_, _, _, taken, progresses⟩ := ih taken retry
          exact ⟨_, _, _, .worker taken, progresses⟩
      | own taken =>
          obtain rfl := spins.step.unmoved retry
          exact ⟨_, _, _, .own taken, progresses⟩
      | ownWorker taken =>
          obtain rfl := spins.step.unmoved retry
          exact ⟨_, _, _, .ownWorker taken, progresses⟩
  | own spins ih | ownWorker spins ih =>
      cases taken with
      | frame returned => exact absurd spins.step (Step.not_returned returned (by simp [inside]))
      | worker taken =>
          obtain rfl := spins.step.unmoved retry
          exact ⟨_, _, _, .worker taken, progresses⟩
      | own taken =>
          obtain ⟨_, _, _, taken, progresses⟩ := ih taken retry
          exact ⟨_, _, _, .own taken, progresses⟩
      | ownWorker taken =>
          obtain ⟨_, _, _, taken, progresses⟩ := ih taken retry
          exact ⟨_, _, _, .ownWorker taken, progresses⟩
  | left spins ih =>
      cases taken with
      | frame returned => exact absurd spins.step (Step.not_returned returned (by simp [inside]))
      | left taken =>
          obtain ⟨_, _, _, taken, progresses⟩ := ih taken retry
          exact ⟨_, _, _, .left taken, progresses⟩
  | right spins ih =>
      cases taken with
      | frame returned => exact absurd spins.step (Step.not_returned returned (by simp [inside]))
      | right taken =>
          obtain ⟨_, _, _, taken, progresses⟩ := ih taken retry
          exact ⟨_, _, _, .right taken, progresses⟩

end Threads

end Process

/-- The steps of the walk, each with the thread that takes it. -/
def ThreadedStep (before : ExprCache × Process) (turn : List Process.Side × Process.Action)
    (after : ExprCache × Process) : Prop :=
  Process.ThreadStep turn.1 before.1 before.2 turn.2 after.1 after.2

theorem parallelStep_iff_threadedStep {before after : ExprCache × Process}
    {action : Process.Action} :
    ParallelStep before action after ↔ ∃ thread, ThreadedStep before (thread, action) after :=
  ⟨Process.Step.some_thread, fun ⟨_, taken⟩ => taken.step⟩

/-- The executions of `evaluate_parallel` on a tree, from a table of its own. -/
abbrev ParallelExecutions (root : Expr) : Type :=
  Execution ThreadedStep (.new, evaluateShared root)

section Executions

variable {root : Expr} {state : ExprCache × Process}

theorem ParallelRuns.of_threaded {turns : List (List Process.Side × Process.Action)}
    (run : Run ThreadedStep (.new, evaluateShared root) turns state) :
    ParallelRuns root (turns.map Prod.snd) state := by
  induction run with
  | start => exact .start root
  | snoc _ taken ih =>
      rw [List.map_append]
      exact .snoc ih taken.step

theorem ParallelRuns.threaded {actions : List Process.Action}
    (run : ParallelRuns root actions state) :
    ∃ turns, Run ThreadedStep (.new, evaluateShared root) turns state := by
  induction run with
  | start => exact ⟨[], .start⟩
  | snoc _ taken ih =>
      obtain ⟨turns, run⟩ := ih
      obtain ⟨thread, taken⟩ := parallelStep_iff_threadedStep.mp taken
      exact ⟨_, .snoc run taken⟩

/-- Where no thread that can step is passed over for good, `evaluate_parallel` returns
what the serial walk does, however often its threads try for claims in vain. -/
theorem parallelExecutions_return {execution : ParallelExecutions root}
    (fair : execution.Fair fun _ _ => True) :
    ∃ bound, ∀ n, bound ≤ n →
      (execution.states n).2.result? = some (evaluate root) ∧ execution.turns n = none := by
  have parallel : ∀ n, Parallel root (execution.states n) :=
    fun n => (ParallelRuns.of_threaded (execution.run n)).parallel
  have progress : ∀ n, ¬(execution.states n).2.result?.isSome = true → ∃ thread action next,
      ThreadedStep (execution.states n) (thread, action) next ∧ action.Progresses := by
    intro n pending
    obtain ⟨action, next, taken, progresses⟩ :=
      (parallel n).progress (Option.not_isSome_iff_eq_none.mp pending)
    obtain ⟨thread, taken⟩ := parallelStep_iff_threadedStep.mp taken
    exact ⟨thread, action, next, taken, progresses⟩
  obtain ⟨bound, returned⟩ := fair.reaches (fun state => state.2.result?.isSome = true)
    Process.Action.Progresses (fun state => state.2.weight state.1) progress
    (fun {n turn} taken => (execution.steps taken).step.weight (parallel n).sound (parallel n).fits)
    (fun taken again progresses => taken.progresses again progresses)
    fun {_ thread _ _ _ _ after} taken progresses spins spinning => by
      obtain ⟨action, cache, process, taken, progresses⟩ :=
        taken.persists spins progresses (not_not.mp spinning)
      exact ⟨action, (cache, process), taken, progresses⟩
  have still : ∀ {n}, (execution.states n).2.result?.isSome = true → execution.turns n = none := by
    intro n returned
    cases turn : execution.turns n with
    | none => rfl
    | some turn' =>
        exact absurd (returned.symm.trans (execution.steps turn).step.unfinished) (by decide)
  refine ⟨bound, fun n later => ?_⟩
  have landed := execution.always (fun state => state.2.result?.isSome = true) returned
    (fun _ taken returned => absurd ((still returned).symm.trans taken) nofun) later
  refine ⟨?_, still landed⟩
  obtain ⟨value, landed⟩ := Option.isSome_iff_exists.mp landed
  have agrees := ((parallel n).fits.result landed).1
  rw [(parallel n).expr] at agrees
  rw [landed, agrees]

end Executions

private def overflowing (literal : I64) : Expr :=
  .binaryOp .add (.number literal) (.number literal)

theorem parallelExecutions_return_overflowing :
    ∃ execution : ParallelExecutions (overflowing I64.max), (execution.Fair fun _ _ => True) ∧
      ∃ bound, ∀ n, bound ≤ n →
        (execution.states n).2.result? = some (.error .overflow) := by
  obtain ⟨_, last, run, answered, -⟩ := (ParallelRuns.start (overflowing I64.max)).goes_on
  obtain ⟨turns, run⟩ := run.threaded
  obtain ⟨execution, fair, -, -⟩ := run.fair (fun _ _ => True) fun thread able => by
    obtain ⟨-, action, next, taken⟩ := able
    exact absurd (answered ▸ taken.step.unfinished) (by decide)
  obtain ⟨bound, returned⟩ := parallelExecutions_return fair
  have overflows : evaluate (overflowing I64.max) = .error .overflow := by decide +kernel
  exact ⟨execution, fair, bound, fun n later => overflows ▸ (returned n later).1⟩

end Proofhouse
