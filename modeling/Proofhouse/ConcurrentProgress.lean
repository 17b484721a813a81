import Proofhouse.ConcurrentRefinement

/-!
# The parallel walk cannot deadlock

A request waits for a rendering that is strictly shorter than any it holds, so
some thread can always do more than retry. Every other step lowers a measure
that retries leave alone.
-/

set_option autoImplicit false

namespace Proofhouse

open Library

namespace Process

/-- The step is not one more try at a claim that is held elsewhere. -/
def Action.Progresses (action : Action) : Prop :=
  action ≠ .cell true

variable {cache cache' : ExprCache}

theorem retries_eq_true_iff {cell : OnceValue Outcome} {point : OnceValue.Filling Outcome} :
    retries cell point = true ↔ cell.state ≠ .ready ∧
      (point = .claiming ∧ cell.state ≠ .empty ∨ point = .loading) := by
  cases point <;> cases phase : cell.state <;>
    simp [retries, OnceValue.isPublished, OnceValue.claim, phase]

/-!
## The measure
-/

/-- The steps a request for a tree takes at most, retries apart. -/
def allowance : Expr → Nat
  | .number _ | .unaryOp _ _ => 7
  | .binaryOp _ left right => 24 + allowance left + allowance right

def askWork : Ask → Nat
  | .evaluate _ => 6
  | .shared _ left right => 23 + allowance left + allowance right

def pointWeight (cell : OnceValue Outcome) (work : Nat) : OnceValue.Filling Outcome → Nat
  | .claiming => if cell.state = .ready then 3 else work
  | .loading => if cell.state = .ready then 2 else work
  | .copying => 1
  | .initializing => work - 1
  | .duplicating _ => 3
  | .storing _ => 2
  | .publishing _ => 1
  | .returned _ => 0

def weight (cache : ExprCache) : Process → Nat
  | .lookup ask => askWork ask + 1
  | .cell ask handle point => pointWeight (cache.cells handle) (askWork ask) point
  | .compute _ _ => 4
  | .spawn _ left right _ => 21 + allowance left + allowance right
  | .scope _ _ _ _ worker own => 20 + worker.weight cache + own.weight cache
  | .leftOperand _ _ _ _ reader => 12 + reader.weight cache
  | .rightOperand _ _ _ _ _ reader => 4 + reader.weight cache

theorem work_bound (ask : Ask) : 6 ≤ askWork ask := by
  cases ask <;> simp only [askWork] <;> omega

@[simp] theorem evaluateShared_weight (expr : Expr) :
    (evaluateShared expr).weight cache = allowance expr := by
  cases expr <;> simp only [evaluateShared, weight, askWork, allowance]
  omega

theorem pointWeight_mono {cell cell' : OnceValue Outcome} (ordered : OnceValue.Le cell cell')
    {work : Nat} (bound : 6 ≤ work) (point : OnceValue.Filling Outcome) :
    pointWeight cell' work point ≤ pointWeight cell work point := by
  by_cases ready : cell.state = .ready
  · cases point <;> simp [pointWeight, ready, ordered.ready ready]
  · cases point with
    | claiming | loading =>
        simp only [pointWeight, if_neg ready]
        split <;> omega
    | copying | initializing | duplicating | storing | publishing | returned => exact Nat.le_refl _

theorem weight_mono {process : Process} (fits : process.Fits cache) (sound : cache.Sound)
    (ordered : cache.Le cache') : process.weight cache' ≤ process.weight cache := by
  induction process with
  | lookup | compute | spawn => exact Nat.le_refl _
  | cell ask handle point =>
      exact pointWeight_mono (ordered.cells (sound.bounded fits.1)) (work_bound ask) point
  | scope _ _ _ _ worker own workerIH ownIH =>
      have onWorker := workerIH fits.2.2.2.1
      have onOwn := ownIH fits.2.2.2.2
      simp only [weight]
      omega
  | leftOperand _ _ _ _ reader ih =>
      have onReader := ih fits.2.2
      simp only [weight]
      omega
  | rightOperand _ _ _ _ _ reader ih =>
      have onReader := ih fits.2.2.2
      simp only [weight]
      omega

theorem weight_of_result {process : Process} {value : Outcome}
    (returned : process.result? = some value) : process.weight cache = 0 := by
  obtain ⟨ask, handle, rfl⟩ := result?_eq_some returned
  rfl

/-- A step on a cell is a retry, or it leaves less to do. -/
theorem pointWeight_advance {cell cell' : OnceValue Outcome}
    {point point' : OnceValue.Filling Outcome} {value : Outcome} {work : Nat} (bound : 6 ≤ work)
    (advances : OnceValue.Advances cell point cell' point') (fits : point.Fits value cell)
    (offers : cell.Offers value) :
    (retries cell point = false → pointWeight cell' work point' < pointWeight cell work point) ∧
      pointWeight cell' work point' ≤ pointWeight cell work point := by
  suffices outcome : pointWeight cell' work point' < pointWeight cell work point ∨
      retries cell point = true ∧ pointWeight cell' work point' = pointWeight cell work point by
    rcases outcome with lower | ⟨retry, same⟩
    · exact ⟨fun _ => lower, Nat.le_of_lt lower⟩
    · exact ⟨fun progress => absurd (progress.symm.trans retry) (by decide), Nat.le_of_eq same⟩
  cases advances with
  | claimed empty =>
      simp only [pointWeight, empty, reduceCtorEq, if_false]
      omega
  | taken claimed =>
      by_cases ready : cell.state = .ready
      · simp [pointWeight, ready]
      · exact .inr ⟨retries_eq_true_iff.mpr ⟨ready, .inl ⟨rfl, claimed⟩⟩, by
          simp [pointWeight, ready]⟩
  | waiting unready =>
      exact .inr ⟨retries_eq_true_iff.mpr ⟨unready, .inr rfl⟩, by simp [pointWeight, unready]⟩
  | landed ready => simp [pointWeight, ready]
  | copied => exact .inl Nat.zero_lt_one
  | missed nothing => exact absurd nothing (offers.landed fits)
  | cloned | stored | published => exact .inl (Nat.lt_succ_self _)

theorem Step.weight {action : Action} {process process' : Process}
    (taken : Step cache process action cache' process') (sound : cache.Sound)
    (fits : process.Fits cache) :
    (action.Progresses → process'.weight cache' < process.weight cache) ∧
      process'.weight cache' ≤ process.weight cache := by
  have of_lt : ∀ {before after : Nat}, after < before →
      (action.Progresses → after < before) ∧ after ≤ before :=
    fun lower => ⟨fun _ => lower, Nat.le_of_lt lower⟩
  induction taken with
  | @entry ask handle cache' entered =>
      refine of_lt ?_
      simp only [Process.weight, pointWeight]
      have bound := work_bound ask
      split <;> omega
  | cell taken =>
      have advances := OnceValue.advances_of_advance taken
      obtain ⟨lowers, level⟩ :=
        pointWeight_advance (work_bound _) advances fits.2 (sound.offers fits.1)
      simp only [Process.weight, ExprCache.setCell_cells_self]
      refine ⟨fun progresses => lowers ?_, level⟩
      exact Bool.eq_false_iff.mpr fun retry => progresses (congrArg Action.cell retry)
  | countEvaluate => exact of_lt (Nat.lt_succ_self _)
  | countShared =>
      refine of_lt ?_
      simp only [Process.weight, pointWeight, askWork]
      omega
  | compute => exact of_lt (Nat.lt_succ_self _)
  | spawn =>
      refine of_lt ?_
      simp only [Process.weight, evaluateShared_weight]
      omega
  | worker taken ih =>
      obtain ⟨lowers, level⟩ := ih fits.2.2.2.1 of_lt
      have others := weight_mono fits.2.2.2.2 sound taken.le
      simp only [Process.weight]
      exact ⟨fun progresses => by have := lowers progresses; omega, by omega⟩
  | own taken ih =>
      obtain ⟨lowers, level⟩ := ih fits.2.2.2.2 of_lt
      have others := weight_mono fits.2.2.2.1 sound taken.le
      simp only [Process.weight]
      exact ⟨fun progresses => by have := lowers progresses; omega, by omega⟩
  | join workerDone ownDone =>
      obtain ⟨_, workerDone⟩ := Option.isSome_iff_exists.mp workerDone
      obtain ⟨_, ownDone⟩ := Option.isSome_iff_exists.mp ownDone
      refine of_lt ?_
      simp only [Process.weight, weight_of_result workerDone, weight_of_result ownDone, askWork]
      omega
  | left taken ih =>
      obtain ⟨lowers, level⟩ := ih fits.2.2 of_lt
      simp only [Process.weight]
      exact ⟨fun progresses => by have := lowers progresses; omega, by omega⟩
  | right taken ih =>
      obtain ⟨lowers, level⟩ := ih fits.2.2.2 of_lt
      simp only [Process.weight]
      exact ⟨fun progresses => by have := lowers progresses; omega, by omega⟩
  | leftRead | leftFailed | rightRead | rightFailed =>
      refine of_lt ?_
      simp only [Process.weight, pointWeight, askWork]
      omega

/-!
## Progress
-/

/-- Nothing is left to the request but retries. -/
def Blocked (cache : ExprCache) (process : Process) : Prop :=
  ∀ action cache' process', Step cache process action cache' process' → ¬action.Progresses

def ClaimedWithin (cache : ExprCache) (bound : Nat) : Prop :=
  ∃ key handle, cache.entries.lookup key = some handle ∧
    (cache.cells handle).state = .initializing ∧ key.length ≤ bound

theorem ClaimedWithin.mono {bound larger : Nat} (claimed : ClaimedWithin cache bound)
    (ordered : bound ≤ larger) : ClaimedWithin cache larger := by
  obtain ⟨key, handle, filed, phase, within⟩ := claimed
  exact ⟨key, handle, filed, phase, Nat.le_trans within ordered⟩

section Blocking

variable {op : BinaryOperator} {left right : Expr} {handle : Nat}
  {process worker own reader : Process} {leftValue : Rational}

theorem Blocked.only_retries {action : Action} {cache' : ExprCache} {process' : Process}
    (blocked : Blocked cache process) (taken : Step cache process action cache' process') :
    action = .cell true :=
  not_not.mp (blocked action cache' process' taken)

theorem Blocked.of_worker (blocked : Blocked cache (.scope op left right handle worker own)) :
    Blocked cache worker :=
  fun _ _ _ taken => blocked _ _ _ (.worker taken)

theorem Blocked.of_own (blocked : Blocked cache (.scope op left right handle worker own)) :
    Blocked cache own :=
  fun _ _ _ taken => blocked _ _ _ (.own taken)

theorem Blocked.of_left (blocked : Blocked cache (.leftOperand op left right handle reader)) :
    Blocked cache reader :=
  fun _ _ _ taken => blocked _ _ _ (.left taken)

theorem Blocked.of_right
    (blocked : Blocked cache (.rightOperand op left right handle leftValue reader)) :
    Blocked cache reader :=
  fun _ _ _ taken => blocked _ _ _ (.right taken)

theorem Blocked.scope_unfinished
    (blocked : Blocked cache (.scope op left right handle worker own)) :
    worker.result? = none ∨ own.result? = none := by
  cases workerDone : worker.result? with
  | none => exact .inl rfl
  | some _ =>
      cases ownDone : own.result? with
      | none => exact .inr rfl
      | some _ => cases blocked.only_retries (.join (by simp [workerDone]) (by simp [ownDone]))

theorem Blocked.left_unfinished
    (blocked : Blocked cache (.leftOperand op left right handle reader)) :
    reader.result? = none := by
  cases done : reader.result? with
  | none => rfl
  | some value =>
      cases value with
      | ok => cases blocked.only_retries (.leftRead done)
      | error => cases blocked.only_retries (.leftFailed done)

theorem Blocked.right_unfinished
    (blocked : Blocked cache (.rightOperand op left right handle leftValue reader)) :
    reader.result? = none := by
  cases done : reader.result? with
  | none => rfl
  | some value =>
      cases value with
      | ok => cases blocked.only_retries (.rightRead done)
      | error => cases blocked.only_retries (.rightFailed done)

theorem Blocked.on_cell {ask : Ask} {point : OnceValue.Filling Outcome}
    (blocked : Blocked cache (.cell ask handle point))
    (unfinished : (Process.cell ask handle point).result? = none)
    (fits : (Process.cell ask handle point).Fits cache) :
    ¬point.Holds ∧ (cache.cells handle).state = .initializing := by
  have retry : ∀ {cell' point'}, (cache.cells handle).advance point = some (cell', point') →
      retries (cache.cells handle) point = true := by
    intro cell' point' taken
    exact Action.cell.inj (blocked.only_retries (.cell taken))
  have waiting : retries (cache.cells handle) point = true := by
    cases point with
    | claiming =>
        cases phase : (cache.cells handle).state <;>
          exact retry (by simp only [OnceValue.advance, OnceValue.claim, phase]; rfl)
    | loading => exact retry rfl
    | copying =>
        cases slot : (cache.cells handle).slot <;>
          exact retry (by simp only [OnceValue.advance, OnceValue.locked_eq, slot]; rfl)
    | initializing =>
        cases ask with
        | evaluate => cases blocked.only_retries .countEvaluate
        | shared => cases blocked.only_retries .countShared
    | duplicating | storing | publishing => exact retry rfl
    | returned => cases unfinished
  obtain ⟨unready, place⟩ := retries_eq_true_iff.mp waiting
  have claimed : (cache.cells handle).state ≠ .empty := by
    rcases place with ⟨_, claimed⟩ | rfl
    · exact claimed
    · exact fits.2
  refine ⟨?_, ?_⟩
  · rcases place with ⟨rfl, _⟩ | rfl <;> exact id
  · revert unready claimed
    cases (cache.cells handle).state <;> simp

/-- A blocked request waits for a claim on a rendering no longer than its own. -/
theorem Blocked.waits (blocked : Blocked cache process) (unfinished : process.result? = none)
    (fits : process.Fits cache) :
    ClaimedWithin cache (formatExpr process.expr).length := by
  induction process with
  | lookup => cases blocked.only_retries (.entry (Prod.eta _).symm)
  | cell ask handle point =>
      exact ⟨_, handle, fits.1, (blocked.on_cell unfinished fits).2, Nat.le_refl _⟩
  | compute => cases blocked.only_retries .compute
  | spawn => cases blocked.only_retries .spawn
  | scope op left right handle worker own workerIH ownIH =>
      obtain ⟨_, rfl, rfl, workerFits, ownFits⟩ := fits
      have shorter := formatExpr_operand_length_lt op worker.expr own.expr
      rcases blocked.scope_unfinished with pending | pending
      · exact (workerIH blocked.of_worker pending workerFits).mono (Nat.le_of_lt shorter.1)
      · exact (ownIH blocked.of_own pending ownFits).mono (Nat.le_of_lt shorter.2)
  | leftOperand op left right handle reader ih =>
      obtain ⟨_, rfl, readerFits⟩ := fits
      have shorter := formatExpr_operand_length_lt op reader.expr right
      exact (ih blocked.of_left blocked.left_unfinished readerFits).mono (Nat.le_of_lt shorter.1)
  | rightOperand op left right handle leftValue reader ih =>
      obtain ⟨_, _, rfl, readerFits⟩ := fits
      have shorter := formatExpr_operand_length_lt op left reader.expr
      exact (ih blocked.of_right blocked.right_unfinished readerFits).mono (Nat.le_of_lt shorter.2)

/-- A blocked request that holds a rendering waits for a shorter one. -/
theorem Blocked.waits_shorter (blocked : Blocked cache process) (sound : cache.Sound)
    (fits : process.Fits cache) {key : String} (member : handle ∈ process.holding)
    (filed : cache.entries.lookup key = some handle) :
    ∃ bound, bound < key.length ∧ ClaimedWithin cache bound := by
  -- The frame that holds the handle is an infix node of this rendering.
  have shorter : ∀ {op left right}, cache.Filed (.binaryOp op left right) handle →
      (formatExpr left).length < key.length ∧ (formatExpr right).length < key.length := by
    intro op left right own
    rw [sound.injective filed own]
    exact formatExpr_operand_length_lt op left right
  induction process with
  | lookup => exact absurd member (Multiset.notMem_zero _)
  | cell ask own point =>
      have free : ¬point.Holds := by
        cases unfinished : (Process.cell ask own point).result? with
        | none => exact (blocked.on_cell unfinished fits).1
        | some value =>
            obtain ⟨_, _, same⟩ := result?_eq_some unfinished
            cases same
            exact id
      rw [holding, if_neg free] at member
      exact absurd member (Multiset.notMem_zero _)
  | compute => cases blocked.only_retries .compute
  | spawn => cases blocked.only_retries .spawn
  | scope op left right own worker ownProcess workerIH ownIH =>
      obtain ⟨ownFiled, rfl, rfl, workerFits, ownFits⟩ := fits
      rcases Multiset.mem_add.mp member with member | member
      · cases Multiset.mem_singleton.mp member
        rcases blocked.scope_unfinished with pending | pending
        · exact ⟨_, (shorter ownFiled).1, blocked.of_worker.waits pending workerFits⟩
        · exact ⟨_, (shorter ownFiled).2, blocked.of_own.waits pending ownFits⟩
      · rcases Multiset.mem_add.mp member with member | member
        · exact workerIH blocked.of_worker workerFits member
        · exact ownIH blocked.of_own ownFits member
  | leftOperand op left right own reader ih =>
      obtain ⟨ownFiled, rfl, readerFits⟩ := fits
      rcases Multiset.mem_add.mp member with member | member
      · cases Multiset.mem_singleton.mp member
        exact ⟨_, (shorter ownFiled).1, blocked.of_left.waits blocked.left_unfinished readerFits⟩
      · exact ih blocked.of_left readerFits member
  | rightOperand op left right own leftValue reader ih =>
      obtain ⟨ownFiled, _, rfl, readerFits⟩ := fits
      rcases Multiset.mem_add.mp member with member | member
      · cases Multiset.mem_singleton.mp member
        exact ⟨_, (shorter ownFiled).2,
          blocked.of_right.waits blocked.right_unfinished readerFits⟩
      · exact ih blocked.of_right readerFits member

end Blocking

end Process

section Runs

variable {root : Expr} {state : ExprCache × Process}

/-- Where every thread is blocked there would be ever shorter renderings claimed. -/
private theorem Parallel.not_claimedWithin (parallel : Parallel root state)
    (blocked : state.2.Blocked state.1) (bound : Nat) :
    ¬Process.ClaimedWithin state.1 bound := by
  induction bound using Nat.strongRecOn with
  | ind bound ih =>
      intro claimed
      obtain ⟨key, handle, filed, phase, within⟩ := claimed
      have held : handle ∈ state.2.holding := by
        rw [parallel.claims]
        exact ExprCache.mem_inPhase.mpr ⟨parallel.sound.bounded filed, phase⟩
      obtain ⟨shorter, less, claimed⟩ :=
        blocked.waits_shorter parallel.sound parallel.fits held filed
      exact ih shorter (Nat.lt_of_lt_of_le less within) claimed

theorem Parallel.progress (parallel : Parallel root state)
    (unfinished : state.2.result? = none) :
    ∃ action next, ParallelStep state action next ∧ action.Progresses := by
  by_contra stuck
  have blocked : state.2.Blocked state.1 := fun action cache' process' taken progresses =>
    stuck ⟨action, (cache', process'), taken, progresses⟩
  exact parallel.not_claimedWithin blocked _ (blocked.waits unfinished parallel.fits)

/-- Until the call of `evaluate_parallel` returns, some thread can do more than
retry. Every step but a retry lowers a measure that no step raises, so no run
takes more than finitely many of them. -/
theorem parallelRuns_progress (root : Expr) :
    (∀ actions state, ParallelRuns root actions state → state.2.result? = none →
      ∃ action next, ParallelStep state action next ∧ action.Progresses) ∧
    (∀ actions state action next, ParallelRuns root actions state →
      ParallelStep state action next →
        (action.Progresses → next.2.weight next.1 < state.2.weight state.1) ∧
          next.2.weight next.1 ≤ state.2.weight state.1) ∧
    (∀ (states : ℕ → ExprCache × Process) (actions : ℕ → Process.Action),
      states 0 = (.new, evaluateShared root) →
      (∀ n, ParallelStep (states n) (actions n) (states (n + 1))) →
      ∃ bound, ∀ n, bound ≤ n → ¬(actions n).Progresses) := by
  have lowers : ∀ {state action next}, Parallel root state → ParallelStep state action next →
      (action.Progresses → next.2.weight next.1 < state.2.weight state.1) ∧
        next.2.weight next.1 ≤ state.2.weight state.1 :=
    fun parallel taken => Process.Step.weight taken parallel.sound parallel.fits
  refine ⟨fun actions state run unfinished => run.parallel.progress unfinished,
    fun actions state action next run taken => lowers run.parallel taken, ?_⟩
  intro states actions start taken
  have parallel : ∀ n, Parallel root (states n) := by
    intro n
    induction n with
    | zero => exact start ▸ (ParallelRuns.start root).parallel
    | succ n ih => exact ih.step (taken n)
  exact eventually_never (fun n => (states n).2.weight (states n).1) actions
    (fun n => (lowers (parallel n) (taken n)).2) (fun n => (lowers (parallel n) (taken n)).1)

end Runs

end Proofhouse
