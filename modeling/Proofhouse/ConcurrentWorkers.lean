import Proofhouse.CacheCells
import Proofhouse.ConcurrentReductions

/-!
# The workers of the parallel walk

One worker is forked for every rendering of a requested infix node. The walk takes
a bounded number of steps that are not retries, and from wherever its threads have
got to they can go on to the answer without one.
-/

set_option autoImplicit false

namespace Proofhouse

open Library

instance : DecidablePred Expr.IsInfix
  | .binaryOp _ _ _ => isTrue trivial
  | .number _ | .unaryOp _ _ => isFalse id

/-- The renderings of the infix nodes the walk asks for. -/
def infixRenderings (root : Expr) : Finset String :=
  (((requested root).filter (·.IsInfix)).map formatExpr).toFinset

theorem mem_infixRenderings {root : Expr} {key : String} :
    key ∈ infixRenderings root ↔
      ∃ op left right, .binaryOp op left right ∈ requested root ∧
        formatExpr (.binaryOp op left right) = key := by
  rw [infixRenderings, List.mem_toFinset, List.mem_map]
  constructor
  · rintro ⟨node, member, rendered⟩
    obtain ⟨asked, isInfix⟩ := List.mem_filter.mp member
    cases node with
    | binaryOp op left right => exact ⟨op, left, right, asked, rendered⟩
    | number | unaryOp => exact absurd (of_decide_eq_true isInfix) id
  · rintro ⟨op, left, right, asked, rendered⟩
    exact ⟨_, List.mem_filter.mpr ⟨asked, decide_eq_true trivial⟩, rendered⟩

namespace ExprCache

/-- Whether it is an infix rendering whose cell some request has claimed, as a number. -/
def claims (root : Expr) (key : String) (cache : ExprCache) : Nat :=
  if key ∈ infixRenderings root ∧ (cache.cellOf key).state ≠ .empty then 1 else 0

variable {root : Expr} {key : String} {cache cache' : ExprCache}

theorem claims_congr
    (same : key ∈ infixRenderings root →
      ((cache'.cellOf key).state = .empty ↔ (cache.cellOf key).state = .empty)) :
    cache'.claims root key = cache.claims root key :=
  if_congr (and_congr_right fun member => not_congr (same member)) rfl rfl

end ExprCache

namespace Process

/-- The rendering of the node whose worker a step forks. -/
def Action.forked? : Action → Option String
  | .spawn op left right => some (formatExpr (.binaryOp op left right))
  | .entry | .cell _ | .count | .walk _ | .join | .operand | .apply _ _ _ => none

/-- The claims of the cell under the key whose worker is yet to be forked. -/
def unspawned (key : String) : Process → Nat
  | .cell (.shared op left right) _ .initializing | .spawn op left right _ =>
      if formatExpr (.binaryOp op left right) = key then 1 else 0
  | .cell _ _ _ | .lookup _ | .compute _ _ => 0
  | .scope _ _ _ _ worker own => worker.unspawned key + own.unspawned key
  | .leftOperand _ _ _ _ reader | .rightOperand _ _ _ _ _ reader => reader.unspawned key

variable {key : String}

@[simp] theorem evaluateShared_unspawned (expr : Expr) :
    (evaluateShared expr).unspawned key = 0 := by
  cases expr <;> rfl

theorem unspawned_of_other {ask : Ask} {handle : Nat} {point : OnceValue.Filling Outcome}
    (other : point ≠ .initializing) : (cell ask handle point).unspawned key = 0 := by
  cases ask <;> cases point <;> first | rfl | exact absurd rfl other

theorem unspawned_of_result {process : Process} {value : Outcome}
    (returned : process.result? = some value) : process.unspawned key = 0 := by
  obtain ⟨ask, handle, rfl⟩ := result?_eq_some returned
  exact unspawned_of_other nofun

variable {root : Expr} {cache cache' : ExprCache} {process process' : Process}

private theorem spawns_cell {ask : Ask} {handle : Nat} {point point' : OnceValue.Filling Outcome}
    {cell' : OnceValue Outcome}
    (advances : OnceValue.Advances (cache.cells handle) point cell' point')
    (indexed : cache.Indexed) (filed : cache.Filed ask.expr handle)
    (driven : ask.Driven cache root)
    (held : point.Holds → (cache.cells handle).state ≠ .empty) :
    (cell ask handle point').unspawned key + cache.claims root key =
      (cell ask handle point).unspawned key + (cache.setCell handle cell').claims root key := by
  have elsewhere : key ≠ formatExpr ask.expr →
      (cache.setCell handle cell').claims root key = cache.claims root key := fun different =>
    ExprCache.claims_congr fun _ => by
      rw [ExprCache.cellOf_setCell_of_ne indexed filed different cell']
  have here : (cache.setCell handle cell').cellOf (formatExpr ask.expr) = cell' :=
    ExprCache.cellOf_setCell_self filed cell'
  have was : cache.cellOf (formatExpr ask.expr) = cache.cells handle :=
    ExprCache.cellOf_of_lookup filed
  have unmoved : (cell'.state = .empty ↔ (cache.cells handle).state = .empty) →
      (cache.setCell handle cell').claims root key = cache.claims root key := by
    intro same
    by_cases own : key = formatExpr ask.expr
    · refine ExprCache.claims_congr fun _ => ?_
      rw [own, here, was]
      exact same
    · exact elsewhere own
  rcases advances.claims with ⟨rfl, rfl, empty, claimed⟩ | ⟨value, rfl, rfl, ready⟩ |
    ⟨source, target, _, same⟩
  · -- A plain request comes to an infix cell when it is ready, and so claims none.
    cases ask with
    | evaluate expr =>
        have plain : formatExpr expr ∉ infixRenderings root := by
          intro member
          obtain ⟨op, left, right, asked, rendered⟩ := mem_infixRenderings.mp member
          obtain ⟨leftOther, rightOther, rfl, _, _⟩ := operands_of_formatExpr_eq rendered.symm
          obtain ⟨other, otherFiled, landed⟩ := driven.2 trivial
          cases filed.symm.trans otherFiled
          exact absurd (empty.symm.trans landed) (by decide)
        have same : (cache.setCell handle cell').claims root key = cache.claims root key := by
          by_cases own : key = formatExpr expr
          · exact ExprCache.claims_congr fun member => absurd (own ▸ member) plain
          · exact elsewhere own
        rw [same]
        rfl
    | shared op left right =>
        by_cases own : key = formatExpr (.binaryOp op left right)
        · subst own
          have before : cache.claims root (formatExpr (.binaryOp op left right)) = 0 :=
            if_neg fun both => both.2 ((congrArg OnceValue.state was).trans empty)
          have after : (cache.setCell handle cell').claims root
              (formatExpr (.binaryOp op left right)) = 1 := by
            refine if_pos ⟨mem_infixRenderings.mpr ⟨op, left, right, driven, rfl⟩, ?_⟩
            have initializing := (congrArg OnceValue.state here).trans claimed
            exact fun unclaimed => by cases initializing.symm.trans unclaimed
          rw [before, after]
          simp [unspawned]
        · rw [elsewhere own]
          simp [unspawned, Ne.symm own]
  · have claimed := held trivial
    rw [unmoved (by simp [ready, claimed])]
    cases ask <;> rfl
  · rw [unmoved (by rw [same]), unspawned_of_other source, unspawned_of_other target]

/-- Under every key a step forks a worker, or it leaves one more or one fewer to be
forked, just as it claims the cell there. -/
theorem Step.spawns {action : Action} (taken : Step cache process action cache' process')
    (sound : cache.Sound) (fits : process.Fits cache) (driven : process.Driven cache root)
    (held : ∀ handle ∈ process.holding, (cache.cells handle).state ≠ .empty) (key : String) :
    action.forked?.toList.count key + process'.unspawned key + cache.claims root key =
      process.unspawned key + cache'.claims root key := by
  induction taken with
  | @entry ask handle cache' entered =>
      have same : cache'.claims root key = cache.claims root key :=
        ExprCache.claims_congr fun _ => by rw [ExprCache.cellOf_entry sound.indexed entered]
      rw [same]
      cases ask <;> rfl
  | @cell ask handle point _ _ taken =>
      have moved := @spawns_cell key root _ _ _ _ _ _ (OnceValue.advances_of_advance taken)
        sound.indexed fits.1 driven.1 fun holds => held handle (by
          rw [holding_cell, if_pos holds]
          exact Multiset.mem_singleton_self _)
      simpa [Action.forked?] using moved
  | compute => simp [Action.forked?, unspawned]
  | countEvaluate | countShared =>
      simp only [Action.forked?, Option.toList_none, List.count_nil, Nat.zero_add, unspawned]
      rfl
  | spawn => simp [Action.forked?, unspawned, List.count_singleton]
  | worker taken ih =>
      have inner := ih fits.2.2.2.1 driven.2.1 fun handle member => held handle
        (Multiset.mem_add.mpr (.inr (Multiset.mem_add.mpr (.inl member))))
      simp only [unspawned]
      omega
  | own taken ih =>
      have inner := ih fits.2.2.2.2 driven.2.2 fun handle member => held handle
        (Multiset.mem_add.mpr (.inr (Multiset.mem_add.mpr (.inr member))))
      simp only [unspawned]
      omega
  | join workerDone ownDone =>
      obtain ⟨_, workerDone⟩ := Option.isSome_iff_exists.mp workerDone
      obtain ⟨_, ownDone⟩ := Option.isSome_iff_exists.mp ownDone
      simp [Action.forked?, unspawned, unspawned_of_result workerDone, unspawned_of_result ownDone]
  | left taken ih =>
      have inner := ih fits.2.2 driven.2.2.2 fun handle member => held handle
        (Multiset.mem_add.mpr (.inr member))
      simp only [unspawned]
      omega
  | right taken ih =>
      have inner := ih fits.2.2.2 driven.2.2.2 fun handle member => held handle
        (Multiset.mem_add.mpr (.inr member))
      simp only [unspawned]
      omega
  | leftRead returned | leftFailed returned | rightRead returned | rightFailed returned =>
      simp [Action.forked?, unspawned, unspawned_of_result returned]

end Process

section Runs

variable {root : Expr} {actions : List Process.Action} {state : ExprCache × Process}

/-- The renderings of the nodes whose workers have been forked. -/
def forkings (actions : List Process.Action) : List String :=
  actions.filterMap Process.Action.forked?

private theorem ParallelRuns.spawned (run : ParallelRuns root actions state) (key : String) :
    (forkings actions).count key + state.2.unspawned key = state.1.claims root key := by
  refine (@Run.invariant _ _ _ (fun actions state => ParallelRuns root actions state ∧
    (forkings actions).count key + state.2.unspawned key = state.1.claims root key) _ _ _ run
    ⟨.start root, ?_⟩ fun {actions state action next} held taken => ⟨.snoc held.1 taken, ?_⟩).2
  · have nothing : ExprCache.new.claims root key = 0 := if_neg fun both => both.2 rfl
    rw [nothing, Process.evaluateShared_unspawned]
    rfl
  · obtain ⟨run, count⟩ := held
    have parallel := run.parallel
    have step := Process.Step.spawns taken parallel.sound parallel.fits parallel.driven
      (fun handle member => by
        rw [parallel.initializing_of_holding member]
        decide) key
    have grown : forkings (actions ++ [action]) = forkings actions ++ action.forked?.toList := by
      rw [forkings, List.filterMap_append, forkings]
      cases forks : action.forked? <;> simp [forks]
    rw [grown, List.count_append]
    omega

/-- For each rendering the walk forks a worker at most once, and only for that of a
requested infix node. By the time it returns it has forked one for each of these. -/
theorem parallelRuns_fork_once (run : ParallelRuns root actions state) (key : String) :
    (forkings actions).count key ≤ 1 ∧
    (key ∈ forkings actions → key ∈ infixRenderings root) ∧
    ∀ value, state.2.result? = some value → key ∈ infixRenderings root →
      (forkings actions).count key = 1 := by
  have spawned := run.spawned key
  have parallel := run.parallel
  refine ⟨?_, fun forked => ?_, fun value returned asked => ?_⟩
  · have within : state.1.claims root key ≤ 1 := by
      rw [ExprCache.claims]
      split <;> decide
    omega
  · by_contra other
    have never : state.1.claims root key = 0 := if_neg fun both => other both.1
    have positive := List.count_pos_iff.mpr forked
    omega
  · have landed := (parallel.fits.result returned).2
    rw [parallel.expr] at landed
    have claimed : state.1.claims root key = 1 := by
      obtain ⟨op, left, right, isAsked, rfl⟩ := mem_infixRenderings.mp asked
      obtain ⟨handle, filed, ready⟩ := parallel.closed.ready landed _ isAsked
      refine if_pos ⟨asked, ?_⟩
      rw [ExprCache.cellOf_of_lookup filed, ready]
      decide
    rw [Process.unspawned_of_result returned, claimed] at spawned
    exact spawned

/-!
## Steps that are not retries
-/

/-- The steps of a run that are not one more try at a claim held elsewhere. -/
def progressing (actions : List Process.Action) : Nat :=
  actions.countP (· ≠ .cell true)

theorem allowance_le (root : Expr) : Process.allowance root ≤ 24 * (requested root).length := by
  induction root with
  | number | unaryOp => simp [Process.allowance, requested]
  | binaryOp op left right leftIH rightIH =>
      simp only [Process.allowance, requested, List.length_cons, List.length_append]
      omega

theorem ParallelRuns.progressing_le (run : ParallelRuns root actions state) :
    progressing actions + state.2.weight state.1 ≤ Process.allowance root := by
  refine (@Run.invariant _ _ _ (fun actions state => ParallelRuns root actions state ∧
    progressing actions + state.2.weight state.1 ≤ Process.allowance root) _ _ _ run
    ⟨.start root, by simp [progressing]⟩
    fun {actions state action next} held taken => ⟨.snoc held.1 taken, ?_⟩).2
  obtain ⟨run, bounded⟩ := held
  have parallel := run.parallel
  obtain ⟨lowers, level⟩ := Process.Step.weight taken parallel.sound parallel.fits
  rw [progressing, List.countP_append, List.countP_singleton]
  change progressing actions + _ + _ ≤ _
  by_cases retry : action = .cell true
  · simp only [retry, ne_eq, not_true_eq_false, decide_false, Bool.false_eq_true, if_false]
    omega
  · have lower := lowers retry
    simp only [ne_eq, retry, not_false_eq_true, decide_true, if_true]
    omega

/-- The threads of a run can go on to the answer without a retry, from any place. -/
theorem ParallelRuns.goes_on (run : ParallelRuns root actions state) :
    ∃ more last, ParallelRuns root (actions ++ more) last ∧
      last.2.result? = some (evaluate root) ∧ .cell true ∉ more := by
  generalize size : state.2.weight state.1 = bound
  induction bound using Nat.strongRecOn generalizing actions state with
  | ind bound ih =>
      have parallel := run.parallel
      cases returned : state.2.result? with
      | some value =>
          have agrees := (parallel.fits.result returned).1
          rw [parallel.expr] at agrees
          exact ⟨[], state, by rwa [List.append_nil], agrees ▸ returned, List.not_mem_nil⟩
      | none =>
          obtain ⟨action, next, taken, progresses⟩ := parallel.progress returned
          have lower := (Process.Step.weight taken parallel.sound parallel.fits).1 progresses
          obtain ⟨more, last, goesOn, answered, tireless⟩ :=
            ih _ (size ▸ lower) (.snoc run taken) rfl
          rw [List.append_assoc] at goesOn
          exact ⟨action :: more, last, goesOn, answered,
            List.not_mem_cons_of_ne_of_not_mem (Ne.symm progresses) tireless⟩

/-- Wherever the threads of the walk have got to, they can go on to the answer
without a retry, and all the steps but retries are 24 for a requested node at
most. -/
theorem parallelRuns_complete (run : ParallelRuns root actions state) :
    ∃ more last, ParallelRuns root (actions ++ more) last ∧
      last.2.result? = some (evaluate root) ∧ .cell true ∉ more ∧
      progressing actions + more.length ≤ 24 * (requested root).length := by
  obtain ⟨more, last, goesOn, answered, tireless⟩ := run.goes_on
  refine ⟨more, last, goesOn, answered, tireless, ?_⟩
  have bounded := goesOn.progressing_le
  have every : progressing more = more.length :=
    List.countP_eq_length.mpr fun action member =>
      decide_eq_true fun retry => tireless (retry ▸ member)
  rw [progressing, List.countP_append] at bounded
  change progressing actions + progressing more + _ ≤ _ at bounded
  have allowed := allowance_le root
  omega

end Runs

/-- A product of two equal sums, whose one worker for the sum serves both. -/
private def squaredSum (first second : I64) : Expr :=
  .binaryOp .mul (.binaryOp .add (.number first) (.number second))
    (.binaryOp .add (.number first) (.number second))

theorem parallelRuns_fork_once_squaredSum :
    ∃ actions state, ParallelRuns (squaredSum I64.max I64.min) actions state ∧
      state.2.result? = some (evaluate (squaredSum I64.max I64.min)) ∧
      (forkings actions).count "9223372036854775807 + -9223372036854775808" = 1 ∧
      (forkings actions).count "9223372036854775807" = 0 := by
  obtain ⟨actions, state, run, returned, -⟩ := (ParallelRuns.start _).goes_on
  refine ⟨_, state, run, returned, ?_, ?_⟩
  · obtain ⟨-, -, once⟩ := parallelRuns_fork_once run "9223372036854775807 + -9223372036854775808"
    exact once _ returned (by decide +kernel)
  · obtain ⟨-, only, -⟩ := parallelRuns_fork_once run "9223372036854775807"
    exact List.count_eq_zero.mpr fun forked => absurd (only forked) (by decide +kernel)

theorem parallelRuns_complete_squaredSum :
    ∃ actions state, ParallelRuns (squaredSum I64.max I64.min) actions state ∧
      state.2.result? = some (evaluate (squaredSum I64.max I64.min)) ∧ actions.length ≤ 168 := by
  obtain ⟨more, last, run, answered, -, bounded⟩ :=
    parallelRuns_complete (ParallelRuns.start (squaredSum I64.max I64.min))
  exact ⟨_, last, run, answered, by simpa [progressing, requested, squaredSum] using bounded⟩

end Proofhouse
