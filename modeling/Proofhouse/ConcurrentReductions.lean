import Proofhouse.ConcurrentProgress

/-!
# What the parallel walk reduces

Every requested rendering is worked out once. A node under a prefix minus is
not requested by itself: the plain walk of the minus reduces it again, however
often it stands elsewhere. So the run reduces every rendering at most once just
when the work of the requested nodes is without repeats.
-/

set_option autoImplicit false

namespace Proofhouse

open Library

/-- The rendering of an infix node, if a walk gets to apply its operator. -/
def applied (op : BinaryOperator) (left right : Expr) : List String :=
  if (evaluate left).isOk ∧ (evaluate right).isOk then [formatExpr (.binaryOp op left right)]
  else []

/-- The renderings of the infix nodes whose operators `evaluate` applies, in order. -/
def Expr.reductions : Expr → List String
  | .number _ => []
  | .unaryOp _ operand => operand.reductions
  | .binaryOp op left right =>
      left.reductions ++ (if (evaluate left).isOk then right.reductions else []) ++
        applied op left right

theorem applied_of_ok {op : BinaryOperator} {left right : Expr} {leftValue rightValue : Rational}
    (onLeft : evaluate left = .ok leftValue) (onRight : evaluate right = .ok rightValue) :
    applied op left right = [formatExpr (.binaryOp op left right)] := by
  rw [applied, onLeft, onRight]
  exact if_pos ⟨rfl, rfl⟩

theorem applied_of_left_failed {op : BinaryOperator} {left right : Expr} {error : EvalError}
    (failed : evaluate left = .error error) : applied op left right = [] := by
  rw [applied, failed]
  exact if_neg fun both => Bool.false_ne_true both.1

theorem applied_of_right_failed {op : BinaryOperator} {left right : Expr} {error : EvalError}
    (failed : evaluate right = .error error) : applied op left right = [] := by
  rw [applied, failed]
  exact if_neg fun both => Bool.false_ne_true both.2

/-- `evaluate` with the renderings of the operators it applies on the side. -/
def evaluateTraced : Expr → Outcome × List String
  | .number value => (evaluate (.number value), [])
  | .unaryOp .neg operand =>
      match evaluateTraced operand with
      | (value, trace) => (value >>= Rational.checkedNeg, trace)
  | .binaryOp op left right =>
      match evaluateTraced left with
      | (.error error, trace) => (.error error, trace)
      | (.ok leftValue, trace) =>
          match evaluateTraced right with
          | (.error error, goesOn) => (.error error, trace ++ goesOn)
          | (.ok rightValue, goesOn) =>
              (apply op leftValue rightValue,
                trace ++ goesOn ++ [formatExpr (.binaryOp op left right)])

/-- The trace of the walk is what the tree is said to reduce. -/
theorem evaluateTraced_eq (expr : Expr) :
    evaluateTraced expr = (evaluate expr, expr.reductions) := by
  induction expr with
  | number => rfl
  | unaryOp op operand ih => cases op; rw [evaluateTraced, ih]; rfl
  | binaryOp op left right leftIH rightIH =>
      rw [evaluateTraced, leftIH, rightIH, Expr.reductions]
      cases onLeft : evaluate left with
      | error error =>
          rw [Process.evaluate_left_failed onLeft, applied_of_left_failed onLeft, List.append_nil]
          exact Prod.ext rfl (List.append_nil _).symm
      | ok leftValue =>
          cases onRight : evaluate right with
          | error error =>
              rw [Process.evaluate_right_failed onLeft onRight, applied_of_right_failed onRight,
                List.append_nil]
              rfl
          | ok rightValue =>
              rw [Process.evaluate_operands onLeft onRight, applied_of_ok onLeft onRight]
              rfl

/-- What working out a requested node reduces. The operands of an infix node are
requested by themselves. -/
def Expr.ownReductions : Expr → List String
  | .binaryOp op left right => applied op left right
  | .number value => (number value).reductions
  | .unaryOp op operand => (unaryOp op operand).reductions

namespace Process.Action

/-- The requested node a step works out. -/
def worked? : Action → Option Expr
  | .walk expr => some expr
  | .apply op left right => some (.binaryOp op left right)
  | .entry | .cell _ | .count | .spawn _ _ _ | .join | .operand => none

/-- The renderings of the infix nodes whose operators a step applies. -/
def reductions : Action → List String
  | .walk expr => expr.reductions
  | .apply op left right => [formatExpr (.binaryOp op left right)]
  | .entry | .cell _ | .count | .spawn _ _ _ | .join | .operand => []

end Process.Action

theorem applied_congr {op : BinaryOperator} {left leftOther right rightOther : Expr}
    (onLeft : left.Alike leftOther) (onRight : right.Alike rightOther) :
    applied op left right = applied op leftOther rightOther := by
  rw [applied, applied, evaluate_congr_reading onLeft.reading_eq,
    evaluate_congr_reading onRight.reading_eq,
    formatExpr_eq_iff_alike.mpr (.binaryOp op onLeft onRight)]

theorem Expr.Alike.reductions_eq {first second : Expr} (alike : first.Alike second) :
    first.reductions = second.reductions := by
  induction alike with
  | number | folded | unfolded => rfl
  | unaryOp op _ ih => exact ih
  | binaryOp op onLeft onRight leftIH rightIH =>
      rw [reductions, reductions, leftIH, rightIH, applied_congr onLeft onRight,
        evaluate_congr_reading onLeft.reading_eq]

theorem ownReductions_congr {first second : Expr} (same : formatExpr first = formatExpr second) :
    first.ownReductions = second.ownReductions := by
  have alike := formatExpr_eq_iff_alike.mp same
  cases alike with
  | number | folded | unfolded => rfl
  | unaryOp op inner => exact inner.reductions_eq
  | binaryOp op onLeft onRight => exact applied_congr onLeft onRight

namespace Process

/-- The handles a request holds claims of that it has not worked out yet. -/
def working : Process → Multiset Nat
  | .lookup _ => 0
  | .cell _ handle point => if point = .initializing then {handle} else 0
  | .compute _ handle | .spawn _ _ _ handle => {handle}
  | .scope _ _ _ handle worker own => {handle} + (worker.working + own.working)
  | .leftOperand _ _ _ handle reader | .rightOperand _ _ _ handle _ reader =>
      {handle} + reader.working

theorem working_le_holding (process : Process) : process.working ≤ process.holding := by
  induction process with
  | lookup | compute | spawn => exact le_refl _
  | cell ask handle point =>
      cases point <;> simp [working, holding, OnceValue.Filling.Holds]
  | scope _ _ _ _ worker own workerIH ownIH =>
      exact add_le_add_right (add_le_add workerIH ownIH) _
  | leftOperand _ _ _ _ reader ih | rightOperand _ _ _ _ _ reader ih =>
      exact add_le_add_right ih _

@[simp] theorem evaluateShared_working (expr : Expr) : (evaluateShared expr).working = 0 := by
  cases expr <;> rfl

/-- What a step does to the work of its request: nothing, or it claims an empty
cell, or it finishes the work on a cell. -/
inductive Works (cache : ExprCache) (process : Process) (action : Action) (process' : Process) :
    Prop where
  | keeps : action.worked? = none → action.reductions = [] → process'.working = process.working →
      Works cache process action process'
  | claims {handle} : action.worked? = none → action.reductions = [] →
      (cache.cells handle).state = .empty → process'.working = {handle} + process.working →
      Works cache process action process'
  | finishes {expr handle} : cache.Filed expr handle →
      process.working = {handle} + process'.working →
      action.reductions = expr.ownReductions →
      (action.worked? = some expr ∨ action.worked? = none ∧ expr.ownReductions = []) →
      Works cache process action process'

variable {cache cache' : ExprCache} {process process' : Process}

theorem Works.frame {action : Action} (works : Works cache process action process')
    (others : Multiset Nat) {outer outer' : Process}
    (working : outer.working = others + process.working)
    (working' : outer'.working = others + process'.working) :
    Works cache outer action outer' := by
  cases works with
  | keeps unworked nothing same => exact .keeps unworked nothing (by rw [working', same, working])
  | claims unworked nothing empty gains =>
      exact .claims unworked nothing empty (by rw [working', gains, working, add_left_comm])
  | finishes filed loses own worked =>
      exact .finishes filed (by rw [working', working, loses, add_left_comm]) own worked

theorem working_of_result {value : Outcome} (returned : process.result? = some value) :
    process.working = 0 := by
  have holds := (holding_of_result returned).1
  exact Multiset.le_zero.mp (holds ▸ process.working_le_holding)

theorem working_of_other {ask : Ask} {handle : Nat} {point : OnceValue.Filling Outcome}
    (other : point ≠ .initializing) : (cell ask handle point).working = 0 :=
  if_neg other

theorem ownReductions_of_plain {expr : Expr} (plain : ¬expr.IsInfix) :
    expr.ownReductions = expr.reductions := by
  cases expr with
  | number | unaryOp => rfl
  | binaryOp => exact absurd trivial plain

theorem Step.works {action : Action} (taken : Step cache process action cache' process')
    (fits : process.Fits cache) {root : Expr} (driven : process.Driven cache root) :
    Works cache process action process' := by
  induction taken with
  | entry => exact .keeps rfl rfl rfl
  | cell taken =>
      rcases (OnceValue.advances_of_advance taken).claims with ⟨rfl, rfl, empty, _⟩ |
        ⟨_, rfl, rfl, _⟩ | ⟨source, target, _, _⟩
      · exact .claims rfl rfl empty rfl
      · exact .keeps rfl rfl rfl
      · exact .keeps rfl rfl (by rw [working_of_other source, working_of_other target])
  | countEvaluate | countShared => exact .keeps rfl rfl rfl
  | compute =>
      exact .finishes fits (add_zero _).symm (ownReductions_of_plain driven.2).symm (.inl rfl)
  | spawn => exact .keeps rfl rfl (by simp [working])
  | @worker _ _ _ handle worker own _ _ worker' taken ih =>
      refine (ih fits.2.2.2.1 driven.2.1).frame ({handle} + own.working) ?_ ?_
      · rw [working, add_assoc, add_comm worker.working]
      · rw [working, add_assoc, add_comm worker'.working]
  | @own _ _ _ handle worker own _ _ own' taken ih =>
      refine (ih fits.2.2.2.2 driven.2.2).frame ({handle} + worker.working) ?_ ?_
      · rw [working, add_assoc]
      · rw [working, add_assoc]
  | join workerDone ownDone =>
      obtain ⟨_, workerDone⟩ := Option.isSome_iff_exists.mp workerDone
      obtain ⟨_, ownDone⟩ := Option.isSome_iff_exists.mp ownDone
      refine .keeps rfl rfl ?_
      simp only [working, working_of_result workerDone, working_of_result ownDone, add_zero]
  | @left _ _ _ handle _ _ _ _ taken ih =>
      exact (ih fits.2.2 driven.2.2.2).frame {handle} rfl rfl
  | leftRead returned =>
      refine .keeps rfl rfl ?_
      simp only [working, working_of_result returned]
  | @leftFailed op _ right _ reader _ returned =>
      obtain ⟨filed, rfl, readerFits⟩ := fits
      have failed : applied op reader.expr right = [] :=
        applied_of_left_failed (readerFits.result returned).1.symm
      refine .finishes filed ?_ failed.symm (.inr ⟨rfl, failed⟩)
      exact congrArg ({_} + ·) (working_of_result returned)
  | @right _ _ _ handle _ _ _ _ _ taken ih =>
      exact (ih fits.2.2.2 driven.2.2.2).frame {handle} rfl rfl
  | @rightRead op left _ _ _ reader _ returned =>
      obtain ⟨filed, value, rfl, readerFits⟩ := fits
      have own : applied op left reader.expr = _ :=
        applied_of_ok value (readerFits.result returned).1.symm
      refine .finishes filed ?_ own.symm (.inl rfl)
      exact congrArg ({_} + ·) (working_of_result returned)
  | @rightFailed op left _ _ _ reader _ returned =>
      obtain ⟨filed, value, rfl, readerFits⟩ := fits
      have failed : applied op left reader.expr = [] :=
        applied_of_right_failed (readerFits.result returned).1.symm
      refine .finishes filed ?_ failed.symm (.inr ⟨rfl, failed⟩)
      exact congrArg ({_} + ·) (working_of_result returned)

/-- A cell leaves the empty phase only through a claim, which the request then
works on. -/
theorem Step.claimed_of_nonempty {action : Action}
    (taken : Step cache process action cache' process') {key : String} {other : Nat}
    (filed : cache'.entries.lookup key = some other)
    (nonempty : (cache'.cells other).state ≠ .empty) :
    cache.entries.lookup key = some other ∧
        ((cache.cells other).state ≠ .empty ∨ other ∈ process.holding) ∨
      other ∈ process'.working := by
  induction taken with
  | entry entered =>
      obtain ⟨known, same⟩ := ExprCache.claimed_of_entry entered filed nonempty
      exact .inl ⟨known, .inl (same ▸ nonempty)⟩
  | @cell ask handle point cell' point' taken =>
      rw [ExprCache.setCell_cells] at nonempty
      by_cases same : other = handle
      · rw [if_pos same] at nonempty
        subst same
        rcases (OnceValue.advances_of_advance taken).claims with ⟨_, rfl, _, _⟩ |
          ⟨_, rfl, _, _⟩ | ⟨_, _, _, unmoved⟩
        · exact .inr (Multiset.mem_singleton_self _)
        · exact .inl ⟨filed, .inr (Multiset.mem_singleton_self _)⟩
        · exact .inl ⟨filed, .inl (unmoved ▸ nonempty)⟩
      · rw [if_neg same] at nonempty
        exact .inl ⟨filed, .inl nonempty⟩
  | countEvaluate | countShared | compute | spawn | join | leftRead | leftFailed | rightRead
  | rightFailed => exact .inl ⟨filed, .inl nonempty⟩
  | worker taken ih =>
      refine (ih filed nonempty).imp (And.imp_right (Or.imp_right fun member => ?_))
        fun member => ?_
      · exact Multiset.mem_add.mpr (.inr (Multiset.mem_add.mpr (.inl member)))
      · exact Multiset.mem_add.mpr (.inr (Multiset.mem_add.mpr (.inl member)))
  | own taken ih =>
      refine (ih filed nonempty).imp (And.imp_right (Or.imp_right fun member => ?_))
        fun member => ?_
      · exact Multiset.mem_add.mpr (.inr (Multiset.mem_add.mpr (.inr member)))
      · exact Multiset.mem_add.mpr (.inr (Multiset.mem_add.mpr (.inr member)))
  | left taken ih | right taken ih =>
      exact (ih filed nonempty).imp
        (And.imp_right (Or.imp_right fun member => Multiset.mem_add.mpr (.inr member)))
        fun member => Multiset.mem_add.mpr (.inr member)

end Process

/-!
## Runs
-/

/-- The requested nodes worked out so far stand for all the work there was, once
for every rendering that is filed, claimed and no longer worked on. -/
structure WorkedOut (actions : List Process.Action) (state : ExprCache × Process) : Prop where
  total : actions.flatMap Process.Action.reductions =
    (actions.filterMap Process.Action.worked?).flatMap Expr.ownReductions
  once : ((actions.filterMap Process.Action.worked?).map formatExpr).Nodup
  settled : ∀ node ∈ actions.filterMap Process.Action.worked?, ∃ handle,
    state.1.Filed node handle ∧ (state.1.cells handle).state ≠ .empty ∧
      handle ∉ state.2.working
  complete : ∀ {expr handle}, state.1.Filed expr handle →
    (state.1.cells handle).state ≠ .empty → handle ∉ state.2.working →
    expr.ownReductions = [] ∨
      ∃ node ∈ actions.filterMap Process.Action.worked?, formatExpr node = formatExpr expr

section Runs

variable {root : Expr} {actions : List Process.Action} {state next : ExprCache × Process}

theorem Parallel.initializing_of_holding (parallel : Parallel root state) {handle : Nat}
    (held : handle ∈ state.2.holding) : (state.1.cells handle).state = .initializing := by
  rw [parallel.claims] at held
  exact (ExprCache.mem_inPhase.mp held).2

theorem Parallel.nodup_working (parallel : Parallel root state) : state.2.working.Nodup := by
  refine Multiset.nodup_of_le state.2.working_le_holding ?_
  rw [parallel.claims]
  exact (state.1.inPhase .initializing).nodup

theorem Parallel.claimed_later (parallel : Parallel root state) {action : Process.Action}
    (taken : ParallelStep state action next) {expr : Expr} {handle : Nat}
    (filed : state.1.Filed expr handle) (claimed : (state.1.cells handle).state ≠ .empty) :
    next.1.Filed expr handle ∧ (next.1.cells handle).state ≠ .empty := by
  have ordered := Process.Step.le taken
  exact ⟨ordered.entries filed, (ordered.cells (parallel.sound.bounded filed)).not_empty claimed⟩

/-- A cell that is not worked on after a step was claimed before it. -/
theorem Parallel.claimed_before (parallel : Parallel root state) {action : Process.Action}
    (taken : ParallelStep state action next) {expr : Expr} {handle : Nat}
    (filed : next.1.Filed expr handle) (claimed : (next.1.cells handle).state ≠ .empty)
    (free : handle ∉ next.2.working) :
    state.1.Filed expr handle ∧ (state.1.cells handle).state ≠ .empty := by
  rcases Process.Step.claimed_of_nonempty taken filed claimed with ⟨filed, before⟩ | working
  · refine ⟨filed, before.elim id fun held => ?_⟩
    rw [parallel.initializing_of_holding held]
    decide
  · exact absurd working free

/-- A step that works out no node may still begin or drop the work on a cell, as
long as there is nothing to reduce for what it drops. -/
theorem WorkedOut.skip (workedOut : WorkedOut actions state) (parallel : Parallel root state)
    {action : Process.Action} (taken : ParallelStep state action next)
    (unworked : action.worked? = none) (nothing : action.reductions = [])
    (gains : ∀ {handle}, (state.1.cells handle).state ≠ .empty → handle ∉ state.2.working →
      handle ∉ next.2.working)
    (loses : ∀ {expr handle}, state.1.Filed expr handle → handle ∉ next.2.working →
      handle ∉ state.2.working ∨ expr.ownReductions = []) :
    WorkedOut (actions ++ [action]) next := by
  have same : (actions ++ [action]).filterMap Process.Action.worked? =
      actions.filterMap Process.Action.worked? := by
    rw [List.filterMap_append, List.filterMap_cons, unworked, List.filterMap_nil, List.append_nil]
  refine ⟨?_, same ▸ workedOut.once, fun node member => ?_, fun filed claimed free => ?_⟩
  · rw [same, List.flatMap_append, List.flatMap_singleton, nothing, List.append_nil,
      workedOut.total]
  · obtain ⟨handle, filed, claimed, free⟩ := workedOut.settled node (same ▸ member)
    obtain ⟨filed', claimed'⟩ := parallel.claimed_later taken filed claimed
    exact ⟨handle, filed', claimed', gains claimed free⟩
  · obtain ⟨before, claimedBefore⟩ := parallel.claimed_before taken filed claimed free
    rw [same]
    exact (loses before free).elim (workedOut.complete before claimedBefore) .inl

theorem WorkedOut.work (workedOut : WorkedOut actions state) (parallel : Parallel root state)
    {action : Process.Action} (taken : ParallelStep state action next) {expr : Expr}
    {handle : Nat} (filed : state.1.Filed expr handle)
    (loses : state.2.working = {handle} + next.2.working) (worked : action.worked? = some expr)
    (own : action.reductions = expr.ownReductions) :
    WorkedOut (actions ++ [action]) next := by
  have more : (actions ++ [action]).filterMap Process.Action.worked? =
      actions.filterMap Process.Action.worked? ++ [expr] := by
    rw [List.filterMap_append, List.filterMap_cons, worked, List.filterMap_nil]
  have busy : handle ∈ state.2.working := loses ▸ Multiset.mem_add.mpr (.inl (by simp))
  have done : handle ∉ next.2.working := by
    have nodup := parallel.nodup_working
    rw [loses, Multiset.singleton_add, Multiset.nodup_cons] at nodup
    exact nodup.1
  have free : ∀ {other}, other ∉ state.2.working → other ∉ next.2.working :=
    fun idle member => idle (loses ▸ Multiset.mem_add.mpr (.inr member))
  refine ⟨?_, ?_, fun node member => ?_, fun {other otherHandle} otherFiled claimed idle => ?_⟩
  · rw [more, List.flatMap_append, List.flatMap_append, List.flatMap_singleton,
      List.flatMap_singleton, own, workedOut.total]
  · -- An earlier node of this rendering is not worked on, and this one was.
    rw [more, List.map_append, List.nodup_append]
    refine ⟨workedOut.once, List.nodup_singleton _, ?_⟩
    intro rendering earlier other member same
    obtain ⟨node, inside, rfl⟩ := List.mem_map.mp earlier
    obtain ⟨before, beforeFiled, _, idle⟩ := workedOut.settled node inside
    have rendered := same.trans (List.mem_singleton.mp member)
    rw [ExprCache.Filed, rendered] at beforeFiled
    cases filed.symm.trans beforeFiled
    exact idle busy
  · rw [more] at member
    rcases List.mem_append.mp member with member | member
    · obtain ⟨other, otherFiled, claimed, idle⟩ := workedOut.settled node member
      obtain ⟨filed', claimed'⟩ := parallel.claimed_later taken otherFiled claimed
      exact ⟨other, filed', claimed', free idle⟩
    · cases List.mem_singleton.mp member
      have claimed := parallel.initializing_of_holding
        (Multiset.subset_of_le state.2.working_le_holding busy)
      obtain ⟨filed', claimed'⟩ := parallel.claimed_later taken filed (by rw [claimed]; decide)
      exact ⟨handle, filed', claimed', done⟩
  · obtain ⟨before, claimedBefore⟩ := parallel.claimed_before taken otherFiled claimed idle
    rw [more]
    by_cases same : otherHandle = handle
    · subst same
      exact .inr ⟨expr, List.mem_append_right _ (List.mem_singleton_self _),
        parallel.sound.injective filed before⟩
    · have idleBefore : otherHandle ∉ state.2.working := by
        rw [loses, Multiset.mem_add, Multiset.mem_singleton]
        exact fun either => either.elim same idle
      refine (workedOut.complete before claimedBefore idleBefore).imp id ?_
      rintro ⟨node, member, rendered⟩
      exact ⟨node, List.mem_append_left _ member, rendered⟩

theorem WorkedOut.step (workedOut : WorkedOut actions state) (parallel : Parallel root state)
    {action : Process.Action} (taken : ParallelStep state action next) :
    WorkedOut (actions ++ [action]) next := by
  cases Process.Step.works taken parallel.fits parallel.driven with
  | keeps unworked nothing same =>
      exact workedOut.skip parallel taken unworked nothing (fun _ => same ▸ id)
        fun _ free => .inl (same ▸ free)
  | @claims handle unworked nothing empty gains =>
      refine workedOut.skip parallel taken unworked nothing (fun claimed free member => ?_)
        fun _ free => .inl fun member => free (gains ▸ Multiset.mem_add.mpr (.inr member))
      rw [gains] at member
      rcases Multiset.mem_add.mp member with member | member
      · cases Multiset.mem_singleton.mp member
        exact claimed empty
      · exact free member
  | @finishes expr handle filed loses own worked =>
      rcases worked with worked | ⟨unworked, nothing⟩
      · exact workedOut.work parallel taken filed loses worked own
      · refine workedOut.skip parallel taken unworked (own.trans nothing)
          (fun _ free member => free (loses ▸ Multiset.mem_add.mpr (.inr member)))
          fun {other otherHandle} otherFiled free => ?_
        by_cases same : otherHandle = handle
        · subst same
          exact .inr ((ownReductions_congr (parallel.sound.injective otherFiled filed)).trans
            nothing)
        · refine .inl fun member => ?_
          rw [loses, Multiset.mem_add, Multiset.mem_singleton] at member
          exact member.elim same free

theorem ParallelRuns.workedOut (run : ParallelRuns root actions state) :
    WorkedOut actions state := by
  refine (@Run.invariant _ _ _ (fun actions state => Parallel root state ∧ WorkedOut actions state)
    _ _ _ run ⟨(ParallelRuns.start root).parallel, ?_⟩ fun both taken =>
      ⟨both.1.step taken, both.2.step both.1 taken⟩).2
  exact ⟨rfl, List.nodup_nil, nofun, fun filed => by cases filed⟩

/-- Any run goes on to one whose call returns. -/
theorem ParallelRuns.completes (run : ParallelRuns root actions state) :
    ∃ more last value, ParallelRuns root (actions ++ more) last ∧
      last.2.result? = some value := by
  generalize size : state.2.weight state.1 = bound
  induction bound using Nat.strongRecOn generalizing actions state with
  | ind bound ih =>
      cases returned : state.2.result? with
      | some value => exact ⟨[], state, value, (List.append_nil actions).symm ▸ run, returned⟩
      | none =>
          obtain ⟨action, next, taken, progresses⟩ := run.parallel.progress returned
          have lower :=
            (Process.Step.weight taken run.parallel.sound run.parallel.fits).1 progresses
          obtain ⟨more, last, value, run, returned⟩ := ih _ (size ▸ lower) (.snoc run taken) rfl
          rw [List.append_assoc] at run
          exact ⟨action :: more, last, value, run, returned⟩

theorem ParallelRuns.worked_of_result (run : ParallelRuns root actions state) {value : Outcome}
    (returned : state.2.result? = some value) {node : Expr} (asked : node ∈ requested root) :
    node.ownReductions = [] ∨
      ∃ other ∈ actions.filterMap Process.Action.worked?, formatExpr other = formatExpr node := by
  have parallel := run.parallel
  have landed := (parallel.fits.result returned).2
  rw [parallel.expr] at landed
  obtain ⟨handle, filed, ready⟩ := parallel.closed.ready landed node asked
  refine run.workedOut.complete filed (by rw [ready]; decide) ?_
  rw [Process.working_of_result returned]
  exact Multiset.notMem_zero handle

end Runs

/-- No requested node repeats a reduction, and no two requested nodes of different
renderings share one. -/
def WorksApart (root : Expr) : Prop :=
  (∀ node ∈ requested root, node.ownReductions.Nodup) ∧
    ∀ first ∈ requested root, ∀ second ∈ requested root, formatExpr first ≠ formatExpr second →
      ∀ rendering ∈ first.ownReductions, rendering ∉ second.ownReductions

instance (root : Expr) : Decidable (WorksApart root) :=
  inferInstanceAs (Decidable (_ ∧ _))

section Counts

variable {root : Expr} {actions : List Process.Action} {state : ExprCache × Process}

private theorem reductions_nodup (run : ParallelRuns root actions state)
    (apart : WorksApart root) : (actions.flatMap Process.Action.reductions).Nodup := by
  obtain ⟨total, once, settled, _⟩ := run.workedOut
  -- A worked node does what a requested node of its rendering does.
  have asked : ∀ node ∈ actions.filterMap Process.Action.worked?,
      ∃ other ∈ requested root, formatExpr other = formatExpr node := by
    intro node member
    obtain ⟨handle, filed, _⟩ := settled node member
    exact run.parallel.closed.within filed
  rw [total, List.nodup_flatMap]
  refine ⟨fun node member => ?_, ?_⟩
  · obtain ⟨other, requested, same⟩ := asked node member
    exact ownReductions_congr same ▸ apart.1 other requested
  · refine (List.pairwise_map.mp once).imp_of_mem fun {first second} inFirst inSecond differ => ?_
    obtain ⟨one, oneRequested, sameOne⟩ := asked first inFirst
    obtain ⟨two, twoRequested, sameTwo⟩ := asked second inSecond
    rw [Function.onFun, ← ownReductions_congr sameOne, ← ownReductions_congr sameTwo]
    exact apart.2 one oneRequested two twoRequested (sameOne ▸ sameTwo ▸ differ)

private theorem worksApart_of_nodup (run : ParallelRuns root actions state) {value : Outcome}
    (returned : state.2.result? = some value)
    (nodup : (actions.flatMap Process.Action.reductions).Nodup) : WorksApart root := by
  rw [run.workedOut.total, List.nodup_flatMap] at nodup
  obtain ⟨each, pairs⟩ := nodup
  refine ⟨fun node asked => ?_, fun first inFirst second inSecond differ rendering => ?_⟩
  · rcases run.worked_of_result returned asked with nothing | ⟨other, worked, same⟩
    · exact nothing ▸ List.nodup_nil
    · exact ownReductions_congr same ▸ each other worked
  · intro reduced again
    rcases run.worked_of_result returned inFirst with nothing | ⟨one, oneWorked, sameOne⟩
    · exact List.not_mem_nil (nothing ▸ reduced)
    rcases run.worked_of_result returned inSecond with nothing | ⟨two, twoWorked, sameTwo⟩
    · exact List.not_mem_nil (nothing ▸ again)
    have symmetric : Std.Symm (Function.onFun List.Disjoint Expr.ownReductions) :=
      ⟨fun _ _ => List.Disjoint.symm⟩
    have disjoint := pairs.forall oneWorked twoWorked
      fun same => differ (sameOne ▸ sameTwo ▸ congrArg formatExpr same)
    rw [Function.onFun, ownReductions_congr sameOne, ownReductions_congr sameTwo] at disjoint
    exact disjoint reduced again

/-- The run of a tree applies an operator at most once for every rendering just
when the work of its requested nodes is without repeats. -/
theorem parallelRuns_reduce_once_iff (root : Expr) :
    (∀ actions state, ParallelRuns root actions state →
      ∀ rendering, (actions.flatMap Process.Action.reductions).count rendering ≤ 1) ↔
      WorksApart root := by
  constructor
  · intro once
    obtain ⟨actions, state, value, run, returned⟩ := (ParallelRuns.start root).completes
    exact worksApart_of_nodup run returned (List.nodup_iff_count_le_one.mpr (once _ _ run))
  · intro apart actions state run
    exact List.nodup_iff_count_le_one.mp (reductions_nodup run apart)

/-- A sum of literals, once under a minus and once beside it. -/
private def sumAndMinus (first second : I64) : Expr :=
  .binaryOp .add (.unaryOp .neg (.binaryOp .add (.number first) (.number second)))
    (.binaryOp .add (.number first) (.number second))

theorem parallelRuns_reduce_twice :
    ¬∀ actions state,
      ParallelRuns (sumAndMinus ⟨1, by decide, by decide⟩ ⟨2, by decide, by decide⟩) actions state →
      ∀ rendering, (actions.flatMap Process.Action.reductions).count rendering ≤ 1 := by
  intro once
  obtain ⟨actions, state, value, run, returned⟩ := (ParallelRuns.start _).completes
  have apart := worksApart_of_nodup run returned (List.nodup_iff_count_le_one.mpr (once _ _ run))
  exact absurd apart (by decide +kernel)

end Counts

end Proofhouse
