import Proofhouse.ConcurrentClaims

/-!
# The parallel walk refines the serial one

The forking walk asks for the tree and for both operands of every infix node it
asks for. When its call returns, every one of these trees is ready with the
value the serial walk gives, and each of their renderings was worked out once.
-/

set_option autoImplicit false

namespace Proofhouse

open Library

/-- The nodes the forking walk asks for: the tree, and both operands of every
infix node asked for. Nothing under a prefix minus is asked for by itself. -/
def requested : Expr → List Expr
  | .number value => [.number value]
  | .unaryOp op operand => [.unaryOp op operand]
  | .binaryOp op left right => .binaryOp op left right :: (requested left ++ requested right)

theorem self_mem_requested (expr : Expr) : expr ∈ requested expr := by
  cases expr <;> exact List.mem_cons_self

theorem operands_mem_requested {root left right : Expr} {op : BinaryOperator}
    (member : .binaryOp op left right ∈ requested root) :
    left ∈ requested root ∧ right ∈ requested root := by
  induction root with
  | number | unaryOp => cases List.mem_singleton.mp member
  | binaryOp rootOp rootLeft rootRight leftIH rightIH =>
      rcases List.mem_cons.mp member with same | inside
      · cases same
        exact ⟨List.mem_cons_of_mem _ (List.mem_append_left _ (self_mem_requested left)),
          List.mem_cons_of_mem _ (List.mem_append_right _ (self_mem_requested right))⟩
      · rcases List.mem_append.mp inside with inside | inside
        · exact (leftIH inside).imp
            (fun member => List.mem_cons_of_mem _ (List.mem_append_left _ member))
            (fun member => List.mem_cons_of_mem _ (List.mem_append_left _ member))
        · exact (rightIH inside).imp
            (fun member => List.mem_cons_of_mem _ (List.mem_append_right _ member))
            (fun member => List.mem_cons_of_mem _ (List.mem_append_right _ member))

def Expr.IsInfix : Expr → Prop
  | .binaryOp _ _ _ => True
  | .number _ | .unaryOp _ _ => False

/-- What the forking walk keeps of the table: a ready infix node has ready
operands, and only requested trees are filed. -/
structure ExprCache.Closed (cache : ExprCache) (root : Expr) : Prop where
  operands : ∀ {op left right}, cache.Ready (.binaryOp op left right) →
    cache.Ready left ∧ cache.Ready right
  within : ∀ {key handle}, cache.entries.lookup key = some handle →
    ∃ node ∈ requested root, formatExpr node = key

/-- A plain request goes to an infix node only to read its value. -/
def Ask.Driven (cache : ExprCache) (root : Expr) : Ask → Prop
  | .evaluate expr => expr ∈ requested root ∧ (expr.IsInfix → cache.Ready expr)
  | .shared op left right => .binaryOp op left right ∈ requested root

/-- An infix node is filled by its own forking request, after both operands. -/
def Ask.Entitled (cache : ExprCache) (point : OnceValue.Filling Outcome) : Ask → Prop
  | .evaluate expr => expr.IsInfix → ¬point.Holds
  | .shared _ left right =>
      point.Holds → point ≠ .initializing → cache.Ready left ∧ cache.Ready right

namespace Process

def Driven (cache : ExprCache) (root : Expr) : Process → Prop
  | .lookup ask => ask.Driven cache root
  | .cell ask _ point => ask.Driven cache root ∧ ask.Entitled cache point
  | .compute expr _ => expr ∈ requested root ∧ ¬expr.IsInfix
  | .spawn op left right _ => .binaryOp op left right ∈ requested root
  | .scope op left right _ worker own =>
      .binaryOp op left right ∈ requested root ∧ worker.Driven cache root ∧ own.Driven cache root
  | .leftOperand op left right _ reader | .rightOperand op left right _ _ reader =>
      .binaryOp op left right ∈ requested root ∧ cache.Ready left ∧ cache.Ready right ∧
        reader.Driven cache root

variable {cache cache' : ExprCache} {root : Expr}

theorem evaluateShared_driven {expr : Expr} (member : expr ∈ requested root) :
    (evaluateShared expr).Driven cache root := by
  cases expr with
  | number | unaryOp => exact ⟨member, False.elim⟩
  | binaryOp => exact member

theorem askDriven_mono {ask : Ask} (driven : ask.Driven cache root) (sound : cache.Sound)
    (ordered : cache.Le cache') : ask.Driven cache' root := by
  cases ask with
  | evaluate expr => exact ⟨driven.1, fun isInfix => (driven.2 isInfix).mono sound ordered⟩
  | shared => exact driven

theorem askEntitled_mono {ask : Ask} {point : OnceValue.Filling Outcome}
    (entitled : ask.Entitled cache point) (sound : cache.Sound) (ordered : cache.Le cache') :
    ask.Entitled cache' point := by
  cases ask with
  | evaluate => exact entitled
  | shared =>
      intro holds running
      exact (entitled holds running).imp (·.mono sound ordered) (·.mono sound ordered)

theorem Driven.mono {process : Process} (driven : process.Driven cache root) (sound : cache.Sound)
    (ordered : cache.Le cache') : process.Driven cache' root := by
  induction process with
  | lookup => exact askDriven_mono driven sound ordered
  | cell =>
      exact ⟨askDriven_mono driven.1 sound ordered, askEntitled_mono driven.2 sound ordered⟩
  | compute | spawn => exact driven
  | scope _ _ _ _ worker own workerIH ownIH =>
      exact ⟨driven.1, workerIH driven.2.1, ownIH driven.2.2⟩
  | leftOperand _ _ _ _ reader ih | rightOperand _ _ _ _ _ reader ih =>
      obtain ⟨member, left, right, inner⟩ := driven
      exact ⟨member, left.mono sound ordered, right.mono sound ordered, ih inner⟩

private theorem ready_cell {expr : Expr} {handle : Nat} (filed : cache.Filed expr handle)
    (ready : cache.Ready expr) : (cache.cells handle).state = .ready := by
  obtain ⟨other, otherFiled, landed⟩ := ready
  cases filed.symm.trans otherFiled
  exact landed

section Cell

variable {ask : Ask} {handle : Nat} {point point' : OnceValue.Filling Outcome}
  {cell' : OnceValue Outcome}

private theorem entitled_step
    (advances : OnceValue.Advances (cache.cells handle) point cell' point')
    (sound : cache.Sound) (filed : cache.Filed ask.expr handle) (driven : ask.Driven cache root)
    (entitled : ask.Entitled cache point) :
    ask.Entitled (cache.setCell handle cell') point' := by
  have ordered := ExprCache.setCell_le advances.le
  refine askEntitled_mono ?_ sound ordered
  cases ask with
  | evaluate expr =>
      intro isInfix
      rcases advances.claims with ⟨_, _, empty, _⟩ | ⟨_, _, rfl, _⟩ | ⟨_, _, holds, _⟩
      · exact absurd (empty.symm.trans (ready_cell filed (driven.2 isInfix))) (by decide)
      · exact id
      · exact fun after => entitled isInfix (holds.mpr after)
  | shared op left right =>
      intro after running
      rcases advances.claims with ⟨_, rfl, _, _⟩ | ⟨_, _, rfl, _⟩ | ⟨source, _, holds, _⟩
      · exact absurd rfl running
      · exact after.elim
      · exact entitled (holds.mpr after) source

/-- A publication makes the operands' entries ready before the node's own. -/
private theorem operands_of_publication {op : BinaryOperator} {left right : Expr}
    (entitled : ask.Entitled cache point) (holds : point.Holds) (running : point ≠ .initializing)
    (same : formatExpr (.binaryOp op left right) = formatExpr ask.expr) :
    cache.Ready left ∧ cache.Ready right := by
  cases ask with
  | evaluate expr =>
      obtain ⟨_, _, rfl, _, _⟩ := operands_of_formatExpr_eq same.symm
      exact absurd holds (entitled trivial)
  | shared askedOp askedLeft askedRight =>
      obtain ⟨leftOther, rightOther, equal, onLeft, onRight⟩ := operands_of_formatExpr_eq same
      cases equal
      exact (entitled holds running).imp (·.congr onLeft.symm) (·.congr onRight.symm)

private theorem closed_step
    (advances : OnceValue.Advances (cache.cells handle) point cell' point')
    (sound : cache.Sound) (closed : cache.Closed root) (filed : cache.Filed ask.expr handle)
    (entitled : ask.Entitled cache point) : (cache.setCell handle cell').Closed root := by
  have ordered := ExprCache.setCell_le advances.le
  refine ⟨fun {op left right} ready => ?_, closed.within⟩
  suffices before : cache.Ready left ∧ cache.Ready right from
    before.imp (·.mono sound ordered) (·.mono sound ordered)
  obtain ⟨other, otherFiled, landed⟩ := ready
  rw [ExprCache.setCell_cells] at landed
  split at landed
  · next same =>
    subst same
    rcases advances.claims with ⟨_, _, _, claims⟩ | ⟨_, rfl, _, _⟩ | ⟨_, _, _, same⟩
    · exact absurd (claims.symm.trans landed) (by decide)
    · exact operands_of_publication entitled trivial nofun (sound.injective otherFiled filed)
    · exact closed.operands ⟨other, otherFiled, same.symm.trans landed⟩
  · exact closed.operands ⟨other, otherFiled, landed⟩

end Cell

theorem Step.driven {action : Action} {process process' : Process}
    (taken : Step cache process action cache' process') (sound : cache.Sound)
    (closed : cache.Closed root) (fits : process.Fits cache)
    (driven : process.Driven cache root) :
    cache'.Closed root ∧ process'.Driven cache' root := by
  have ordered := taken.le
  induction taken with
  | @entry ask handle cache' entered =>
      have ordered := ExprCache.entry_le entered
      refine ⟨⟨fun ready => ?_, fun filed => ?_⟩, askDriven_mono driven sound ordered, ?_⟩
      · exact (closed.operands (ExprCache.ready_of_entry entered ready)).imp
          (·.mono sound ordered) (·.mono sound ordered)
      · rcases ExprCache.entry_lookup entered filed with before | rfl
        · exact closed.within before
        · cases ask with
          | evaluate expr => exact ⟨expr, driven.1, rfl⟩
          | shared op left right => exact ⟨.binaryOp op left right, driven, rfl⟩
      · cases ask with
        | evaluate => exact fun _ => id
        | shared => exact fun holds => holds.elim
  | cell taken =>
      have advances := OnceValue.advances_of_advance taken
      exact ⟨closed_step advances sound closed fits.1 driven.2,
        askDriven_mono driven.1 sound ordered,
        entitled_step advances sound fits.1 driven.1 driven.2⟩
  | countEvaluate =>
      exact ⟨⟨closed.operands, closed.within⟩, driven.1.1,
        fun isInfix => driven.2 isInfix trivial⟩
  | countShared => exact ⟨⟨closed.operands, closed.within⟩, driven.1⟩
  | compute =>
      exact ⟨closed, ⟨driven.1, fun isInfix => absurd isInfix driven.2⟩,
        fun isInfix => absurd isInfix driven.2⟩
  | spawn =>
      have members := operands_mem_requested driven
      exact ⟨closed, driven, evaluateShared_driven members.1, evaluateShared_driven members.2⟩
  | worker taken ih =>
      obtain ⟨closed', worker⟩ := ih fits.2.2.2.1 driven.2.1 ordered
      exact ⟨closed', driven.1, worker, driven.2.2.mono sound ordered⟩
  | own taken ih =>
      obtain ⟨closed', own⟩ := ih fits.2.2.2.2 driven.2.2 ordered
      exact ⟨closed', driven.1, driven.2.1.mono sound ordered, own⟩
  | join workerDone ownDone =>
      obtain ⟨_, rfl, rfl, workerFits, ownFits⟩ := fits
      obtain ⟨_, workerDone⟩ := Option.isSome_iff_exists.mp workerDone
      obtain ⟨_, ownDone⟩ := Option.isSome_iff_exists.mp ownDone
      have left := (workerFits.result workerDone).2
      exact ⟨closed, driven.1, left, (ownFits.result ownDone).2,
        (operands_mem_requested driven.1).1, fun _ => left⟩
  | left taken ih =>
      obtain ⟨member, left, right, inner⟩ := driven
      obtain ⟨closed', reader⟩ := ih fits.2.2 inner ordered
      exact ⟨closed', member, left.mono sound ordered, right.mono sound ordered, reader⟩
  | leftRead =>
      obtain ⟨member, left, right, _⟩ := driven
      exact ⟨closed, member, left, right, (operands_mem_requested member).2, fun _ => right⟩
  | right taken ih =>
      obtain ⟨member, left, right, inner⟩ := driven
      obtain ⟨closed', reader⟩ := ih fits.2.2.2 inner ordered
      exact ⟨closed', member, left.mono sound ordered, right.mono sound ordered, reader⟩
  | leftFailed | rightRead | rightFailed =>
      exact ⟨closed, driven.1, fun _ _ => ⟨driven.2.1, driven.2.2.1⟩⟩

end Process

/-!
## Runs
-/

structure Parallel (root : Expr) (state : ExprCache × Process) : Prop where
  sound : state.1.Sound
  fits : state.2.Fits state.1
  expr : state.2.expr = root
  closed : state.1.Closed root
  driven : state.2.Driven state.1 root
  claims : state.2.holding = state.1.claimed
  counts : state.1.evaluations + state.2.uncounted = state.1.started

section Runs

variable {root : Expr} {actions : List Process.Action} {state next : ExprCache × Process}

private theorem parallel_initially (root : Expr) : Parallel root (.new, evaluateShared root) where
  sound := ExprCache.sound_new
  fits := Process.evaluateShared_fits _ _
  expr := Process.evaluateShared_expr _
  closed := by
    refine ⟨fun ready => ?_, fun filed => ?_⟩
    · obtain ⟨_, filed, _⟩ := ready
      cases filed
    · cases filed
  driven := Process.evaluateShared_driven (self_mem_requested root)
  claims := Process.evaluateShared_holding _
  counts := (Nat.zero_add _).trans (Process.evaluateShared_uncounted _)

theorem Parallel.step (parallel : Parallel root state) {action : Process.Action}
    (taken : ParallelStep state action next) : Parallel root next := by
  obtain ⟨sound, fits, expr, closed, driven, claims, counts⟩ := parallel
  obtain ⟨sound', fits'⟩ := Process.Step.sound taken sound fits
  obtain ⟨closed', driven'⟩ := Process.Step.driven taken sound closed fits driven
  obtain ⟨claimsStep, countsStep⟩ := Process.Step.balanced taken sound fits claims.le
  refine ⟨sound', fits', (Process.Step.expr taken).trans expr, closed', driven', ?_, ?_⟩
  · rw [claims, add_comm] at claimsStep
    exact add_left_cancel claimsStep
  · omega

theorem ParallelRuns.parallel (run : ParallelRuns root actions state) : Parallel root state :=
  @Run.invariant _ _ _ (fun _ state => Parallel root state) _ _ _ run (parallel_initially root)
    fun parallel taken => parallel.step taken

theorem ExprCache.Closed.ready {cache : ExprCache} (closed : cache.Closed root) {tree : Expr}
    (ready : cache.Ready tree) : ∀ node ∈ requested tree, cache.Ready node := by
  induction tree with
  | number | unaryOp =>
      intro node member
      cases List.mem_singleton.mp member
      exact ready
  | binaryOp op left right leftIH rightIH =>
      obtain ⟨onLeft, onRight⟩ := closed.operands ready
      intro node member
      rcases List.mem_cons.mp member with rfl | member
      · exact ready
      · rcases List.mem_append.mp member with member | member
        · exact leftIH onLeft node member
        · exact rightIH onRight node member

/-- Whenever the call of `evaluate_parallel` returns, it returns what the serial
walk does. Every requested node is then ready with its value, no other tree is
filed, and the counter tells the renderings requested. -/
theorem parallelRuns_refine (run : ParallelRuns root actions state) {value : Outcome}
    (returned : state.2.result? = some value) :
    value = evaluate root ∧
      (∀ node ∈ requested root, ∃ handle, state.1.Filed node handle ∧
        (state.1.cells handle).state = .ready ∧
        (state.1.cells handle).slot = some (evaluate node)) ∧
      (∀ key handle, state.1.entries.lookup key = some handle →
        ∃ node ∈ requested root, formatExpr node = key) ∧
      state.1.evaluations = ((requested root).map formatExpr).toFinset.card := by
  obtain ⟨sound, fits, rfl, closed, driven, claims, counts⟩ := run.parallel
  obtain ⟨agrees, landed⟩ := fits.result returned
  have finished := Process.holding_of_result returned
  rw [finished.1] at claims
  rw [finished.2, Nat.add_zero] at counts
  have ready := closed.ready landed
  refine ⟨agrees, fun node member => ?_, fun _ _ => closed.within,
    sound.evaluations_eq claims.symm counts (fun _ _ => closed.within) ready⟩
  obtain ⟨handle, filed, landed⟩ := ready node member
  exact ⟨handle, filed, landed, sound.slot_eq filed landed⟩

theorem ParallelRuns.act {cache cache' : ExprCache} {process process' : Process}
    {action : Process.Action} (run : ParallelRuns root actions (cache, process))
    (taken : Process.Step cache process action cache' process') :
    ParallelRuns root (actions ++ [action]) (cache', process') :=
  .snoc run taken

theorem ParallelRuns.start (root : Expr) : ParallelRuns root [] (.new, evaluateShared root) :=
  Run.start

end Runs

private def doubled (value : I64) : Expr :=
  .binaryOp .add (.number value) (.number value)

/-- The worker fills the shared entry, and everybody else reads it. -/
private theorem doubled_runs : ∃ actions state result,
    ParallelRuns (doubled I64.max) actions state ∧ state.2.result? = some result := by
  refine ⟨_, _, _, ParallelRuns.start (doubled I64.max) |>.act (.entry (Prod.eta _).symm)
    |>.act (.cell rfl) |>.act .countShared |>.act .spawn
    |>.act (.worker (.entry (Prod.eta _).symm)) |>.act (.worker (.cell rfl))
    |>.act (.worker .countEvaluate) |>.act (.worker .compute) |>.act (.worker (.cell rfl))
    |>.act (.worker (.cell rfl)) |>.act (.worker (.cell rfl))
    |>.act (.own (.entry (@ExprCache.entry_of_lookup _ _ 1 ?_)))
    |>.act (.own (.cell rfl)) |>.act (.own (.cell rfl)) |>.act (.own (.cell rfl))
    |>.act (.join rfl rfl) |>.act (.left (.entry (@ExprCache.entry_of_lookup _ _ 1 ?_)))
    |>.act (.left (.cell rfl)) |>.act (.left (.cell rfl)) |>.act (.left (.cell rfl))
    |>.act (.leftRead rfl) |>.act (.right (.entry (@ExprCache.entry_of_lookup _ _ 1 ?_)))
    |>.act (.right (.cell rfl)) |>.act (.right (.cell rfl)) |>.act (.right (.cell rfl))
    |>.act (.rightRead rfl) |>.act (.cell rfl) |>.act (.cell rfl) |>.act (.cell rfl), rfl⟩
  all_goals exact Finmap.lookup_insert _

theorem parallelRuns_refine_doubled :
    ∃ actions state, ParallelRuns (doubled I64.max) actions state ∧
      state.2.result? = some (evaluate (doubled I64.max)) ∧
      state.1.evaluations = ((requested (doubled I64.max)).map formatExpr).toFinset.card := by
  obtain ⟨actions, state, result, run, returned⟩ := doubled_runs
  have refines := parallelRuns_refine run returned
  exact ⟨actions, state, run, refines.1 ▸ returned, refines.2.2.2⟩

end Proofhouse
