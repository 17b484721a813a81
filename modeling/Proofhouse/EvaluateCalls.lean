import Proofhouse.CacheSharing
import Proofhouse.GetOrComputeFairness

/-!
# `ExprCache::evaluate` as a call of `get_or_compute`

A call of `evaluate` on a shared table is one of `get_or_compute` whose computation
is the plain walk, which never unwinds. So every call of it returns, under any
schedule that passes nobody over for good.
-/

set_option autoImplicit false

namespace Proofhouse

open Library

/-- Where the thread stands as a caller of `get_or_compute`. -/
def getting : Option EvaluateCall → Getting
  | none => .idle
  | some ⟨_, .lookup ask⟩ => .looking ask.expr
  | some ⟨_, .cell ask handle point⟩ => .filling ask.expr handle point
  | some ⟨_, .compute expr handle⟩ => .computing expr handle
  | some ⟨_, .spawn _ _ _ _⟩ | some ⟨_, .scope _ _ _ _ _ _⟩ | some ⟨_, .leftOperand _ _ _ _ _⟩
  | some ⟨_, .rightOperand _ _ _ _ _ _⟩ => .idle

section Steps

variable {cache cache' : ExprCache} {call call' : Option EvaluateCall} {event : CallEvent}

/-- A step of a call of `evaluate` is one of a call of `get_or_compute`. -/
theorem CallStep.gets (taken : CallStep cache call event cache' call')
    (fits : CallFits cache call) :
    ∃ shown, GettingStep cache (getting call) shown cache' (getting call') := by
  cases taken with
  | began => exact ⟨_, .began⟩
  | returned returned =>
      obtain ⟨ask, handle, rfl⟩ := Process.result?_eq_some returned
      exact ⟨_, .returned⟩
  | acted taken =>
      have serves := fits.2
      cases taken with
      | entry entered => exact ⟨_, .entered entered⟩
      | cell advances => exact ⟨_, .advanced advances⟩
      | countEvaluate => exact ⟨_, .counted⟩
      | compute => exact ⟨_, .computed⟩
      | countShared => cases serves
      | spawn | worker | own | join | left | leftRead | leftFailed | right | rightRead
      | rightFailed => exact serves.elim

/-- The plain walk does not unwind. -/
theorem CallStep.computes {expr : Expr} {handle : Nat}
    (taken : CallStep cache call event cache' call')
    (computing : getting call = .computing expr handle) :
    getting call' ≠ .idle := by
  cases taken with
  | began => cases computing
  | returned returned =>
      obtain ⟨ask, handle, rfl⟩ := Process.result?_eq_some returned
      cases computing
  | acted taken =>
      cases taken with
      | compute => exact fun idle => nomatch idle
      | entry | cell | countEvaluate | countShared | spawn | worker | own | join | left | leftRead
      | leftFailed | right | rightRead | rightFailed => cases computing

theorem CallStep.possible {asking : EvaluateCall} (fits : CallFits cache (some asking)) :
    ∃ event cache' call', CallStep cache (some asking) event cache' call' := by
  obtain ⟨argument, process⟩ := asking
  obtain ⟨-, serves⟩ := fits
  cases process with
  | lookup => exact ⟨_, _, _, .acted (.entry (Prod.eta _).symm)⟩
  | compute => exact ⟨_, _, _, .acted .compute⟩
  | spawn | scope | leftOperand | rightOperand => exact serves.elim
  | cell ask handle point =>
      obtain rfl : ask = .evaluate argument := serves
      rcases (cache.cells handle).advance_possible point with rfl | ⟨_, rfl⟩ | ⟨_, _, advances⟩
      · exact ⟨_, _, _, .acted .countEvaluate⟩
      · exact ⟨_, _, _, .returned rfl⟩
      · exact ⟨_, _, _, .acted (.cell advances)⟩

/-- A call keeps its argument until it returns the value of it. -/
theorem CallStep.keeps {argument : Expr} {process : Process}
    (taken : CallStep cache (some ⟨argument, process⟩) event cache' call')
    (fits : CallFits cache (some ⟨argument, process⟩)) :
    event = .returned argument (evaluate argument) ∨
      ∃ process', call' = some ⟨argument, process'⟩ := by
  have agrees : ∀ value, event = .returned argument value → value = evaluate argument :=
    fun value => taken.agrees fits
  cases taken with
  | acted => exact .inr ⟨_, rfl⟩
  | returned => exact .inl (by rw [agrees _ rfl])

end Steps

section Executions

variable {ι : Type} [DecidableEq ι]

theorem SharedRuns.fits {events : List (ι × CallEvent)}
    {state : ExprCache × (ι → Option EvaluateCall)} (run : SharedRuns events state) (thread : ι) :
    state.1.Sound ∧ CallFits state.1 (state.2 thread) := by
  refine @Run.invariant _ _ _ (fun _ state => ∀ thread,
    state.1.Sound ∧ CallFits state.1 (state.2 thread)) _ _ _ run ?_ (fun held taken => ?_) thread
  · exact fun _ => ⟨ExprCache.sound_new, trivial⟩
  exact taken.forall (fun taken both => taken.fits both.1 both.2)
    (fun taken own other => ⟨(taken.fits own.1 own.2).1, other.2.mono own.1 taken.le⟩) held

/-- The executions of any threads that call `ExprCache::evaluate` on one table. -/
abbrev SharedExecutions (ι : Type) [DecidableEq ι] : Type :=
  Execution (@Interleaves ExprCache (Option EvaluateCall) CallEvent ι _ CallStep)
    (.new, fun _ => none)

/-- The thread is inside a call. -/
def Calling (state : ExprCache × (ι → Option EvaluateCall)) (thread : ι) : Prop :=
  state.2 thread ≠ none

variable {execution : SharedExecutions ι} {thread : ι}

theorem SharedExecutions.fits (execution : SharedExecutions ι) (n : ℕ) (thread : ι) :
    CallFits (execution.states n).1 ((execution.states n).2 thread) :=
  (SharedRuns.fits (execution.run n) thread).2

theorem SharedExecutions.enabled {n : ℕ} (calling : Calling (execution.states n) thread) :
    Enabled (Interleaves CallStep) (execution.states n) thread := by
  have fits := execution.fits n thread
  obtain ⟨asking, calling⟩ := Option.ne_none_iff_exists'.mp calling
  rw [calling] at fits
  obtain ⟨event, cache', call', taken⟩ := CallStep.possible fits
  rw [← calling] at taken
  exact ⟨event, _, .act taken⟩

/-- The calls of `evaluate` as calls of `get_or_compute`, turn by turn. -/
theorem SharedExecutions.gettings (execution : SharedExecutions ι) :
    ∃ gettings : GettingExecutions ι,
      (∀ n thread, (gettings.states n).2 thread = getting ((execution.states n).2 thread)) ∧
      (∀ n thread shown, gettings.turns n = some (thread, shown) →
        ∃ event, execution.turns n = some (thread, event)) ∧
      ∀ n thread event, execution.turns n = some (thread, event) →
        ∃ shown, gettings.turns n = some (thread, shown) := by
  have refines : ∀ {events : List (ι × CallEvent)} {cache pool thread event cache' call'},
      SharedRuns events (cache, pool) → CallStep cache (pool thread) event cache' call' →
      Seen GettingStep (fun _ => some ()) (id cache) (getting (pool thread)) (some ())
        (id cache') (getting call') := by
    intro events cache pool thread event cache' call' run taken
    obtain ⟨shown, taken⟩ := taken.gets (run.fits thread).2
    exact .step taken rfl
  obtain ⟨gettings, states, tells, shows⟩ := execution.refine_pool refines
  refine ⟨gettings, fun n thread => by rw [states]; rfl, fun n thread shown turn => ?_,
    fun n thread event turn => ?_⟩
  · obtain ⟨event, turn, -⟩ := tells n thread shown turn
    exact ⟨event, turn⟩
  · exact (shows n thread event turn).resolve_right fun silent => nomatch silent.1

theorem SharedExecutions.fair_gettings {gettings : GettingExecutions ι}
    (fair : execution.Fair Calling)
    (states : ∀ n thread, (gettings.states n).2 thread = getting ((execution.states n).2 thread))
    (shows : ∀ n thread event, execution.turns n = some (thread, event) →
      ∃ shown, gettings.turns n = some (thread, shown)) :
    gettings.Fair Getting.Busy := by
  intro thread start able
  have calling : ∀ n, start ≤ n → Calling (execution.states n) thread := by
    intro n later absent
    have busy := (able n later).1
    rw [Getting.Busy, states, absent] at busy
    exact busy rfl
  obtain ⟨n, event, later, turn⟩ := fair thread start fun n later =>
    ⟨calling n later, SharedExecutions.enabled (calling n later)⟩
  obtain ⟨shown, turn⟩ := shows n thread event turn
  exact ⟨n, shown, later, turn⟩

/-- Where no thread inside a call is passed over for good, each call of `evaluate` on a
shared table returns, and what it returns is the value of its own tree. -/
theorem sharedExecutions_return (fair : execution.Fair Calling) {n : ℕ} {call : EvaluateCall}
    (calls : (execution.states n).2 thread = some call) :
    ∃ m, n ≤ m ∧
      execution.turns m = some (thread, .returned call.argument (evaluate call.argument)) := by
  by_contra never
  obtain ⟨argument, process⟩ := call
  have stuck : ∀ m, n ≤ m →
      ∃ process, (execution.states m).2 thread = some ⟨argument, process⟩ := by
    refine fun m later => execution.own_always
      (fun own => ∃ process, own = some ⟨argument, process⟩) ⟨process, calls⟩
      (fun {k event} later turn kept => ?_) later
    obtain ⟨process, kept⟩ := kept
    have taken := Execution.own_step turn
    have fits := execution.fits k thread
    rw [kept] at taken fits
    refine (taken.keeps fits).resolve_left fun returned => never ⟨k, later, ?_⟩
    rw [turn, returned]
  obtain ⟨gettings, states, tells, shows⟩ := execution.gettings
  have busy : ∀ m, n ≤ m → Getting.Busy (gettings.states m) thread := by
    intro m later idle
    obtain ⟨process, stands⟩ := stuck m later
    have serves := execution.fits m thread
    rw [states, stands] at idle
    rw [stands] at serves
    cases process with
    | lookup | cell | compute => cases idle
    | spawn | scope | leftOperand | rightOperand => exact serves.2
  obtain ⟨m, -, other, expr, -, turn, -⟩ :=
    GettingExecutions.unwound_of_stuck (SharedExecutions.fair_gettings fair states shows) busy
  obtain ⟨event, concrete⟩ := tells m other _ turn
  have unwound := Execution.own_step turn
  rw [states, states] at unwound
  obtain ⟨⟨handle, computing⟩, idle⟩ := unwound.of_unwound
  exact (Execution.own_step concrete).computes computing idle

end Executions

private theorem lone_runs (argument : Expr) :
    ∃ events state, SharedRuns (((), .began argument) :: events) state ∧
      ∀ thread, state.2 thread = none := by
  have run := (@SharedRuns.start Unit _).act () (@CallStep.began _ argument)
    |>.act () (.acted (.entry (Prod.eta _).symm)) |>.act () (.acted (.cell rfl))
    |>.act () (.acted .countEvaluate) |>.act () (.acted .compute) |>.act () (.acted (.cell rfl))
    |>.act () (.acted (.cell rfl)) |>.act () (.acted (.cell rfl)) |>.act () (.returned rfl)
  exact ⟨_, _, run, fun _ => rfl⟩

theorem sharedExecutions_return_lone : ∃ execution : SharedExecutions Unit,
    execution.Fair Calling ∧ ∃ m, execution.turns m =
      some ((), .returned (.number I64.max) (.ok (.fromInteger I64.max))) := by
  obtain ⟨events, state, run, quiescent⟩ := lone_runs (.number I64.max)
  obtain ⟨execution, fair, turns, -⟩ := run.fair Calling
    fun thread able => able.1 (quiescent thread)
  obtain ⟨call, calls, same⟩ := (Execution.own_step (turns 0)).begins rfl
  obtain ⟨m, -, returned⟩ := sharedExecutions_return fair calls
  rw [same] at returned
  exact ⟨execution, fair, m, returned⟩

end Proofhouse
