import Proofhouse.GetOrComputeProperties
import Proofhouse.SyncFairness

/-!
# Calls of `get_or_compute` under a fair schedule

Seen under one key, a fair schedule of the calls on a table is one of the calls on
the cell behind it. So each call returns, unless the computation under its key
unwound.
-/

set_option autoImplicit false

namespace Proofhouse

open Library OnceValue

variable {ι : Type}

/-- The thread is inside a call. -/
def Getting.Busy (state : ExprCache × (ι → Getting)) (thread : ι) : Prop :=
  state.2 thread ≠ .idle

section Steps

variable {cache cache' : ExprCache} {own own' : Getting} {event : GettingEvent} {key : String}

theorem GettingStep.of_unwound {expr : Expr}
    (taken : GettingStep cache own (.unwound expr) cache' own') :
    (∃ handle, own = .computing expr handle) ∧ own' = .idle := by
  cases taken with
  | unwound => exact ⟨⟨_, rfl⟩, rfl⟩

theorem GettingStep.possible (cache : ExprCache) (busy : own ≠ .idle) :
    ∃ event cache' own', GettingStep cache own event cache' own' := by
  cases own with
  | idle => exact absurd rfl busy
  | looking => exact ⟨_, _, _, .entered (Prod.eta _).symm⟩
  | computing => exact ⟨_, _, _, .unwound⟩
  | filling expr handle point =>
      rcases (cache.cells handle).advance_possible point with rfl | ⟨_, rfl⟩ | ⟨_, _, advances⟩
      · exact ⟨_, _, _, .counted⟩
      · exact ⟨_, _, _, .returned⟩
      · exact ⟨_, _, _, .advanced advances⟩

/-- The steps of a call that no cell shows, the lookup and the count, as far as they
are next. -/
def Getting.unseen : Getting → Nat
  | .looking _ | .filling _ _ .initializing => 1
  | .filling _ _ _ | .idle | .computing _ _ => 0

theorem Getting.onKey_ne_idle : own.onKey key ≠ .idle ↔
    (∃ expr handle point, own = .filling expr handle point ∧ formatExpr expr = key) ∨
      ∃ expr handle, own = .computing expr handle ∧ formatExpr expr = key := by
  cases own with
  | idle | looking => simp [onKey]
  | filling expr | computing expr => by_cases same : formatExpr expr = key <;> simp [onKey, same]

/-- A step of a call under the key that the cell does not show is the count. -/
theorem GettingStep.unseen_of_still (taken : GettingStep cache own event cache' own')
    (inside : own.onKey key ≠ .idle) (still : own'.onKey key = own.onKey key) :
    own'.unseen < own.unseen := by
  obtain ⟨expr, handle, point, rfl, same⟩ | ⟨expr, handle, rfl, same⟩ :=
    Getting.onKey_ne_idle.mp inside
  · cases taken with
    | advanced advances =>
        simp only [Getting.onKey, if_pos same] at still
        cases still
        cases advances_of_advance advances
    | counted => exact Nat.zero_lt_one
    | returned => exact absurd still.symm inside
  · cases taken with
    | computed =>
        simp only [Getting.onKey, if_pos same] at still
        cases still
    | unwound => exact absurd still.symm inside

/-- A call keeps to its key until the thread is between calls again. -/
theorem GettingStep.onKey (taken : GettingStep cache own event cache' own')
    (inside : own.onKey key ≠ .idle) : own' = .idle ∨ own'.onKey key ≠ .idle := by
  obtain ⟨expr, handle, point, rfl, same⟩ | ⟨expr, handle, rfl, same⟩ :=
    Getting.onKey_ne_idle.mp inside
  · cases taken with
    | advanced | counted => exact .inr (by simp [Getting.onKey, same])
    | returned => exact .inl rfl
  · cases taken with
    | computed => exact .inr (by simp [Getting.onKey, same])
    | unwound => exact .inl rfl

theorem GettingStep.unseen_of_looking {expr : Expr}
    (taken : GettingStep cache (.looking expr) event cache' own') : own'.unseen = 0 := by
  cases taken
  rfl

theorem news_of_abandons {T : Type} {event : Event T} (abandons : event.abandons = true) :
    event.news? = some .unwound := by
  cases event with
  | initUnwound | cloneUnwound => rfl
  | began | accessed | advanced | initReturned | readerUnwound | returned => cases abandons

theorem unwound_of_news (news : event.news? key = some .unwound) :
    ∃ expr, event = .unwound expr ∧ formatExpr expr = key := by
  cases event with
  | unwound expr =>
      rw [GettingEvent.news?, Option.ite_none_right_eq_some] at news
      exact ⟨expr, rfl, news.1⟩
  | entered | computed | returned =>
      rw [GettingEvent.news?, Option.ite_none_right_eq_some] at news
      cases news.2
  | began | advanced | counted => cases news

/-- A computation that unwinds does so as the initializer of the cell. -/
theorem GettingStep.abandons {expr : Expr} {cell cell' : OnceValue Outcome}
    {thread : Thread Outcome} {shown : Event Outcome}
    (taken : GettingStep cache own (.unwound expr) cache' own')
    (keyed : Step cell (own.onKey (formatExpr expr)) shown cell' thread)
    (news : shown.news? = some .unwound) : shown.abandons = true := by
  obtain ⟨⟨handle, rfl⟩, -⟩ := taken.of_unwound
  rw [Getting.onKey, if_pos rfl] at keyed
  cases keyed with
  | advanced | initReturned => cases news
  | initUnwound => rfl

end Steps

section Executions

variable [DecidableEq ι]

/-- The executions of any threads that call on one table. -/
abbrev GettingExecutions (ι : Type) [DecidableEq ι] : Type :=
  Execution (@Interleaves ExprCache Getting GettingEvent ι _ GettingStep) (.new, fun _ => .idle)

variable {execution : GettingExecutions ι} {thread : ι} {key : String}

theorem Getting.enabled_of_busy {state : ExprCache × (ι → Getting)}
    (busy : Getting.Busy state thread) : Enabled (Interleaves GettingStep) state thread := by
  obtain ⟨event, cache', own', taken⟩ := GettingStep.possible state.1 busy
  exact ⟨event, _, .act taken⟩

/-- The execution is seen under the key as one on the cell behind it. -/
structure GettingExecutions.Shows (execution : GettingExecutions ι) (key : String)
    (keyed : Executions Outcome ι) : Prop where
  states : ∀ n, keyed.states n =
    ((execution.states n).1.cellOf key, Getting.onKey key ∘ (execution.states n).2)
  tells : ∀ n thread event, keyed.turns n = some (thread, event) →
    ∃ concrete, execution.turns n = some (thread, concrete) ∧ event.news? = concrete.news? key
  turns : ∀ n thread concrete, execution.turns n = some (thread, concrete) →
    (∃ event, keyed.turns n = some (thread, event)) ∨
      concrete.news? key = none ∧ Getting.onKey key ((execution.states (n + 1)).2 thread) =
        Getting.onKey key ((execution.states n).2 thread)

theorem GettingExecutions.shows (execution : GettingExecutions ι) (key : String) :
    ∃ keyed, execution.Shows key keyed := by
  obtain ⟨keyed, states, tells, turns⟩ := execution.refine_pool fun reached taken => by
    obtain ⟨indexed, found⟩ := GettingRuns.found reached
    exact taken.seen indexed (found _) key
  exact ⟨keyed, states, tells, turns⟩

namespace GettingExecutions.Shows

variable {keyed : Executions Outcome ι} {m n : ℕ}

theorem own (shows : execution.Shows key keyed) (n : ℕ) (thread : ι) :
    (keyed.states n).2 thread = ((execution.states n).2 thread).onKey key := by
  rw [shows.states]
  rfl

/-- Where nobody is passed over, nobody is under the key: between the steps the cell
shows, a call takes one more at most. -/
theorem fair (shows : execution.Shows key keyed) (fair : execution.Fair Getting.Busy) :
    keyed.Fair OnceValue.Busy := by
  intro thread start able
  have inside : ∀ n, start ≤ n → ((execution.states n).2 thread).onKey key ≠ .idle :=
    fun n later => shows.own n thread ▸ (able n later).1
  have busy : ∀ n, start ≤ n → Getting.Busy (execution.states n) thread :=
    fun n later idle => inside n later (congrArg (Getting.onKey key) idle)
  obtain ⟨n, concrete, later, turn, kept⟩ := fair.own_unlowered
    (fun n later => ⟨busy n later, Getting.enabled_of_busy (busy n later)⟩) Getting.unseen
  rcases shows.turns n thread concrete turn with ⟨event, keyedTurn⟩ | ⟨-, still⟩
  · exact ⟨n, event, later, keyedTurn⟩
  · have lowered := (Execution.own_step turn).unseen_of_still (inside n later) still
    omega

theorem unwound_of_abandoned (shows : execution.Shows key keyed)
    (abandoned : ClaimAbandoned (keyed.states n)) :
    ∃ m thread expr, m < n ∧ execution.turns m = some (thread, .unwound expr) ∧
      formatExpr expr = key := by
  obtain ⟨m, thread, event, before, turn, abandons⟩ := (abandoned_at_iff keyed n).mp abandoned
  obtain ⟨concrete, turn, same⟩ := shows.tells m thread event turn
  obtain ⟨expr, rfl, keyed⟩ := unwound_of_news (same.symm.trans (news_of_abandons abandons))
  exact ⟨m, thread, expr, before, turn, keyed⟩

theorem abandoned_of_unwound {expr : Expr} (shows : execution.Shows (formatExpr expr) keyed)
    (turn : execution.turns m = some (thread, .unwound expr)) (before : m < n) :
    ClaimAbandoned (keyed.states n) := by
  have news : (GettingEvent.unwound expr).news? (formatExpr expr) = some .unwound := if_pos rfl
  rcases shows.turns m thread _ turn with ⟨event, keyedTurn⟩ | ⟨silent, -⟩
  · obtain ⟨concrete, same, told⟩ := shows.tells m thread event keyedTurn
    cases turn.symm.trans same
    have keyedStep := Execution.own_step keyedTurn
    rw [shows.own m] at keyedStep
    have abandons := (Execution.own_step turn).abandons keyedStep (told.trans news)
    exact (abandoned_at_iff keyed n).mpr ⟨m, thread, event, before, keyedTurn, abandons⟩
  · cases news.symm.trans silent

end GettingExecutions.Shows

/-- A call that goes on for good gets past the lookup, and keeps to its key. -/
theorem GettingExecutions.onKey_of_stuck (fair : execution.Fair Getting.Busy) {start : ℕ}
    (stuck : ∀ n, start ≤ n → Getting.Busy (execution.states n) thread) :
    ∃ key n, ∀ m, n ≤ m → ((execution.states m).2 thread).onKey key ≠ .idle := by
  obtain ⟨n, event, later, turn, kept⟩ := fair.own_unlowered
    (fun n later => ⟨stuck n later, Getting.enabled_of_busy (stuck n later)⟩) Getting.unseen
  have found : ∃ key, ((execution.states n).2 thread).onKey key ≠ .idle := by
    have taken := Execution.own_step turn
    have busy := stuck n later
    unfold Getting.Busy at busy
    cases stands : (execution.states n).2 thread with
    | idle => exact absurd stands busy
    | filling expr handle point => exact ⟨formatExpr expr, by simp [Getting.onKey]⟩
    | computing expr handle => exact ⟨formatExpr expr, by simp [Getting.onKey]⟩
    | looking expr =>
        rw [stands] at taken kept
        rw [taken.unseen_of_looking] at kept
        exact absurd kept (Nat.not_succ_le_zero 0)
  obtain ⟨key, inside⟩ := found
  refine ⟨key, n, fun m after => execution.own_always (fun own => own.onKey key ≠ .idle) inside
    (fun {k event} before taken inside => ?_) after⟩
  exact ((Execution.own_step taken).onKey inside).resolve_left (stuck (k + 1) (by omega))

theorem GettingExecutions.unwound_of_stuck (fair : execution.Fair Getting.Busy) {start : ℕ}
    (stuck : ∀ n, start ≤ n → Getting.Busy (execution.states n) thread) :
    ∃ m n other expr, m < n ∧ execution.turns m = some (other, .unwound expr) ∧
      (((execution.states n).2 thread).onKey (formatExpr expr)).Waits := by
  obtain ⟨key, start, inside⟩ := GettingExecutions.onKey_of_stuck fair stuck
  obtain ⟨keyed, shows⟩ := execution.shows key
  have stuck : ∀ n, start ≤ n → OnceValue.Busy (keyed.states n) thread := fun n later => by
    rw [OnceValue.Busy, shows.own]
    exact inside n later
  obtain ⟨n, -, abandoned, waits⟩ := Executions.abandoned_of_stuck (shows.fair fair) stuck
  obtain ⟨m, other, expr, before, turn, rfl⟩ := shows.unwound_of_abandoned abandoned
  exact ⟨m, n, other, expr, before, turn, shows.own n thread ▸ waits⟩

/-- Where no thread inside a call is passed over for good, a call of `get_or_compute`
goes on for good just when it waits, at some time, under a key whose computation has
unwound. -/
theorem getting_stuck_iff_unwound (fair : execution.Fair Getting.Busy) (thread : ι) :
    (∃ start, ∀ n, start ≤ n → Getting.Busy (execution.states n) thread) ↔
      ∃ m n other expr, m < n ∧ execution.turns m = some (other, .unwound expr) ∧
        (((execution.states n).2 thread).onKey (formatExpr expr)).Waits := by
  constructor
  · intro stuck
    obtain ⟨start, stuck⟩ := stuck
    exact GettingExecutions.unwound_of_stuck fair stuck
  · intro waits
    obtain ⟨m, n, other, expr, before, turn, waits⟩ := waits
    obtain ⟨keyed, shows⟩ := execution.shows (formatExpr expr)
    refine ⟨n, fun k later idle => ?_⟩
    rw [← shows.own] at waits
    have busy := keyed.stuck_of_abandoned (shows.abandoned_of_unwound turn before) waits later
    rw [OnceValue.Busy, shows.own, idle] at busy
    exact busy rfl

end Executions

private def enteredTable : ExprCache :=
  (ExprCache.new.entry "4").2

/-- The table after the computation under its one key has unwound. -/
private def wedgedTable : ExprCache :=
  (enteredTable.setCell 0 { new with state := .initializing }).countEvaluation

private def four : Expr :=
  .number ⟨4, by decide, by decide⟩

/-- A thread unwinds out of its computation, asks for the same key again and goes round
for good. -/
private def askingAgain : ℕ → ExprCache × Getting × GettingEvent
  | 0 => (.new, .idle, .began four)
  | 1 => (.new, .looking four, .entered four)
  | 2 => (enteredTable, .filling four 0 .claiming, .advanced)
  | 3 => (enteredTable.setCell 0 { new with state := .initializing },
      .filling four 0 .initializing, .counted four)
  | 4 => (wedgedTable, .computing four 0, .unwound four)
  | 5 => (wedgedTable, .idle, .began four)
  | 6 => (wedgedTable, .looking four, .entered four)
  | 7 => (wedgedTable, .filling four 0 .claiming, .advanced)
  | 8 => (wedgedTable, .filling four 0 .loading, .advanced)
  | n + 9 => askingAgain (n + 7)

private theorem advanced_of_same {cache : ExprCache} {expr : Expr} {handle : Nat}
    {point point' : Filling Outcome}
    (advances : (cache.cells handle).advance point = some (cache.cells handle, point')) :
    GettingStep cache (.filling expr handle point) .advanced cache
      (.filling expr handle point') := by
  have same : cache.setCell handle (cache.cells handle) = cache := by
    rw [ExprCache.setCell, Function.update_eq_self]
  have taken := @GettingStep.advanced _ expr _ _ _ _ advances
  rwa [same] at taken

private theorem askingAgain_step : ∀ n, GettingStep (askingAgain n).1 (askingAgain n).2.1
    (askingAgain n).2.2 (askingAgain (n + 1)).1 (askingAgain (n + 1)).2.1
  | 0 | 5 => .began
  | 1 => .entered rfl
  | 2 => .advanced rfl
  | 3 => .counted
  | 4 => .unwound
  | 6 => .entered (ExprCache.entry_of_lookup (Finmap.lookup_insert _))
  | 7 | 8 => advanced_of_same rfl
  | n + 9 => askingAgain_step (n + 7)

private theorem askingAgain_steps (n : ℕ) :
    Interleaves GettingStep ((askingAgain n).1, fun _ : Unit => (askingAgain n).2.1)
      ((), (askingAgain n).2.2)
      ((askingAgain (n + 1)).1, fun _ => (askingAgain (n + 1)).2.1) := by
  have taken := @Interleaves.act _ _ _ Unit _ _ _ (fun _ => (askingAgain n).2.1) () _ _ _
    (askingAgain_step n)
  rwa [show Function.update (fun _ => (askingAgain n).2.1) () (askingAgain (n + 1)).2.1 =
    fun _ => (askingAgain (n + 1)).2.1 from funext fun _ => Function.update_self ..] at taken

private def wedgedCalls : GettingExecutions Unit where
  states n := ((askingAgain n).1, fun _ => (askingAgain n).2.1)
  turns n := some ((), (askingAgain n).2.2)
  starts := rfl
  rests absent := absurd absent (Option.some_ne_none _)
  steps present := Option.some.inj present ▸ askingAgain_steps _

/-- Two calls that both return, and the second waits on no unwound computation. And a
call that is never done, under a key whose computation unwound. -/
theorem getting_stuck_iff_unwound_bothWays :
    (∃ execution : GettingExecutions (Fin 2), execution.Fair Getting.Busy ∧
      ¬∃ m n other expr, m < n ∧ execution.turns m = some (other, .unwound expr) ∧
        (((execution.states n).2 1).onKey (formatExpr expr)).Waits) ∧
    ∃ execution : GettingExecutions Unit, execution.Fair Getting.Busy ∧
      ∃ start, ∀ n, start ≤ n → Getting.Busy (execution.states n) () := by
  constructor
  · obtain ⟨state, run, quiescent⟩ := ownWay_runs (.number I64.max) (.error .overflow)
    obtain ⟨execution, fair, -, ended⟩ := Run.fair run Getting.Busy
      fun thread able => able.1 (quiescent thread)
    refine ⟨execution, fair, fun waits => ?_⟩
    obtain ⟨start, stuck⟩ := (getting_stuck_iff_unwound fair 1).mpr waits
    have last := ended _ (le_max_right start _)
    exact stuck _ (le_max_left _ _) (last ▸ quiescent 1)
  · have fair : wedgedCalls.Fair Getting.Busy := fun _ start _ =>
      ⟨start, _, Nat.le_refl _, rfl⟩
    refine ⟨wedgedCalls, fair, (getting_stuck_iff_unwound fair ()).mpr
      ⟨4, 8, (), four, by decide, rfl, ?_⟩⟩
    change (Getting.onKey (formatExpr four) (.filling four 0 .loading)).Waits
    rw [Getting.onKey, if_pos rfl]
    trivial

end Proofhouse
