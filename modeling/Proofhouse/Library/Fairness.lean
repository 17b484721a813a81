import Proofhouse.Library.Refinement

/-!
# Fair executions

Runs without end of a pool of threads, in which no thread that can go on is
passed over for good. A thread of such a run takes a step that does not lower
its rank, and a pool where some thread can always do more than spin gets done.
-/

set_option autoImplicit false

namespace Library

section Executions

variable {σ ι ε : Type*} {step : σ → ι × ε → σ → Prop} {first : σ}

/-- In each turn one thread steps or none does. -/
structure Execution (step : σ → ι × ε → σ → Prop) (first : σ) where
  states : ℕ → σ
  turns : ℕ → Option (ι × ε)
  starts : states 0 = first
  rests : ∀ {n}, turns n = none → states (n + 1) = states n
  steps : ∀ {n turn}, turns n = some turn → step (states n) turn (states (n + 1))

def Enabled (step : σ → ι × ε → σ → Prop) (state : σ) (thread : ι) : Prop :=
  ∃ event next, step state (thread, event) next

namespace Execution

variable {execution : Execution step first} {busy : σ → ι → Prop}

/-- Weak fairness: a thread that is busy and can step, from some turn on and for
good, does step. -/
def Fair (execution : Execution step first) (busy : σ → ι → Prop) : Prop :=
  ∀ thread start, (∀ n, start ≤ n →
      busy (execution.states n) thread ∧ Enabled step (execution.states n) thread) →
    ∃ n event, start ≤ n ∧ execution.turns n = some (thread, event)

def events (execution : Execution step first) (n : ℕ) : List (ι × ε) :=
  (List.range n).filterMap execution.turns

theorem mem_events {n : ℕ} {turn : ι × ε} :
    turn ∈ execution.events n ↔ ∃ m < n, execution.turns m = some turn := by
  simp [events]

theorem run (execution : Execution step first) (n : ℕ) :
    Run step first (execution.events n) (execution.states n) := by
  induction n with
  | zero =>
      rw [execution.starts]
      exact .start
  | succ n ih =>
      rw [events, List.range_succ, List.filterMap_append]
      cases turn : execution.turns n with
      | none => simpa [events, turn, execution.rests turn] using ih
      | some event => simpa [events, turn] using Run.snoc ih (execution.steps turn)

/-- What every step from some turn on keeps. -/
theorem always (execution : Execution step first) (holds : σ → Prop) {start : ℕ}
    (initially : holds (execution.states start))
    (keeps : ∀ {n turn}, start ≤ n → execution.turns n = some turn → holds (execution.states n) →
      holds (execution.states (n + 1))) {n : ℕ} (later : start ≤ n) :
    holds (execution.states n) := by
  induction n, later using Nat.le_induction with
  | base => exact initially
  | succ n later ih =>
      cases turn : execution.turns n with
      | none => rwa [execution.rests turn]
      | some => exact keeps later turn ih

/-- A thread that can go on for good takes a step that does not lower its rank,
where nobody else raises it. -/
theorem Fair.unlowered (fair : execution.Fair busy) {thread : ι} {start : ℕ}
    (able : ∀ n, start ≤ n →
      busy (execution.states n) thread ∧ Enabled step (execution.states n) thread)
    (rank : σ → ℕ)
    (others : ∀ {n turn}, start ≤ n → execution.turns n = some turn → turn.1 ≠ thread →
      rank (execution.states (n + 1)) ≤ rank (execution.states n)) :
    ∃ n event, start ≤ n ∧ execution.turns n = some (thread, event) ∧
      rank (execution.states n) ≤ rank (execution.states (n + 1)) := by
  by_contra never
  have down : ∀ {n event}, start ≤ n → execution.turns n = some (thread, event) →
      rank (execution.states (n + 1)) < rank (execution.states n) :=
    fun {n event} later turn => not_le.mp fun raised => never ⟨n, event, later, turn, raised⟩
  have level : ∀ n, start ≤ n →
      rank (execution.states (n + 1)) ≤ rank (execution.states n) := by
    intro n later
    cases turn : execution.turns n with
    | none => rw [execution.rests turn]
    | some turn' =>
        by_cases own : turn'.1 = thread
        · exact Nat.le_of_lt (@down n turn'.2 later (by rw [turn, ← own]))
        · exact others later turn own
  obtain ⟨bound, spent⟩ := @eventually_never _ (fun turn => ∃ event, turn = some (thread, event))
    (fun n => rank (execution.states (start + n))) (fun n => execution.turns (start + n))
    (fun n => level (start + n) (Nat.le_add_right _ _))
    (fun n own => down (Nat.le_add_right _ _) own.choose_spec)
  obtain ⟨n, event, later, turn⟩ := fair thread (start + bound)
    fun n later => able n (Nat.le_trans (Nat.le_add_right _ _) later)
  refine spent (n - start) (by omega) ⟨event, ?_⟩
  rwa [Nat.add_sub_of_le (by omega)]

/-- Where some thread can always do more than spin, spinning takes that from
nobody, and all the rest is used up, the execution gets done. -/
theorem Fair.reaches (fair : execution.Fair fun _ _ => True) (done : σ → Prop)
    (progresses : ε → Prop) (measure : σ → ℕ)
    (progress : ∀ n, ¬done (execution.states n) →
      ∃ thread event next, step (execution.states n) (thread, event) next ∧ progresses event)
    (lowers : ∀ {n turn}, execution.turns n = some turn →
      (progresses turn.2 → measure (execution.states (n + 1)) < measure (execution.states n)) ∧
        measure (execution.states (n + 1)) ≤ measure (execution.states n))
    (exclusive : ∀ {state thread event next other after},
      step state (thread, event) next → step state (thread, other) after →
      progresses event → progresses other)
    (persists : ∀ {state thread event next spinning other after},
      step state (thread, event) next → progresses event →
      step state (spinning, other) after → ¬progresses other →
      ∃ event next, step after (thread, event) next ∧ progresses event) :
    ∃ n, done (execution.states n) := by
  by_contra never
  have level : ∀ n, measure (execution.states (n + 1)) ≤ measure (execution.states n) := by
    intro n
    cases turn : execution.turns n with
    | none => rw [execution.rests turn]
    | some => exact (lowers turn).2
  obtain ⟨bound, spent⟩ := @eventually_never _
    (fun turn => ∃ thread event, turn = some (thread, event) ∧ progresses event)
    (fun n => measure (execution.states n)) execution.turns level fun n lowering => by
      obtain ⟨thread, event, turn, progressing⟩ := lowering
      exact (lowers turn).1 progressing
  obtain ⟨thread, event, next, taken, progressing⟩ :=
    progress bound fun reached => never ⟨bound, reached⟩
  have able : ∀ n, bound ≤ n → ∃ event next,
      step (execution.states n) (thread, event) next ∧ progresses event := by
    refine fun n later => execution.always (fun state => ∃ event next,
      step state (thread, event) next ∧ progresses event) ⟨event, next, taken, progressing⟩
      (fun {n turn} later taken able => ?_) later
    obtain ⟨event, next, enabled, progressing⟩ := able
    exact persists enabled progressing (execution.steps taken)
      fun other => spent n later ⟨_, _, taken, other⟩
  obtain ⟨n, other, later, turn⟩ := fair thread bound fun n later =>
    ⟨trivial, (able n later).imp fun _ => Exists.imp fun _ => And.left⟩
  obtain ⟨event, next, enabled, progressing⟩ := able n later
  exact spent n later ⟨thread, other, turn, exclusive enabled (execution.steps turn) progressing⟩

end Execution

/-- Every run is an execution with nothing more to happen. -/
theorem Run.rests {events : List (ι × ε)} {last : σ} (run : Run step first events last) :
    ∃ execution : Execution step first, (∀ n, execution.turns n = events[n]?) ∧
      ∀ n, events.length ≤ n → execution.states n = last := by
  induction run with
  | start =>
      exact ⟨⟨fun _ => first, fun _ => none, rfl, fun _ => rfl, nofun⟩, fun _ => rfl,
        fun _ _ => rfl⟩
  | @snoc events event middle last run taken ih =>
      obtain ⟨execution, turns, ended⟩ := ih
      refine ⟨⟨fun n => if n ≤ events.length then execution.states n else last,
        fun n => (events ++ [event])[n]?, ?_, ?_, ?_⟩, fun _ => rfl, ?_⟩
      · exact (if_pos (Nat.zero_le _)).trans execution.starts
      · intro n turn
        have late := List.getElem?_eq_none_iff.mp turn
        rw [List.length_append, List.length_singleton] at late
        rw [if_neg (by omega), if_neg (by omega)]
      · intro n turn' turn
        rcases Nat.lt_trichotomy n events.length with before | same | after
        · rw [List.getElem?_append_left before, ← turns] at turn
          rw [if_pos (Nat.succ_le_of_lt before), if_pos before.le]
          exact execution.steps turn
        · subst same
          rw [List.getElem?_concat_length] at turn
          rw [if_pos le_rfl, if_neg (Nat.not_succ_le_self _), ended _ le_rfl]
          exact Option.some.inj turn ▸ taken
        · have early := (List.getElem?_eq_some_iff.mp turn).1
          rw [List.length_append, List.length_singleton] at early
          omega
      · intro n later
        rw [List.length_append, List.length_singleton] at later
        exact if_neg (by omega)

/-- It is a fair one, where nobody busy can step any more. -/
theorem Run.fair {events : List (ι × ε)} {last : σ} (run : Run step first events last)
    (busy : σ → ι → Prop) (settled : ∀ thread, ¬(busy last thread ∧ Enabled step last thread)) :
    ∃ execution : Execution step first, execution.Fair busy ∧
      (∀ n, execution.turns n = events[n]?) ∧
      ∀ n, events.length ≤ n → execution.states n = last := by
  obtain ⟨execution, turns, ended⟩ := run.rests
  refine ⟨execution, fun thread start able => ?_, turns, ended⟩
  have state := ended (max start events.length) (le_max_right _ _)
  exact absurd (state ▸ able _ (le_max_left _ _)) (settled thread)

end Executions

section Pools

variable {σ τ α β ε δ ν ι : Type*} [DecidableEq ι] {step : σ → α → ε → σ → α → Prop}
  {spec : τ → β → δ → τ → β → Prop} {first : σ × (ι → α)}

namespace Execution

variable {execution : Execution (Interleaves step) first}

theorem own_step {n : ℕ} {thread : ι} {event : ε}
    (turn : execution.turns n = some (thread, event)) :
    step (execution.states n).1 ((execution.states n).2 thread) event
      (execution.states (n + 1)).1 ((execution.states (n + 1)).2 thread) :=
  (execution.steps turn).own

theorem own_kept {n : ℕ} {turn : ι × ε} {thread : ι} (taken : execution.turns n = some turn)
    (other : turn.1 ≠ thread) :
    (execution.states (n + 1)).2 thread = (execution.states n).2 thread :=
  (execution.steps taken).kept other

/-- What a thread keeps of itself by its own steps. -/
theorem own_always (execution : Execution (Interleaves step) first) {thread : ι}
    (holds : α → Prop) {start : ℕ} (initially : holds ((execution.states start).2 thread))
    (keeps : ∀ {n event}, start ≤ n → execution.turns n = some (thread, event) →
      holds ((execution.states n).2 thread) → holds ((execution.states (n + 1)).2 thread))
    {n : ℕ} (later : start ≤ n) : holds ((execution.states n).2 thread) := by
  refine execution.always (fun state => holds (state.2 thread)) initially
    (fun {n turn} later taken held => ?_) later
  by_cases own : turn.1 = thread
  · subst own
    exact keeps later taken held
  · rw [own_kept taken own]
    exact held

theorem Fair.own_unlowered {busy : σ × (ι → α) → ι → Prop} (fair : execution.Fair busy)
    {thread : ι} {start : ℕ}
    (able : ∀ n, start ≤ n →
      busy (execution.states n) thread ∧ Enabled (Interleaves step) (execution.states n) thread)
    (rank : α → ℕ) :
    ∃ n event, start ≤ n ∧ execution.turns n = some (thread, event) ∧
      rank ((execution.states n).2 thread) ≤ rank ((execution.states (n + 1)).2 thread) :=
  fair.unlowered able (fun state => rank (state.2 thread))
    fun _ taken other => Nat.le_of_eq (congrArg rank (own_kept taken other))

/-- Threads that step as `spec` allows, each by itself, do so without end too. Each
step shows as one of the same thread, or neither its state nor the news tell of it. -/
theorem refine_pool {viewShared : σ → τ} {viewOwn : α → β} {shown : ε → Option ν}
    {told : δ → Option ν} (execution : Execution (Interleaves step) first)
    (refines : ∀ {events shared pool thread event shared' own'},
      Run (Interleaves step) first events (shared, pool) →
      step shared (pool thread) event shared' own' →
      Seen spec told (viewShared shared) (viewOwn (pool thread)) (shown event)
        (viewShared shared') (viewOwn own')) :
    ∃ abstract : Execution (Interleaves spec) (first.map viewShared (viewOwn ∘ ·)),
      (∀ n, abstract.states n = (execution.states n).map viewShared (viewOwn ∘ ·)) ∧
      (∀ n thread event, abstract.turns n = some (thread, event) →
        ∃ concrete, execution.turns n = some (thread, concrete) ∧ told event = shown concrete) ∧
      ∀ n thread concrete, execution.turns n = some (thread, concrete) →
        (∃ event, abstract.turns n = some (thread, event)) ∨
          shown concrete = none ∧ viewOwn ((execution.states (n + 1)).2 thread) =
            viewOwn ((execution.states n).2 thread) := by
  have each : ∀ n, ∃ turn : Option (ι × δ),
      (turn = none → (execution.states (n + 1)).map viewShared (viewOwn ∘ ·) =
        (execution.states n).map viewShared (viewOwn ∘ ·)) ∧
      (∀ entry, turn = some entry →
        Interleaves spec ((execution.states n).map viewShared (viewOwn ∘ ·)) entry
          ((execution.states (n + 1)).map viewShared (viewOwn ∘ ·))) ∧
      (∀ thread event, turn = some (thread, event) →
        ∃ concrete, execution.turns n = some (thread, concrete) ∧ told event = shown concrete) ∧
      ∀ thread concrete, execution.turns n = some (thread, concrete) →
        (∃ event, turn = some (thread, event)) ∨
          shown concrete = none ∧ viewOwn ((execution.states (n + 1)).2 thread) =
            viewOwn ((execution.states n).2 thread) := by
    intro n
    cases turn : execution.turns n with
    | none => exact ⟨none, fun _ => by rw [execution.rests turn], nofun, nofun, nofun⟩
    | some entry =>
        obtain ⟨thread, concrete⟩ := entry
        have seen := refines (execution.run n) (own_step turn)
        rcases Interleaves.seen (execution.steps turn) seen with
          ⟨event, taken, same⟩ | ⟨silent, still, same⟩
        · refine ⟨some (thread, event), nofun, ?_, ?_, ?_⟩
          · rintro _ ⟨⟩
            exact taken
          · rintro _ _ ⟨⟩
            exact ⟨concrete, rfl, same⟩
          · rintro _ _ ⟨⟩
            exact .inl ⟨event, rfl⟩
        · refine ⟨none, fun _ => same, nofun, nofun, ?_⟩
          rintro _ _ ⟨⟩
          exact .inr ⟨silent, still⟩
  choose turns rests steps tells shows using each
  exact ⟨⟨fun n => (execution.states n).map viewShared (viewOwn ∘ ·), turns,
    by rw [execution.starts], fun {n} => rests n, fun {n turn} => steps n turn⟩,
    fun _ => rfl, tells, shows⟩

end Execution

end Pools

end Library
