import Proofhouse.Library.Fairness
import Proofhouse.SyncUnwinding

/-!
# Calls under a fair schedule

A thread that meets a claim steps aside for the one that holds it. Where no thread
inside a call is passed over for good, each call comes to its end, unless it waits
on a claim whose holder unwound.
-/

set_option autoImplicit false

namespace Proofhouse.OnceValue

open Library

variable {T ι : Type}

/-- The thread is inside a call. -/
def Busy (state : OnceValue T × (ι → Thread T)) (thread : ι) : Prop :=
  state.2 thread ≠ .idle

/-- The thread tries for the claim, or is about to look for the value of another. -/
def Thread.Waits : Thread T → Prop
  | .filling .claiming | .filling .loading => True
  | .filling _ | .idle | .observing | .probing | .reading | .answering _ => False

/-- The steps to the end of a call at most, from where the thread stands, as long
as no load finds the value missing. -/
def Filling.rank : Filling T → Nat
  | .claiming => 6
  | .initializing => 5
  | .duplicating _ => 4
  | .storing _ | .loading => 3
  | .publishing _ | .copying => 2
  | .returned _ => 1

def Thread.rank : Thread T → Nat
  | .filling point => point.rank
  | .probing => 3
  | .observing | .reading => 2
  | .answering _ => 1
  | .idle => 0

section Steps

variable {cell cell' : OnceValue T} {own own' : Thread T} {event : Event T} {told : List T}

theorem advance_possible (cell : OnceValue T) (point : Filling T) :
    point = .initializing ∨ (∃ value, point = .returned value) ∨
      ∃ cell' point', cell.advance point = some (cell', point') := by
  cases point with
  | initializing => exact .inl rfl
  | returned => exact .inr (.inl ⟨_, rfl⟩)
  | claiming =>
      cases phase : cell.state <;>
        exact .inr (.inr ⟨_, _, by simp only [advance, claim, phase]; rfl⟩)
  | copying =>
      cases written : cell.slot <;>
        exact .inr (.inr ⟨_, _, by simp only [advance, locked_eq, written]; rfl⟩)
  | loading | duplicating | storing | publishing => exact .inr (.inr ⟨_, _, rfl⟩)

theorem Step.possible (cell : OnceValue T) (busy : own ≠ .idle) :
    ∃ event cell' own', Step cell own event cell' own' := by
  cases own with
  | idle => exact absurd rfl busy
  | observing => exact ⟨_, _, _, .observed⟩
  | probing =>
      cases published : cell.isPublished with
      | true => exact ⟨_, _, _, .probed published⟩
      | false => exact ⟨_, _, _, .missed published⟩
  | reading => exact ⟨_, _, _, .read⟩
  | answering => exact ⟨_, _, _, .answered⟩
  | filling point =>
      rcases cell.advance_possible point with rfl | ⟨_, rfl⟩ | ⟨_, _, advances⟩
      · exact ⟨_, _, _, .initUnwound⟩
      · exact ⟨_, _, _, .filled⟩
      · exact ⟨_, _, _, .advanced advances⟩

/-- A step of a call brings its end nearer, unless it is a load that finds the cell
not ready. -/
theorem Step.rank_lt (taken : Step cell own event cell' own') (busy : own ≠ .idle)
    (knows : own.Knows told cell) (landed : cell.state = .ready → cell.slot ≠ none) :
    own'.rank < own.rank ∨ own = .filling .loading ∧ cell.state ≠ .ready := by
  cases taken with
  | began => exact absurd rfl busy
  | advanced advances =>
      cases advances_of_advance advances with
      | waiting unready => exact .inr ⟨rfl, unready⟩
      | missed nothing => exact absurd nothing (landed knows)
      | claimed | taken | landed | copied | cloned | stored | published =>
          exact .inl (by simp only [Thread.rank, Filling.rank]; decide)
  | observed | probed | missed | read | readUnwound | copyUnwound | initReturned | initUnwound
  | cloneUnwound | answered | filled =>
      exact .inl (by simp only [Thread.rank, Filling.rank]; decide)

/-- A call of `get_or_init` stays one until the thread is between calls again. -/
theorem Step.filling {point : Filling T} (taken : Step cell (.filling point) event cell' own') :
    own' = .idle ∨ ∃ point', own' = .filling point' := by
  cases taken with
  | advanced | initReturned => exact .inr ⟨_, rfl⟩
  | copyUnwound | initUnwound | cloneUnwound | filled => exact .inl rfl

theorem Step.waits (taken : Step cell own event cell' own') (waits : own.Waits)
    (claimed : cell.state = .initializing) : own'.Waits := by
  cases taken with
  | advanced advances =>
      cases advances_of_advance advances with
      | claimed empty => exact absurd (claimed.symm.trans empty) (by decide)
      | landed ready => exact absurd (claimed.symm.trans ready) (by decide)
      | taken | waiting => trivial
      | copied | missed | cloned | stored | published => exact absurd waits id
  | began | observed | probed | missed | read | readUnwound | copyUnwound | initReturned
  | initUnwound | cloneUnwound | answered | filled => exact absurd waits id

/-- A load follows on an exchange that met a claim. -/
theorem Step.loads (taken : Step cell own event cell' own') (loads : own' = .filling .loading) :
    cell'.state ≠ .empty := by
  cases taken with
  | advanced advances =>
      cases loads
      cases advances_of_advance advances with
      | taken claimed => exact claimed
  | @began call => cases call <;> cases loads
  | observed | probed | missed | read | readUnwound | copyUnwound | initReturned | initUnwound
  | cloneUnwound | answered | filled => cases loads

end Steps

private theorem waits_of_filling {state : OnceValue T × (ι → Thread T)}
    {events : List (ι × Event T)} {thread : ι} {point : Filling T} (agreed : Agreed events state)
    (abandoned : ClaimAbandoned state) (stands : state.2 thread = .filling point) :
    (state.2 thread).Waits := by
  have free := abandoned.2 thread
  have knows := agreed.knows thread
  rw [stands] at free knows ⊢
  cases point with
  | claiming | loading => trivial
  | copying => cases abandoned.1.symm.trans knows
  | returned => cases abandoned.1.symm.trans knows.1
  | initializing | duplicating | storing | publishing => exact absurd trivial free

section Executions

variable [DecidableEq ι]

/-- The executions of any threads that call on one fresh cell. -/
abbrev Executions (T ι : Type) [DecidableEq ι] : Type :=
  Execution (@Interleaves (OnceValue T) (Thread T) (Event T) ι _ Step) (new, fun _ => .idle)

variable {execution : Executions T ι} {thread : ι} {n m : ℕ}

theorem enabled_of_busy {state : OnceValue T × (ι → Thread T)} (busy : Busy state thread) :
    Enabled (Interleaves Step) state thread := by
  obtain ⟨event, cell', own', taken⟩ := Step.possible state.1 busy
  exact ⟨event, _, .act taken⟩

theorem agreed_at (execution : Executions T ι) (n : ℕ) :
    Agreed (execution.events n) (execution.states n) :=
  Runs.agreed (execution.run n)

theorem abandoned_at_iff (execution : Executions T ι) (n : ℕ) :
    ClaimAbandoned (execution.states n) ↔ ∃ m other event, m < n ∧
      execution.turns m = some (other, event) ∧ event.abandons = true := by
  have settled := held_or_abandoned (execution.run n)
  split at settled
  · next abandoning =>
    obtain ⟨⟨other, event⟩, member, abandons⟩ := abandoning
    obtain ⟨m, before, turn⟩ := Execution.mem_events.mp member
    exact iff_of_true settled ⟨m, other, event, before, turn, abandons⟩
  · next careful =>
    refine iff_of_false (fun abandoned => ?_) fun abandoning => ?_
    · obtain ⟨holder, holds⟩ := settled abandoned.1
      exact abandoned.2 holder holds
    · obtain ⟨m, other, event, before, turn, abandons⟩ := abandoning
      exact careful ⟨_, Execution.mem_events.mpr ⟨m, before, turn⟩, abandons⟩

theorem ready_at (ready : (execution.states n).1.state = .ready) (later : n ≤ m) :
    (execution.states m).1.state = .ready :=
  execution.always (fun state => state.1.state = .ready) ready
    (fun _ taken ready => (Execution.own_step taken).le.ready ready) later

theorem claimed_of_loading (execution : Executions T ι) (n : ℕ) (thread : ι)
    (loads : (execution.states n).2 thread = .filling .loading) :
    (execution.states n).1.state ≠ .empty := by
  refine execution.always (fun state => ∀ thread,
    state.2 thread = .filling .loading → state.1.state ≠ .empty) ?_
    (fun {n turn} _ taken claimed => ?_) (Nat.zero_le n) thread loads
  · rw [execution.starts]
    exact fun _ loads => nomatch loads
  · refine @Interleaves.forall _ _ _ _ _ _
      (fun cell own => own = .filling .loading → cell.state ≠ .empty) _ _ _
      (execution.steps taken) (fun taken _ => taken.loads) ?_ claimed
    intro _ _ _ _ _ _ taken _ claimed loads
    exact taken.le.not_empty (claimed loads)

/-- Where a thread is inside a call for good, it has met a claim that stands. -/
private theorem stuck_loads (fair : execution.Fair Busy)
    (stuck : ∀ m, n ≤ m → Busy (execution.states m) thread) :
    ∃ m, n ≤ m ∧ (execution.states m).2 thread = .filling .loading ∧
      (execution.states m).1.state = .initializing := by
  obtain ⟨m, event, later, taken, raised⟩ := fair.own_unlowered
    (fun m later => ⟨stuck m later, enabled_of_busy (stuck m later)⟩) Thread.rank
  have agreed := agreed_at execution m
  rcases (Execution.own_step taken).rank_lt (stuck m later) (agreed.knows thread) agreed.landed with
    lower | ⟨loads, unready⟩
  · omega
  · refine ⟨m, later, loads, ?_⟩
    have claimed := claimed_of_loading execution m thread loads
    revert unready claimed
    cases (execution.states m).1.state <;> simp

/-- The holder of a claim publishes its value or unwinds. -/
theorem claim_ends (fair : execution.Fair Busy) (holds : ((execution.states n).2 thread).Holds) :
    ∃ m, n ≤ m ∧
      ((execution.states m).1.state = .ready ∨ ClaimAbandoned (execution.states m)) := by
  by_contra never
  have holding : ∀ m, n ≤ m → ((execution.states m).2 thread).Holds := by
    refine fun m later => execution.own_always Thread.Holds holds
      (fun {m event} later taken holds => ?_) later
    rcases (Execution.own_step taken).leaves holds with
      ⟨stillHolds, -⟩ | ⟨-, abandons, -⟩ | ⟨-, ready⟩
    · exact stillHolds
    · have abandoned := (abandoned_at_iff execution (m + 1)).mpr
        ⟨m, thread, event, Nat.lt_succ_self m, taken, abandons⟩
      exact absurd ⟨m + 1, by omega, .inr abandoned⟩ never
    · exact absurd ⟨m + 1, by omega, .inl ready⟩ never
  have busy : ∀ m, n ≤ m → Busy (execution.states m) thread := fun m later idle => by
    have held := holding m later
    rw [idle] at held
    exact held
  obtain ⟨m, later, loads, -⟩ := stuck_loads fair busy
  have held := holding m later
  rw [loads] at held
  exact held

theorem Executions.abandoned_of_stuck (fair : execution.Fair Busy)
    (stuck : ∀ m, n ≤ m → Busy (execution.states m) thread) :
    ∃ m, n ≤ m ∧ ClaimAbandoned (execution.states m) ∧ ((execution.states m).2 thread).Waits := by
  obtain ⟨met, later, loads, claimed⟩ := stuck_loads fair stuck
  by_cases held : ∃ holder, ((execution.states met).2 holder).Holds
  · obtain ⟨holder, holds⟩ := held
    obtain ⟨m, after, ready | abandoned⟩ := claim_ends fair holds
    · obtain ⟨again, muchLater, -, stands⟩ := @stuck_loads _ _ _ execution thread m fair
        fun k much => stuck k (by omega)
      cases (ready_at ready muchLater).symm.trans stands
    · refine ⟨m, by omega, abandoned, ?_⟩
      obtain ⟨point, stands⟩ : ∃ point, (execution.states m).2 thread = .filling point := by
        refine execution.own_always (fun own => ∃ point, own = .filling point) ⟨_, loads⟩
          (fun {k event} much taken inside => ?_) after
        obtain ⟨point, inside⟩ := inside
        have step := Execution.own_step taken
        rw [inside] at step
        exact step.filling.resolve_left (stuck (k + 1) (by omega))
      exact waits_of_filling (agreed_at execution m) abandoned stands
  · exact ⟨met, later, ⟨claimed, not_exists.mp held⟩, loads ▸ trivial⟩

theorem Executions.stuck_of_abandoned (execution : Executions T ι)
    (abandoned : ClaimAbandoned (execution.states n))
    (waits : ((execution.states n).2 thread).Waits) (later : n ≤ m) :
    Busy (execution.states m) thread := by
  have waiting : ClaimAbandoned (execution.states m) ∧ ((execution.states m).2 thread).Waits := by
    refine execution.always (fun state => ClaimAbandoned state ∧ (state.2 thread).Waits)
      ⟨abandoned, waits⟩ (fun {k turn} _ taken held => ?_) later
    obtain ⟨abandoned, waits⟩ := held
    refine ⟨abandoned.step (execution.steps taken), ?_⟩
    by_cases own : turn.1 = thread
    · subst own
      exact (Execution.own_step taken).waits waits abandoned.1
    · rwa [Execution.own_kept taken own]
  intro idle
  have waits := waiting.2
  rw [idle] at waits
  exact waits

/-- Where no thread inside a call is passed over for good, a call goes on for good
just when it waits, at some time, on a claim that was left by unwinding before. -/
theorem stuck_iff_unwound (fair : execution.Fair Busy) (thread : ι) :
    (∃ start, ∀ n, start ≤ n → Busy (execution.states n) thread) ↔
      ∃ m n other event, m < n ∧ execution.turns m = some (other, event) ∧
        event.abandons = true ∧ ((execution.states n).2 thread).Waits := by
  constructor
  · intro stuck
    obtain ⟨start, stuck⟩ := stuck
    obtain ⟨n, -, abandoned, waits⟩ := Executions.abandoned_of_stuck fair stuck
    obtain ⟨m, other, event, before, turn, abandons⟩ := (abandoned_at_iff execution n).mp abandoned
    exact ⟨m, n, other, event, before, turn, abandons, waits⟩
  · intro waits
    obtain ⟨m, n, other, event, before, turn, abandons, waits⟩ := waits
    have abandoned := (abandoned_at_iff execution n).mpr ⟨m, other, event, before, turn, abandons⟩
    exact ⟨n, fun k later => execution.stuck_of_abandoned abandoned waits later⟩

end Executions

private def wedgedCell : OnceValue Nat :=
  { new with state := .initializing }

/-- A thread unwinds out of its initializer, calls again and goes round for good. -/
private def goingRound : ℕ → OnceValue Nat × Thread Nat × Event Nat
  | 0 => (new, .idle, .began .getOrInit)
  | 1 => (new, .filling .claiming, .advanced .initializing)
  | 2 => (wedgedCell, .filling .initializing, .initUnwound)
  | 3 => (wedgedCell, .idle, .began .getOrInit)
  | 4 => (wedgedCell, .filling .claiming, .advanced .loading)
  | 5 => (wedgedCell, .filling .loading, .advanced .claiming)
  | n + 6 => goingRound (n + 4)

private theorem goingRound_step : ∀ n, Step (goingRound n).1 (goingRound n).2.1 (goingRound n).2.2
    (goingRound (n + 1)).1 (goingRound (n + 1)).2.1
  | 0 | 3 => .began
  | 1 | 4 | 5 => .advanced rfl
  | 2 => .initUnwound
  | n + 6 => goingRound_step (n + 4)

private theorem goingRound_steps (n : ℕ) :
    Interleaves Step ((goingRound n).1, fun _ : Unit => (goingRound n).2.1)
      ((), (goingRound n).2.2) ((goingRound (n + 1)).1, fun _ => (goingRound (n + 1)).2.1) := by
  have taken := @Interleaves.act _ _ _ Unit _ _ _ (fun _ => (goingRound n).2.1) () _ _ _
    (goingRound_step n)
  rwa [show Function.update (fun _ => (goingRound n).2.1) () (goingRound (n + 1)).2.1 =
    fun _ => (goingRound (n + 1)).2.1 from funext fun _ => Function.update_self ..] at taken

private def wedgedExecution : Executions Nat Unit where
  states n := ((goingRound n).1, fun _ => (goingRound n).2.1)
  turns n := some ((), (goingRound n).2.2)
  starts := rfl
  rests absent := absurd absent (Option.some_ne_none _)
  steps present := Option.some.inj present ▸ goingRound_steps _

theorem stuck_iff_unwound_wedged : ∃ execution : Executions Nat Unit,
    execution.Fair Busy ∧ ∃ start, ∀ n, start ≤ n → Busy (execution.states n) () := by
  have fair : wedgedExecution.Fair Busy := fun _ start _ => ⟨start, _, Nat.le_refl _, rfl⟩
  exact ⟨wedgedExecution, fair,
    (stuck_iff_unwound fair ()).mpr ⟨2, 4, (), _, by decide, rfl, rfl, trivial⟩⟩

end Proofhouse.OnceValue
