import Proofhouse.SyncProperties

/-!
# Agreement on a write-once cell

Over any interleaving of any number of threads, unwinding included, at most one
initializer starts, its value is the only one a cell publishes, and every answer
agrees with it.
-/

set_option autoImplicit false

namespace Proofhouse

open Library

namespace OnceValue

variable {T : Type}

def Thread.Holds : Thread T → Prop
  | .filling point => point.Holds
  | .idle | .observing | .probing | .reading | .answering _ => False

instance (thread : Thread T) : Decidable thread.Holds := by
  cases thread <;> unfold Thread.Holds <;> infer_instance

def Event.outcome? : Event T → Option T
  | .initReturned value => some value
  | .began _ | .accessed | .advanced _ | .initUnwound | .cloneUnwound | .readerUnwound
  | .returned _ => none

/-- The exchange that sends a thread into its initializer. -/
def Event.startsInit : Event T → Bool
  | .advanced .initializing => true
  | .advanced _ | .began _ | .accessed | .initReturned _ | .initUnwound | .cloneUnwound
  | .readerUnwound | .returned _ => false

def outcomes {ι : Type} (events : List (ι × Event T)) : List T :=
  events.filterMap fun entry => entry.2.outcome?

def starts {ι : Type} (events : List (ι × Event T)) : Nat :=
  events.countP fun entry => entry.2.startsInit

section Steps

variable {cell cell' : OnceValue T} {own own' : Thread T} {event : Event T}

theorem Step.le (taken : Step cell own event cell' own') : Le cell cell' := by
  cases taken with
  | advanced advances => exact (advances_of_advance advances).le
  | readUnwound | copyUnwound => exact ⟨Nat.le_refl _, id⟩
  | began | observed | probed | missed | read | initReturned | initUnwound | cloneUnwound
  | answered | filled => exact .refl cell

/-- A thread without the claim leaves slot and outcomes alone, and moves the
phase only by claiming an empty cell. -/
theorem Step.quiet (taken : Step cell own event cell' own') (free : ¬own.Holds) :
    event.outcome? = none ∧ cell'.slot = cell.slot ∧
      (cell'.state = cell.state ∧ ¬own'.Holds ∧ event.startsInit = false ∨
        cell.state = .empty ∧ cell'.state = .initializing ∧ event.startsInit = true) := by
  cases taken with
  | advanced advances =>
      cases advances_of_advance advances with
      | claimed empty => exact ⟨rfl, rfl, .inr ⟨empty, rfl, rfl⟩⟩
      | taken | waiting | landed | copied | missed => exact ⟨rfl, rfl, .inl ⟨rfl, id, rfl⟩⟩
      | cloned | stored | published => exact absurd trivial free
  | initReturned | initUnwound | cloneUnwound => exact absurd trivial free
  | @began call => cases call <;> exact ⟨rfl, rfl, .inl ⟨rfl, id, rfl⟩⟩
  | observed | probed | missed | read | readUnwound | copyUnwound | answered | filled =>
      exact ⟨rfl, rfl, .inl ⟨rfl, id, rfl⟩⟩

/-- A thread with the claim starts no initializer, and it keeps the phase until
it gives the claim up. -/
theorem Step.holding (taken : Step cell own event cell' own') (holds : own.Holds) :
    event.startsInit = false ∧ (own'.Holds → cell'.state = cell.state) ∧
      (cell'.state = cell.state ∨ cell'.state = .ready) := by
  cases taken with
  | advanced advances =>
      cases advances_of_advance advances with
      | claimed | taken | waiting | landed | copied | missed => exact absurd holds id
      | cloned | stored => exact ⟨rfl, fun _ => rfl, .inl rfl⟩
      | published => exact ⟨rfl, fun holds => absurd holds id, .inr rfl⟩
  | initReturned | initUnwound | cloneUnwound => exact ⟨rfl, fun _ => rfl, .inl rfl⟩
  | began | observed | probed | missed | read | readUnwound | copyUnwound | answered | filled =>
      exact absurd holds id

end Steps

/-!
## What threads and answers know
-/

def Answer.Known (outcomes : List T) (cell : OnceValue T) : Answer T → Prop
  | .published false | .got none => True
  | .published true => cell.state = .ready
  | .got (some value) | .filled value => cell.state = .ready ∧ outcomes = [value]

/-- What a thread may rely on where it stands. -/
def Thread.Knows (outcomes : List T) (cell : OnceValue T) : Thread T → Prop
  | .filling .initializing => outcomes = []
  | .filling (.duplicating value) | .filling (.storing value) => outcomes = [value]
  | .filling (.publishing value) => outcomes = [value] ∧ cell.slot = some value
  | .filling (.returned value) => (Answer.filled value).Known outcomes cell
  | .filling .copying | .reading => cell.state = .ready
  | .answering answer => answer.Known outcomes cell
  | .filling .claiming | .filling .loading | .idle | .observing | .probing => True

section Knowledge

variable {before after : List T} {cell cell' : OnceValue T}

theorem Answer.Known.mono {answer : Answer T} (known : answer.Known before cell)
    (same : cell.state = .ready → cell'.state = .ready ∧ after = before) :
    answer.Known after cell' := by
  match answer, known with
  | .published false, _ | .got none, _ => trivial
  | .published true, ready => exact (same ready).1
  | .got (some _), ⟨ready, told⟩ | .filled _, ⟨ready, told⟩ =>
      exact ⟨(same ready).1, (same ready).2 ▸ told⟩

theorem Thread.Knows.mono {thread : Thread T} (knows : thread.Knows before cell)
    (same : thread.Holds → after = before ∧ cell'.slot = cell.slot)
    (ready : cell.state = .ready → cell'.state = .ready ∧ after = before) :
    thread.Knows after cell' := by
  match thread, knows with
  | .filling .initializing, fresh => exact (same trivial).1.trans fresh
  | .filling (.duplicating _), told | .filling (.storing _), told => exact (same trivial).1 ▸ told
  | .filling (.publishing _), ⟨told, written⟩ =>
      exact ⟨(same trivial).1 ▸ told, (same trivial).2 ▸ written⟩
  | .filling (.returned value), known =>
      exact @Answer.Known.mono T before after cell cell' (.filled value) known ready
  | .filling .copying, landed | .reading, landed => exact (ready landed).1
  | .answering answer, known => exact Answer.Known.mono known ready
  | .filling .claiming, _ | .filling .loading, _ | .idle, _ | .observing, _ | .probing, _ => trivial

end Knowledge

/-!
## The invariant
-/

section Invariant

variable {ι : Type}

structure Agreed (events : List (ι × Event T)) (state : OnceValue T × (ι → Thread T)) : Prop where
  starts : starts events = if state.1.state = .empty then 0 else 1
  claimed : ∀ thread, (state.2 thread).Holds → state.1.state = .initializing
  alone : ∀ thread other, (state.2 thread).Holds → (state.2 other).Holds → thread = other
  fresh : state.1.state = .empty → outcomes events = []
  slot : ∀ value, state.1.slot = some value → outcomes events = [value]
  landed : state.1.state = .ready → state.1.slot ≠ none
  knows : ∀ thread, (state.2 thread).Knows (outcomes events) state.1
  told : ∀ thread answer, (thread, .returned answer) ∈ events →
    answer.Known (outcomes events) state.1

variable {events : List (ι × Event T)} {state next : OnceValue T × (ι → Thread T)}
  {entry : ι × Event T}

theorem outcomes_append (events : List (ι × Event T)) (entry : ι × Event T) :
    outcomes (events ++ [entry]) = outcomes events ++ entry.2.outcome?.toList := by
  cases outcome : entry.2.outcome? <;> simp [outcomes, outcome]

theorem starts_append (events : List (ι × Event T)) (entry : ι × Event T) :
    starts (events ++ [entry]) = starts events + if entry.2.startsInit then 1 else 0 := by
  rw [starts, List.countP_append, List.countP_singleton]
  rfl

private theorem agreed_initially : Agreed ([] : List (ι × Event T)) (new, fun _ => .idle) where
  starts := rfl
  claimed _ holds := absurd holds id
  alone _ _ holds := absurd holds id
  fresh _ := rfl
  slot _ written := by cases written
  landed ready := by cases ready
  knows _ := trivial
  told _ _ member := by cases member

private theorem Step.holds_after {cell cell' : OnceValue T} {own own' : Thread T} {event : Event T}
    (taken : Step cell own event cell' own') (holds : own'.Holds) :
    own.Holds ∧ cell'.state = cell.state ∨
      ¬own.Holds ∧ cell.state = .empty ∧ cell'.state = .initializing := by
  by_cases held : own.Holds
  · exact .inl ⟨held, (taken.holding held).2.1 holds⟩
  · rcases (taken.quiet held).2.2 with ⟨_, free, _⟩ | ⟨empty, initializing, _⟩
    · exact absurd holds free
    · exact .inr ⟨held, empty, initializing⟩

private theorem Step.knows {cell cell' : OnceValue T} {own own' : Thread T} {event : Event T}
    {told : List T} (taken : Step cell own event cell' own') (knows : own.Knows told cell)
    (fresh : cell.state = .empty → told = [])
    (slot : ∀ value, cell.slot = some value → told = [value])
    (landed : cell.state = .ready → cell.slot ≠ none) :
    own'.Knows (told ++ event.outcome?.toList) cell' ∧
      (∀ value, cell'.slot = some value → told ++ event.outcome?.toList = [value]) ∧
      (cell'.state = .ready → cell'.slot ≠ none) ∧
      ∀ answer, event = .returned answer → answer.Known told cell' := by
  have quiet : told ++ (none : Option T).toList = told := List.append_nil told
  cases taken with
  | advanced advances =>
      simp only [Event.outcome?, quiet]
      cases advances_of_advance advances with
      | claimed empty => exact ⟨fresh empty, slot, nofun, nofun⟩
      | taken | waiting => exact ⟨trivial, slot, landed, nofun⟩
      | landed ready => exact ⟨ready, slot, landed, nofun⟩
      | copied written => exact ⟨⟨knows, slot _ written⟩, slot, landed, nofun⟩
      | missed => exact ⟨trivial, slot, landed, nofun⟩
      | cloned => exact ⟨knows, slot, landed, nofun⟩
      | stored =>
          refine ⟨⟨knows, rfl⟩, fun value written => ?_, fun _ => Option.some_ne_none _, nofun⟩
          cases written
          exact knows
      | published =>
          refine ⟨⟨rfl, knows.1⟩, slot, fun _ unwritten => ?_, nofun⟩
          exact Option.some_ne_none _ (knows.2.symm.trans unwritten)
  | @began call =>
      simp only [Event.outcome?, quiet]
      cases call <;> exact ⟨trivial, slot, landed, nofun⟩
  | observed =>
      simp only [Event.outcome?, quiet]
      refine ⟨?_, slot, landed, nofun⟩
      cases published : cell.isPublished with
      | true => exact isPublished_iff.mp published
      | false => trivial
  | probed published =>
      simp only [Event.outcome?, quiet]
      exact ⟨isPublished_iff.mp published, slot, landed, nofun⟩
  | read =>
      simp only [Event.outcome?, quiet, locked_eq]
      refine ⟨?_, slot, landed, nofun⟩
      cases written : cell.slot with
      | none => trivial
      | some value => exact ⟨knows, slot value written⟩
  | missed | readUnwound | copyUnwound | initUnwound | cloneUnwound =>
      simp only [Event.outcome?, quiet]
      exact ⟨trivial, slot, landed, nofun⟩
  | initReturned =>
      change told = [] at knows
      subst knows
      refine ⟨rfl, fun value written => ?_, landed, nofun⟩
      cases slot value written
  | answered | filled =>
      simp only [Event.outcome?, quiet]
      refine ⟨trivial, slot, landed, fun answer same => ?_⟩
      cases same
      exact knows

section OneStep

variable {cell cell' : OnceValue T} {pool : ι → Thread T} {stepping : ι} {event : Event T}
  {own' : Thread T}

private theorem Agreed.free_of_ne (agreed : Agreed events (cell, pool))
    (elsewhere : cell.state ≠ .initializing) : ¬(pool stepping).Holds :=
  fun holds => elsewhere (agreed.claimed stepping holds)

private theorem outcomes_of_free (taken : Step cell (pool stepping) event cell' own')
    (free : ¬(pool stepping).Holds) :
    outcomes (events ++ [(stepping, event)]) = outcomes events := by
  rw [outcomes_append, (taken.quiet free).1]
  exact List.append_nil _

private theorem Agreed.ready_step (agreed : Agreed events (cell, pool))
    (taken : Step cell (pool stepping) event cell' own') (ready : cell.state = .ready) :
    cell'.state = .ready ∧ outcomes (events ++ [(stepping, event)]) = outcomes events :=
  ⟨taken.le.ready ready, outcomes_of_free taken (agreed.free_of_ne (by simp [ready]))⟩

/-- While another thread holds the claim, the stepping one neither has it nor
gets it. -/
private theorem Agreed.other_holds (agreed : Agreed events (cell, pool))
    (taken : Step cell (pool stepping) event cell' own') {thread : ι} (other : thread ≠ stepping)
    (holds : (pool thread).Holds) :
    ¬(pool stepping).Holds ∧ ¬own'.Holds ∧ cell'.state = .initializing := by
  have claimed : cell.state = .initializing := agreed.claimed thread holds
  have free : ¬(pool stepping).Holds := fun both => other (agreed.alone thread stepping holds both)
  refine ⟨free, fun own => ?_, ?_⟩
  · rcases taken.holds_after own with ⟨both, -⟩ | ⟨-, empty, -⟩
    · exact free both
    · exact absurd (claimed.symm.trans empty) (by decide)
  · rcases (taken.quiet free).2.2 with ⟨same, -⟩ | ⟨empty, -⟩
    · exact same.trans claimed
    · exact absurd (claimed.symm.trans empty) (by decide)

private theorem Agreed.starts_step (agreed : Agreed events (cell, pool))
    (taken : Step cell (pool stepping) event cell' own') :
    OnceValue.starts (events ++ [(stepping, event)]) = if cell'.state = .empty then 0 else 1 := by
  rw [starts_append, agreed.starts]
  by_cases holds : (pool stepping).Holds
  · have claimed : cell.state = .initializing := agreed.claimed stepping holds
    obtain ⟨started, -, phase⟩ := taken.holding holds
    rcases phase with phase | phase <;> simp [started, phase, claimed]
  · rcases (taken.quiet holds).2.2 with ⟨same, -, started⟩ | ⟨empty, phase, started⟩
    · simp [started, same]
    · simp [started, empty, phase]

private theorem Agreed.fresh_step (agreed : Agreed events (cell, pool))
    (taken : Step cell (pool stepping) event cell' own') (empty : cell'.state = .empty) :
    outcomes (events ++ [(stepping, event)]) = [] := by
  have before : cell.state = .empty := by
    by_contra claimedBefore
    exact taken.le.not_empty claimedBefore empty
  rw [outcomes_of_free taken (agreed.free_of_ne (by simp [before]))]
  exact agreed.fresh before

variable [DecidableEq ι]

private theorem Agreed.claimed_step (agreed : Agreed events (cell, pool))
    (taken : Step cell (pool stepping) event cell' own') (thread : ι)
    (holds : (Function.update pool stepping own' thread).Holds) :
    cell'.state = .initializing := by
  rw [Function.update_apply] at holds
  split at holds
  · rcases taken.holds_after holds with ⟨held, same⟩ | ⟨-, -, initializing⟩
    · exact same.trans (agreed.claimed stepping held)
    · exact initializing
  · next other => exact (agreed.other_holds taken other holds).2.2

private theorem Agreed.alone_step (agreed : Agreed events (cell, pool))
    (taken : Step cell (pool stepping) event cell' own') (thread other : ι)
    (holds : (Function.update pool stepping own' thread).Holds)
    (otherHolds : (Function.update pool stepping own' other).Holds) : thread = other := by
  rw [Function.update_apply] at holds otherHolds
  split at holds
  · split at otherHolds
    · next same otherSame => exact same.trans otherSame.symm
    · next different =>
      exact absurd holds (agreed.other_holds taken different otherHolds).2.1
  · next different =>
    split at otherHolds
    · exact absurd otherHolds (agreed.other_holds taken different holds).2.1
    · exact agreed.alone thread other holds otherHolds

end OneStep

variable [DecidableEq ι]

theorem Agreed.step (agreed : Agreed events state)
    (taken : Interleaves Step state entry next) : Agreed (events ++ [entry]) next := by
  cases taken with
  | @act cell pool stepping event cell' own' taken =>
  obtain ⟨ownKnows, ownSlot, ownLanded, ownTold⟩ :=
    taken.knows (agreed.knows stepping) agreed.fresh agreed.slot agreed.landed
  have ready := agreed.ready_step taken
  refine ⟨agreed.starts_step taken, agreed.claimed_step taken, agreed.alone_step taken,
    agreed.fresh_step taken, fun value written => ?_, ownLanded, fun thread => ?_,
    fun thread answer member => ?_⟩
  · rw [outcomes_append]
    exact ownSlot value written
  · dsimp only
    rw [Function.update_apply]
    split
    · rw [outcomes_append]
      exact ownKnows
    · next other =>
      refine (agreed.knows thread).mono (fun holds => ?_) ready
      have free := (agreed.other_holds taken other holds).1
      exact ⟨outcomes_of_free taken free, (taken.quiet free).2.1⟩
  · rcases List.mem_append.mp member with member | member
    · exact (agreed.told thread answer member).mono ready
    · cases List.mem_singleton.mp member
      rw [outcomes_append]
      exact (ownTold answer rfl).mono fun ready => ⟨ready, List.append_nil _⟩

theorem Runs.agreed (run : Runs events state) : Agreed events state :=
  run.invariant agreed_initially Agreed.step

theorem Runs.start : Runs ([] : List (ι × Event T)) (new, fun _ => .idle) :=
  Run.start

theorem Runs.act {cell cell' : OnceValue T} {pool : ι → Thread T} {own' : Thread T}
    {event : Event T} (run : Runs events (cell, pool)) (thread : ι)
    (taken : Step cell (pool thread) event cell' own') :
    Runs (events ++ [(thread, event)]) (cell', Function.update pool thread own') :=
  .snoc run (.act taken)

end Invariant

/-!
## The cell as its callers see it
-/

end OnceValue

def Phase.Moves (before after : Phase) : Prop :=
  after = before ∨ before = .empty ∧ after = .initializing ∨
    before = .initializing ∧ after = .ready

namespace OnceValue

def Answer.Observes {T : Type} : Answer T → Prop
  | .published true | .got (some _) => True
  | .published false | .got none | .filled _ => False

section Callers

variable {T ι : Type} [DecidableEq ι] {events : List (ι × Event T)}
  {state next : OnceValue T × (ι → Thread T)}

theorem Agreed.moves (agreed : Agreed events state) {entry : ι × Event T}
    (taken : Interleaves Step state entry next) : Phase.Moves state.1.state next.1.state := by
  cases taken with
  | @act cell pool thread event cell' own' taken =>
  by_cases holds : (pool thread).Holds
  · rcases (taken.holding holds).2.2 with same | ready
    · exact .inl same
    · exact .inr (.inr ⟨agreed.claimed thread holds, ready⟩)
  · rcases (taken.quiet holds).2.2 with ⟨same, -⟩ | ⟨empty, initializing, -⟩
    · exact .inl same
    · exact .inr (.inl ⟨empty, initializing⟩)

theorem le_of_run {later : List (ι × Event T)} (goesOn : Run (Interleaves Step) state later next) :
    Le state.1 next.1 :=
  @Run.relates _ _ _ (fun before after => Le before.1 after.1) _ _ _ goesOn (fun _ => .refl _)
    .trans fun taken => by cases taken with | act taken => exact taken.le

theorem Agreed.landed_for_good (agreed : Agreed events state) (run : Runs events state)
    (ready : state.1.state = .ready) {later : List (ι × Event T)}
    (goesOn : Run (Interleaves Step) state later next) {value : T}
    (told : outcomes events = [value]) :
    next.1.state = .ready ∧ next.1.slot = some value := by
  have ordered := le_of_run goesOn
  have after := Runs.agreed (run.trans goesOn)
  have written := ordered.slot (agreed.landed ready)
  obtain ⟨last, same⟩ := Option.ne_none_iff_exists'.mp written
  have final := after.slot last same
  rw [outcomes, List.filterMap_append] at final
  change outcomes events ++ _ = _ at final
  rw [told] at final
  rw [same, ← (List.cons.inj final).1]
  exact ⟨ordered.ready ready, rfl⟩

/-- A thread that is not about to answer with nothing will not do so once the
value has landed. -/
theorem got_some_of_landed {later : List (ι × Event T)} {thread : ι}
    (goesOn : Run (Interleaves Step) state later next) (ready : state.1.state = .ready)
    (landed : state.1.slot ≠ none) (early : state.2 thread ≠ .answering (.got none)) :
    (thread, .returned (.got none)) ∉ later := by
  have holds := @Run.invariant _ _ _
    (fun events state => state.1.state = .ready ∧ state.1.slot ≠ none ∧
      state.2 thread ≠ .answering (.got none) ∧ (thread, .returned (.got none)) ∉ events)
    _ _ _ goesOn ⟨ready, landed, early, List.not_mem_nil⟩ ?_
  · exact holds.2.2.2
  intro events state entry next held taken
  obtain ⟨ready, landed, early, never⟩ := held
  cases taken with
  | @act cell pool other event cell' own' taken =>
  dsimp only at ready landed early ⊢
  refine ⟨taken.le.ready ready, taken.le.slot landed, ?_, ?_⟩
  · rw [Function.update_apply]
    split
    · next same =>
      subst same
      generalize pool thread = own at taken
      cases taken with
      | missed unpublished => exact absurd ready (isPublished_eq_false_iff.mp unpublished)
      | read =>
          rw [locked_eq]
          intro nothing
          cases written : cell.slot with
          | none => exact landed written
          | some value => rw [written] at nothing; cases nothing
      | @began call => cases call <;> exact nofun
      | observed | probed | readUnwound | advanced | copyUnwound | initReturned | initUnwound
      | cloneUnwound | answered | filled => exact nofun
    · exact early
  · intro member
    rcases List.mem_append.mp member with member | member
    · exact never member
    · cases List.mem_singleton.mp member
      generalize own : pool thread = standing at taken
      cases taken with
      | answered => exact early own

/-- Under every interleaving the phase goes one way, one initializer starts at
most, a ready cell holds the value that one returned for good, every answer
agrees with it, and a `get` begun after the value was observed has it. -/
theorem runs_agree (run : Runs events state) :
    (∀ entry next, Interleaves Step state entry next →
      Phase.Moves state.1.state next.1.state) ∧
    starts events ≤ 1 ∧
    (state.1.state = .ready → ∃ value, outcomes events = [value] ∧
      ∀ later next, Run (Interleaves Step) state later next →
        next.1.state = .ready ∧ next.1.slot = some value) ∧
    (∀ thread value, (thread, .returned (.filled value)) ∈ events →
      outcomes events = [value]) ∧
    (∀ thread answer, (thread, .returned (.got answer)) ∈ events →
      answer = none ∨ ∃ value, answer = some value ∧ outcomes events = [value]) ∧
    (∀ before middle after observer seen thread answer,
      events = before ++ (observer, .returned seen) :: (middle ++ (thread, .began .get) :: after) →
      seen.Observes → (thread, .returned (.got answer)) ∈ after →
      ∃ value, answer = some value ∧ outcomes events = [value]) := by
  have agreed := run.agreed
  refine ⟨fun entry next taken => agreed.moves taken, ?_, fun ready => ?_,
    fun thread value member => (agreed.told thread _ member).2, fun thread answer member => ?_, ?_⟩
  · rw [agreed.starts]
    split <;> decide
  · obtain ⟨value, written⟩ := Option.ne_none_iff_exists'.mp (agreed.landed ready)
    have told := agreed.slot value written
    exact ⟨value, told, fun later next goesOn => agreed.landed_for_good run ready goesOn told⟩
  · cases answer with
    | none => exact .inl rfl
    | some value => exact .inr ⟨value, rfl, (agreed.told thread _ member).2⟩
  · rintro before middle after observer seen thread answer rfl observes member
    -- The observation leaves a ready cell, and the later `get` starts over from it.
    obtain ⟨_, observed, runBefore, observation, runAfter⟩ := run.split_event
    obtain ⟨idle, entered, runMiddle, entry, runLast⟩ := runAfter.split_event
    have seenRun : Runs (before ++ [(observer, .returned seen)]) observed :=
      .snoc runBefore observation
    have known := seenRun.agreed.told observer seen
      (List.mem_append_right _ (List.mem_singleton_self _))
    have ready : observed.1.state = .ready := by
      match seen, observes, known with
      | .published true, _, ready => exact ready
      | .got (some _), _, ⟨ready, _⟩ => exact ready
    have ordered := le_of_run (runMiddle.trans (.single entry))
    have probing : entered.2 thread = .probing := by
      cases entry with
      | @act cell pool _ _ _ _ entry =>
      generalize pool thread = own at entry
      cases entry with
      | began => exact Function.update_self ..
    cases answer with
    | none =>
        exact absurd member (got_some_of_landed runLast (ordered.ready ready)
          (ordered.slot (seenRun.agreed.landed ready)) (by simp [probing]))
    | some value =>
        have inRun : (thread, Event.returned (Answer.got (some value))) ∈
            before ++ (observer, .returned seen) :: (middle ++ (thread, .began .get) :: after) :=
          List.mem_append_right _ (List.mem_cons_of_mem _
            (List.mem_append_right _ (List.mem_cons_of_mem _ member)))
        exact ⟨value, rfl, (agreed.told thread _ inRun).2⟩

end Callers

/-- A thread fills the cell while another one polls it, waits and reads it. -/
private def race (filler reader : Fin 2) : List (Fin 2 × Event Nat) :=
  [(filler, .began .getOrInit), (filler, .advanced .initializing), (reader, .began .getOrInit),
    (reader, .advanced .loading), (filler, .initReturned 7), (filler, .advanced (.storing 7)),
    (filler, .advanced (.publishing 7)), (filler, .advanced (.returned 7)),
    (reader, .advanced .copying), (reader, .readerUnwound), (reader, .began .isPublished),
    (reader, .accessed), (reader, .returned (.published true)), (reader, .began .get),
    (reader, .accessed), (reader, .accessed), (reader, .returned (.got (some 7)))]

private theorem race_runs : ∃ state, Runs (race 0 1) state := by
  have run := (@Runs.start Nat (Fin 2) _).act 0 (@Step.began _ _ .getOrInit)
    |>.act 0 (.advanced rfl) |>.act 1 (@Step.began _ _ .getOrInit) |>.act 1 (.advanced rfl)
    |>.act 0 (@Step.initReturned _ _ 7) |>.act 0 (.advanced rfl) |>.act 0 (.advanced rfl)
    |>.act 0 (.advanced rfl) |>.act 1 (.advanced rfl) |>.act 1 (.copyUnwound rfl)
    |>.act 1 (@Step.began _ _ .isPublished) |>.act 1 .observed |>.act 1 .answered
    |>.act 1 (@Step.began _ _ .get) |>.act 1 (.probed rfl) |>.act 1 .read |>.act 1 .answered
  exact ⟨_, run⟩

theorem runs_agree_race : outcomes (race 0 1) = [7] := by
  obtain ⟨state, run⟩ := race_runs
  obtain ⟨value, same, told⟩ := (runs_agree run).2.2.2.2.2 ((race 0 1).take 12) []
    ((race 0 1).drop 14) 1 (.published true) 1 (some 7) rfl trivial (by decide)
  cases same
  exact told

end OnceValue

end Proofhouse
