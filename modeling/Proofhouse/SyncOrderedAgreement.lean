import Proofhouse.SyncPublication

/-!
# Agreement under weak memory

A stale load may hide a published value for a while, and never shows another one.
Every cell has one value at most, which one initializer returned, and a thread
that was told of it is told of nothing less afterwards.
-/

set_option autoImplicit false

namespace Proofhouse.Ordered

open Library OnceValue

variable {κ ℓ T : Type}

/-- What the initializer of the cell returned in this step. -/
def Event.outcome? [DecidableEq κ] (place : κ) : Event κ ℓ T → Option T
  | .initReturned other value => if other = place then some value else none
  | .wrote _ _ | .read _ _ | .synchronized | .began _ _ | .accessed _ | .published _
  | .returned _ _ | .unwound _ => none

/-- What the initializers of the cell returned. -/
def outcomesAt [DecidableEq κ] {ι : Type} (place : κ) (events : List (ι × Event κ ℓ T)) :
    List T :=
  events.filterMap fun entry => entry.2.outcome? place

theorem outcomesAt_append [DecidableEq κ] {ι : Type} (place : κ)
    (events : List (ι × Event κ ℓ T)) (entry : ι × Event κ ℓ T) :
    outcomesAt place (events ++ [entry]) =
      outcomesAt place events ++ (entry.2.outcome? place).toList := by
  cases outcome : entry.2.outcome? place <;> simp [outcomesAt, outcome]

/-!
## Calls
-/

section Calls

variable [DecidableEq κ] [DecidableEq ℓ] {place : κ} {cell cell' : Cell κ ℓ T}
  {view view' : View (Location κ ℓ)} {own own' : Thread T} {event : Event κ ℓ T}

theorem Cell.IsPublished.ready (answers : cell.IsPublished place view true view')
    (settled : cell.state.Settled .ready) : cell.current.state = .ready := by
  rcases answers.fresh_or_stale settled with fresh | ⟨stale, -⟩
  · exact isPublished_iff.mp fresh.symm
  · cases stale

/-- A call without the claim leaves the slot alone, and a ready cell ready. -/
theorem CallStep.quiet (taken : CallStep place cell view own event cell' view' own')
    (free : ¬own.Holds) : event.outcome? place = none ∧ cell'.slot = cell.slot ∧
      (cell.current.state = .ready → cell'.current.state = .ready) := by
  cases taken with
  | claimed claims =>
      obtain ⟨empty, same, -⟩ := Cell.claim_taken claims
      refine ⟨rfl, by rw [same], fun ready => ?_⟩
      cases empty.symm.trans ready
  | taken claims =>
      obtain ⟨-, rfl, -⟩ := Cell.claim_lost claims
      exact ⟨rfl, rfl, id⟩
  | initReturned | cloned | stored | published => exact absurd trivial free
  | observed | probed | missed | read | landed | waiting | copied | vacant =>
      exact ⟨rfl, rfl, id⟩

theorem CallStep.silent (taken : CallStep place cell view own event cell' view' own') {other : κ}
    (apart : place ≠ other) : event.outcome? other = none := by
  cases taken with
  | initReturned => exact if_neg apart
  | observed | probed | missed | read | claimed | taken | landed | waiting | copied | vacant
  | cloned | stored | published => rfl

/-- A call that tells of no value found the flag down or the slot empty. -/
theorem CallStep.misses {answer : Answer T}
    (taken : CallStep place cell view own event cell' view' (.answering answer))
    (silent : ¬Announces answer) :
    (∃ view', cell.IsPublished place view false view') ∨ cell.slot = none := by
  generalize target : Thread.answering answer = own' at taken
  cases taken with
  | @observed published _ answers =>
      cases target
      cases published with
      | true => exact absurd trivial silent
      | false => exact .inl ⟨_, answers⟩
  | missed answers => exact .inl ⟨_, answers⟩
  | read =>
      cases target
      rw [Cell.locked, locked_eq] at silent
      cases written : cell.slot with
      | none => exact .inr rfl
      | some value =>
          refine absurd ?_ silent
          change Announces (.got cell.slot)
          rw [written]
          trivial
  | probed | claimed | taken | landed | waiting | copied | vacant | initReturned | cloned | stored
  | published => cases target

/-- What a call may rely on goes with it from step to step, and the slot holds
nothing but what the initializer returned. -/
theorem CallStep.knows {told : List T}
    (taken : CallStep place cell view own event cell' view' own')
    (settled : cell.state.Settled .ready) (knows : own.Knows told cell.current)
    (few : told.length ≤ 1) (fresh : cell.current.state = .empty → told = [])
    (slot : ∀ value, cell.slot = some value → told = [value]) :
    own'.Knows (told ++ (event.outcome? place).toList) cell'.current ∧
      (told ++ (event.outcome? place).toList).length ≤ 1 ∧
      ∀ value, cell'.slot = some value → told ++ (event.outcome? place).toList = [value] := by
  have quiet : told ++ (none : Option T).toList = told := List.append_nil told
  cases taken with
  | @observed answer _ answers =>
      simp only [Event.outcome?, quiet]
      refine ⟨?_, few, slot⟩
      cases answer with
      | true => exact answers.ready settled
      | false => trivial
  | probed answers | landed answers =>
      simp only [Event.outcome?, quiet]
      exact ⟨answers.ready settled, few, slot⟩
  | missed | waiting | vacant =>
      simp only [Event.outcome?, quiet]
      exact ⟨trivial, few, slot⟩
  | read =>
      simp only [Event.outcome?, quiet, Cell.locked, locked_eq]
      refine ⟨?_, few, slot⟩
      cases written : cell.current.slot with
      | none => trivial
      | some value => exact ⟨knows, slot value written⟩
  | claimed claims =>
      obtain ⟨empty, same, -⟩ := Cell.claim_taken claims
      simp only [Event.outcome?, quiet]
      refine ⟨fresh empty, few, ?_⟩
      rw [same]
      exact slot
  | taken claims =>
      obtain ⟨-, rfl, -⟩ := Cell.claim_lost claims
      simp only [Event.outcome?, quiet]
      exact ⟨trivial, few, slot⟩
  | copied written =>
      simp only [Event.outcome?, quiet]
      rw [Cell.locked, locked_eq] at written
      exact ⟨⟨knows, slot _ written⟩, few, slot⟩
  | initReturned =>
      change told = [] at knows
      subst knows
      simp only [Event.outcome?, if_pos]
      refine ⟨rfl, Nat.le_refl 1, fun value written => ?_⟩
      cases slot value written
  | cloned =>
      simp only [Event.outcome?, quiet]
      exact ⟨knows, few, slot⟩
  | stored =>
      simp only [Event.outcome?, quiet]
      refine ⟨⟨knows, rfl⟩, few, fun value written => ?_⟩
      cases written
      exact knows
  | published publishes =>
      obtain ⟨same, stored⟩ := Cell.publish_stores publishes
      simp only [Event.outcome?, quiet]
      refine ⟨⟨History.newest_store stored, knows.1⟩, few, ?_⟩
      rw [same]
      exact slot

end Calls

/-!
## Threads
-/

section Threads

variable [DecidableEq κ] {memory memory' : Memory κ ℓ T} {viewer viewer' : Viewer κ ℓ T}
  {event : Event κ ℓ T} {place : κ}

/-- Every call of the thread on the cell may rely on what it relies on. -/
def Viewer.Knows (place : κ) (told : List T) (cell : Cell κ ℓ T) (viewer : Viewer κ ℓ T) : Prop :=
  ∀ own, (place, own) ∈ viewer.frames → own.Knows told cell.current

theorem not_holds_of_held_zero {frames : List (κ × Thread T)} (none : held place frames = 0)
    {own : Thread T} (member : (place, own) ∈ frames) : ¬own.Holds := fun holds =>
  List.countP_eq_zero.mp none _ member (decide_eq_true ⟨rfl, holds⟩)

theorem Memory.current_unwound {other : κ} {own : Thread T} {cell' : Cell κ ℓ T}
    (unwinds : Unwinds (memory.cells other) own cell') :
    ((memory.setCell other cell').cells place).state = (memory.cells place).state ∧
      ((memory.setCell other cell').cells place).slot = (memory.cells place).slot := by
  by_cases same : place = other
  · subst same
    rw [Memory.setCell_cells_self]
    exact Unwinds.state unwinds
  · rw [Memory.setCell_cells_ne same]
    exact ⟨rfl, rfl⟩

omit [DecidableEq κ] in
/-- Knowledge stands on the flag and the slot alone. -/
theorem knows_congr {own : Thread T} {told : List T} {cell cell' : Cell κ ℓ T}
    (knows : own.Knows told cell.current) (state : cell'.state = cell.state)
    (slot : cell'.slot = cell.slot) : own.Knows told cell'.current := by
  refine knows.mono (fun _ => ⟨rfl, slot⟩) fun ready => ⟨?_, rfl⟩
  change cell'.state.newest.value = .ready
  rw [state]
  exact ready

variable [DecidableEq ℓ]

/-- A thread that holds no claim of the cell leaves its slot alone. -/
theorem Step.quiet (taken : Step memory viewer event memory' viewer')
    (free : held place viewer.frames = 0) : event.outcome? place = none ∧
      (memory'.cells place).slot = (memory.cells place).slot ∧
      ((memory.cells place).current.state = .ready →
        (memory'.cells place).current.state = .ready) := by
  cases taken with
  | wrote | read | synchronized | began | returned => exact ⟨rfl, rfl, id⟩
  | unwound unwinds =>
      obtain ⟨state, slot⟩ := Memory.current_unwound unwinds
      refine ⟨rfl, slot, fun ready => ?_⟩
      rw [Cell.current, state]
      exact ready
  | @called _ _ other own _ cell' _ _ taken =>
      by_cases same : place = other
      · subst same
        rw [Memory.setCell_cells_self]
        exact taken.quiet (not_holds_of_held_zero free List.mem_cons_self)
      · rw [Memory.setCell_cells_ne same]
        exact ⟨taken.silent (Ne.symm same), rfl, id⟩

theorem Step.knows {told : List T} (taken : Step memory viewer event memory' viewer')
    (settled : (memory.cells place).state.Settled .ready)
    (knows : viewer.Knows place told (memory.cells place))
    (alone : held place viewer.frames ≤ 1)
    (claimed : held place viewer.frames ≠ 0 →
      (memory.cells place).current.state = .initializing)
    (few : told.length ≤ 1) (fresh : (memory.cells place).current.state = .empty → told = [])
    (slot : ∀ value, (memory.cells place).slot = some value → told = [value]) :
    viewer'.Knows place (told ++ (event.outcome? place).toList) (memory'.cells place) ∧
      (told ++ (event.outcome? place).toList).length ≤ 1 ∧
      ∀ value, (memory'.cells place).slot = some value →
        told ++ (event.outcome? place).toList = [value] := by
  have quiet : told ++ (none : Option T).toList = told := List.append_nil told
  cases taken with
  | wrote | read | synchronized =>
      simp only [Event.outcome?, quiet]
      exact ⟨knows, few, slot⟩
  | @began _ _ _ call =>
      simp only [Event.outcome?, quiet]
      refine ⟨fun own member => ?_, few, slot⟩
      rcases List.mem_cons.mp member with same | member
      · cases same
        cases call <;> trivial
      · exact knows own member
  | returned =>
      simp only [Event.outcome?, quiet]
      exact ⟨fun own member => knows own (List.mem_cons_of_mem _ member), few, slot⟩
  | unwound unwinds =>
      obtain ⟨sameState, sameSlot⟩ := @Memory.current_unwound _ _ _ _ _ place _ _ _ unwinds
      simp only [Event.outcome?, quiet]
      refine ⟨fun own member => ?_, few, sameSlot ▸ slot⟩
      exact knows_congr (knows own (List.mem_cons_of_mem _ member)) sameState sameSlot
  | @called view frames other own _ cell' view' own' taken =>
      by_cases same : place = other
      · subst same
        rw [Memory.setCell_cells_self]
        obtain ⟨ownKnows, fewer, slots⟩ :=
          taken.knows settled (knows own List.mem_cons_self) few fresh slot
        refine ⟨fun outer member => ?_, fewer, slots⟩
        rcases List.mem_cons.mp member with same | member
        · cases same
          exact ownKnows
        · -- An outer call of the thread has the claim only if the innermost has not.
          rw [held_cons_eq] at alone claimed
          refine (knows outer (List.mem_cons_of_mem _ member)).mono (fun holds => ?_)
            fun ready => ?_
          · have free : ¬own.Holds := fun both => by
              rw [if_pos both] at alone
              exact not_holds_of_held_zero (by omega) member holds
            obtain ⟨silent, sameSlot, -⟩ := taken.quiet free
            exact ⟨by rw [silent, quiet], sameSlot⟩
          · have free : ¬own.Holds := fun both => by
              rw [if_pos both] at claimed
              cases ready.symm.trans (claimed (Nat.succ_ne_zero _))
            obtain ⟨silent, -, stays⟩ := taken.quiet free
            exact ⟨stays ready, by rw [silent, quiet]⟩
      · rw [Memory.setCell_cells_ne same, taken.silent (Ne.symm same), quiet]
        refine ⟨fun outer member => ?_, few, slot⟩
        rcases List.mem_cons.mp member with head | member
        · exact absurd (Prod.mk.inj head).1 same
        · exact knows outer (List.mem_cons_of_mem _ member)

/-- The thread was told of the value: it acquired the ready flag, and no call of
its is about to tell of less. -/
def Viewer.Aware (memory : Memory κ ℓ T) (viewer : Viewer κ ℓ T) (place : κ) : Prop :=
  memory.Announced place viewer.view ∧
    ∀ answer, (place, .answering answer) ∈ viewer.frames → Announces answer

theorem Step.announces {answer : Answer T}
    (taken : Step memory viewer (.returned place answer) memory' viewer')
    (fits : viewer.Fits memory) (nested : viewer.Nested) (announces : Announces answer) :
    viewer'.Aware memory' place := by
  obtain ⟨rfl, view, own, answers, frames⟩ := taken.returning
  rw [Viewer.Aware, view]
  rw [Viewer.Nested, frames] at nested
  rw [Viewer.Fits, frames] at fits
  exact ⟨(fits _ List.mem_cons_self).announced answers announces,
    fun _ member => by cases nested _ member⟩

theorem Step.aware (taken : Step memory viewer event memory' viewer')
    (settled : (memory.cells place).state.Settled .ready)
    (written : (memory.cells place).slot ≠ none) (aware : viewer.Aware memory place) :
    viewer'.Aware memory' place := by
  obtain ⟨announced, tells⟩ := aware
  refine ⟨announced.mono taken.grows taken.rises.1, ?_⟩
  cases taken with
  | wrote | read | synchronized => exact tells
  | @began _ _ _ call =>
      refine fun answer member => (List.mem_cons.mp member).elim (fun same => ?_) (tells answer)
      cases call <;> cases same
  | called taken =>
      refine fun answer member => (List.mem_cons.mp member).elim (fun same => ?_)
        fun member => tells answer (.tail _ member)
      obtain ⟨rfl, rfl⟩ := Prod.mk.inj same
      by_contra silent
      rcases taken.misses silent with ⟨view', answers⟩ | vacant
      · cases answers.of_acquired settled announced
      · exact written vacant
  | returned | unwound => exact fun answer member => tells answer (.tail _ member)

end Threads

/-!
## Runs
-/

section Runs

variable {ι : Type} [DecidableEq ι] [DecidableEq κ]
  {events : List (ι × Event κ ℓ T)} {state next : Memory κ ℓ T × (ι → Viewer κ ℓ T)}
  {place : κ}

/-- A thread with the claim is alone with it, and the flag shows it. -/
theorem Stage.holders (stage : Stage place events state) (thread : ι) :
    held place (state.2 thread).frames ≤ 1 ∧
      (held place (state.2 thread).frames ≠ 0 →
        (state.1.cells place).current.state = .initializing ∧
        ∀ other, other ≠ thread → held place (state.2 other).frames = 0) := by
  cases stage with
  | empty _ nobody | ready _ nobody =>
      rw [nobody]
      exact ⟨Nat.zero_le 1, absurd rfl⟩
  | @claimed holder newest alone nobody =>
      by_cases own : thread = holder
      · subst own
        exact ⟨alone, fun _ => ⟨newest, nobody⟩⟩
      · rw [nobody thread own]
        exact ⟨Nat.zero_le 1, absurd rfl⟩

/-- What the initializers of the cell returned is one value at most, and what all
calls and answers of the cell stand on. -/
structure Agrees (place : κ) (events : List (ι × Event κ ℓ T))
    (state : Memory κ ℓ T × (ι → Viewer κ ℓ T)) : Prop where
  few : (outcomesAt place events).length ≤ 1
  fresh : (state.1.cells place).current.state = .empty → outcomesAt place events = []
  slot : ∀ value, (state.1.cells place).slot = some value → outcomesAt place events = [value]
  knows : ∀ thread,
    (state.2 thread).Knows place (outcomesAt place events) (state.1.cells place)
  told : ∀ thread answer, (thread, .returned place answer) ∈ events →
    answer.Known (outcomesAt place events) (state.1.cells place).current

variable [DecidableEq ℓ]

theorem Step.keeps_claimed {memory memory' : Memory κ ℓ T} {viewer viewer' : Viewer κ ℓ T}
    {event : Event κ ℓ T} (taken : Step memory viewer event memory' viewer')
    (fits : viewer.Fits memory) (empty : (memory'.cells place).current.state = .empty) :
    (memory.cells place).current.state = .empty := by
  cases taken.shift fits place with
  | keeps same =>
      rw [Cell.current, same] at empty
      exact empty
  | claims _ claimed => cases empty.symm.trans claimed
  | publishes stored => cases empty.symm.trans (History.newest_store stored)

theorem known_of_answer {own : Thread T} {answer : Answer T} {told : List T} {cell : OnceValue T}
    (answers : answer? own = some answer) (knows : own.Knows told cell) :
    answer.Known told cell := by
  match own, answers, knows with
  | .answering _, rfl, known => exact known
  | .filling (.returned _), rfl, known => exact known

theorem Agrees.step (agrees : Agrees place events state) (reached : Reached events state)
    {entry : ι × Event κ ℓ T} (taken : Interleaves Step state entry next) :
    Agrees place (events ++ [entry]) next := by
  cases taken with
  | @act memory pool stepping event memory' viewer' taken =>
  have holders := (reached.stages place).holders
  obtain ⟨alone, claimed⟩ := holders stepping
  obtain ⟨knows, few, slot⟩ := taken.knows (reached.settled place) (agrees.knows stepping) alone
    (fun holds => (claimed holds).1) agrees.few agrees.fresh agrees.slot
  have silent : held place (pool stepping).frames = 0 →
      outcomesAt place (events ++ [(stepping, event)]) = outcomesAt place events := by
    intro free
    rw [outcomesAt_append, (taken.quiet free).1]
    exact List.append_nil _
  have free_of_ne : (memory.cells place).current.state ≠ .initializing →
      held place (pool stepping).frames = 0 :=
    fun elsewhere => by_contra fun holds => elsewhere (claimed holds).1
  have ready : (memory.cells place).current.state = .ready →
      (memory'.cells place).current.state = .ready ∧
        outcomesAt place (events ++ [(stepping, event)]) = outcomesAt place events := by
    intro ready
    have free := free_of_ne (by rw [ready]; decide)
    exact ⟨(taken.quiet free).2.2 ready, silent free⟩
  refine ⟨?_, fun empty => ?_, ?_, fun thread => ?_, fun thread answer member => ?_⟩
  · rw [outcomesAt_append]
    exact few
  · have before := taken.keeps_claimed (reached.fits stepping) empty
    rw [silent (free_of_ne (by rw [before]; decide))]
    exact agrees.fresh before
  · rw [outcomesAt_append]
    exact slot
  · dsimp only
    by_cases other : thread = stepping
    · rw [other, Function.update_self, outcomesAt_append]
      exact knows
    · rw [Function.update_of_ne other]
      refine fun own member => (agrees.knows thread own member).mono (fun holds => ?_) ready
      have free := ((holders thread).2 fun none =>
        not_holds_of_held_zero none member holds).2 stepping (Ne.symm other)
      exact ⟨silent free, (taken.quiet free).2.1⟩
  · rcases List.mem_append.mp member with member | member
    · exact (agrees.told thread answer member).mono ready
    · cases List.mem_singleton.mp member
      obtain ⟨rfl, -, own, answers, frames⟩ := taken.returning
      rw [outcomesAt_append]
      exact (List.append_nil (outcomesAt place events)).symm ▸ known_of_answer answers
        (agrees.knows _ own (frames ▸ List.mem_cons_self))

theorem Runs.agrees (run : Runs events state) (place : κ) : Agrees place events state := by
  induction run with
  | start => exact ⟨Nat.zero_le 1, fun _ => rfl, nofun, fun _ _ => nofun, fun _ _ => nofun⟩
  | snoc run taken ih => exact ih.step (Runs.reached run) taken

theorem Runs.aware (run : Runs events state) {reader : ι} {seen : Answer T}
    (told : (reader, .returned place seen) ∈ events) (announces : Announces seen) :
    (state.2 reader).Aware state.1 place := by
  induction run with
  | start => cases told
  | snoc run taken ih =>
  have reached := Runs.reached run
  cases taken with
  | @act memory pool stepping event memory' viewer' taken =>
  dsimp only
  by_cases own : reader = stepping
  · subst own
    rw [Function.update_self]
    rcases List.mem_append.mp told with told | told
    · have aware := ih told
      have written := ((reached.stages place).announced (reached.settled place) aware.1).1
      exact taken.aware (reached.settled place) written aware
    · cases List.mem_singleton.mp told
      exact taken.announces (reached.fits reader) (reached.nested reader) announces
  · rw [Function.update_of_ne own]
    rcases List.mem_append.mp told with told | told
    · obtain ⟨announced, tells⟩ := ih told
      exact ⟨announced.mono taken.grows (le_refl _), tells⟩
    · cases List.mem_singleton.mp told
      exact absurd rfl own

theorem Runs.announces_after (run : Runs events state) {earlier later : List (ι × Event κ ℓ T)}
    {reader : ι} {seen answer : Answer T}
    (split : events = earlier ++ (reader, .returned place seen) :: later)
    (announces : Announces seen) (member : (reader, .returned place answer) ∈ later) :
    Announces answer := by
  obtain ⟨middle, after, rfl⟩ := List.append_of_mem member
  have regrouped : events = (earlier ++ (reader, .returned place seen) :: middle) ++
      (reader, .returned place answer) :: after := by
    rw [split, List.append_assoc, List.cons_append]
  subst regrouped
  obtain ⟨before, _, runBefore, returns, -⟩ := run.split_event
  have aware := Runs.aware runBefore
    (List.mem_append_right _ List.mem_cons_self) announces
  cases returns with
  | act taken =>
  obtain ⟨-, -, own, answers, frames⟩ := taken.returning
  match own, answers with
  | .answering _, rfl => exact aware.2 _ (frames ▸ List.mem_cons_self)
  | .filling (.returned _), rfl => trivial

/-- Stale loads, unwinding and calls inside `init` included: one initializer of a
cell returns at most, the slot and every answer with a value have what it
returned, and a thread that was told of the value is told of it ever after. -/
theorem ordered_runs_agree (run : Runs events state) (place : κ) :
    (outcomesAt place events).length ≤ 1 ∧
    (∀ value, (state.1.cells place).slot = some value → outcomesAt place events = [value]) ∧
    (∀ thread value, (thread, .returned place (.filled value)) ∈ events ∨
        (thread, .returned place (.got (some value))) ∈ events →
      outcomesAt place events = [value]) ∧
    ∀ reader seen answer earlier later,
      events = earlier ++ (reader, .returned place seen) :: later → Announces seen →
      (reader, .returned place answer) ∈ later → Announces answer := by
  have agrees := run.agrees place
  refine ⟨agrees.few, agrees.slot, fun thread value member => ?_,
    fun reader seen answer earlier later split announces member =>
      run.announces_after split announces member⟩
  rcases member with member | member
  · exact (agrees.told thread _ member).2
  · exact (agrees.told thread _ member).2

end Runs

private theorem answered_at {κ ℓ T : Type} [DecidableEq κ] [DecidableEq ℓ] {place : κ}
    {cell : Cell κ ℓ T} {view : View (Location κ ℓ)} {message : Message (Location κ ℓ) Phase}
    {answer : Bool} (time : ℕ) (found : cell.state.messages[time]? = some message)
    (recent : view (.flag place) ≤ time) (same : decide (message.value = .ready) = answer) :
    cell.IsPublished place view answer (view.receive (.flag place) .acquire time message) :=
  same ▸ .loaded (.message found recent)

/-- The reader does not see the publication at first, and then gets the value. -/
private def missed (filler reader : Fin 2) : List (Fin 2 × Event Unit Unit ℕ) :=
  [(filler, .began () .getOrInit), (filler, .accessed ()), (filler, .initReturned () 7),
    (filler, .accessed ()), (filler, .accessed ()), (filler, .published ()),
    (reader, .began () .isPublished), (reader, .accessed ()),
    (reader, .returned () (.published false)), (reader, .began () .get), (reader, .accessed ()),
    (reader, .accessed ()), (reader, .returned () (.got (some 7)))]

private theorem missed_runs : ∃ state, Runs (missed 0 1) state := by
  refine ⟨_, Runs.start |>.act 0 (.began rfl) |>.act 0 (.called (.claimed rfl))
    |>.act 0 (.called .initReturned) |>.act 0 (.called .cloned) |>.act 0 (.called .stored)
    |>.act 0 (.called (.published rfl)) |>.act 1 (.began rfl)
    |>.act 1 (.called (.observed (answered_at 0 rfl ?_ rfl))) |>.act 1 (.returned rfl)
    |>.act 1 (.began rfl) |>.act 1 (.called (.probed (answered_at 2 rfl ?_ rfl)))
    |>.act 1 (.called .read) |>.act 1 (.returned rfl)⟩
  all_goals decide +kernel

theorem ordered_runs_agree_missed : outcomesAt () (missed 0 1) = [7] := by
  obtain ⟨state, run⟩ := missed_runs
  obtain ⟨-, -, agree, -⟩ := ordered_runs_agree run ()
  exact agree 1 7 (.inr (by decide))

end Proofhouse.Ordered
