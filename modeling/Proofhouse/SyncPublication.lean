import Proofhouse.SyncAgreement
import Proofhouse.SyncOrderings

/-!
# What publication carries

A thread that learns of a published value has the view its publisher had at the
store of the ready flag. Stale loads, views that rise for other reasons and
initializers that unwind do not change that.
-/

set_option autoImplicit false

namespace Proofhouse.Ordered

open Library OnceValue

variable {κ ℓ T : Type}

/-- The answer tells that a value was published. -/
def Announces : Answer T → Prop
  | .published true | .got (some _) | .filled _ => True
  | .published false | .got none => False

namespace Event

/-- The ordinary data a step writes. -/
def writes : Event κ ℓ T → List (Location κ ℓ × ℕ)
  | .wrote location time => [(.data location, time)]
  | .read _ _ | .synchronized | .began _ _ | .accessed _ | .published _ | .initReturned _ _
  | .returned _ _ | .unwound _ => []

def Publishes (place : κ) : Event κ ℓ T → Prop
  | .published other => other = place
  | .wrote _ _ | .read _ _ | .synchronized | .began _ _ | .accessed _ | .initReturned _ _
  | .returned _ _ | .unwound _ => False

end Event

/-- The view is past the store of the ready flag, and has what it carries. -/
def Memory.Announced (memory : Memory κ ℓ T) (place : κ) (view : View (Location κ ℓ)) : Prop :=
  (memory.cells place).state.Acquired (.flag place) .ready view

section Calls

variable [DecidableEq κ] [DecidableEq ℓ] {place : κ} {cell cell' : Cell κ ℓ T}
  {view view' : View (Location κ ℓ)} {own own' : Thread T} {event : Event κ ℓ T} {answer : Bool}

theorem Cell.IsPublished.le (answers : cell.IsPublished place view answer view') :
    view ≤ view' := by
  cases answers with
  | loaded loads => exact loads.le

theorem Cell.IsPublished.acquired (answers : cell.IsPublished place view true view') :
    cell.state.Acquired (.flag place) .ready view' := by
  generalize told : true = answer at answers
  cases answers with
  | loaded loads => exact of_decide_eq_true told.symm ▸ loads.acquired rfl

theorem Cell.IsPublished.of_acquired (answers : cell.IsPublished place view answer view')
    (settled : cell.state.Settled .ready)
    (acquired : cell.state.Acquired (.flag place) .ready view) : answer = true := by
  cases answers with
  | loaded loads => exact decide_eq_true (settled.reads acquired loads)

/-- What a step of a call does to its cell: it leaves the flag alone, or it claims
an empty cell, or it publishes the slot it wrote. -/
inductive Effect (place : κ) (cell : Cell κ ℓ T) (view : View (Location κ ℓ)) (own : Thread T)
    (event : Event κ ℓ T) (cell' : Cell κ ℓ T) (view' : View (Location κ ℓ)) (own' : Thread T) :
    Prop where
  | keeps : cell'.state = cell.state → (own'.Holds ↔ own.Holds) → ¬event.Publishes place →
      Effect place cell view own event cell' view' own'
  | claims {received order} : cell.state.newest.value = .empty →
      cell.state.store (.flag place) order received .initializing = (cell'.state, view') →
      ¬own.Holds → own'.Holds → ¬event.Publishes place →
      Effect place cell view own event cell' view' own'
  | publishes {value} : cell.state.store (.flag place) .release view .ready =
        (cell'.state, view') → own = .filling (.publishing value) →
      own' = .filling (.returned value) → event = .published place →
      Effect place cell view own event cell' view' own'

theorem Cell.claim_taken (claims : cell.claim place view = (true, cell', view')) :
    cell.state.newest.value = .empty ∧ cell' = { cell with state := cell'.state } ∧
      ∃ received, view ≤ received ∧
        cell.state.store (.flag place) .acquire received .initializing =
          (cell'.state, view') := by
  rw [claim] at claims
  generalize exchanged : cell.state.compareExchange _ _ _ _ _ _ = result at claims
  obtain ⟨taken, state, view''⟩ := result
  cases claims
  rcases History.compareExchange_cases exchanged with ⟨-, empty, stored⟩ | ⟨lost, -⟩
  · exact ⟨empty, rfl, stored⟩
  · cases lost

theorem Cell.claim_lost (claims : cell.claim place view = (false, cell', view')) :
    cell.state.newest.value ≠ .empty ∧ cell' = cell ∧ view ≤ view' := by
  rw [claim] at claims
  generalize exchanged : cell.state.compareExchange _ _ _ _ _ _ = result at claims
  obtain ⟨taken, state, view''⟩ := result
  cases claims
  rcases History.compareExchange_cases exchanged with ⟨won, -⟩ | ⟨-, claimed, rfl, rises⟩
  · cases won
  · exact ⟨claimed, rfl, rises⟩

theorem Cell.publish_stores (publishes : cell.publish place view = (cell', view')) :
    cell' = { cell with state := cell'.state } ∧
      cell.state.store (.flag place) .release view .ready = (cell'.state, view') := by
  cases publishes
  exact ⟨rfl, rfl⟩

theorem CallStep.effect (taken : CallStep place cell view own event cell' view' own') :
    Effect place cell view own event cell' view' own' := by
  cases taken with
  | claimed claims =>
      obtain ⟨empty, -, received, -, stored⟩ := Cell.claim_taken claims
      exact .claims empty stored id trivial id
  | taken claims =>
      obtain ⟨-, rfl, -⟩ := Cell.claim_lost claims
      exact .keeps rfl Iff.rfl id
  | published publishes => exact .publishes (Cell.publish_stores publishes).2 rfl rfl rfl
  | observed | probed | missed | read | landed | waiting | copied | vacant | initReturned
  | cloned | stored => exact .keeps rfl Iff.rfl id

theorem CallStep.rises (taken : CallStep place cell view own event cell' view' own') :
    view ≤ view' := by
  cases taken with
  | observed answers | probed answers | missed answers | landed answers | waiting answers =>
      exact answers.le
  | claimed claims =>
      obtain ⟨-, -, received, rises, stored⟩ := Cell.claim_taken claims
      exact le_trans rises (History.store_rises stored)
  | taken claims => exact (Cell.claim_lost claims).2.2
  | published publishes => exact History.store_rises (Cell.publish_stores publishes).2
  | read | copied | vacant | initReturned | cloned | stored => exact le_refl _

theorem CallStep.writes (taken : CallStep place cell view own event cell' view' own') :
    event.writes = [] := by
  cases taken <;> rfl

theorem CallStep.elsewhere (taken : CallStep place cell view own event cell' view' own')
    {other : κ} (apart : place ≠ other) : ¬event.Publishes other := by
  cases taken with
  | published => exact apart
  | observed | probed | missed | read | claimed | taken | landed | waiting | copied | vacant
  | initReturned | cloned | stored => exact id

theorem CallStep.empty_handed
    (taken : CallStep place cell view own event cell' view' (.answering (.got none))) :
    (∃ view', cell.IsPublished place view false view') ∨ cell.slot = none := by
  generalize target : Thread.answering (.got none) = own' at taken
  cases taken with
  | missed answers => exact .inl ⟨_, answers⟩
  | read =>
      injection target with target
      injection target with vacant
      exact .inr ((locked_eq _).symm.trans vacant.symm)
  | observed | probed | claimed | taken | landed | waiting | copied | vacant | initReturned
  | cloned | stored | published => cases target

theorem CallStep.slot (taken : CallStep place cell view own event cell' view' own')
    (written : cell.slot ≠ none) : cell'.slot ≠ none := by
  cases taken with
  | stored => exact Option.some_ne_none _
  | claimed claims =>
      rw [(Cell.claim_taken claims).2.1]
      exact written
  | taken claims => exact (Cell.claim_lost claims).2.1 ▸ written
  | published publishes =>
      rw [(Cell.publish_stores publishes).1]
      exact written
  | observed | probed | missed | read | landed | waiting | copied | vacant | initReturned
  | cloned => exact written

theorem Effect.grows (effect : Effect place cell view own event cell' view' own') :
    cell.state.messages <+: cell'.state.messages := by
  cases effect with
  | keeps same => rw [same]
  | claims _ stored | publishes stored => exact History.store_grows stored

theorem Effect.settled (effect : Effect place cell view own event cell' view' own')
    (settled : cell.state.Settled .ready) : cell'.state.Settled .ready := by
  cases effect with
  | keeps same => exact same.symm ▸ settled
  | claims empty stored =>
      exact settled.store stored fun ready => by cases empty.symm.trans ready
  | publishes stored => exact settled.store stored fun _ => rfl

/-- An answer is the one the flag gives now, or it misses the publication. -/
theorem Cell.IsPublished.fresh_or_stale (answers : cell.IsPublished place view answer view')
    (settled : cell.state.Settled .ready) :
    answer = cell.current.isPublished ∨ answer = false ∧ cell.state.newest.value = .ready := by
  cases answers with
  | @loaded phase _ loads =>
  by_cases ready : cell.state.newest.value = .ready
  · by_cases read : phase = .ready
    · exact .inl ((decide_eq_true read).trans (decide_eq_true ready).symm)
    · exact .inr ⟨decide_eq_false read, ready⟩
  · have read : phase ≠ .ready := by
      cases loads with
      | message found => exact fun same => ready (settled.newest (List.mem_of_getElem? found) same)
    exact .inl ((decide_eq_false read).trans (decide_eq_false ready).symm)

theorem Cell.current_claim {taken : Bool}
    (claims : cell.claim place view = (taken, cell', view')) :
    cell.current.claim = (taken, cell'.current) := by
  cases taken with
  | true =>
      obtain ⟨empty, same, received, -, stored⟩ := Cell.claim_taken claims
      have claimed := History.newest_store stored
      rw [same]
      simp only [OnceValue.claim, current, empty, claimed]
  | false =>
      obtain ⟨claimed, rfl, -⟩ := Cell.claim_lost claims
      cases phase : cell'.state.newest.value with
      | empty => exact absurd phase claimed
      | initializing | ready => simp only [OnceValue.claim, current, phase]

theorem Cell.current_publish (publishes : cell.publish place view = (cell', view')) :
    cell.current.publish = cell'.current := by
  obtain ⟨same, stored⟩ := Cell.publish_stores publishes
  rw [same, current, current, History.newest_store stored]
  rfl

/-- A step of a call is a step on the cell as it stands, except that a stale load
may miss the publication. -/
theorem CallStep.current (taken : CallStep place cell view own event cell' view' own')
    (settled : cell.state.Settled .ready) :
    (∃ event', OnceValue.Step cell.current own event' cell'.current own') ∨
      cell' = cell ∧ cell.state.newest.value = .ready ∧
        (own' = .answering (.published false) ∨ own' = .answering (.got none) ∨
          own' = .filling .claiming) := by
  cases taken with
  | observed answers =>
      rcases answers.fresh_or_stale settled with rfl | ⟨rfl, ready⟩
      · exact .inl ⟨_, .observed⟩
      · exact .inr ⟨rfl, ready, .inl rfl⟩
  | probed answers =>
      rcases answers.fresh_or_stale settled with fresh | ⟨stale, -⟩
      · exact .inl ⟨_, .probed fresh.symm⟩
      · cases stale
  | missed answers =>
      rcases answers.fresh_or_stale settled with fresh | ⟨-, ready⟩
      · exact .inl ⟨_, .missed fresh.symm⟩
      · exact .inr ⟨rfl, ready, .inr (.inl rfl)⟩
  | read => exact .inl ⟨_, .read⟩
  | claimed claims =>
      refine .inl ⟨_, .advanced ?_⟩
      rw [advance, Cell.current_claim claims]
  | taken claims =>
      refine .inl ⟨_, .advanced ?_⟩
      rw [advance, Cell.current_claim claims]
  | landed answers =>
      rcases answers.fresh_or_stale settled with fresh | ⟨stale, -⟩
      · refine .inl ⟨_, .advanced ?_⟩
        rw [advance, ← fresh]
        rfl
      · cases stale
  | waiting answers =>
      rcases answers.fresh_or_stale settled with fresh | ⟨-, ready⟩
      · refine .inl ⟨_, .advanced ?_⟩
        rw [advance, ← fresh]
        rfl
      · exact .inr ⟨rfl, ready, .inr (.inr rfl)⟩
  | copied slot =>
      refine .inl ⟨_, .advanced ?_⟩
      rw [advance, ← Cell.locked, slot]
  | vacant slot =>
      refine .inl ⟨_, .advanced ?_⟩
      rw [advance, ← Cell.locked, slot]
  | initReturned => exact .inl ⟨_, .initReturned⟩
  | cloned => exact .inl ⟨_, .advanced rfl⟩
  | stored => exact .inl ⟨_, .advanced rfl⟩
  | published publishes =>
      refine .inl ⟨_, .advanced ?_⟩
      rw [advance, Cell.current_publish publishes]

end Calls

/-!
## Threads
-/

/-- What a thread may rely on in a call: past an answer it has acquired the ready
flag, and before the store of the flag the slot is written. -/
def Memory.Fits (memory : Memory κ ℓ T) (view : View (Location κ ℓ)) (place : κ) :
    Thread T → Prop
  | .reading | .filling .copying | .filling (.returned _) => memory.Announced place view
  | .answering answer => Announces answer → memory.Announced place view
  | .filling (.publishing _) => (memory.cells place).slot ≠ none
  | .idle | .observing | .probing | .filling .claiming | .filling .loading
  | .filling .initializing | .filling (.duplicating _) | .filling (.storing _) => True

def Viewer.Fits (memory : Memory κ ℓ T) (viewer : Viewer κ ℓ T) : Prop :=
  ∀ frame ∈ viewer.frames, memory.Fits viewer.view frame.1 frame.2

/-- Only the innermost call is anywhere but inside its `init`. -/
def Viewer.Nested (viewer : Viewer κ ℓ T) : Prop :=
  ∀ frame ∈ viewer.frames.tail, frame.2 = .filling .initializing

structure Memory.Grows (before after : Memory κ ℓ T) : Prop where
  states : ∀ place, (before.cells place).state.messages <+: (after.cells place).state.messages
  slots : ∀ place, (before.cells place).slot ≠ none → (after.cells place).slot ≠ none

theorem Memory.Announced.mono {before after : Memory κ ℓ T} {place : κ}
    {view view' : View (Location κ ℓ)} (announced : before.Announced place view)
    (grows : before.Grows after) (rises : view ≤ view') : after.Announced place view' :=
  History.Acquired.mono announced (grows.states place) rises

theorem Memory.Fits.mono {before after : Memory κ ℓ T} {place : κ} {own : Thread T}
    {view view' : View (Location κ ℓ)} (fits : before.Fits view place own)
    (grows : before.Grows after) (rises : view ≤ view') : after.Fits view' place own := by
  match own, fits with
  | .reading, announced | .filling .copying, announced | .filling (.returned _), announced =>
      exact Announced.mono announced grows rises
  | .answering _, announced => exact fun announces => (announced announces).mono grows rises
  | .filling (.publishing _), written => exact grows.slots place written
  | .idle, _ | .observing, _ | .probing, _ | .filling .claiming, _ | .filling .loading, _
  | .filling .initializing, _ | .filling (.duplicating _), _ | .filling (.storing _), _ => trivial

theorem Unwinds.state {cell cell' : Cell κ ℓ T} {own : Thread T}
    (unwinds : Unwinds cell own cell') : cell'.state = cell.state ∧ cell'.slot = cell.slot := by
  cases unwinds <;> exact ⟨rfl, rfl⟩

theorem Memory.Fits.announced {memory : Memory κ ℓ T} {place : κ} {view : View (Location κ ℓ)}
    {own : Thread T} {answer : Answer T} (fits : memory.Fits view place own)
    (answers : answer? own = some answer) (announces : Announces answer) :
    memory.Announced place view := by
  match own, answers, fits with
  | .answering _, rfl, announced => exact announced announces
  | .filling (.returned _), _, announced => exact announced

section Threads

variable [DecidableEq κ] {memory memory' : Memory κ ℓ T} {viewer viewer' : Viewer κ ℓ T}
  {event : Event κ ℓ T}

@[simp] theorem Memory.setCell_cells_self {place : κ} {cell : Cell κ ℓ T} :
    (memory.setCell place cell).cells place = cell :=
  Function.update_self ..

@[simp] theorem Memory.setCell_cells_ne {place other : κ} {cell : Cell κ ℓ T}
    (elsewhere : other ≠ place) : (memory.setCell place cell).cells other = memory.cells other :=
  Function.update_of_ne elsewhere ..

theorem Memory.grows_setCell {place : κ} {cell : Cell κ ℓ T}
    (states : (memory.cells place).state.messages <+: cell.state.messages)
    (slots : (memory.cells place).slot ≠ none → cell.slot ≠ none) :
    memory.Grows (memory.setCell place cell) := by
  refine ⟨fun other => ?_, fun other => ?_⟩ <;>
    simp only [setCell, Function.update_apply] <;> split
  · next same => exact same ▸ states
  · exact List.prefix_rfl
  · next same => exact same ▸ slots
  · exact id

/-- Whatever place is looked at, one cell stored at one place keeps it settled. -/
theorem Memory.settled_setCell {place other : κ} {cell : Cell κ ℓ T}
    (settled : (memory.cells other).state.Settled .ready)
    (stored : (memory.cells place).state.Settled .ready → cell.state.Settled .ready) :
    ((memory.setCell place cell).cells other).state.Settled .ready := by
  simp only [setCell, Function.update_apply]
  split
  · next same => exact stored (same ▸ settled)
  · exact settled

variable [DecidableEq ℓ]

theorem Step.grows (taken : Step memory viewer event memory' viewer') : memory.Grows memory' := by
  cases taken with
  | called taken => exact Memory.grows_setCell taken.effect.grows taken.slot
  | unwound unwinds =>
      obtain ⟨state, slot⟩ := Unwinds.state unwinds
      exact Memory.grows_setCell (by rw [state]) (by rw [slot]; exact id)
  | wrote | read | synchronized | began | returned =>
      exact ⟨fun _ => List.prefix_rfl, fun _ => id⟩

theorem Step.rises (taken : Step memory viewer event memory' viewer') :
    viewer.view ≤ viewer'.view ∧ viewer'.view.Includes event.writes := by
  cases taken with
  | wrote =>
      refine ⟨View.le_raise, fun write member => ?_⟩
      cases List.mem_singleton.mp member
      exact View.le_raise_self
  | read => exact ⟨View.le_raise, nofun⟩
  | synchronized rises => exact ⟨rises, nofun⟩
  | called taken => exact ⟨taken.rises, taken.writes ▸ nofun⟩
  | began | returned | unwound => exact ⟨le_refl _, nofun⟩

theorem Step.settled (taken : Step memory viewer event memory' viewer') {place : κ}
    (settled : (memory.cells place).state.Settled .ready) :
    (memory'.cells place).state.Settled .ready := by
  cases taken with
  | called taken => exact Memory.settled_setCell settled taken.effect.settled
  | unwound unwinds =>
      exact Memory.settled_setCell settled fun before => (Unwinds.state unwinds).1 ▸ before
  | wrote | read | synchronized | began | returned => exact settled

theorem Step.nested (taken : Step memory viewer event memory' viewer') (nested : viewer.Nested) :
    viewer'.Nested := by
  cases taken with
  | @began _ frames _ _ inside =>
      intro frame member
      match frames, inside with
      | (_, .filling .initializing) :: rest, _ =>
          rcases List.mem_cons.mp member with rfl | member
          · rfl
          · exact nested frame member
  | returned | unwound => exact fun frame member => nested frame (List.mem_of_mem_tail member)
  | wrote | read | synchronized | called => exact nested

theorem CallStep.fits {place : κ} {cell' : Cell κ ℓ T} {view view' : View (Location κ ℓ)}
    {own own' : Thread T}
    (taken : CallStep place (memory.cells place) view own event cell' view' own')
    (fits : memory.Fits view place own) : (memory.setCell place cell').Fits view' place own' := by
  have grows := Memory.grows_setCell taken.effect.grows taken.slot
  have acquires : ∀ {answer}, (memory.cells place).IsPublished place view answer view' →
      answer = true → (memory.setCell place cell').Announced place view' := by
    rintro _ answers rfl
    exact Memory.Announced.mono answers.acquired grows (le_refl _)
  cases taken with
  | @observed answer _ answers =>
      cases answer with
      | true => exact fun _ => acquires answers rfl
      | false => exact False.elim
  | probed answers | landed answers => exact acquires answers rfl
  | missed => exact False.elim
  | read => exact fun _ => fits.mono grows (le_refl _)
  | copied => exact Memory.Announced.mono fits grows (le_refl _)
  | claimed | taken | waiting | vacant | initReturned | cloned => trivial
  | stored =>
      change ((memory.setCell place _).cells place).slot ≠ none
      rw [Memory.setCell_cells_self]
      exact Option.some_ne_none _
  | published publishes =>
      change ((memory.setCell place _).cells place).state.Acquired _ _ _
      rw [Memory.setCell_cells_self]
      exact History.acquired_store (Cell.publish_stores publishes).2

theorem Step.fits (taken : Step memory viewer event memory' viewer')
    (fits : viewer.Fits memory) : viewer'.Fits memory' := by
  have grows := taken.grows
  have keep : ∀ frame ∈ viewer.frames, memory'.Fits viewer'.view frame.1 frame.2 :=
    fun frame member => (fits frame member).mono grows taken.rises.1
  cases taken with
  | wrote | read | synchronized => exact keep
  | @began _ _ _ call =>
      intro frame member
      rcases List.mem_cons.mp member with rfl | member
      · cases call <;> trivial
      · exact keep frame member
  | called taken =>
      intro frame member
      rcases List.mem_cons.mp member with rfl | member
      · exact taken.fits (fits _ List.mem_cons_self)
      · exact keep frame (List.mem_cons_of_mem _ member)
  | returned | unwound => exact fun frame member => keep frame (List.mem_cons_of_mem _ member)

/-- How many of the calls hold the claim of a cell. -/
def held (place : κ) (frames : List (κ × Thread T)) : ℕ :=
  frames.countP fun frame => decide (frame.1 = place ∧ frame.2.Holds)

/-- What a step does to one of the cells, and to the claims its thread holds. -/
inductive Shift (place : κ) (memory : Memory κ ℓ T) (viewer : Viewer κ ℓ T)
    (event : Event κ ℓ T) (memory' : Memory κ ℓ T) (viewer' : Viewer κ ℓ T) : Prop where
  | keeps : (memory'.cells place).state = (memory.cells place).state →
      held place viewer'.frames ≤ held place viewer.frames → ¬event.Publishes place →
      Shift place memory viewer event memory' viewer'
  | claims : (memory.cells place).state.newest.value = .empty →
      (memory'.cells place).state.newest.value = .initializing →
      held place viewer'.frames = held place viewer.frames + 1 → ¬event.Publishes place →
      Shift place memory viewer event memory' viewer'
  | publishes : (memory.cells place).state.store (.flag place) .release viewer.view .ready =
        ((memory'.cells place).state, viewer'.view) →
      held place viewer'.frames + 1 = held place viewer.frames →
      (memory'.cells place).slot ≠ none → event = .published place →
      Shift place memory viewer event memory' viewer'

theorem held_cons_eq (place : κ) (own : Thread T) (frames : List (κ × Thread T)) :
    held place ((place, own) :: frames) = held place frames + if own.Holds then 1 else 0 := by
  simp [held, List.countP_cons]

theorem held_cons_ne {place other : κ} (elsewhere : other ≠ place) (own : Thread T)
    (frames : List (κ × Thread T)) : held place ((other, own) :: frames) = held place frames := by
  simp [held, elsewhere]

theorem held_tail_le (place : κ) (frame : κ × Thread T) (frames : List (κ × Thread T)) :
    held place frames ≤ held place (frame :: frames) :=
  List.Sublist.countP_le (List.sublist_cons_self _ _)

theorem Step.shift (taken : Step memory viewer event memory' viewer') (fits : viewer.Fits memory)
    (place : κ) : Shift place memory viewer event memory' viewer' := by
  cases taken with
  | wrote | read | synchronized => exact .keeps rfl (le_refl _) id
  | @began _ _ other call =>
      refine .keeps rfl ?_ id
      by_cases same : other = place
      · subst same
        cases call <;> simp [held_cons_eq, Call.entered, Thread.Holds, Filling.Holds]
      · rw [held_cons_ne same]
  | returned => exact .keeps rfl (held_tail_le _ _ _) id
  | @unwound _ _ other _ _ unwinds =>
      refine .keeps ?_ (held_tail_le _ _ _) id
      by_cases same : place = other
      · subst same
        rw [Memory.setCell_cells_self]
        exact (Unwinds.state unwinds).1
      · rw [Memory.setCell_cells_ne same]
  | @called view frames other own _ cell' view' own' taken =>
      by_cases same : place = other
      · subst same
        cases taken.effect with
        | keeps state holds unpublished =>
            refine .keeps ?_ ?_ unpublished
            · rw [Memory.setCell_cells_self, state]
            · simp only [held_cons_eq, holds, le_refl]
        | claims empty stored free holds unpublished =>
            refine .claims empty ?_ ?_ unpublished
            · rw [Memory.setCell_cells_self, History.newest_store stored]
            · simp only [held_cons_eq, if_neg free, if_pos holds, add_zero]
        | publishes stored source target published =>
            subst source target
            refine .publishes ?_ ?_ ?_ published
            · rw [Memory.setCell_cells_self]
              exact stored
            · simp [held_cons_eq, Thread.Holds, Filling.Holds]
            · rw [Memory.setCell_cells_self]
              exact taken.slot (fits _ List.mem_cons_self)
      · refine .keeps ?_ ?_ ?_
        · rw [Memory.setCell_cells_ne same]
        · rw [held_cons_ne (Ne.symm same), held_cons_ne (Ne.symm same)]
        · exact taken.elsewhere (Ne.symm same)

/-- The thread has seen the cell published: it acquired the ready flag, and no
`get` of the cell is about to come back empty. -/
def Viewer.Told (memory : Memory κ ℓ T) (viewer : Viewer κ ℓ T) (place : κ) : Prop :=
  memory.Announced place viewer.view ∧ (place, .answering (.got none)) ∉ viewer.frames

theorem Step.returning {place : κ} {answer : Answer T}
    (taken : Step memory viewer (.returned place answer) memory' viewer') :
    memory' = memory ∧ viewer'.view = viewer.view ∧
      ∃ own, answer? own = some answer ∧ viewer.frames = (place, own) :: viewer'.frames := by
  generalize returns : Event.returned place answer = event at taken
  cases taken with
  | called taken => cases taken <;> cases returns
  | wrote | read | synchronized | began | unwound => cases returns
  | returned answers =>
      cases returns
      exact ⟨rfl, rfl, _, answers, rfl⟩

theorem Step.tells {place : κ}
    (taken : Step memory viewer (.returned place (.published true)) memory' viewer')
    (fits : viewer.Fits memory) (nested : viewer.Nested) : viewer'.Told memory' place := by
  obtain ⟨rfl, view, own, answers, frames⟩ := taken.returning
  rw [Viewer.Told, view]
  rw [Viewer.Nested, frames] at nested
  rw [Viewer.Fits, frames] at fits
  have announced := (fits _ List.mem_cons_self).announced answers trivial
  exact ⟨announced, fun member => by cases nested _ member⟩

theorem Step.told {place : κ} (taken : Step memory viewer event memory' viewer')
    (settled : (memory.cells place).state.Settled .ready)
    (written : (memory.cells place).slot ≠ none) (told : viewer.Told memory place) :
    viewer'.Told memory' place := by
  obtain ⟨announced, served⟩ := told
  refine ⟨announced.mono taken.grows taken.rises.1, ?_⟩
  cases taken with
  | wrote | read | synchronized => exact served
  | @began _ _ _ call =>
      refine fun member => (List.mem_cons.mp member).elim (fun same => ?_) served
      cases call <;> cases same
  | called taken =>
      refine fun member => (List.mem_cons.mp member).elim (fun same => ?_)
        fun member => served (.tail _ member)
      obtain ⟨rfl, rfl⟩ := Prod.mk.inj same
      rcases taken.empty_handed with ⟨view', answers⟩ | vacant
      · cases answers.of_acquired settled announced
      · exact written vacant
  | returned | unwound => exact fun member => served (.tail _ member)

end Threads

/-!
## Runs
-/

theorem unpublished_append {ι : Type} {events : List (ι × Event κ ℓ T)} {place : κ}
    {entry : ι × Event κ ℓ T}
    (before : ∀ other ∈ events, ¬other.2.Publishes place) (now : ¬entry.2.Publishes place) :
    ∀ other ∈ events ++ [entry], ¬other.2.Publishes place :=
  List.forall_mem_append.mpr ⟨before, List.forall_mem_singleton.mpr now⟩

section Runs

variable {ι : Type} [DecidableEq ι] [DecidableEq κ]
  {events : List (ι × Event κ ℓ T)} {state next : Memory κ ℓ T × (ι → Viewer κ ℓ T)}

/-- Where a cell stands in a run: unclaimed, or claimed by one call at most, or
published by one store, whose message carries what its thread wrote before. -/
inductive Stage (place : κ) (events : List (ι × Event κ ℓ T))
    (state : Memory κ ℓ T × (ι → Viewer κ ℓ T)) : Prop where
  | empty : (state.1.cells place).state.newest.value = .empty →
      (∀ thread, held place (state.2 thread).frames = 0) →
      (∀ entry ∈ events, ¬entry.2.Publishes place) → Stage place events state
  | claimed {holder} : (state.1.cells place).state.newest.value = .initializing →
      held place (state.2 holder).frames ≤ 1 →
      (∀ thread, thread ≠ holder → held place (state.2 thread).frames = 0) →
      (∀ entry ∈ events, ¬entry.2.Publishes place) → Stage place events state
  | ready {publisher earlier later} : (state.1.cells place).state.newest.value = .ready →
      (∀ thread, held place (state.2 thread).frames = 0) → (state.1.cells place).slot ≠ none →
      events = earlier ++ (publisher, .published place) :: later →
      (∀ entry ∈ earlier ++ later, ¬entry.2.Publishes place) →
      (∀ message ∈ (state.1.cells place).state.messages, message.value = .ready →
        message.carried.Includes (writesBy Event.writes publisher earlier)) →
      Stage place events state

/-- A view past the ready flag finds the cell published, and includes what the
publisher wrote first. -/
theorem Stage.announced {place : κ} (stage : Stage place events state)
    (settled : (state.1.cells place).state.Settled .ready) {view : View (Location κ ℓ)}
    (announced : state.1.Announced place view) :
    (state.1.cells place).slot ≠ none ∧ ∃ publisher earlier later,
      events = earlier ++ (publisher, .published place) :: later ∧
      (∀ entry ∈ earlier ++ later, ¬entry.2.Publishes place) ∧
      view.Includes (writesBy Event.writes publisher earlier) := by
  obtain ⟨time, message, found, ready, -, carried⟩ := announced
  have member := List.mem_of_getElem? found
  have newest := settled.newest member ready
  cases stage with
  | empty phase | claimed phase => cases phase.symm.trans newest
  | @ready publisher earlier later _ _ written split unique carries =>
      exact ⟨written, publisher, earlier, later, split, unique,
        (carries message member ready).mono carried⟩

theorem Stage.keep {place : κ} {entry : ι × Event κ ℓ T} (stage : Stage place events state)
    (same : (next.1.cells place).state = (state.1.cells place).state)
    (slot : (state.1.cells place).slot ≠ none → (next.1.cells place).slot ≠ none)
    (fewer : ∀ thread, held place (next.2 thread).frames ≤ held place (state.2 thread).frames)
    (unpublished : ¬entry.2.Publishes place) : Stage place (events ++ [entry]) next := by
  have free : ∀ {thread}, held place (state.2 thread).frames = 0 →
      held place (next.2 thread).frames = 0 := fun none => Nat.le_zero.mp (none ▸ fewer _)
  cases stage with
  | empty newest nobody before =>
      exact .empty (same ▸ newest) (fun thread => free (nobody thread))
        (unpublished_append before unpublished)
  | @claimed holder newest alone nobody before =>
      exact .claimed (same ▸ newest) (le_trans (fewer holder) alone)
        (fun thread other => free (nobody thread other)) (unpublished_append before unpublished)
  | @ready publisher earlier later newest nobody written split unique carries =>
      have longer : events ++ [entry] =
          earlier ++ (publisher, .published place) :: (later ++ [entry]) := by
        rw [split, List.append_assoc, List.cons_append]
      refine .ready (same ▸ newest) (fun thread => free (nobody thread)) (slot written) longer ?_
        (same ▸ carries)
      rw [← List.append_assoc]
      exact unpublished_append unique unpublished

theorem Stage.claim {place : κ} {entry : ι × Event κ ℓ T} (stage : Stage place events state)
    (empty : (state.1.cells place).state.newest.value = .empty)
    (claimed : (next.1.cells place).state.newest.value = .initializing)
    (others : ∀ thread, thread ≠ entry.1 → next.2 thread = state.2 thread)
    (more : held place (next.2 entry.1).frames = held place (state.2 entry.1).frames + 1)
    (unpublished : ¬entry.2.Publishes place) : Stage place (events ++ [entry]) next := by
  cases stage with
  | empty _ nobody before =>
      refine .claimed claimed (by rw [more, nobody]) (fun thread other => ?_)
        (unpublished_append before unpublished)
      rw [others thread other, nobody]
  | claimed newest | ready newest => cases empty.symm.trans newest

variable [DecidableEq ℓ]

theorem Stage.publish {place : κ} {publisher : ι} (stage : Stage place events state)
    (settled : (state.1.cells place).state.Settled .ready)
    (includes : (state.2 publisher).view.Includes (writesBy Event.writes publisher events))
    (stored : (state.1.cells place).state.store (.flag place) .release (state.2 publisher).view
      .ready = ((next.1.cells place).state, (next.2 publisher).view))
    (written : (next.1.cells place).slot ≠ none)
    (others : ∀ thread, thread ≠ publisher → next.2 thread = state.2 thread)
    (fewer : held place (next.2 publisher).frames + 1 = held place (state.2 publisher).frames) :
    Stage place (events ++ [(publisher, .published place)]) next := by
  cases stage with
  | empty _ nobody | ready _ nobody =>
      rw [nobody] at fewer
      cases fewer
  | @claimed holder newest alone nobody before =>
      have own : publisher = holder := by
        by_contra other
        rw [nobody publisher other] at fewer
        cases fewer
      subst own
      refine .ready (History.newest_store stored) (fun thread => ?_) written rfl
        ((List.append_nil events).symm ▸ before) fun message member ready => ?_
      · by_cases other : thread = publisher
        · rw [other]
          omega
        · rw [others thread other, nobody thread other]
      · rcases History.mem_store rfl stored member with old | carried
        · cases newest.symm.trans (settled.newest old ready)
        · exact includes.mono carried

theorem Stage.step {place : κ} {entry : ι × Event κ ℓ T} (stage : Stage place events state)
    (settled : (state.1.cells place).state.Settled .ready)
    (fits : ∀ thread, (state.2 thread).Fits state.1)
    (includes : ∀ thread, (state.2 thread).view.Includes (writesBy Event.writes thread events))
    (taken : Interleaves Step state entry next) : Stage place (events ++ [entry]) next := by
  cases taken with
  | @act memory pool stepping event memory' viewer' taken =>
  have own : Function.update pool stepping viewer' stepping = viewer' := Function.update_self ..
  have others : ∀ thread, thread ≠ stepping →
      Function.update pool stepping viewer' thread = pool thread :=
    fun _ other => Function.update_of_ne other ..
  cases taken.shift (fits stepping) place with
  | keeps same fewer unpublished =>
      refine stage.keep same (taken.grows.slots place) (fun thread => ?_) unpublished
      dsimp only
      by_cases other : thread = stepping
      · rw [other, own]
        exact fewer
      · rw [others thread other]
  | claims empty claimed more unpublished =>
      refine stage.claim empty claimed others ?_ unpublished
      dsimp only
      rw [own, more]
  | publishes stored fewer written published =>
      subst published
      refine stage.publish settled (includes stepping) ?_ written others ?_
      · dsimp only
        rw [own, stored]
      · dsimp only
        rw [own, fewer]

/-- What holds after every run. -/
structure Reached (events : List (ι × Event κ ℓ T))
    (state : Memory κ ℓ T × (ι → Viewer κ ℓ T)) : Prop where
  includes : ∀ thread, (state.2 thread).view.Includes (writesBy Event.writes thread events)
  settled : ∀ place, (state.1.cells place).state.Settled .ready
  fits : ∀ thread, (state.2 thread).Fits state.1
  nested : ∀ thread, (state.2 thread).Nested
  stages : ∀ place, Stage place events state
  told : ∀ thread place, (thread, .returned place (.published true)) ∈ events →
    (state.2 thread).Told state.1 place

theorem Reached.step (reached : Reached events state) {entry : ι × Event κ ℓ T}
    (taken : Interleaves Step state entry next)
    (includes : ∀ thread,
      (next.2 thread).view.Includes (writesBy Event.writes thread (events ++ [entry]))) :
    Reached (events ++ [entry]) next := by
  obtain ⟨included, settled, fits, nested, stages, told⟩ := reached
  refine ⟨includes, ?_,
    taken.forall (fun taken fits => taken.fits fits)
      (fun taken _ fits frame member => (fits frame member).mono taken.grows (le_refl _)) fits,
    @Interleaves.forall _ _ _ _ _ _ (fun _ viewer => viewer.Nested) _ _ _ taken
      (fun taken nested => taken.nested nested) (fun _ _ nested => nested) nested,
    fun place => (stages place).step (settled place) fits included taken,
    fun thread place member => ?_⟩
  · cases taken with
    | act taken => exact fun place => taken.settled (settled place)
  cases taken with
  | @act memory pool stepping event memory' viewer' taken =>
  dsimp only
  by_cases own : thread = stepping
  · subst own
    rw [Function.update_self]
    rcases List.mem_append.mp member with member | member
    · have seen := told thread place member
      have written := ((stages place).announced (settled place) seen.1).1
      exact taken.told (settled place) written seen
    · cases List.mem_singleton.mp member
      exact taken.tells (fits thread) (nested thread)
  · rw [Function.update_of_ne own]
    rcases List.mem_append.mp member with member | member
    · obtain ⟨announced, served⟩ := told thread place member
      exact ⟨announced.mono taken.grows (le_refl _), served⟩
    · cases List.mem_singleton.mp member
      exact absurd rfl own

theorem Runs.includes (run : Runs events state) (thread : ι) :
    (state.2 thread).view.Includes (writesBy Event.writes thread events) :=
  @Run.view_includes _ _ _ _ _ _ _ _ Viewer.view _ _ _ run (fun taken => taken.rises) thread

theorem Runs.reached (run : Runs events state) : Reached events state := by
  induction run with
  | start =>
      exact ⟨fun _ => nofun, fun _ => History.settled_initial, fun _ => nofun, fun _ => nofun,
        fun _ => .empty rfl (fun _ => rfl) nofun, fun _ _ => nofun⟩
  | snoc run taken reached => exact reached.step taken (includes (.snoc run taken))

/-- Whenever a call answers that a value was published, one store of the ready
flag came before, and the view of the thread includes all that its publisher
wrote before that store. A `get` after an `is_published` of the same thread that
answered true comes back with the value. -/
theorem publication_carries_writes (run : Runs events state) {reader : ι} {place : κ}
    {answer : Answer T}
    (returns : Interleaves Step state (reader, .returned place answer) next) :
    (Announces answer → ∃ publisher earlier later,
      events = earlier ++ (publisher, .published place) :: later ∧
      (∀ entry ∈ earlier ++ later, ¬entry.2.Publishes place) ∧
      (next.2 reader).view.Includes (writesBy Event.writes publisher earlier)) ∧
    ((reader, .returned place (.published true)) ∈ events →
      ∀ result, answer = .got result → result.isSome = true) := by
  obtain ⟨-, settled, fits, -, stages, told⟩ := run.reached
  cases returns with
  | @act memory pool _ _ memory' viewer' taken =>
  obtain ⟨rfl, view, own, answers, frames⟩ := taken.returning
  have innermost : (place, own) ∈ (pool reader).frames := frames ▸ List.mem_cons_self
  refine ⟨fun announces => ?_, fun seen result same => ?_⟩
  · have announced := (fits reader _ innermost).announced answers announces
    obtain ⟨-, publisher, earlier, later, split, unique, includes⟩ :=
      (stages place).announced (settled place) announced
    refine ⟨publisher, earlier, later, split, unique, ?_⟩
    dsimp only
    rwa [Function.update_self, view]
  · subst same
    cases result with
    | some => rfl
    | none =>
        cases own with
        | answering =>
            cases answers
            exact absurd innermost (told reader place seen).2
        | filling point => cases point <;> cases answers
        | idle | observing | probing | reading => cases answers

theorem Runs.start : Runs ([] : List (ι × Event κ ℓ T)) (.new, fun _ => .new) :=
  Run.start

theorem Runs.act {memory memory' : Memory κ ℓ T} {pool : ι → Viewer κ ℓ T}
    {viewer' : Viewer κ ℓ T} {event : Event κ ℓ T} (run : Runs events (memory, pool)) (thread : ι)
    (taken : Step memory (pool thread) event memory' viewer') :
    Runs (events ++ [(thread, event)]) (memory', Function.update pool thread viewer') :=
  .snoc run (.act taken)

end Runs

private theorem isPublished_at {κ ℓ T : Type} [DecidableEq κ] [DecidableEq ℓ] {place : κ}
    {cell : Cell κ ℓ T} {view : View (Location κ ℓ)} {message : Message (Location κ ℓ) Phase}
    (time : ℕ) (found : cell.state.messages[time]? = some message)
    (recent : view (.flag place) ≤ time) (ready : decide (message.value = .ready) = true) :
    cell.IsPublished place view true (view.receive (.flag place) .acquire time message) :=
  ready ▸ .loaded (.message found recent)

/-- One thread writes before its call and inside `init`, and the other gets the
value after it asked for it. -/
private def handover : List (Fin 2 × Event Unit Unit ℕ) :=
  [(0, .wrote () 1), (0, .began () .getOrInit), (0, .accessed ()), (0, .wrote () 2),
    (0, .initReturned () 7), (0, .accessed ()), (0, .accessed ()), (0, .published ()),
    (1, .began () .isPublished), (1, .accessed ()), (1, .returned () (.published true)),
    (1, .began () .get), (1, .accessed ()), (1, .accessed ())]

private theorem handover_runs : ∃ state next, Runs handover state ∧
    Interleaves Step state (1, .returned () (.got (some 7))) next := by
  refine ⟨_, _, Runs.start |>.act 0 (.wrote rfl List.not_mem_nil ?_) |>.act 0 (.began rfl)
    |>.act 0 (.called (.claimed rfl)) |>.act 0 (.wrote rfl ?_ ?_)
    |>.act 0 (.called .initReturned) |>.act 0 (.called .cloned) |>.act 0 (.called .stored)
    |>.act 0 (.called (.published rfl)) |>.act 1 (.began rfl)
    |>.act 1 (.called (.observed (isPublished_at 2 rfl ?_ rfl))) |>.act 1 (.returned rfl)
    |>.act 1 (.began rfl) |>.act 1 (.called (.probed (isPublished_at 2 rfl ?_ rfl)))
    |>.act 1 (.called .read), .act (.returned rfl)⟩
  all_goals decide +kernel

theorem publication_carries_writes_handover : ∃ state next, Runs handover state ∧
    Interleaves Step state (1, .returned () (.got (some 7))) next ∧
    (∃ publisher earlier later, handover = earlier ++ (publisher, .published ()) :: later ∧
      (next.2 1).view.Includes (writesBy Event.writes publisher earlier)) ∧
    ∀ result, Answer.got (some 7) = .got result → result.isSome = true := by
  obtain ⟨state, next, run, returns⟩ := handover_runs
  obtain ⟨carries, serves⟩ := publication_carries_writes run returns
  obtain ⟨publisher, earlier, later, split, -, includes⟩ := carries trivial
  exact ⟨state, next, run, returns, ⟨publisher, earlier, later, split, includes⟩,
    serves (by decide)⟩

end Proofhouse.Ordered
