import Proofhouse.Library.Refinement
import Proofhouse.SyncAgreement

/-!
# A write-once cell is an atomic register

What the callers of a cell are told of a run is what they could be told of a
register that takes a value once, with every call taking effect at one moment
between its beginning and its return.
-/

set_option autoImplicit false

namespace Proofhouse.OnceValue

open Library

section Register

variable {T : Type}

/-- The effect of a call, all at once, on a register that takes a value once. -/
inductive Effect : Option T → Call × Answer T → Option T → Prop where
  | observed {register} : Effect register (.isPublished, .published register.isSome) register
  | read {register} : Effect register (.get, .got register) register
  | found {value} : Effect (some value) (.getOrInit, .filled value) (some value)
  | wrote {value} : Effect none (.getOrInit, .filled value) (some value)

/-- Where a caller of the register stands: between calls, in a call without effect
so far, with the value of its initializer, or with its answer. -/
inductive Caller (T : Type) where
  | idle
  | pending (call : Call)
  | offering (value : T)
  | answered (answer : Answer T)

/-- What callers learn of a run. -/
inductive News (T : Type) where
  | began (call : Call)
  | initReturned (value : T)
  | unwound
  | returned (answer : Answer T)

inductive AtomicEvent (T : Type) where
  | told (news : News T)
  | took (effect : Call × Answer T)

/-- The steps of a caller. An initializer runs on an empty register, and its value
is written to an empty one. -/
inductive AtomicStep : Option T → Caller T → AtomicEvent T → Option T → Caller T → Prop where
  | began {register call} :
      AtomicStep register .idle (.told (.began call)) register (.pending call)
  | took {register call answer} : Effect register (call, answer) register →
      AtomicStep register (.pending call) (.took (call, answer)) register (.answered answer)
  | initReturned {value} :
      AtomicStep none (.pending .getOrInit) (.told (.initReturned value)) none (.offering value)
  | wrote {value} :
      AtomicStep none (.offering value) (.took (.getOrInit, .filled value)) (some value)
        (.answered (.filled value))
  | unwound {register call} :
      AtomicStep register (.pending call) (.told .unwound) register .idle
  | offerUnwound {register value} :
      AtomicStep register (.offering value) (.told .unwound) register .idle
  | returned {register answer} :
      AtomicStep register (.answered answer) (.told (.returned answer)) register .idle

abbrev AtomicRuns {ι : Type} [DecidableEq ι] :
    List (ι × AtomicEvent T) → Option T × (ι → Caller T) → Prop :=
  Run (Interleaves AtomicStep) (none, fun _ => .idle)

def AtomicEvent.news? : AtomicEvent T → Option (News T)
  | .told news => some news
  | .took _ => none

def AtomicEvent.effect? : AtomicEvent T → Option (Call × Answer T)
  | .told _ => none
  | .took effect => some effect

def atomicNews {ι : Type} (atomic : List (ι × AtomicEvent T)) : List (ι × News T) :=
  atomic.filterMap fun entry => entry.2.news?.map (entry.1, ·)

def effects {ι : Type} (atomic : List (ι × AtomicEvent T)) : List (Call × Answer T) :=
  atomic.filterMap fun entry => entry.2.effect?

/-- The effects of an atomic run, in order, are a history of the register in which
one call comes after the other. -/
theorem AtomicRuns.sequential {ι : Type} [DecidableEq ι] {atomic : List (ι × AtomicEvent T)}
    {state : Option T × (ι → Caller T)} (run : AtomicRuns atomic state) :
    Run Effect none (effects atomic) state.1 := by
  refine @Run.invariant _ _ _ (fun events state => Run Effect none (effects events) state.1)
    _ _ _ run .start fun sequential taken => ?_
  rw [effects, List.filterMap_append]
  cases taken with
  | @act register pool thread event register' own' taken =>
      generalize pool thread = own at taken
      cases taken with
      | took effect => exact .snoc sequential effect
      | wrote => exact .snoc sequential .wrote
      | began | initReturned | unwound | offerUnwound | returned =>
          exact (List.append_nil _).symm ▸ sequential

end Register

/-!
## The cell seen as the register
-/

section View

variable {T : Type}

/-- The value a cell has published. -/
def register (cell : OnceValue T) : Option T :=
  if cell.state = .ready then cell.slot else none

def Thread.caller : Thread T → Caller T
  | .idle => .idle
  | .observing => .pending .isPublished
  | .probing | .reading => .pending .get
  | .filling .claiming | .filling .loading | .filling .copying | .filling .initializing =>
      .pending .getOrInit
  | .filling (.duplicating value) | .filling (.storing value) | .filling (.publishing value) =>
      .offering value
  | .filling (.returned value) => .answered (.filled value)
  | .answering answer => .answered answer

def Event.news? : Event T → Option (News T)
  | .began call => some (.began call)
  | .initReturned value => some (.initReturned value)
  | .initUnwound | .cloneUnwound | .readerUnwound => some .unwound
  | .returned answer => some (.returned answer)
  | .accessed | .advanced _ => none

/-- What the callers learn of a run, each event with the thread it comes to. -/
def newsOf {ι : Type} (events : List (ι × Event T)) : List (ι × News T) :=
  events.filterMap fun entry => entry.2.news?.map (entry.1, ·)

variable {cell cell' : OnceValue T}

theorem register_of_ready (ready : cell.state = .ready) : cell.register = cell.slot :=
  if_pos ready

theorem register_of_not_ready (unready : cell.state ≠ .ready) : cell.register = none :=
  if_neg unready

theorem isSome_register (landed : cell.state = .ready → cell.slot ≠ none) :
    cell.register.isSome = cell.isPublished := by
  by_cases ready : cell.state = .ready
  · rw [register_of_ready ready, isPublished_iff.mpr ready]
    exact Option.isSome_iff_ne_none.mpr (landed ready)
  · rw [register_of_not_ready ready, isPublished_eq_false_iff.mpr ready]
    rfl

/-- What a step of `get_or_init` is to its caller. A claimed cell is one whose
value is still to come, so the register stays empty up to the store of the ready
flag. -/
private theorem Advances.seen {point point' : Filling T}
    (advances : Advances cell point cell' point') {outcomes : List T}
    (claimed : point.Holds → cell.state = .initializing)
    (knows : (Thread.filling point).Knows outcomes cell) :
    Seen AtomicStep AtomicEvent.news? cell.register (Thread.filling point).caller none
      cell'.register (Thread.filling point').caller := by
  cases advances with
  | claimed empty =>
      have unready : Phase.initializing ≠ .ready := by decide
      rw [register_of_not_ready (by rw [empty]; decide), register_of_not_ready unready]
      exact .stutter
  | taken | waiting | landed | missed | cloned => exact .stutter
  | copied held =>
      have stored : cell.register = some _ := (register_of_ready knows).trans held
      rw [stored]
      exact .step (.took .found) rfl
  | stored =>
      have unready : cell.state ≠ .ready := by rw [claimed trivial]; decide
      rw [register_of_not_ready unready,
        show (cell.fill _).register = none from register_of_not_ready unready]
      exact .stutter
  | @published value =>
      have unready : cell.state ≠ .ready := by rw [claimed trivial]; decide
      have written : cell.publish.register = some value := (register_of_ready rfl).trans knows.2
      rw [register_of_not_ready unready, written]
      exact .step .wrote rfl

theorem Step.seen {own own' : Thread T} {event : Event T} (taken : Step cell own event cell' own')
    {outcomes : List T} (claimed : own.Holds → cell.state = .initializing)
    (landed : cell.state = .ready → cell.slot ≠ none) (knows : own.Knows outcomes cell) :
    Seen AtomicStep AtomicEvent.news? cell.register own.caller event.news? cell'.register
      own'.caller := by
  cases taken with
  | @began call => cases call <;> exact .step .began rfl
  | observed =>
      rw [← isSome_register landed]
      exact .step (.took .observed) rfl
  | probed => exact .stutter
  | missed unpublished =>
      rw [register_of_not_ready (isPublished_eq_false_iff.mp unpublished)]
      exact .step (.took .read) rfl
  | read =>
      rw [locked_eq, ← register_of_ready knows]
      exact .step (.took .read) rfl
  | readUnwound | copyUnwound | initUnwound => exact .step .unwound rfl
  | advanced advances => exact (advances_of_advance advances).seen claimed knows
  | initReturned =>
      rw [register_of_not_ready (by rw [claimed trivial]; decide)]
      exact .step .initReturned rfl
  | cloneUnwound => exact .step .offerUnwound rfl
  | answered | filled => exact .step .returned rfl

end View

section Runs

variable {T ι : Type} [DecidableEq ι] {events : List (ι × Event T)}
  {state : OnceValue T × (ι → Thread T)}

theorem Runs.refine_register (run : Runs events state) :
    ∃ atomic : List (ι × AtomicEvent T),
      AtomicRuns atomic (state.1.register, Thread.caller ∘ state.2) ∧
      atomicNews atomic = newsOf events :=
  @Run.refine_pool _ _ _ _ _ _ _ _ _ _ AtomicStep _ _ register Thread.caller Event.news?
    AtomicEvent.news? _ run fun reached taken => by
      have agreed := Runs.agreed reached
      exact taken.seen (agreed.claimed _) agreed.landed (agreed.knows _)

/-- Whatever the interleaving, and whether initializers and clones return or
unwind, the callers learn what those of an atomic register do, and its effects
are a history in which one call comes after the other. -/
theorem runs_linearize (run : Runs events state) :
    ∃ atomic : List (ι × AtomicEvent T),
      AtomicRuns atomic (state.1.register, Thread.caller ∘ state.2) ∧
      atomicNews atomic = newsOf events ∧ Run Effect none (effects atomic) state.1.register := by
  obtain ⟨atomic, atomicRun, same⟩ := run.refine_register
  exact ⟨atomic, atomicRun, same, AtomicRuns.sequential atomicRun⟩

end Runs

/-- A thread fills the cell while another one polls it and then reads it. -/
private def polled (filler poller : Fin 2) : List (Fin 2 × Event Nat) :=
  [(filler, .began .getOrInit), (filler, .advanced .initializing), (poller, .began .get),
    (poller, .accessed), (poller, .returned (.got none)), (filler, .initReturned 7),
    (filler, .advanced (.storing 7)), (filler, .advanced (.publishing 7)),
    (filler, .advanced (.returned 7)), (poller, .began .get), (poller, .accessed),
    (poller, .accessed), (poller, .returned (.got (some 7)))]

private theorem polled_runs : ∃ state, Runs (polled 0 1) state := by
  have run := (@Runs.start Nat (Fin 2) _).act 0 (@Step.began _ _ .getOrInit)
    |>.act 0 (.advanced rfl) |>.act 1 (@Step.began _ _ .get) |>.act 1 (.missed rfl)
    |>.act 1 .answered |>.act 0 (@Step.initReturned _ _ 7) |>.act 0 (.advanced rfl)
    |>.act 0 (.advanced rfl) |>.act 0 (.advanced rfl) |>.act 1 (@Step.began _ _ .get)
    |>.act 1 (.probed rfl) |>.act 1 .read |>.act 1 .answered
  exact ⟨_, run⟩

theorem runs_linearize_polled : ∃ (atomic : List (Fin 2 × AtomicEvent Nat)) (state : _),
    AtomicRuns atomic state ∧ atomicNews atomic = newsOf (polled 0 1) ∧
      Run Effect none (effects atomic) state.1 := by
  obtain ⟨state, run⟩ := polled_runs
  obtain ⟨atomic, atomicRun, same, sequential⟩ := runs_linearize run
  exact ⟨atomic, _, atomicRun, same, sequential⟩

end Proofhouse.OnceValue
