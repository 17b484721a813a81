import Proofhouse.Library.ViewMemory
import Proofhouse.Sync

/-!
# Write-once cells under weak memory

The calls on write-once cells once more, with the ordering the source gives to
every access of a flag. Each thread has a view of its own, and its loads may be
stale. Only a claim that fails is assumed to see the newest flag. Between its calls
and inside `init` a thread writes and reads ordinary data, and it may call on any
cell.
-/

set_option autoImplicit false

namespace Proofhouse.Ordered

open Library OnceValue

inductive Location (κ ℓ : Type) where
  | flag (place : κ)
  | data (location : ℓ)
  deriving DecidableEq, Repr

/-- `state` is the flag with all it was ever set to. -/
structure Cell (κ ℓ T : Type) where
  state : History (Location κ ℓ) Phase
  slot : Option T
  poisoned : Bool

section Operations

variable {κ ℓ T : Type}

def Cell.new : Cell κ ℓ T :=
  ⟨.initial .empty, none, false⟩

/-- The cell as it stands, without its past. -/
def Cell.current (cell : Cell κ ℓ T) : OnceValue T :=
  ⟨cell.state.newest.value, cell.slot, cell.poisoned⟩

def Cell.locked (cell : Cell κ ℓ T) : Option T :=
  cell.current.locked

def Cell.fill (cell : Cell κ ℓ T) (value : T) : Cell κ ℓ T :=
  { cell with slot := some value }

def Cell.poison (cell : Cell κ ℓ T) : Cell κ ℓ T :=
  { cell with poisoned := true }

variable [DecidableEq κ] [DecidableEq ℓ]

/-- The answers `is_published` may give: its load acquires, and it may be stale. -/
inductive Cell.IsPublished (place : κ) (cell : Cell κ ℓ T) (view : View (Location κ ℓ)) :
    Bool → View (Location κ ℓ) → Prop where
  | loaded {phase view'} : cell.state.Loads (.flag place) .acquire view phase view' →
      IsPublished place cell view (decide (phase = .ready)) view'

/-- The exchange from empty to claimed. It acquires on success and is relaxed on
failure. -/
def Cell.claim (place : κ) (cell : Cell κ ℓ T) (view : View (Location κ ℓ)) :
    Bool × Cell κ ℓ T × View (Location κ ℓ) :=
  match cell.state.compareExchange (.flag place) .acquire .relaxed view .empty .initializing with
  | (taken, state, view') => (taken, { cell with state := state }, view')

/-- The store of the ready flag. It releases. -/
def Cell.publish (place : κ) (cell : Cell κ ℓ T) (view : View (Location κ ℓ)) :
    Cell κ ℓ T × View (Location κ ℓ) :=
  match cell.state.store (.flag place) .release view .ready with
  | (state, view') => ({ cell with state := state }, view')

end Operations

/-- What a step does. `published` is the store of the ready flag. -/
inductive Event (κ ℓ T : Type) where
  | wrote (location : ℓ) (time : ℕ)
  | read (location : ℓ) (time : ℕ)
  | synchronized
  | began (place : κ) (call : Call)
  | accessed (place : κ)
  | published (place : κ)
  | initReturned (place : κ) (value : T)
  | returned (place : κ) (answer : Answer T)
  | unwound (place : κ)
  deriving DecidableEq, Repr

/-- The atomic steps of a call on one cell. The lock on the slot hands no view
over. -/
inductive CallStep {κ ℓ T : Type} [DecidableEq κ] [DecidableEq ℓ] (place : κ) :
    Cell κ ℓ T → View (Location κ ℓ) → Thread T → Event κ ℓ T →
      Cell κ ℓ T → View (Location κ ℓ) → Thread T → Prop where
  | observed {cell view answer view'} : cell.IsPublished place view answer view' →
      CallStep place cell view .observing (.accessed place)
        cell view' (.answering (.published answer))
  | probed {cell view view'} : cell.IsPublished place view true view' →
      CallStep place cell view .probing (.accessed place) cell view' .reading
  | missed {cell view view'} : cell.IsPublished place view false view' →
      CallStep place cell view .probing (.accessed place) cell view' (.answering (.got none))
  | read {cell view} :
      CallStep place cell view .reading (.accessed place) cell view (.answering (.got cell.locked))
  | claimed {cell view cell' view'} : cell.claim place view = (true, cell', view') →
      CallStep place cell view (.filling .claiming) (.accessed place)
        cell' view' (.filling .initializing)
  | taken {cell view cell' view'} : cell.claim place view = (false, cell', view') →
      CallStep place cell view (.filling .claiming) (.accessed place)
        cell' view' (.filling .loading)
  | landed {cell view view'} : cell.IsPublished place view true view' →
      CallStep place cell view (.filling .loading) (.accessed place) cell view' (.filling .copying)
  | waiting {cell view view'} : cell.IsPublished place view false view' →
      CallStep place cell view (.filling .loading) (.accessed place) cell view' (.filling .claiming)
  | copied {cell view value} : cell.locked = some value →
      CallStep place cell view (.filling .copying) (.accessed place)
        cell view (.filling (.returned value))
  | vacant {cell view} : cell.locked = none →
      CallStep place cell view (.filling .copying) (.accessed place) cell view (.filling .claiming)
  | initReturned {cell view value} :
      CallStep place cell view (.filling .initializing) (.initReturned place value)
        cell view (.filling (.duplicating value))
  | cloned {cell view value} :
      CallStep place cell view (.filling (.duplicating value)) (.accessed place)
        cell view (.filling (.storing value))
  | stored {cell view value} :
      CallStep place cell view (.filling (.storing value)) (.accessed place)
        (cell.fill value) view (.filling (.publishing value))
  | published {cell view value cell' view'} : cell.publish place view = (cell', view') →
      CallStep place cell view (.filling (.publishing value)) (.published place)
        cell' view' (.filling (.returned value))

/-- The calls that a panic may end: in `init`, in the clone of what it returned,
or in the clone of the slot under the lock. -/
inductive Unwinds {κ ℓ T : Type} (cell : Cell κ ℓ T) : Thread T → Cell κ ℓ T → Prop where
  | init : Unwinds cell (.filling .initializing) cell
  | clone {value} : Unwinds cell (.filling (.duplicating value)) cell
  | reader {value} : cell.locked = some value → Unwinds cell .reading cell.poison
  | copier {value} : cell.locked = some value → Unwinds cell (.filling .copying) cell.poison

/-- The cells, and for every location of ordinary data the times written at. -/
structure Memory (κ ℓ T : Type) where
  cells : κ → Cell κ ℓ T
  written : ℓ → List ℕ

/-- A thread: its view, and the calls it is in, the innermost first. -/
structure Viewer (κ ℓ T : Type) where
  view : View (Location κ ℓ)
  frames : List (κ × Thread T)

section Steps

variable {κ ℓ T : Type}

def Memory.new : Memory κ ℓ T :=
  ⟨fun _ => .new, fun _ => []⟩

def Viewer.new : Viewer κ ℓ T :=
  ⟨⊥, []⟩

/-- The thread runs code of its own: it is in no call, or inside `init`. -/
def atCaller : List (κ × Thread T) → Bool
  | [] | (_, .filling .initializing) :: _ => true
  | _ :: _ => false

def answer? : Thread T → Option (Answer T)
  | .answering answer => some answer
  | .filling (.returned value) => some (.filled value)
  | .filling _ | .idle | .observing | .probing | .reading => none

variable [DecidableEq κ] [DecidableEq ℓ]

def Memory.setCell (memory : Memory κ ℓ T) (place : κ) (cell : Cell κ ℓ T) : Memory κ ℓ T :=
  { memory with cells := Function.update memory.cells place cell }

def Memory.write (memory : Memory κ ℓ T) (location : ℓ) (time : ℕ) : Memory κ ℓ T :=
  { memory with
    written := Function.update memory.written location (time :: memory.written location) }

/-- The steps of one thread. An ordinary write takes any free time its thread has
not seen past, and whatever else synchronizes (a lock, a spawn, a join) can only
raise a view. -/
inductive Step : Memory κ ℓ T → Viewer κ ℓ T → Event κ ℓ T → Memory κ ℓ T → Viewer κ ℓ T → Prop
    where
  | wrote {memory view frames location time} : atCaller frames = true →
      time ∉ memory.written location → view (.data location) < time →
      Step memory ⟨view, frames⟩ (.wrote location time)
        (memory.write location time) ⟨view.raise (.data location) time, frames⟩
  | read {memory view frames location time} : atCaller frames = true →
      time = 0 ∨ time ∈ memory.written location → view (.data location) ≤ time →
      Step memory ⟨view, frames⟩ (.read location time)
        memory ⟨view.raise (.data location) time, frames⟩
  | synchronized {memory view frames view'} : view ≤ view' →
      Step memory ⟨view, frames⟩ .synchronized memory ⟨view', frames⟩
  | began {memory view frames place call} : atCaller frames = true →
      Step memory ⟨view, frames⟩ (.began place call)
        memory ⟨view, (place, call.entered) :: frames⟩
  | called {memory view frames place own event cell' view' own'} :
      CallStep place (memory.cells place) view own event cell' view' own' →
      Step memory ⟨view, (place, own) :: frames⟩ event
        (memory.setCell place cell') ⟨view', (place, own') :: frames⟩
  | returned {memory view frames place own answer} : answer? own = some answer →
      Step memory ⟨view, (place, own) :: frames⟩ (.returned place answer) memory ⟨view, frames⟩
  | unwound {memory view frames place own cell'} : Unwinds (memory.cells place) own cell' →
      Step memory ⟨view, (place, own) :: frames⟩ (.unwound place)
        (memory.setCell place cell') ⟨view, frames⟩

/-- Runs of any threads that share these cells and this data. -/
abbrev Runs {ι : Type} [DecidableEq ι] :
    List (ι × Event κ ℓ T) → Memory κ ℓ T × (ι → Viewer κ ℓ T) → Prop :=
  Run (Interleaves Step) (.new, fun _ => .new)

end Steps

end Proofhouse.Ordered
