import Proofhouse.Library.TransitionSystem

/-!
# Write-once cells

The cell any number of threads may reach for and one of them fills: a phase
flag, a slot behind a lock, and the calls on them as atomic steps.
-/

set_option autoImplicit false

namespace Proofhouse

/-- The phase of a cell: unclaimed, held by the thread working the value out, or
with the value in the slot. -/
inductive Phase where
  | empty
  | initializing
  | ready
  deriving DecidableEq, Repr

/-- `state` is the flag, `slot` what the lock guards and `poisoned` the flag a
panic under the lock raises. -/
structure OnceValue (T : Type) where
  state : Phase
  slot : Option T
  poisoned : Bool
  deriving DecidableEq, Repr

namespace OnceValue

variable {T : Type}

def new : OnceValue T :=
  ⟨.empty, none, false⟩

def isPublished (cell : OnceValue T) : Bool :=
  decide (cell.state = .ready)

/-- The exchange from empty to claimed, and whether this thread took the cell. -/
def claim (cell : OnceValue T) : Bool × OnceValue T :=
  match cell.state with
  | .empty => (true, { cell with state := .initializing })
  | .initializing | .ready => (false, cell)

/-- `Mutex::lock` on the slot. A poison flag still hands out what it guards. -/
def lock (cell : OnceValue T) : Except (Option T) (Option T) :=
  if cell.poisoned then .error cell.slot else .ok cell.slot

def locked (cell : OnceValue T) : Option T :=
  match cell.lock with
  | .ok slot => slot
  | .error slot => slot

def fill (cell : OnceValue T) (value : T) : OnceValue T :=
  { cell with slot := some value }

def publish (cell : OnceValue T) : OnceValue T :=
  { cell with state := .ready }

def poison (cell : OnceValue T) : OnceValue T :=
  { cell with poisoned := true }

/-- Where a call of `get_or_init` stands: before the exchange, before the load
and the copy of its inner `get`, inside `init`, before the clone, the write and
the store that follow it, or with its value. -/
inductive Filling (T : Type) where
  | claiming
  | loading
  | copying
  | initializing
  | duplicating (value : T)
  | storing (value : T)
  | publishing (value : T)
  | returned (value : T)
  deriving DecidableEq, Repr

/-- The next atomic step of `get_or_init`. Inside `init` and after its return
there is none. -/
def advance (cell : OnceValue T) : Filling T → Option (OnceValue T × Filling T)
  | .claiming =>
      match cell.claim with
      | (true, claimed) => some (claimed, .initializing)
      | (false, taken) => some (taken, .loading)
  | .loading => some (cell, if cell.isPublished then .copying else .claiming)
  | .copying =>
      match cell.locked with
      | some value => some (cell, .returned value)
      | none => some (cell, .claiming)
  | .initializing => none
  | .duplicating value => some (cell, .storing value)
  | .storing value => some (cell.fill value, .publishing value)
  | .publishing value => some (cell.publish, .returned value)
  | .returned _ => none

inductive Call where
  | isPublished
  | get
  | getOrInit
  deriving DecidableEq, Repr

inductive Answer (T : Type) where
  | published (answer : Bool)
  | got (answer : Option T)
  | filled (value : T)
  deriving DecidableEq, Repr

/-- Where a thread stands between and within its calls on one cell. -/
inductive Thread (T : Type) where
  | idle
  | observing
  | probing
  | reading
  | filling (point : Filling T)
  | answering (answer : Answer T)
  deriving DecidableEq, Repr

def Call.entered : Call → Thread T
  | .isPublished => .observing
  | .get => .probing
  | .getOrInit => .filling .claiming

inductive Event (T : Type) where
  | began (call : Call)
  | accessed
  | advanced (point : Filling T)
  | initReturned (value : T)
  | initUnwound
  | cloneUnwound
  | readerUnwound
  | returned (answer : Answer T)
  deriving DecidableEq, Repr

/-- The atomic steps of one thread. `init` is the caller's: it may return any
value or unwind, and so may the clone of what it returned. -/
inductive Step : OnceValue T → Thread T → Event T → OnceValue T → Thread T → Prop where
  | began {cell call} : Step cell .idle (.began call) cell call.entered
  | observed {cell} :
      Step cell .observing .accessed cell (.answering (.published cell.isPublished))
  | probed {cell} : cell.isPublished = true → Step cell .probing .accessed cell .reading
  | missed {cell} : cell.isPublished = false →
      Step cell .probing .accessed cell (.answering (.got none))
  | read {cell} : Step cell .reading .accessed cell (.answering (.got cell.locked))
  | readUnwound {cell value} : cell.locked = some value →
      Step cell .reading .readerUnwound cell.poison .idle
  | advanced {cell point cell' point'} : cell.advance point = some (cell', point') →
      Step cell (.filling point) (.advanced point') cell' (.filling point')
  | copyUnwound {cell value} : cell.locked = some value →
      Step cell (.filling .copying) .readerUnwound cell.poison .idle
  | initReturned {cell value} :
      Step cell (.filling .initializing) (.initReturned value) cell (.filling (.duplicating value))
  | initUnwound {cell} : Step cell (.filling .initializing) .initUnwound cell .idle
  | cloneUnwound {cell value} :
      Step cell (.filling (.duplicating value)) .cloneUnwound cell .idle
  | answered {cell answer} : Step cell (.answering answer) (.returned answer) cell .idle
  | filled {cell value} :
      Step cell (.filling (.returned value)) (.returned (.filled value)) cell .idle

/-- Runs of any threads that call on one fresh cell. -/
abbrev Runs {ι : Type} [DecidableEq ι] :
    List (ι × Event T) → OnceValue T × (ι → Thread T) → Prop :=
  Library.Run (Library.Interleaves Step) (new, fun _ => .idle)

end OnceValue

end Proofhouse
