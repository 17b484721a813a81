import Mathlib.Data.List.Infix
import Mathlib.Order.Lattice.Nat
import Proofhouse.Library.TransitionSystem

/-!
# Views of a weak memory

Atomic locations that keep every message stored to them, and threads that each
have a view of their own: for every location the newest message they know. A
store that releases sends the view along, and a load that acquires takes it over.

A compare-exchange is assumed to read the newest message also where it fails. The
memory models of C++ and Rust let a failed one be stale, as any other load.
-/

set_option autoImplicit false

namespace Library

/-- For every location the time of the newest message known of it. -/
abbrev View (Loc : Type*) := Loc → ℕ

inductive MemoryOrder where
  | relaxed
  | acquire
  | release
  | acqRel
  deriving DecidableEq, Repr

namespace MemoryOrder

def acquires : MemoryOrder → Bool
  | .acquire | .acqRel => true
  | .relaxed | .release => false

def releases : MemoryOrder → Bool
  | .release | .acqRel => true
  | .relaxed | .acquire => false

end MemoryOrder

structure Message (Loc α : Type*) where
  value : α
  carried : View Loc

/-- The messages stored to an atomic location, oldest first. The time of a
message is its place among them. -/
structure History (Loc α : Type*) where
  messages : List (Message Loc α)
  stored : messages ≠ []

section Accesses

variable {Loc α : Type*} [DecidableEq Loc]

def View.raise (view : View Loc) (location : Loc) (time : ℕ) : View Loc :=
  view ⊔ Function.update ⊥ location time

/-- The view of a reader after a message: the message is known, and an access that
acquires takes over what it carries. -/
def View.receive (view : View Loc) (location : Loc) (order : MemoryOrder) (time : ℕ)
    (message : Message Loc α) : View Loc :=
  if order.acquires then view.raise location time ⊔ message.carried
  else view.raise location time

namespace History

def initial (value : α) : History Loc α :=
  ⟨[⟨value, ⊥⟩], List.cons_ne_nil _ _⟩

def newest (history : History Loc α) : Message Loc α :=
  history.messages.getLast history.stored

/-- A load may read any message that is not older than the view of its reader. -/
inductive Loads (history : History Loc α) (location : Loc) (order : MemoryOrder)
    (view : View Loc) : α → View Loc → Prop where
  | message {time message} : history.messages[time]? = some message → view location ≤ time →
      Loads history location order view message.value
        (view.receive location order time message)

/-- A store adds the newest message, which carries the view of its writer if the
store releases. -/
def store (history : History Loc α) (location : Loc) (order : MemoryOrder) (view : View Loc)
    (value : α) : History Loc α × View Loc :=
  let raised := view.raise location history.messages.length
  (⟨history.messages ++ [⟨value, if order.releases then raised else ⊥⟩],
    List.append_ne_nil_of_right_ne_nil _ (List.cons_ne_nil _ _)⟩, raised)

/-- A compare-exchange reads the newest message, be it expected or not, and stores only
over the expected value. -/
def compareExchange [DecidableEq α] (history : History Loc α) (location : Loc)
    (success failure : MemoryOrder) (view : View Loc) (expected desired : α) :
    Bool × History Loc α × View Loc :=
  let latest := history.messages.length - 1
  if history.newest.value = expected then
    (true, history.store location success
      (view.receive location success latest history.newest) desired)
  else (false, history, view.receive location failure latest history.newest)

end History

end Accesses

/-!
## Views only rise
-/

section Views

variable {Loc α : Type*} [DecidableEq Loc] {view view' : View Loc} {location : Loc} {time : ℕ}
  {order : MemoryOrder}

theorem View.le_raise : view ≤ view.raise location time :=
  le_sup_left

theorem View.le_raise_self : time ≤ view.raise location time location := by
  rw [raise, Pi.sup_apply, Function.update_self]
  exact le_sup_right

theorem View.raise_le_receive {message : Message Loc α} :
    view.raise location time ≤ view.receive location order time message := by
  rw [receive]
  split
  · exact le_sup_left
  · exact le_refl _

theorem View.le_receive {message : Message Loc α} :
    view ≤ view.receive location order time message :=
  le_trans le_raise raise_le_receive

theorem View.carried_le_receive {message : Message Loc α} (acquires : order.acquires = true) :
    message.carried ≤ view.receive location order time message := by
  rw [receive, if_pos acquires]
  exact le_sup_right

variable {history history' : History Loc α} {value : α}

theorem History.Loads.le (loads : history.Loads location order view value view') :
    view ≤ view' := by
  cases loads with
  | message => exact View.le_receive

theorem History.store_rises
    (stored : history.store location order view value = (history', view')) : view ≤ view' := by
  cases stored
  exact View.le_raise

theorem History.compareExchange_cases [DecidableEq α] {success failure : MemoryOrder}
    {expected desired : α} {taken : Bool}
    (exchanged : history.compareExchange location success failure view expected desired =
      (taken, history', view')) :
    (taken = true ∧ history.newest.value = expected ∧
        ∃ received, view ≤ received ∧
          history.store location success received desired = (history', view')) ∨
      (taken = false ∧ history.newest.value ≠ expected ∧ history' = history ∧ view ≤ view') := by
  rw [compareExchange] at exchanged
  split at exchanged
  · next same =>
    cases exchanged
    exact .inl ⟨rfl, same, _, View.le_receive, rfl⟩
  · next other =>
    cases exchanged
    exact .inr ⟨rfl, other, rfl, View.le_receive⟩

end Views

/-!
## What a reader has acquired
-/

section Acquisition

variable {Loc α : Type*} {history history' : History Loc α} {location : Loc} {value : α}
  {view view' : View Loc}

/-- A message of this value is known, and so is all it carries. -/
def History.Acquired (history : History Loc α) (location : Loc) (value : α)
    (view : View Loc) : Prop :=
  ∃ time message, history.messages[time]? = some message ∧ message.value = value ∧
    time ≤ view location ∧ message.carried ≤ view

theorem History.Acquired.mono (acquired : history.Acquired location value view)
    (grows : history.messages <+: history'.messages) (rises : view ≤ view') :
    history'.Acquired location value view' := by
  obtain ⟨time, message, found, same, known, carried⟩ := acquired
  have inside := (List.getElem?_eq_some_iff.mp found).1
  refine ⟨time, message, ?_, same, le_trans known (rises location), le_trans carried rises⟩
  rw [← found]
  exact (List.prefix_iff_getElem?.mp grows time inside).trans (List.getElem?_eq_getElem inside).symm

/-- Every message of the value is followed by such messages only. -/
def History.Settled (history : History Loc α) (value : α) : Prop :=
  history.messages.Pairwise fun earlier later => earlier.value = value → later.value = value

theorem History.settled_initial {first : α} : (initial first : History Loc α).Settled value :=
  List.pairwise_singleton _ _

theorem History.Settled.newest (settled : history.Settled value) {message : Message Loc α}
    (member : message ∈ history.messages) (same : message.value = value) :
    history.newest.value = value := by
  rw [Settled, ← List.dropLast_append_getLast history.stored, List.pairwise_append] at settled
  rw [← List.dropLast_append_getLast history.stored] at member
  rcases List.mem_append.mp member with member | member
  · exact settled.2.2 message member _ (List.mem_singleton_self _) same
  · cases List.mem_singleton.mp member
    exact same

variable [DecidableEq Loc] {order : MemoryOrder}

theorem History.Loads.acquired (loads : history.Loads location order view value view')
    (acquires : order.acquires = true) : history.Acquired location value view' := by
  cases loads with
  | @message time message found =>
      exact ⟨time, message, found, rfl,
        le_trans View.le_raise_self (View.raise_le_receive location),
        View.carried_le_receive acquires⟩

theorem History.acquired_store
    (stored : history.store location order view value = (history', view')) :
    history'.Acquired location value view' := by
  cases stored
  refine ⟨history.messages.length, _, List.getElem?_concat_length, rfl, View.le_raise_self, ?_⟩
  dsimp only
  split
  · exact le_refl _
  · exact bot_le

theorem History.store_grows {added : α}
    (stored : history.store location order view added = (history', view')) :
    history.messages <+: history'.messages := by
  cases stored
  exact List.prefix_append _ _

theorem History.newest_store {added : α}
    (stored : history.store location order view added = (history', view')) :
    history'.newest.value = added := by
  cases stored
  rw [newest, List.getLast_concat]

theorem History.mem_store {added : α} (releases : order.releases = true)
    (stored : history.store location order view added = (history', view'))
    {message : Message Loc α} (member : message ∈ history'.messages) :
    message ∈ history.messages ∨ view ≤ message.carried := by
  cases stored
  rcases List.mem_append.mp member with member | member
  · exact .inl member
  · cases List.mem_singleton.mp member
    dsimp only
    rw [if_pos releases]
    exact .inr View.le_raise

theorem History.Settled.store (settled : history.Settled value) {added : α}
    (stored : history.store location order view added = (history', view'))
    (last : history.newest.value = value → added = value) : history'.Settled value := by
  cases stored
  refine List.pairwise_append.mpr ⟨settled, List.pairwise_singleton _ _, ?_⟩
  intro earlier member later added same
  cases List.mem_singleton.mp added
  exact last (settled.newest member same)

/-- A reader that has acquired a settled value reads nothing else. -/
theorem History.Settled.reads (settled : history.Settled value) {read : α}
    (acquired : history.Acquired location value view)
    (loads : history.Loads location order view read view') : read = value := by
  obtain ⟨time, message, found, same, known, -⟩ := acquired
  cases loads with
  | @message later other foundLater recent =>
      obtain ⟨inside, rfl⟩ := List.getElem?_eq_some_iff.mp found
      obtain ⟨insideLater, rfl⟩ := List.getElem?_eq_some_iff.mp foundLater
      rcases Nat.lt_or_eq_of_le (le_trans known recent) with before | rfl
      · exact List.pairwise_iff_getElem.mp settled time later inside insideLater before same
      · exact same

end Acquisition

/-!
## What a view includes
-/

section Writes

variable {Loc ι ε : Type*}

/-- The view is not behind any of these writes. -/
def View.Includes (view : View Loc) (writes : List (Loc × ℕ)) : Prop :=
  ∀ write ∈ writes, write.2 ≤ view write.1

theorem View.Includes.mono {view view' : View Loc} {writes : List (Loc × ℕ)}
    (includes : view.Includes writes) (rises : view ≤ view') : view'.Includes writes :=
  fun write member => le_trans (includes write member) (rises write.1)

/-- What one thread writes in a run, by what its events write. -/
def writesBy [DecidableEq ι] (writes : ε → List (Loc × ℕ)) (thread : ι)
    (events : List (ι × ε)) : List (Loc × ℕ) :=
  events.flatMap fun entry => if entry.1 = thread then writes entry.2 else []

/-- Where no step lowers the view of its thread, and every step leaves what it
writes in it, a thread's view includes all it wrote. -/
theorem Run.view_includes {σ β : Type*} [DecidableEq ι] {step : σ → β → ε → σ → β → Prop}
    {writes : ε → List (Loc × ℕ)} {view : β → View Loc} {first last : σ × (ι → β)}
    {events : List (ι × ε)} (run : Run (Interleaves step) first events last)
    (rises : ∀ {shared own event shared' own'}, step shared own event shared' own' →
      view own ≤ view own' ∧ (view own').Includes (writes event)) (thread : ι) :
    (view (last.2 thread)).Includes (writesBy writes thread events) := by
  refine @Run.invariant _ _ _ (fun events state =>
    (view (state.2 thread)).Includes (writesBy writes thread events)) _ _ _ run nofun ?_
  intro events state event next includes taken
  cases taken with
  | @act shared pool stepping event shared' own' taken =>
      obtain ⟨higher, written⟩ := rises taken
      intro write member
      rw [writesBy, List.flatMap_append, List.mem_append, List.flatMap_singleton] at member
      dsimp only at member ⊢
      rw [Function.update_apply]
      by_cases own : thread = stepping
      · subst own
        rw [if_pos rfl]
        rw [if_pos rfl] at member
        exact member.elim (fun before => includes.mono higher write before) (written write)
      · rw [if_neg own]
        rw [if_neg (Ne.symm own)] at member
        exact member.elim (includes write) nofun

end Writes

end Library
