import Proofhouse.Sync

/-!
# Steps of a write-once cell

What one atomic step of `get_or_init` can do, the order every step moves a cell
along, and who holds the claim before and after it.
-/

set_option autoImplicit false

namespace Proofhouse

def Phase.rank : Phase → Nat
  | .empty => 0
  | .initializing => 1
  | .ready => 2

theorem Phase.rank_le_ready (phase : Phase) : phase.rank ≤ Phase.ready.rank := by
  cases phase <;> decide

namespace OnceValue

variable {T : Type}

@[simp] theorem locked_eq (cell : OnceValue T) : cell.locked = cell.slot := by
  rw [locked, lock]
  cases cell.poisoned <;> rfl

/-- The steps of `get_or_init`, one rule for each outcome. -/
inductive Advances : OnceValue T → Filling T → OnceValue T → Filling T → Prop where
  | claimed {cell} : cell.state = .empty →
      Advances cell .claiming { cell with state := .initializing } .initializing
  | taken {cell} : cell.state ≠ .empty → Advances cell .claiming cell .loading
  | waiting {cell} : cell.state ≠ .ready → Advances cell .loading cell .claiming
  | landed {cell} : cell.state = .ready → Advances cell .loading cell .copying
  | copied {cell value} : cell.slot = some value → Advances cell .copying cell (.returned value)
  | missed {cell} : cell.slot = none → Advances cell .copying cell .claiming
  | cloned {cell value} : Advances cell (.duplicating value) cell (.storing value)
  | stored {cell value} : Advances cell (.storing value) (cell.fill value) (.publishing value)
  | published {cell value} : Advances cell (.publishing value) cell.publish (.returned value)

variable {cell cell' : OnceValue T} {point point' : Filling T}

@[simp] theorem isPublished_iff : cell.isPublished = true ↔ cell.state = .ready :=
  decide_eq_true_iff

@[simp] theorem isPublished_eq_false_iff : cell.isPublished = false ↔ cell.state ≠ .ready :=
  decide_eq_false_iff_not

theorem advances_of_advance (taken : cell.advance point = some (cell', point')) :
    Advances cell point cell' point' := by
  cases point with
  | claiming =>
      cases phase : cell.state with
      | empty =>
          simp only [advance, claim, phase] at taken
          cases taken
          exact .claimed phase
      | initializing | ready =>
          simp only [advance, claim, phase] at taken
          cases taken
          exact .taken (by simp [phase])
  | loading =>
      simp only [advance] at taken
      cases published : cell.isPublished with
      | true =>
          rw [published] at taken
          cases taken
          exact .landed (isPublished_iff.mp published)
      | false =>
          rw [published] at taken
          cases taken
          exact .waiting (isPublished_eq_false_iff.mp published)
  | copying =>
      simp only [advance, locked_eq] at taken
      cases slot : cell.slot with
      | some value =>
          rw [slot] at taken
          cases taken
          exact .copied slot
      | none =>
          rw [slot] at taken
          cases taken
          exact .missed slot
  | initializing => cases taken
  | duplicating value => cases taken; exact .cloned
  | storing value => cases taken; exact .stored
  | publishing value => cases taken; exact .published
  | returned value => cases taken

/-- The thread stands between its successful claim and its store of the ready
flag. -/
def Filling.Holds : Filling T → Prop
  | .initializing | .duplicating _ | .storing _ | .publishing _ => True
  | .claiming | .loading | .copying | .returned _ => False

instance (point : Filling T) : Decidable point.Holds := by
  cases point <;> unfold Filling.Holds <;> infer_instance

/-!
## The order of cells
-/

structure Le (before after : OnceValue T) : Prop where
  phase : before.state.rank ≤ after.state.rank
  slot : before.slot ≠ none → after.slot ≠ none

theorem Le.refl (cell : OnceValue T) : Le cell cell :=
  ⟨Nat.le_refl _, id⟩

theorem Le.trans {first middle last : OnceValue T} (before : Le first middle)
    (after : Le middle last) : Le first last :=
  ⟨Nat.le_trans before.phase after.phase, fun written => after.slot (before.slot written)⟩

theorem Le.ready (ordered : Le cell cell') (ready : cell.state = .ready) :
    cell'.state = .ready := by
  have phase := ordered.phase
  rw [ready] at phase
  revert phase
  cases cell'.state <;> decide

theorem Le.not_empty (ordered : Le cell cell') (claimed : cell.state ≠ .empty) :
    cell'.state ≠ .empty := by
  intro empty
  have phase := ordered.phase
  rw [empty] at phase
  revert phase claimed
  cases cell.state <;> decide

theorem Advances.le (advances : Advances cell point cell' point') : Le cell cell' := by
  cases advances with
  | claimed empty => exact ⟨by rw [empty]; exact Nat.zero_le _, id⟩
  | stored => exact ⟨Nat.le_refl _, fun _ => Option.some_ne_none _⟩
  | published => exact ⟨cell.state.rank_le_ready, id⟩
  | taken | waiting | landed | copied | missed | cloned => exact .refl cell

/-- A claim is taken from an empty cell and given up by the store of the ready
flag. No other step moves a claim or the phase. -/
theorem Advances.claims (advances : Advances cell point cell' point') :
    (point = .claiming ∧ point' = .initializing ∧ cell.state = .empty ∧
        cell'.state = .initializing) ∨
      (∃ value, point = .publishing value ∧ point' = .returned value ∧ cell'.state = .ready) ∨
      (point ≠ .initializing ∧ point' ≠ .initializing ∧ (point.Holds ↔ point'.Holds) ∧
        cell'.state = cell.state) := by
  cases advances with
  | claimed empty => exact .inl ⟨rfl, rfl, empty, rfl⟩
  | published => exact .inr (.inl ⟨_, rfl, rfl, rfl⟩)
  | taken | waiting | landed | copied | missed | cloned | stored =>
      exact .inr (.inr ⟨nofun, nofun, Iff.rfl, rfl⟩)

/-!
## Cells whose value is settled beforehand
-/

/-- The slot holds nothing but `value`, and it holds it once the cell is ready. -/
structure Offers (cell : OnceValue T) (value : T) : Prop where
  only : ∀ held, cell.slot = some held → held = value
  landed : cell.state = .ready → cell.slot ≠ none

theorem offers_new (value : T) : new.Offers value where
  only _ held := by cases held
  landed ready := by cases ready

/-- What `get_or_init` may rely on where it stands, when every initializer of
the cell returns `value`. -/
def Filling.Fits (value : T) (cell : OnceValue T) : Filling T → Prop
  | .claiming | .initializing => True
  | .loading => cell.state ≠ .empty
  | .copying => cell.state = .ready
  | .duplicating own | .storing own => own = value
  | .publishing own => own = value ∧ cell.slot ≠ none
  | .returned own => own = value ∧ cell.state = .ready

theorem Filling.Fits.mono {value : T} (fits : point.Fits value cell) (ordered : Le cell cell') :
    point.Fits value cell' := by
  match point, fits with
  | .claiming, _ | .initializing, _ => trivial
  | .loading, claimed => exact ordered.not_empty claimed
  | .copying, ready => exact ordered.ready ready
  | .duplicating _, same | .storing _, same => exact same
  | .publishing _, ⟨same, written⟩ => exact ⟨same, ordered.slot written⟩
  | .returned _, ⟨same, ready⟩ => exact ⟨same, ordered.ready ready⟩

theorem Advances.fits {value : T} (advances : Advances cell point cell' point')
    (offers : cell.Offers value) (fits : point.Fits value cell) :
    cell'.Offers value ∧ point'.Fits value cell' := by
  cases advances with
  | claimed empty => exact ⟨⟨offers.only, nofun⟩, trivial⟩
  | taken claimed => exact ⟨offers, claimed⟩
  | waiting => exact ⟨offers, trivial⟩
  | landed ready => exact ⟨offers, ready⟩
  | copied held => exact ⟨offers, offers.only _ held, fits⟩
  | missed none => exact absurd none (offers.landed fits)
  | cloned => exact ⟨offers, fits⟩
  | stored =>
      refine ⟨⟨fun held same => ?_, fun _ => Option.some_ne_none _⟩, fits, Option.some_ne_none _⟩
      cases same
      exact fits
  | published => exact ⟨⟨offers.only, fun _ => fits.2⟩, fits.1, rfl⟩

end OnceValue

end Proofhouse
