import Proofhouse.SyncAgreement

/-!
# Unwinding initializers

A claim is given up by the store of the ready flag alone. An initializer that
unwinds never gets there, so it leaves a claim behind that no thread holds.
-/

set_option autoImplicit false

namespace Proofhouse.OnceValue

open Library

variable {T ι : Type} [DecidableEq ι]

/-- The thread left its claim by unwinding, out of the initializer or out of the
clone taken before publication. -/
def Event.abandons : Event T → Bool
  | .initUnwound | .cloneUnwound => true
  | .began _ | .accessed | .advanced _ | .initReturned _ | .readerUnwound | .returned _ => false

/-- A claimed cell is one some thread holds while it works the value out. -/
def ClaimHeld (state : OnceValue T × (ι → Thread T)) : Prop :=
  state.1.state = .initializing → ∃ thread, (state.2 thread).Holds

/-- The claim of a cell stands and no thread is left to give it up. -/
def ClaimAbandoned (state : OnceValue T × (ι → Thread T)) : Prop :=
  state.1.state = .initializing ∧ ∀ thread, ¬(state.2 thread).Holds

section Steps

variable {cell cell' : OnceValue T} {own own' : Thread T} {event : Event T}

theorem Step.leaves (taken : Step cell own event cell' own') (holds : own.Holds) :
    (own'.Holds ∧ event.abandons = false) ∨
      (¬own'.Holds ∧ event.abandons = true ∧ cell' = cell) ∨
      (event.abandons = false ∧ cell'.state = .ready) := by
  cases taken with
  | advanced advances =>
      cases advances_of_advance advances with
      | claimed | taken | waiting | landed | copied | missed => exact absurd holds id
      | cloned | stored => exact .inl ⟨trivial, rfl⟩
      | published => exact .inr (.inr ⟨rfl, rfl⟩)
  | initReturned => exact .inl ⟨trivial, rfl⟩
  | initUnwound | cloneUnwound => exact .inr (.inl ⟨id, rfl, rfl⟩)
  | began | observed | probed | missed | read | readUnwound | copyUnwound | answered | filled =>
      exact absurd holds id

theorem Step.keeps (taken : Step cell own event cell' own') (free : ¬own.Holds) :
    event.abandons = false ∧ (own'.Holds ∨ cell'.state = cell.state) := by
  cases taken with
  | advanced advances =>
      cases advances_of_advance advances with
      | claimed => exact ⟨rfl, .inl trivial⟩
      | taken | waiting | landed | copied | missed => exact ⟨rfl, .inr rfl⟩
      | cloned | stored | published => exact absurd trivial free
  | initReturned | initUnwound | cloneUnwound => exact absurd trivial free
  | began | observed | probed | missed | read | readUnwound | copyUnwound | answered | filled =>
      exact ⟨rfl, .inr rfl⟩

end Steps

variable {events : List (ι × Event T)} {state next : OnceValue T × (ι → Thread T)}
  {entry : ι × Event T}

private theorem ClaimHeld.step (held : ClaimHeld state) (taken : Interleaves Step state entry next)
    (careful : entry.2.abandons = false) : ClaimHeld next := by
  cases taken with
  | @act cell pool stepping event cell' own' taken =>
  intro initializing
  by_cases holds : (pool stepping).Holds
  · rcases taken.leaves holds with ⟨stillHolds, -⟩ | ⟨-, abandons, -⟩ | ⟨-, ready⟩
    · exact ⟨stepping, by simpa only [Function.update_self] using stillHolds⟩
    · exact absurd (careful.symm.trans abandons) (by decide)
    · exact absurd (initializing.symm.trans ready) (by decide)
  · rcases (taken.keeps holds).2 with nowHolds | same
    · exact ⟨stepping, by simpa only [Function.update_self] using nowHolds⟩
    · obtain ⟨thread, holder⟩ := held (same.symm.trans initializing)
      have other : thread ≠ stepping := fun same => holds (same ▸ holder)
      exact ⟨thread, by simpa only [Function.update_of_ne other] using holder⟩

/-- No step takes an abandoned claim back, or gives it up. -/
theorem ClaimAbandoned.step (abandoned : ClaimAbandoned state)
    (taken : Interleaves Step state entry next) : ClaimAbandoned next := by
  cases taken with
  | @act cell pool stepping event cell' own' taken =>
  obtain ⟨initializing, free⟩ := abandoned
  dsimp only at initializing free
  rcases (taken.quiet (free stepping)).2.2 with ⟨same, stillFree, -⟩ | ⟨empty, -⟩
  · refine ⟨same.trans initializing, fun thread => ?_⟩
    dsimp only
    rw [Function.update_apply]
    split
    · exact stillFree
    · exact free thread
  · exact absurd (initializing.symm.trans empty) (by decide)

private theorem Agreed.abandoned (agreed : Agreed events state)
    (taken : Interleaves Step state entry next) (abandons : entry.2.abandons = true) :
    ClaimAbandoned next := by
  cases taken with
  | @act cell pool stepping event cell' own' taken =>
  have holds : (pool stepping).Holds := by
    by_contra free
    exact absurd ((taken.keeps free).1.symm.trans abandons) (by decide)
  rcases taken.leaves holds with ⟨-, careful⟩ | ⟨free, -, rfl⟩ | ⟨careful, -⟩
  · exact absurd (careful.symm.trans abandons) (by decide)
  · refine ⟨agreed.claimed stepping holds, fun thread => ?_⟩
    dsimp only
    rw [Function.update_apply]
    split
    · exact free
    · next other => exact fun both => other (agreed.alone thread stepping both holds)
  · exact absurd (careful.symm.trans abandons) (by decide)

theorem held_or_abandoned (run : Runs events state) :
    if ∃ entry ∈ events, entry.2.abandons = true then ClaimAbandoned state
    else ClaimHeld state := by
  have invariant := @Run.invariant _ _ _
    (fun events state => Agreed events state ∧
      ((∃ entry ∈ events, entry.2.abandons = true) → ClaimAbandoned state) ∧
      ((∀ entry ∈ events, entry.2.abandons = false) → ClaimHeld state))
    _ _ _ run ⟨Runs.start.agreed, by simp, fun _ initializing => by cases initializing⟩ ?_
  · split
    · next abandoned => exact invariant.2.1 abandoned
    · next careful =>
      exact invariant.2.2 fun entry member =>
        Bool.eq_false_iff.mpr fun abandons => careful ⟨entry, member, abandons⟩
  intro events state entry next invariant taken
  obtain ⟨agreed, abandoned, held⟩ := invariant
  refine ⟨agreed.step taken, ?_, fun careful => ?_⟩
  · intro abandoning
    obtain ⟨other, member, abandons⟩ := abandoning
    rcases List.mem_append.mp member with member | member
    · exact (abandoned ⟨other, member, abandons⟩).step taken
    · cases List.mem_singleton.mp member
      exact agreed.abandoned taken abandons
  · exact (held fun other member => careful other (List.mem_append_left _ member)).step taken
      (careful entry (List.mem_append_right _ (List.mem_singleton_self _)))

/-- A claimed cell has a thread to hold it exactly in the runs where no
initializer unwinds, nor the clone of its value. -/
theorem claimHeld_iff_no_unwinding (run : Runs events state) :
    ClaimHeld state ↔ ∀ entry ∈ events, entry.2.abandons = false := by
  have settled := held_or_abandoned run
  split at settled
  · next abandoned =>
    obtain ⟨entry, member, abandons⟩ := abandoned
    constructor
    · intro held
      obtain ⟨thread, holds⟩ := held settled.1
      exact absurd holds (settled.2 thread)
    · intro careful
      exact absurd ((careful entry member).symm.trans abandons) (by decide)
  · next careful =>
    exact ⟨fun _ entry member => Bool.eq_false_iff.mpr fun abandons =>
      careful ⟨entry, member, abandons⟩, fun _ => settled⟩

private def wedge (failing late : Fin 2) : List (Fin 2 × Event Nat) :=
  [(failing, .began .getOrInit), (failing, .advanced .initializing), (failing, .initUnwound),
    (late, .began .getOrInit), (late, .advanced .loading)]

private theorem wedge_runs : ∃ state, Runs (wedge 0 1) state ∧ ¬ClaimHeld state ∧
    state.2 1 = .filling .loading := by
  refine ⟨_, Runs.start |>.act 0 .began |>.act 0 (.advanced rfl) |>.act 0 .initUnwound
    |>.act 1 .began |>.act 1 (.advanced rfl), fun held => ?_, rfl⟩
  rcases Fin.exists_fin_two.mp (held rfl) with holds | holds <;> exact holds

/-- The unwinding initializer wedges the cell: it stays claimed, nobody holds it,
and the second thread is left to retry. -/
theorem wedged_by_unwinding : ∃ (events : List (Fin 2 × Event Nat)) (state : _),
    Runs events state ∧ ¬ClaimHeld state ∧ state.2 1 = .filling .loading :=
  ⟨wedge 0 1, wedge_runs⟩

theorem claimHeld_iff_no_unwinding_wedge :
    ∃ state, Runs (wedge 0 1) state ∧
      (ClaimHeld state ↔ ∀ entry ∈ wedge 0 1, entry.2.abandons = false) := by
  obtain ⟨state, run, -⟩ := wedge_runs
  exact ⟨state, run, claimHeld_iff_no_unwinding run⟩

end Proofhouse.OnceValue
