import Mathlib.Algebra.BigOperators.Fin
import Mathlib.Tactic.Abel

/-!
# Runs and interleavings

Runs of a labelled step relation with their events in order, and the system in
which any number of threads step on one shared state, one thread at a time.
-/

set_option autoImplicit false

namespace Library

section Runs

variable {σ ε : Type*} {step : σ → ε → σ → Prop}

/-- `Run step first events last`: steps lead from `first` to `last`, and these are
their events in order. -/
inductive Run (step : σ → ε → σ → Prop) (first : σ) : List ε → σ → Prop where
  | start : Run step first [] first
  | snoc {events event middle last} : Run step first events middle → step middle event last →
      Run step first (events ++ [event]) last

theorem Run.single {first last : σ} {event : ε} (taken : step first event last) :
    Run step first [event] last :=
  .snoc .start taken

theorem Run.trans {first middle last : σ} {before after : List ε}
    (run : Run step first before middle) (goesOn : Run step middle after last) :
    Run step first (before ++ after) last := by
  induction goesOn with
  | start => rwa [List.append_nil]
  | snoc _ taken ih =>
      rw [← List.append_assoc]
      exact .snoc ih taken

theorem Run.split {first last : σ} {before after : List ε}
    (run : Run step first (before ++ after) last) :
    ∃ middle, Run step first before middle ∧ Run step middle after last := by
  induction after using List.reverseRecOn generalizing last with
  | nil => exact ⟨last, by rwa [List.append_nil] at run, .start⟩
  | append_singleton after event ih =>
      rw [← List.append_assoc] at run
      generalize whole : before ++ after ++ [event] = events at run
      cases run with
      | start => simp at whole
      | snoc run taken =>
          obtain ⟨rfl, sameEvent⟩ := List.append_inj' whole rfl
          cases sameEvent
          obtain ⟨middle, run, goesOn⟩ := ih run
          exact ⟨middle, run, .snoc goesOn taken⟩

theorem Run.split_event {first last : σ} {before after : List ε} {event : ε}
    (run : Run step first (before ++ event :: after) last) :
    ∃ source target, Run step first before source ∧ step source event target ∧
      Run step target after last := by
  rw [List.append_cons] at run
  obtain ⟨target, run, goesOn⟩ := run.split
  obtain ⟨source, run, single⟩ := run.split
  generalize whole : [event] = events at single
  cases single with
  | start => cases whole
  | snoc none taken =>
      obtain ⟨nothing, sameEvent⟩ := List.append_inj' ((List.nil_append _).trans whole) rfl
      cases sameEvent
      subst nothing
      generalize whole : [] = events at none
      cases none with
      | start => exact ⟨source, target, run, taken, goesOn⟩
      | snoc => simp at whole

/-- What holds at the start and survives every step holds after every run. -/
theorem Run.invariant {holds : List ε → σ → Prop} {first last : σ} {events : List ε}
    (run : Run step first events last) (initially : holds [] first)
    (preserved : ∀ {events state event next}, holds events state → step state event next →
      holds (events ++ [event]) next) :
    holds events last := by
  induction run with
  | start => exact initially
  | snoc _ taken ih => exact preserved ih taken

/-- A preorder that every step respects relates the ends of every run. -/
theorem Run.relates {le : σ → σ → Prop} {first last : σ} {events : List ε}
    (run : Run step first events last) (refl : ∀ state, le state state)
    (trans : ∀ {first middle last}, le first middle → le middle last → le first last)
    (respects : ∀ {state event next}, step state event next → le state next) :
    le first last := by
  induction run with
  | start => exact refl first
  | snoc _ taken ih => exact trans ih (respects taken)

end Runs

/-- Where no step raises a natural measure, the events that lower it run out. -/
theorem eventually_never {ε : Type*} {lowers : ε → Prop} (measure : ℕ → ℕ) (events : ℕ → ε)
    (level : ∀ n, measure (n + 1) ≤ measure n)
    (down : ∀ n, lowers (events n) → measure (n + 1) < measure n) :
    ∃ bound, ∀ n, bound ≤ n → ¬lowers (events n) := by
  have antitone : Antitone measure := antitone_nat_of_succ_le level
  generalize size : measure 0 = value
  induction value using Nat.strongRecOn generalizing measure events with
  | ind value ih =>
      by_cases some : ∃ n, lowers (events n)
      · obtain ⟨n, lower⟩ := some
        have smaller : measure (n + 1) < value :=
          size ▸ lt_of_lt_of_le (down n lower) (antitone (Nat.zero_le n))
        obtain ⟨bound, never⟩ := ih (measure (n + 1)) smaller (fun k => measure (k + (n + 1)))
          (fun k => events (k + (n + 1)))
          (fun k => by simpa only [Nat.add_right_comm] using level (k + (n + 1)))
          (fun k lower => by simpa only [Nat.add_right_comm] using down (k + (n + 1)) lower)
          (fun _ _ ordered => antitone (by omega)) (by simp)
        refine ⟨bound + (n + 1), fun k late lower => never (k - (n + 1)) (by omega) ?_⟩
        rwa [Nat.sub_add_cancel (by omega)]
      · exact ⟨0, fun n _ lower => some ⟨n, lower⟩⟩

section Interleavings

variable {σ α ε ι : Type*} [DecidableEq ι] {step : σ → α → ε → σ → α → Prop}

/-- One thread of a pool steps on the shared state, and no other moves. -/
inductive Interleaves (step : σ → α → ε → σ → α → Prop) :
    σ × (ι → α) → ι × ε → σ × (ι → α) → Prop where
  | act {shared pool thread event shared' own'} :
      step shared (pool thread) event shared' own' →
      Interleaves step (shared, pool) (thread, event) (shared', Function.update pool thread own')

theorem Interleaves.own {before after : σ × (ι → α)} {thread : ι} {event : ε}
    (taken : Interleaves step before (thread, event) after) :
    step before.1 (before.2 thread) event after.1 (after.2 thread) := by
  cases taken with
  | act taken => simpa only [Function.update_self] using taken

theorem Interleaves.kept {before after : σ × (ι → α)} {event : ι × ε} {thread : ι}
    (taken : Interleaves step before event after) (other : event.1 ≠ thread) :
    after.2 thread = before.2 thread := by
  cases taken with
  | act => exact Function.update_of_ne other.symm ..

/-- What the stepping thread keeps of itself, and no step takes from another
thread, holds of every thread. -/
theorem Interleaves.forall {holds : σ → α → Prop} {before after : σ × (ι → α)}
    {event : ι × ε} (taken : Interleaves step before event after)
    (own : ∀ {shared own event shared' own'}, step shared own event shared' own' →
      holds shared own → holds shared' own')
    (others : ∀ {shared own event shared' own' other}, step shared own event shared' own' →
      holds shared own → holds shared other → holds shared' other)
    (initially : ∀ thread, holds before.1 (before.2 thread)) (thread : ι) :
    holds after.1 (after.2 thread) := by
  cases taken with
  | @act shared pool stepping event shared' own' taken =>
      dsimp only
      rw [Function.update_apply]
      split
      · exact own taken (initially stepping)
      · exact others taken (initially stepping) (initially thread)

theorem sum_update_add {M : Type*} [AddCommMonoid M] [Fintype ι] (share : α → M) (pool : ι → α)
    (thread : ι) (own : α) :
    ∑ i, share (Function.update pool thread own i) + share (pool thread) =
      ∑ i, share (pool i) + share own := by
  rw [← Finset.add_sum_erase Finset.univ _ (Finset.mem_univ thread),
    ← Finset.add_sum_erase Finset.univ (fun i => share (pool i)) (Finset.mem_univ thread),
    Function.update_self]
  have rest : ∑ i ∈ Finset.univ.erase thread, share (Function.update pool thread own i) =
      ∑ i ∈ Finset.univ.erase thread, share (pool i) := by
    refine Finset.sum_congr rfl fun i member => ?_
    rw [Function.update_of_ne (Finset.ne_of_mem_erase member)]
  rw [rest]
  abel

end Interleavings

end Library
