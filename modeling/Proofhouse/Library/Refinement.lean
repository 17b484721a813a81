import Proofhouse.Library.TransitionSystem

/-!
# Refinement

A system whose steps, seen through a map of its states, are steps of another one
or cannot be seen at all. What an observer is told of a run is then told of a run
of the other system, for one thread as for a pool of them.
-/

set_option autoImplicit false

namespace Library

section Runs

variable {σ τ ε δ ν : Type*} {step : σ → ε → σ → Prop} {spec : τ → δ → τ → Prop}
  {first last : σ}

/-- A run is told as a run of `spec` where each of its steps is. -/
theorem Run.refine {view : σ → τ} {shown : ε → Option ν} {told : δ → Option ν}
    {events : List ε} (run : Run step first events last)
    (refines : ∀ {events state event next}, Run step first events state →
      step state event next → ∃ more, Run spec (view state) more (view next) ∧
        more.filterMap told = (shown event).toList) :
    ∃ abstract, Run spec (view first) abstract (view last) ∧
      abstract.filterMap told = events.filterMap shown := by
  induction run with
  | start => exact ⟨[], .start, rfl⟩
  | @snoc events event middle last run taken ih =>
      obtain ⟨abstract, specRun, same⟩ := ih
      obtain ⟨more, goesOn, told⟩ := refines run taken
      refine ⟨abstract ++ more, specRun.trans goesOn, ?_⟩
      rw [List.filterMap_append, List.filterMap_append, same, told]
      cases shown : shown event <;> simp [shown]

end Runs

section Pools

variable {σ τ α β ε δ ν ι : Type*} [DecidableEq ι] {step : σ → α → ε → σ → α → Prop}
  {spec : τ → β → δ → τ → β → Prop} {first last : σ × (ι → α)}

/-- A step of one thread, seen as a step of `spec` with the same news or as none
with no news. -/
inductive Seen (spec : τ → β → δ → τ → β → Prop) (told : δ → Option ν) (shared : τ) (own : β) :
    Option ν → τ → β → Prop where
  | stutter : Seen spec told shared own none shared own
  | step {event news shared' own'} : spec shared own event shared' own' → told event = news →
      Seen spec told shared own news shared' own'

/-- What one thread's step shows of a pool. -/
theorem Interleaves.seen {viewShared : σ → τ} {viewOwn : α → β} {told : δ → Option ν}
    {before after : σ × (ι → α)} {thread : ι} {event : ε} {news : Option ν}
    (taken : Interleaves step before (thread, event) after)
    (seen : Seen spec told (viewShared before.1) (viewOwn (before.2 thread)) news
      (viewShared after.1) (viewOwn (after.2 thread))) :
    (∃ event, Interleaves spec (before.map viewShared (viewOwn ∘ ·)) (thread, event)
        (after.map viewShared (viewOwn ∘ ·)) ∧ told event = news) ∨
      news = none ∧ viewOwn (after.2 thread) = viewOwn (before.2 thread) ∧
        after.map viewShared (viewOwn ∘ ·) = before.map viewShared (viewOwn ∘ ·) := by
  cases taken with
  | @act shared pool thread event shared' own' taken =>
  simp only [Function.update_self, Prod.map_apply, Function.comp_update] at seen ⊢
  generalize viewShared shared' = target, viewOwn own' = own at seen ⊢
  cases seen with
  | stutter =>
      refine .inr ⟨rfl, rfl, ?_⟩
      rw [show viewOwn (pool thread) = (viewOwn ∘ pool) thread from rfl, Function.update_eq_self]
  | @step event _ _ _ taken same => exact .inl ⟨event, .act taken, same⟩

/-- Threads that step as `spec` allows, each by itself, do so in any interleaving. -/
theorem Run.refine_pool {viewShared : σ → τ} {viewOwn : α → β} {shown : ε → Option ν}
    {told : δ → Option ν} {events : List (ι × ε)}
    (run : Run (Interleaves step) first events last)
    (refines : ∀ {events shared pool thread event shared' own'},
      Run (Interleaves step) first events (shared, pool) →
      step shared (pool thread) event shared' own' →
      Seen spec told (viewShared shared) (viewOwn (pool thread)) (shown event)
        (viewShared shared') (viewOwn own')) :
    ∃ abstract, Run (Interleaves spec) (viewShared first.1, viewOwn ∘ first.2) abstract
        (viewShared last.1, viewOwn ∘ last.2) ∧
      abstract.filterMap (fun entry => (told entry.2).map (entry.1, ·)) =
        events.filterMap fun entry => (shown entry.2).map (entry.1, ·) := by
  refine @Run.refine _ _ _ _ _ (Interleaves step) (Interleaves spec) first last
    (Prod.map viewShared (viewOwn ∘ ·)) _ _ _ run ?_
  intro events state entry next run taken
  obtain ⟨thread, event⟩ := entry
  rcases taken.seen (refines run taken.own) with ⟨specEvent, taken, same⟩ | ⟨silent, -, same⟩
  · refine ⟨[(thread, specEvent)], .single taken, ?_⟩
    cases news : told specEvent <;> simp [news, ← same]
  · rw [same]
    exact ⟨[], .start, by simp [silent]⟩

end Pools

end Library
