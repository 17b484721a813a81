import Mathlib.Logic.Relation

/-!
# While loops

A loop over a body that may be stuck, as where a machine operation has no
result, and the rule of total correctness for it.
-/

set_option autoImplicit false

namespace Library

/-- `while guard { body }` on a state. A stuck body has no next state. -/
structure WhileLoop (σ : Type*) where
  guard : σ → Bool
  body : σ → Option σ

namespace WhileLoop

variable {σ : Type*} {loop : WhileLoop σ} {invariant : σ → Prop} {variant : σ → Nat}
  {first last : σ}

def Pass (loop : WhileLoop σ) (state next : σ) : Prop :=
  loop.guard state = true ∧ loop.body state = some next

def Reaches (loop : WhileLoop σ) : σ → σ → Prop :=
  Relation.ReflTransGen loop.Pass

/-- Wherever the invariant holds and the loop goes on, its body is not stuck,
keeps the invariant and lowers the variant. -/
def Total (loop : WhileLoop σ) (invariant : σ → Prop) (variant : σ → Nat) : Prop :=
  ∀ state, invariant state → loop.guard state = true →
    ∃ next, loop.body state = some next ∧ invariant next ∧ variant next < variant state

theorem Total.holds (total : loop.Total invariant variant) (initially : invariant first)
    (reaches : loop.Reaches first last) : invariant last := by
  induction reaches with
  | refl => exact initially
  | tail _ pass ih =>
      obtain ⟨next, taken, kept, -⟩ := total _ ih pass.1
      cases taken.symm.trans pass.2
      exact kept

theorem Total.ends (total : loop.Total invariant variant) (initially : invariant first) :
    ∃ last, loop.Reaches first last ∧ loop.guard last = false ∧ invariant last := by
  induction size : variant first using Nat.strongRecOn generalizing first with
  | ind size ih =>
      subst size
      cases goesOn : loop.guard first with
      | false => exact ⟨first, .refl, goesOn, initially⟩
      | true =>
          obtain ⟨next, taken, kept, lower⟩ := total first initially goesOn
          obtain ⟨last, reaches, ended, holds⟩ := ih _ lower kept rfl
          exact ⟨last, .head ⟨goesOn, taken⟩ reaches, ended, holds⟩

/-- Where the loop stands after so many passes, if it makes them. -/
def after (loop : WhileLoop σ) : Nat → σ → Option σ
  | 0, state => some state
  | passes + 1, state =>
      if loop.guard state then (loop.body state).bind (loop.after passes) else none

/-- The loop makes just so many passes, and ends there. -/
structure EndsAfter (loop : WhileLoop σ) (passes : Nat) (first last : σ) : Prop where
  comes : loop.after passes first = some last
  ended : loop.guard last = false

theorem EndsAfter.none (ended : loop.guard first = false) : loop.EndsAfter 0 first first :=
  ⟨rfl, ended⟩

theorem EndsAfter.pass {next : σ} {passes : Nat} (pass : loop.Pass first next)
    (ends : loop.EndsAfter passes next last) : loop.EndsAfter (passes + 1) first last := by
  refine ⟨?_, ends.ended⟩
  rw [after, if_pos pass.1, pass.2]
  exact ends.comes

/-- A loop ends in one place, after one number of passes. -/
theorem EndsAfter.unique {passes others : Nat} {other : σ}
    (ends : loop.EndsAfter passes first last) (alsoEnds : loop.EndsAfter others first other) :
    passes = others ∧ last = other := by
  induction passes generalizing first others with
  | zero =>
      cases ends.comes
      cases others with
      | zero => exact ⟨rfl, Option.some.inj alsoEnds.comes⟩
      | succ others =>
          have comes := alsoEnds.comes
          rw [after, ends.ended] at comes
          cases comes
  | succ passes ih =>
      have comes := ends.comes
      have alsoComes := alsoEnds.comes
      rw [after] at comes
      cases others with
      | zero =>
          cases alsoComes
          rw [alsoEnds.ended] at comes
          cases comes
      | succ others =>
          rw [after] at alsoComes
          split at comes
          · obtain ⟨next, taken, goesOn⟩ := Option.bind_eq_some_iff.mp comes
            rw [if_pos ‹_›, taken] at alsoComes
            obtain ⟨rfl, same⟩ := ih ⟨goesOn, ends.ended⟩ ⟨alsoComes, alsoEnds.ended⟩
            exact ⟨rfl, same⟩
          · cases comes

end WhileLoop

end Library
