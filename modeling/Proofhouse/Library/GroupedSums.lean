import Mathlib.Algebra.BigOperators.Group.List.Basic
import Mathlib.Algebra.Order.BigOperators.Group.List
import Mathlib.Algebra.Ring.Int.Defs

/-!
# Sums by groups

A sum over items is the sum, over their groups, of the sums of each group. Counts
cut off at a bound in every group, and once more in total, add up to what one cut
at the end leaves.
-/

set_option autoImplicit false

namespace Library

variable {Item Key : Type}

theorem sum_alone [DecidableEq Key] {keys : List Key} (distinct : keys.Nodup) {key : Key}
    (member : key ∈ keys) (weight : Int) :
    (keys.map fun other => if key = other then weight else 0).sum = weight := by
  induction keys with
  | nil => cases member
  | cons first keys ih =>
      obtain ⟨fresh, distinct⟩ := List.nodup_cons.mp distinct
      rw [List.map_cons, List.sum_cons]
      by_cases same : key = first
      · subst same
        have rest : (keys.map fun other => if key = other then weight else 0) =
            keys.map fun _ => 0 := by
          refine List.map_congr_left fun other within => if_neg fun same => fresh ?_
          exact same.symm ▸ within
        rw [rest]
        simp
      · rw [if_neg same, ih distinct ((List.mem_cons.mp member).resolve_left same), Int.zero_add]

/-- Each item counts in one of the groups. -/
theorem sum_groups [DecidableEq Key] {keys : List Key} (distinct : keys.Nodup) {items : List Item}
    {group : Item → Option Key} (weight : Item → Int)
    (grouped : ∀ item ∈ items, ∃ key ∈ keys, group item = some key) :
    (keys.map fun key => (items.map fun item =>
      if group item = some key then weight item else 0).sum).sum = (items.map weight).sum := by
  induction items with
  | nil => simp
  | cons item items ih =>
      obtain ⟨⟨key, member, own⟩, others⟩ := List.forall_mem_cons.mp grouped
      simp only [List.map_cons, List.sum_cons, List.sum_map_add, ih others]
      simp only [own, Option.some.injEq, sum_alone distinct member]

theorem min_sum_min {count : Item → Int} {items : List Item} {bound : Int}
    (within : 0 ≤ bound) (nonneg : ∀ item ∈ items, 0 ≤ count item) :
    min (items.map fun item => min (count item) bound).sum bound =
      min (items.map count).sum bound := by
  induction items with
  | nil => rfl
  | cons item items ih =>
      obtain ⟨first, others⟩ := List.forall_mem_cons.mp nonneg
      have cut := ih others
      have total : 0 ≤ (items.map count).sum := List.sum_nonneg (List.forall_mem_map.mpr others)
      have cutTotal : 0 ≤ (items.map fun item => min (count item) bound).sum :=
        List.sum_nonneg (List.forall_mem_map.mpr fun item member =>
          le_min (others item member) within)
      simp only [List.map_cons, List.sum_cons]
      omega

end Library
