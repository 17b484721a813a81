import Mathlib.Algebra.Order.BigOperators.Group.List
import Mathlib.Algebra.Ring.Int.Defs
import Proofhouse.Library.BoundedInteger

/-!
# Saturating sums

Adding up counts with an addition that stops at the bound. Counts are never
negative, so the partial sums only grow, and stopping at every step is stopping
once, at the end.
-/

set_option autoImplicit false

namespace Library

/-- A part never above its whole adds up to the whole only where they agree
everywhere. -/
theorem sum_eq_sum_iff_of_le {Item : Type} {part whole : Item → Int} {items : List Item}
    (within : ∀ item ∈ items, part item ≤ whole item) :
    (items.map part).sum = (items.map whole).sum ↔
      ∀ item ∈ items, part item = whole item := by
  induction items with
  | nil => simp
  | cons item items ih =>
    have head := within item List.mem_cons_self
    have tail : ∀ item ∈ items, part item ≤ whole item :=
      fun item member => within item (List.mem_cons_of_mem _ member)
    have below : (items.map part).sum ≤ (items.map whole).sum := List.sum_le_sum tail
    simp only [List.map_cons, List.sum_cons, List.forall_mem_cons]
    constructor
    · intro same
      exact ⟨by omega, (ih tail).mp (by omega)⟩
    · intro agree
      obtain ⟨same, rest⟩ := agree
      rw [same, (ih tail).mpr rest]

/-- Two sums cut off at one bound agree where the sums do, or where the smaller
one has reached the bound already. -/
theorem min_sum_eq_min_sum_iff {Item : Type} {part whole : Item → Int} {items : List Item}
    (within : ∀ item ∈ items, part item ≤ whole item) (bound : Int) :
    min (items.map part).sum bound = min (items.map whole).sum bound ↔
      (∀ item ∈ items, part item = whole item) ∨ bound ≤ (items.map part).sum := by
  have below : (items.map part).sum ≤ (items.map whole).sum := List.sum_le_sum within
  rw [← sum_eq_sum_iff_of_le within]
  omega

theorem sum_pos_iff_of_nonneg {Item : Type} {count : Item → Int} {items : List Item}
    (nonneg : ∀ item ∈ items, 0 ≤ count item) :
    0 < (items.map count).sum ↔ ∃ item ∈ items, 0 < count item := by
  have zero : (items.map fun _ => (0 : Int)).sum = (items.map count).sum ↔
      ∀ item ∈ items, 0 = count item := sum_eq_sum_iff_of_le nonneg
  have total : (items.map fun _ => (0 : Int)).sum = 0 := by simp
  have above : 0 ≤ (items.map count).sum := total ▸ List.sum_le_sum nonneg
  constructor
  · intro positive
    by_contra absent
    push Not at absent
    have allZero : ∀ item ∈ items, 0 = count item :=
      fun item member => le_antisymm (nonneg item member) (absent item member)
    have := zero.mpr allZero
    omega
  · intro positiveItem
    obtain ⟨item, member, positive⟩ := positiveItem
    by_contra empty
    have := zero.mp (by omega) item member
    omega

namespace BoundedInteger

variable {greatest : Int}

theorem saturatingAdd_value (left right : BoundedInteger 0 greatest) :
    (left.saturatingAdd right).value = min (left.value + right.value) greatest :=
  clamp_value (Int.add_nonneg left.least_le right.least_le)

theorem saturatingAdd_of_value_eq_zero (left : BoundedInteger 0 greatest)
    {right : BoundedInteger 0 greatest} (zero : right.value = 0) :
    left.saturatingAdd right = left := by
  have upper := left.le_greatest
  apply BoundedInteger.ext
  rw [saturatingAdd_value, zero]
  omega

theorem foldl_saturatingAdd_value (start : BoundedInteger 0 greatest)
    (counts : List (BoundedInteger 0 greatest)) :
    (counts.foldl saturatingAdd start).value =
      min (start.value + (counts.map value).sum) greatest := by
  induction counts generalizing start with
  | nil =>
    have upper := start.le_greatest
    simp [upper]
  | cons count counts ih =>
    have rest : 0 ≤ (counts.map value).sum :=
      List.sum_nonneg (by
        intro amount member
        obtain ⟨counted, -, rfl⟩ := List.mem_map.mp member
        exact counted.least_le)
    rw [List.foldl_cons, ih, saturatingAdd_value, List.map_cons, List.sum_cons]
    omega

end BoundedInteger

end Library
