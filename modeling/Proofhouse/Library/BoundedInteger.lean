import Mathlib.Algebra.Order.Group.Unbundled.Int

/-!
# Bounded integers

Integers between two bounds, with the arithmetic of a fixed-width machine type:
a checked operation has no result outside the bounds, a saturating one stops
at them.
-/

set_option autoImplicit false

namespace Library

@[ext] structure BoundedInteger (least greatest : Int) where
  value : Int
  least_le : least ≤ value
  le_greatest : value ≤ greatest
  deriving DecidableEq, Repr

namespace BoundedInteger

variable {least greatest : Int}

/-- The bounded integer of this value, where the bounds admit it. -/
def ofInt? (value : Int) : Option (BoundedInteger least greatest) :=
  if admitted : least ≤ value ∧ value ≤ greatest then some ⟨value, admitted.1, admitted.2⟩
  else none

/-- The admitted value closest to this one. -/
def clamp (ordered : least ≤ greatest) (value : Int) : BoundedInteger least greatest :=
  ⟨max least (min value greatest), Int.le_max_left _ _,
    Int.max_le.mpr ⟨ordered, Int.min_le_right _ _⟩⟩

@[simp] theorem ofInt?_eq_some_iff {value : Int} {bounded : BoundedInteger least greatest} :
    ofInt? value = some bounded ↔ bounded.value = value := by
  unfold ofInt?
  split
  · constructor
    · intro same
      cases same
      rfl
    · intro same
      simp only [Option.some.injEq]
      exact BoundedInteger.ext same.symm
  · rename_i refused
    constructor
    · intro same
      cases same
    · intro same
      exact absurd ⟨same ▸ bounded.least_le, same ▸ bounded.le_greatest⟩ refused

@[simp] theorem ofInt?_eq_none_iff {value : Int} :
    (ofInt? value : Option (BoundedInteger least greatest)) = none ↔
      ¬ (least ≤ value ∧ value ≤ greatest) := by
  unfold ofInt?
  split <;> simp_all

theorem clamp_value {ordered : least ≤ greatest} {value : Int} (admitted : least ≤ value) :
    (clamp ordered value).value = min value greatest := by
  simp only [clamp]
  omega

def checkedAdd (left right : BoundedInteger least greatest) :
    Option (BoundedInteger least greatest) :=
  ofInt? (left.value + right.value)

def checkedSub (left right : BoundedInteger least greatest) :
    Option (BoundedInteger least greatest) :=
  ofInt? (left.value - right.value)

def checkedMul (left right : BoundedInteger least greatest) :
    Option (BoundedInteger least greatest) :=
  ofInt? (left.value * right.value)

def checkedNeg (operand : BoundedInteger least greatest) :
    Option (BoundedInteger least greatest) :=
  ofInt? (-operand.value)

def saturatingAdd (left right : BoundedInteger least greatest) :
    BoundedInteger least greatest :=
  clamp (left.least_le.trans left.le_greatest) (left.value + right.value)

end BoundedInteger

end Library
