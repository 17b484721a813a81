import Mathlib.Algebra.Order.Group.Abs
import Mathlib.Algebra.Order.Group.Int
import Proofhouse.Library.BoundedInteger
import Proofhouse.Library.Decimal

/-!
# Machine integers

The fixed-width integers of the crate: `i64` for literals and rationals, `u32`
for coverage counts, `u8` for precedence levels.
-/

set_option autoImplicit false

namespace Proofhouse

open Library

abbrev I64 := BoundedInteger (-9223372036854775808) 9223372036854775807

abbrev U32 := BoundedInteger 0 4294967295

namespace I64

def min : I64 := ⟨-9223372036854775808, by decide, by decide⟩

def max : I64 := ⟨9223372036854775807, by decide, by decide⟩

def zero : I64 := ⟨0, by decide, by decide⟩

/-- `str::parse::<i64>`: an optional sign, then digits, within the type. -/
def parse? (text : String) : Option I64 :=
  (readSigned? text.toList).bind BoundedInteger.ofInt?

/-- `i64::rem_euclid`. The source panics on a zero divisor, which its callers
never pass. -/
def remEuclid (dividend divisor : I64) : I64 :=
  ⟨dividend.value % divisor.value, by
    have lower := dividend.least_le
    by_cases zero : divisor.value = 0
    · simpa [zero] using lower
    · have nonnegative := Int.emod_nonneg dividend.value zero
      omega, by
    have upper := dividend.le_greatest
    by_cases zero : divisor.value = 0
    · simpa [zero] using upper
    · have bounded := Int.emod_lt_abs dividend.value zero
      have lowest := divisor.least_le
      have highest := divisor.le_greatest
      have magnitude : |divisor.value| ≤ 9223372036854775808 :=
        abs_le.mpr ⟨lowest, by omega⟩
      omega⟩

/-- `i64::checked_rem_euclid`: no remainder where `rem_euclid` panics. -/
def checkedRemEuclid (dividend divisor : I64) : Option I64 :=
  if divisor.value = 0 ∨ dividend = min ∧ divisor.value = -1 then none
  else some (dividend.remEuclid divisor)

/-- The truncating `/` on `i64`. The source panics on a zero divisor and on the
one quotient past the range, where this stops at the bound. -/
def div (dividend divisor : I64) : I64 :=
  BoundedInteger.clamp (by decide) (dividend.value.tdiv divisor.value)

/-- `i64::checked_div`: no quotient where `/` panics. -/
def checkedDiv (dividend divisor : I64) : Option I64 :=
  if divisor.value = 0 then none
  else BoundedInteger.ofInt? (dividend.value.tdiv divisor.value)

theorem parse?_of_digitRun {text : String} (digits : DigitRun text.toList) :
    parse? text = BoundedInteger.ofInt? (decimalValue text.toList : Int) := by
  simp [parse?, readSigned?_of_digitRun digits]

end I64

namespace U32

def zero : U32 := ⟨0, by decide, by decide⟩

def max : U32 := ⟨4294967295, by decide, by decide⟩

def ofFin (number : Fin 4294967296) : U32 :=
  ⟨number, by omega, by omega⟩

end U32

/-- `u8::saturating_add`, on the precedence levels. -/
def saturatingAddU8 (left right : Nat) : Nat :=
  Nat.min (left + right) 255

end Proofhouse
