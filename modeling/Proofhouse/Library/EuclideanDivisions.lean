import Mathlib.Data.Nat.Fib.Basic

/-!
# Divisions of Euclid's algorithm

How many divisions a pair takes, and the Fibonacci numbers the pair must be as
large as for that many.
-/

set_option autoImplicit false

namespace Library

/-- The divisions that Euclid's algorithm makes before nothing is left over. -/
def divisions (larger smaller : Nat) : Nat :=
  if smaller = 0 then 0 else divisions smaller (larger % smaller) + 1
termination_by smaller
decreasing_by exact Nat.mod_lt _ (Nat.pos_of_ne_zero ‹_›)

theorem divisions_zero (larger : Nat) : divisions larger 0 = 0 := by
  rw [divisions, if_pos rfl]

theorem divisions_of_ne_zero {larger smaller : Nat} (nonzero : smaller ≠ 0) :
    divisions larger smaller = divisions smaller (larger % smaller) + 1 := by
  rw [divisions, if_neg nonzero]

theorem smaller_add_mod_le {larger smaller : Nat} (less : smaller ≤ larger)
    (nonzero : smaller ≠ 0) :
    smaller + larger % smaller ≤ larger := by
  have quotient := Nat.div_pos less (Nat.pos_of_ne_zero nonzero)
  calc smaller + larger % smaller
      ≤ smaller * (larger / smaller) + larger % smaller :=
        Nat.add_le_add_right (Nat.le_mul_of_pos_right smaller quotient) _
    _ = larger := Nat.div_add_mod larger smaller

/-- Every division raises both bounds to the next Fibonacci number: what was
divided holds at least what divides and what is left over. -/
theorem fib_le_of_divisions {larger smaller : Nat} (less : smaller < larger) :
    Nat.fib (divisions larger smaller + 2) ≤ larger ∧
      (smaller ≠ 0 → Nat.fib (divisions larger smaller + 1) ≤ smaller) := by
  induction larger, smaller using divisions.induct with
  | case1 larger =>
      rw [divisions_zero]
      exact ⟨Nat.succ_le_of_lt less, fun nonzero => absurd rfl nonzero⟩
  | case2 larger smaller nonzero ih =>
      obtain ⟨onSmaller, onRest⟩ := ih (Nat.mod_lt _ (Nat.pos_of_ne_zero nonzero))
      rw [divisions_of_ne_zero nonzero]
      refine ⟨?_, fun _ => onSmaller⟩
      have sum := smaller_add_mod_le less.le nonzero
      by_cases exactly : larger % smaller = 0
      · rw [exactly, divisions_zero] at *
        change 2 ≤ larger
        omega
      · have rest := onRest exactly
        calc Nat.fib (divisions smaller (larger % smaller) + 1 + 2)
            = Nat.fib (divisions smaller (larger % smaller) + 1) +
                Nat.fib (divisions smaller (larger % smaller) + 2) := Nat.fib_add_two
          _ ≤ larger % smaller + smaller := Nat.add_le_add rest onSmaller
          _ ≤ larger := by omega

end Library
