import Mathlib.Init

/-!
# Decimal digit runs

Digit runs, the numbers they stand for, and the reading of an optionally signed
run. The canonical run of a number is the one `Nat.toDigits` writes.
-/

set_option autoImplicit false

namespace Library

/-- A nonempty run of decimal digits, any number of leading zeros included. -/
def DigitRun (run : List Char) : Prop :=
  run ≠ [] ∧ ∀ digit ∈ run, digit.isDigit = true

instance (run : List Char) : Decidable (DigitRun run) :=
  @instDecidableAnd _ _ inferInstance (List.decidableBAll _ run)

def decimalValue (run : List Char) : Nat :=
  Nat.ofDigitChars 10 run 0

def readDigits? (run : List Char) : Option Nat :=
  if DigitRun run then some (decimalValue run) else none

/-- The integer a digit run stands for behind at most one sign. -/
def readSigned? : List Char → Option Int
  | '+' :: run => (readDigits? run).map Int.ofNat
  | '-' :: run => (readDigits? run).map fun magnitude => -Int.ofNat magnitude
  | run => (readDigits? run).map Int.ofNat

theorem digitRun_toDigits (number : Nat) : DigitRun (Nat.toDigits 10 number) :=
  ⟨Nat.toDigits_ne_nil, fun _ member =>
    Nat.isDigit_of_mem_toDigits (by decide) (by decide) member⟩

@[simp] theorem decimalValue_toDigits (number : Nat) :
    decimalValue (Nat.toDigits 10 number) = number :=
  Nat.ofDigitChars_ten_toDigits

theorem readDigits?_of_digitRun {run : List Char} (digits : DigitRun run) :
    readDigits? run = some (decimalValue run) :=
  if_pos digits

/-- An unsigned run reads as its own value: no digit is a sign. -/
theorem readSigned?_of_digitRun {run : List Char} (digits : DigitRun run) :
    readSigned? run = some (decimalValue run : Int) := by
  unfold readSigned?
  split
  · exact absurd (digits.2 '+' (by simp)) (by decide)
  · exact absurd (digits.2 '-' (by simp)) (by decide)
  · rw [readDigits?_of_digitRun digits]
    rfl

end Library
