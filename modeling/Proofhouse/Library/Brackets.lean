import Mathlib.Data.List.Count

/-!
# Matched brackets

Symbol runs in which brackets match, and the deletion of matched pairs from a
run, which leaves every other symbol where it was.
-/

set_option autoImplicit false

namespace Library

section

variable {σ : Type} (opening closing : σ)

inductive Balanced : List σ → Prop where
  | nil : Balanced []
  | plain {symbol} : symbol ≠ opening → symbol ≠ closing → Balanced [symbol]
  | bracketed {inner} : Balanced inner → Balanced (opening :: (inner ++ [closing]))
  | append {left right} : Balanced left → Balanced right → Balanced (left ++ right)

/-- `Strips symbols rest`: deleting matched pairs of brackets from `symbols`, none
or some, leaves `rest`. -/
inductive Strips : List σ → List σ → Prop where
  | refl {symbols} : Strips symbols symbols
  | pair {before inner after rest} : Balanced opening closing inner →
      Strips (before ++ (inner ++ after)) rest →
      Strips (before ++ opening :: (inner ++ closing :: after)) rest

end

variable {σ : Type} {opening closing : σ}

theorem Balanced.cons {symbol : σ} {symbols : List σ} (notOpening : symbol ≠ opening)
    (notClosing : symbol ≠ closing) (balanced : Balanced opening closing symbols) :
    Balanced opening closing (symbol :: symbols) :=
  .append (.plain notOpening notClosing) balanced

namespace Strips

theorem trans {symbols middle rest : List σ} (strips : Strips opening closing symbols middle)
    (goesOn : Strips opening closing middle rest) : Strips opening closing symbols rest := by
  induction strips with
  | refl => exact goesOn
  | pair balanced _ ih => exact .pair balanced (ih goesOn)

theorem appendLeft {symbols rest : List σ} (kept : List σ)
    (strips : Strips opening closing symbols rest) :
    Strips opening closing (kept ++ symbols) (kept ++ rest) := by
  induction strips with
  | refl => exact .refl
  | @pair before inner after rest balanced _ ih =>
      rw [← List.append_assoc] at ih ⊢
      exact .pair balanced ih

theorem appendRight {symbols rest : List σ} (kept : List σ)
    (strips : Strips opening closing symbols rest) :
    Strips opening closing (symbols ++ kept) (rest ++ kept) := by
  induction strips with
  | refl => exact .refl
  | @pair before inner after rest balanced _ ih =>
      have whole : Strips opening closing
          (before ++ opening :: (inner ++ closing :: (after ++ kept))) (rest ++ kept) :=
        .pair balanced (by simpa using ih)
      simpa using whole

theorem append {left leftRest right rightRest : List σ}
    (onLeft : Strips opening closing left leftRest)
    (onRight : Strips opening closing right rightRest) :
    Strips opening closing (left ++ right) (leftRest ++ rightRest) :=
  (onLeft.appendRight right).trans (onRight.appendLeft leftRest)

theorem bracketed {inner rest : List σ} (strips : Strips opening closing inner rest) :
    Strips opening closing (opening :: (inner ++ [closing])) (opening :: (rest ++ [closing])) :=
  (strips.appendRight [closing]).appendLeft [opening]

theorem unwrap {inner : List σ} (balanced : Balanced opening closing inner) :
    Strips opening closing (opening :: (inner ++ [closing])) inner := by
  have whole : Strips opening closing ([] ++ opening :: (inner ++ closing :: [])) inner :=
    .pair balanced (by simpa using Strips.refl)
  exact whole

theorem count_le [BEq σ] {symbols rest : List σ} (strips : Strips opening closing symbols rest)
    (symbol : σ) : rest.count symbol ≤ symbols.count symbol := by
  induction strips with
  | refl => exact Nat.le_refl _
  | pair _ _ ih =>
      simp only [List.count_append, List.count_cons] at ih ⊢
      omega

end Strips

end Library
