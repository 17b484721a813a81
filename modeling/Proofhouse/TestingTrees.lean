import Proofhouse.Denotation
import Proofhouse.FormatterRoundTrip
import Proofhouse.RationalValues
import Proofhouse.TestingProperties

/-!
# Drawn trees and texts

The tree generator draws nothing but trees the parser can build, down to its depth.
The text generator spells each of them in its one canonical way.
-/

set_option autoImplicit false

namespace Proofhouse

/-- How many branches stack above the deepest leaf. -/
def Expr.depth : Expr → Nat
  | .number _ => 0
  | .unaryOp _ operand => operand.depth + 1
  | .binaryOp _ left right => max left.depth right.depth + 1

section Draws

variable {lib : Proptest}

theorem draws_leaf_iff (documented : lib.Documented) {expr : Expr} :
    lib.Draws (lib.map (lib.range I64.zero I64.max) .number) expr ↔
      ∃ value : I64, 0 ≤ value.value ∧ expr = .number value := by
  simp only [documented.draws_map, documented.draws_range]
  constructor
  · rintro ⟨value, ⟨nonnegative, -⟩, same⟩
    exact ⟨value, nonnegative, same⟩
  · rintro ⟨value, nonnegative, same⟩
    exact ⟨value, ⟨nonnegative, value.le_greatest⟩, same⟩

theorem draws_binaryOperators (documented : lib.Documented) (op : BinaryOperator) :
    lib.Draws (binaryOperators lib) op := by
  simp only [binaryOperators, documented.draws_oneOf, List.mem_cons, exists_eq_or_imp,
    documented.draws_just, List.not_mem_nil, or_false, exists_eq_left]
  cases op <;> simp

/-- No literal is negative, and at most so many branches stack. -/
structure Expr.Drawable (maxDepth : Nat) (expr : Expr) : Prop where
  literals : ∀ value ∈ expr.literals, 0 ≤ value.value
  shallow : expr.depth ≤ maxDepth

theorem drawable_of_draws (documented : lib.Documented) {maxDepth : Nat} {expr : Expr}
    (drawn : lib.Draws (expressions lib maxDepth) expr) : expr.Drawable maxDepth := by
  have nested := documented.nested_of_draws_recursive drawn
  clear drawn
  induction nested with
  | leaf drawn =>
      obtain ⟨value, nonnegative, rfl⟩ := (draws_leaf_iff documented).mp drawn
      exact ⟨List.forall_mem_singleton.mpr nonnegative, Nat.zero_le _⟩
  | branch inner _ drawn ih =>
      simp only [documented.draws_oneOf, List.mem_cons, exists_eq_or_imp, documented.draws_map,
        documented.draws_triple, List.not_mem_nil, or_false, exists_eq_left] at drawn
      rcases drawn with ⟨operand, fromInner, rfl⟩ | ⟨⟨op, left, right⟩, ⟨-, onLeft, onRight⟩, rfl⟩
      · obtain ⟨literals, shallow⟩ := ih operand fromInner
        exact ⟨literals, Nat.succ_le_succ shallow⟩
      · obtain ⟨leftLiterals, leftShallow⟩ := ih left onLeft
        obtain ⟨rightLiterals, rightShallow⟩ := ih right onRight
        exact ⟨List.forall_mem_append.mpr ⟨leftLiterals, rightLiterals⟩,
          Nat.succ_le_succ (Nat.max_le.mpr ⟨leftShallow, rightShallow⟩)⟩

end Draws

/-- A library that leaves out no nested value draws them all. -/
theorem sets_draws_expressions {maxDepth : Nat} {expr : Expr} (drawable : expr.Drawable maxDepth) :
    Proptest.sets.Draws (expressions Proptest.sets maxDepth) expr := by
  have documented := Proptest.sets_documented
  obtain ⟨literals, shallow⟩ := drawable
  induction maxDepth generalizing expr with
  | zero =>
      cases expr with
      | number value =>
          exact (draws_leaf_iff documented).mpr
            ⟨value, literals value (List.mem_singleton_self value), rfl⟩
      | unaryOp | binaryOp => exact absurd shallow (Nat.not_succ_le_zero _)
  | succ maxDepth ih =>
      cases expr with
      | number value => exact .inl (ih literals (Nat.zero_le _))
      | unaryOp op operand =>
          cases op
          have below := @ih operand literals (Nat.le_of_succ_le_succ shallow)
          exact .inr ⟨_, List.mem_cons_self, operand, below, rfl⟩
      | binaryOp op left right =>
          obtain ⟨leftLiterals, rightLiterals⟩ := List.forall_mem_append.mp literals
          obtain ⟨leftShallow, rightShallow⟩ := Nat.max_le.mp (Nat.le_of_succ_le_succ shallow)
          exact .inr ⟨_, List.mem_cons_of_mem _ List.mem_cons_self, (op, left, right),
            ⟨draws_binaryOperators documented op, ih leftLiterals leftShallow,
              ih rightLiterals rightShallow⟩, rfl⟩

/-- Every tree the generator draws is one its rendering spells, and no deeper than
asked for. -/
theorem expressions_spelled {lib : Proptest} (documented : lib.Documented) {maxDepth : Nat}
    {expr : Expr} (drawn : lib.Draws (expressions lib maxDepth) expr) :
    parse (formatExpr expr) = .ok expr ∧ expr.depth ≤ maxDepth := by
  obtain ⟨literals, shallow⟩ := drawable_of_draws documented drawn
  exact ⟨parse_formatExpr_of_nonneg literals, shallow⟩

/-- A minus over a product with the greatest literal stacks three branches. -/
theorem expressions_spelled_product :
    ∃ expr, Proptest.sets.Draws (expressions Proptest.sets 3) expr ∧
      parse "-((1 - 2) * 9223372036854775807)" = .ok expr ∧ expr.depth ≤ 3 := by
  let expr : Expr := .unaryOp .neg (.binaryOp .mul
    (.binaryOp .sub (.number ⟨1, by decide, by decide⟩) (.number ⟨2, by decide, by decide⟩))
    (.number I64.max))
  have drawn := @sets_draws_expressions 3 expr ⟨by decide, by decide⟩
  obtain ⟨parsed, shallow⟩ := expressions_spelled Proptest.sets_documented drawn
  have rendered : formatExpr expr = "-((1 - 2) * 9223372036854775807)" := by decide +kernel
  exact ⟨expr, drawn, rendered ▸ parsed, shallow⟩

/-- Every text the generator draws parses, within the depth asked for, and formatting
leaves it as it is. -/
theorem expressionTexts_canonical {lib : Proptest} (documented : lib.Documented) {maxDepth : Nat}
    {text : String} (drawn : lib.Draws (expressionTexts lib maxDepth) text) :
    ∃ expr, parse text = .ok expr ∧ formatExpr expr = text ∧ expr.depth ≤ maxDepth := by
  obtain ⟨expr, isTree, rfl⟩ := documented.draws_map.mp drawn
  obtain ⟨literals, shallow⟩ := drawable_of_draws documented isTree
  exact ⟨expr, parse_formatExpr_of_nonneg literals, rfl, shallow⟩

theorem expressionTexts_canonical_difference :
    Proptest.sets.Draws (expressionTexts Proptest.sets 2) "1 - (2 - 3)" ∧
      ∃ expr, parse "1 - (2 - 3)" = .ok expr ∧ formatExpr expr = "1 - (2 - 3)" ∧
        expr.depth ≤ 2 := by
  let expr : Expr := .binaryOp .sub (.number ⟨1, by decide, by decide⟩)
    (.binaryOp .sub (.number ⟨2, by decide, by decide⟩) (.number ⟨3, by decide, by decide⟩))
  have rendered : "1 - (2 - 3)" = formatExpr expr := by decide +kernel
  have drawn : Proptest.sets.Draws (expressionTexts Proptest.sets 2) "1 - (2 - 3)" :=
    Proptest.sets_documented.draws_map.mpr
      ⟨expr, sets_draws_expressions ⟨by decide, by decide⟩, rendered⟩
  exact ⟨drawn, expressionTexts_canonical Proptest.sets_documented drawn⟩

/-- A drawn text fails in the walk if at all, and its value is in lowest terms:
building it again from its halves leaves it alone. -/
theorem evaluateText_drawn {lib : Proptest} (documented : lib.Documented) {maxDepth : Nat}
    {text : String} (drawn : lib.Draws (expressionTexts lib maxDepth) text) :
    (∃ rational, evaluateText text = .ok rational ∧ 0 < rational.denominator.value ∧
      Rational.new rational.numerator rational.denominator = .ok rational) ∨
    ∃ error, evaluateText text = .error (.eval error) := by
  obtain ⟨expr, isTree, rfl⟩ := documented.draws_map.mp drawn
  have parsed := parse_formatExpr_of_nonneg (drawable_of_draws documented isTree).literals
  have sound := evaluate_sound expr
  have walked : evaluateText (formatExpr expr) = (evaluate expr).mapError .eval := by
    rw [evaluateText, parsed]
    rfl
  rw [walked]
  generalize expr.denote = value at sound
  generalize evaluate expr = result at sound
  cases sound with
  | @value rational reduced => exact .inl ⟨rational, rfl, reduced.positive, reduced.new_eq⟩
  | undefined => exact .inr ⟨.divisionByZero, rfl⟩
  | overflow => exact .inr ⟨.overflow, rfl⟩

/-- A drawn quotient comes out in lowest terms, and one by zero fails in the walk. -/
theorem evaluateText_drawn_quotients :
    (∃ rational, evaluateText "6 / 4" = .ok rational ∧
      Rational.new rational.numerator rational.denominator = .ok rational) ∧
    ∃ error, evaluateText "6 / 0" = .error (.eval error) := by
  have quotient {text : String} {divisor : I64} (nonnegative : 0 ≤ divisor.value)
      (rendered : text =
        formatExpr (.binaryOp .div (.number ⟨6, by decide, by decide⟩) (.number divisor))) :
      Proptest.sets.Draws (expressionTexts Proptest.sets 1) text := by
    refine Proptest.sets_documented.draws_map.mpr ⟨_, sets_draws_expressions ?_, rendered⟩
    exact ⟨List.forall_mem_cons.mpr ⟨by decide, List.forall_mem_singleton.mpr nonnegative⟩,
      Nat.le_refl 1⟩
  have halves := @quotient "6 / 4" ⟨4, by decide, by decide⟩ (by decide) (by decide +kernel)
  have undefined := @quotient "6 / 0" I64.zero (by decide) (by decide +kernel)
  constructor
  · rcases evaluateText_drawn Proptest.sets_documented halves with
      ⟨rational, evaluated, -, again⟩ | ⟨error, failed⟩
    · exact ⟨rational, evaluated, again⟩
    · have succeeded : (evaluateText "6 / 4").isOk = true := by decide +kernel
      rw [failed] at succeeded
      cases succeeded
  · rcases evaluateText_drawn Proptest.sets_documented undefined with
      ⟨rational, evaluated, -⟩ | failed
    · have failed : (evaluateText "6 / 0").isOk = false := by decide +kernel
      rw [evaluated] at failed
      cases failed
    · exact failed

end Proofhouse
