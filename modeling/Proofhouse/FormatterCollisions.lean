import Proofhouse.Evaluator
import Proofhouse.FormatterRoundTrip

/-!
# Trees of one rendering

A negative literal renders as a prefix minus on its magnitude, so two trees can
share a rendering. They then read alike: the same operators over the same
magnitudes, with operands that share their renderings and values that agree.
-/

set_option autoImplicit false

namespace Proofhouse

open Library

/-- The tree a rendering spells when literals are magnitudes of any size. -/
inductive Reading where
  | literal (magnitude : Nat)
  | negation (operand : Reading)
  | operation (op : BinaryOperator) (left right : Reading)
  deriving DecidableEq

def Expr.reading : Expr → Reading
  | .number value =>
      if value.value < 0 then .negation (.literal value.value.natAbs)
      else .literal value.value.natAbs
  | .unaryOp .neg operand => .negation operand.reading
  | .binaryOp op left right => .operation op left.reading right.reading

/-- Trees that differ at most in where a negative literal stands for a prefix
minus over its magnitude. -/
inductive Expr.Alike : Expr → Expr → Prop where
  | number (value : I64) : Alike (.number value) (.number value)
  | folded {value magnitude : I64} : value.value < 0 → value.value = -magnitude.value →
      Alike (.unaryOp .neg (.number magnitude)) (.number value)
  | unfolded {value magnitude : I64} : value.value < 0 → value.value = -magnitude.value →
      Alike (.number value) (.unaryOp .neg (.number magnitude))
  | unaryOp (op : UnaryOperator) {first second : Expr} : Alike first second →
      Alike (.unaryOp op first) (.unaryOp op second)
  | binaryOp (op : BinaryOperator) {left leftOther right rightOther : Expr} :
      Alike left leftOther → Alike right rightOther →
      Alike (.binaryOp op left right) (.binaryOp op leftOther rightOther)

/-- The grammar of expressions with readings for its values. -/
def readingGrammar : OperatorGrammar Token Reading :=
  tokenGrammar (fun lexeme => (readDigits? lexeme.toList).map Reading.literal) .negation .operation
    (by decide)

private theorem derives_magnitude {token : Token} {magnitude : Nat}
    (spelled : token.face = (.number, toString magnitude)) :
    readingGrammar.Derives .operand [token] (.literal magnitude) := by
  simp only [Token.face, Prod.mk.injEq] at spelled
  refine .literal ?_
  simp only [readingGrammar, tokenGrammar, openingWith, spelled.1, spelled.2,
    readDigits?_of_digitRun (Formatter.digitRun_toString magnitude),
    Formatter.decimalValue_toString, Option.map_some]

private theorem derives_reading_literal {value : I64} {tokens : List Token}
    (spelled : tokens.map Token.face = Formatter.literalFaces value) :
    readingGrammar.Derives .operand tokens (Expr.number value).reading := by
  rw [Formatter.literalFaces] at spelled
  rw [Expr.reading]
  by_cases negative : value.value < 0
  · rw [if_pos negative] at spelled ⊢
    obtain ⟨minus, digits, rfl, isMinus, spelledDigits⟩ := List.map_eq_cons_iff.mp spelled
    obtain ⟨token, none, rfl, isNumber, ends⟩ := List.map_eq_cons_iff.mp spelledDigits
    cases List.map_eq_nil_iff.mp ends
    simp only [Token.face, Prod.mk.injEq] at isMinus
    refine .prefixed ?_ (derives_magnitude isNumber)
    simp only [readingGrammar, tokenGrammar, openingWith, isMinus.1]
  · rw [if_neg negative] at spelled ⊢
    obtain ⟨token, none, rfl, isNumber, ends⟩ := List.map_eq_cons_iff.mp spelled
    cases List.map_eq_nil_iff.mp ends
    exact derives_magnitude isNumber

theorem derives_reading {expr : Expr} {tokens : List Token}
    (spelled : tokens.map Token.face = Formatter.faces expr) :
    readingGrammar.Derives (.chain additive) tokens expr.reading :=
  Formatter.derives_loosest (Formatter.derives_of_faces Expr.reading (fun _ => rfl)
    (fun _ _ _ => rfl) (fun _ _ _ => derives_reading_literal) spelled)

theorem reading_eq_of_formatExpr_eq {first second : Expr}
    (same : formatExpr first = formatExpr second) : first.reading = second.reading := by
  obtain ⟨tokens, scanned, spelled⟩ := Formatter.tokenize_formatExpr first
  obtain ⟨others, rescanned, respelled⟩ := Formatter.tokenize_formatExpr second
  rw [← same, scanned] at rescanned
  cases rescanned
  exact (derives_reading spelled).unique (derives_reading respelled)

section Readings

variable {first second : Expr}

theorem eq_number_of_reading_literal {expr : Expr} {magnitude : Nat}
    (reads : expr.reading = .literal magnitude) :
    ∃ value : I64, expr = .number value ∧ value.value = magnitude := by
  cases expr with
  | number value =>
      rw [Expr.reading] at reads
      split at reads
      · cases reads
      · cases reads
        exact ⟨value, rfl, by omega⟩
  | unaryOp op operand => cases op; cases reads
  | binaryOp => cases reads

theorem reading_negation_cases {expr : Expr} {operand : Reading}
    (reads : expr.reading = .negation operand) :
    (∃ value : I64, expr = .number value ∧ value.value < 0 ∧
        operand = .literal value.value.natAbs) ∨
      ∃ inner, expr = .unaryOp .neg inner ∧ inner.reading = operand := by
  cases expr with
  | number value =>
      rw [Expr.reading] at reads
      split at reads
      · next negative =>
        cases reads
        exact .inl ⟨value, rfl, negative, rfl⟩
      · cases reads
  | unaryOp op inner =>
      cases op
      cases reads
      exact .inr ⟨inner, rfl, rfl⟩
  | binaryOp => cases reads

theorem reading_operation_cases {expr : Expr} {op : BinaryOperator} {left right : Reading}
    (reads : expr.reading = .operation op left right) :
    ∃ leftExpr rightExpr, expr = .binaryOp op leftExpr rightExpr ∧
      leftExpr.reading = left ∧ rightExpr.reading = right := by
  cases expr with
  | number value =>
      rw [Expr.reading] at reads
      split at reads <;> cases reads
  | unaryOp op operand => cases op; cases reads
  | binaryOp op leftExpr rightExpr =>
      cases reads
      exact ⟨leftExpr, rightExpr, rfl, rfl, rfl⟩

theorem evaluate_neg_number {magnitude value : I64} (flips : value.value = -magnitude.value) :
    evaluate (.unaryOp .neg (.number magnitude)) = evaluate (.number value) := by
  have flipped : magnitude.checkedNeg = some value := BoundedInteger.ofInt?_eq_some_iff.mpr flips
  change (orOverflow magnitude.checkedNeg >>= fun numerator => _) = _
  rw [flipped]
  rfl

theorem reading_neg_number {magnitude value : I64} (negative : value.value < 0)
    (flips : value.value = -magnitude.value) :
    (Expr.unaryOp .neg (.number magnitude)).reading = (Expr.number value).reading := by
  have magnitudes : magnitude.value.natAbs = value.value.natAbs := by omega
  rw [Expr.reading, Expr.reading, Expr.reading, if_neg (by omega), if_pos negative, magnitudes]

theorem Expr.Alike.reading_eq (alike : first.Alike second) : first.reading = second.reading := by
  induction alike with
  | number => rfl
  | folded negative flips => exact reading_neg_number negative flips
  | unfolded negative flips => exact (reading_neg_number negative flips).symm
  | unaryOp op _ ih => cases op; rw [reading, reading, ih]
  | binaryOp op _ _ leftIH rightIH => rw [reading, reading, leftIH, rightIH]

/-- Equal readings leave the trees free only at minuses over literals. -/
theorem alike_of_reading_eq (same : first.reading = second.reading) : first.Alike second := by
  induction first generalizing second with
  | number value =>
      rw [Expr.reading] at same
      by_cases negative : value.value < 0
      · rw [if_pos negative] at same
        rcases reading_negation_cases same.symm with
          ⟨other, rfl, otherNegative, magnitudes⟩ | ⟨inner, rfl, reads⟩
        · have magnitude := Reading.literal.inj magnitudes
          cases (BoundedInteger.ext (by omega) : value = other)
          exact .number value
        · obtain ⟨magnitude, rfl, sameMagnitude⟩ := eq_number_of_reading_literal reads
          exact .unfolded negative (by omega)
      · rw [if_neg negative] at same
        obtain ⟨other, rfl, sameMagnitude⟩ := eq_number_of_reading_literal same.symm
        cases (BoundedInteger.ext (by omega) : value = other)
        exact .number value
  | unaryOp op operand ih =>
      cases op
      rw [Expr.reading] at same
      rcases reading_negation_cases same.symm with ⟨value, rfl, negative, reads⟩ |
        ⟨inner, rfl, reads⟩
      · obtain ⟨magnitude, rfl, sameMagnitude⟩ := eq_number_of_reading_literal reads
        exact .folded negative (by omega)
      · exact .unaryOp .neg (ih reads.symm)
  | binaryOp op left right leftIH rightIH =>
      rw [Expr.reading] at same
      obtain ⟨leftOther, rightOther, rfl, onLeft, onRight⟩ := reading_operation_cases same.symm
      exact .binaryOp op (leftIH onLeft.symm) (rightIH onRight.symm)

/-- At a literal the walk negates what a negative literal already is. -/
theorem evaluate_congr_reading (same : first.reading = second.reading) :
    evaluate first = evaluate second := by
  induction alike_of_reading_eq same with
  | number => rfl
  | folded _ flips => exact evaluate_neg_number flips
  | unfolded _ flips => exact (evaluate_neg_number flips).symm
  | unaryOp op alike ih => cases op; simp only [evaluate, ih alike.reading_eq]
  | binaryOp op onLeft onRight leftIH rightIH =>
      simp only [evaluate, leftIH onLeft.reading_eq, rightIH onRight.reading_eq]

theorem bindingPower_lt_iff {expr : Expr} {floor : Nat} (bounded : floor ≤ Formatter.unary) :
    Formatter.bindingPower expr < floor ↔
      ∃ op left right, expr.reading = .operation op left right ∧
        (Formatter.infixPowers op).1 < floor := by
  constructor
  · intro loose
    cases expr with
    | number => exact absurd (Nat.lt_of_lt_of_le loose bounded) (by simp [Formatter.bindingPower,
        Formatter.atom, Formatter.unary])
    | unaryOp => exact absurd (Nat.lt_of_lt_of_le loose bounded) (Nat.lt_irrefl _)
    | binaryOp op left right => exact ⟨op, left.reading, right.reading, rfl, loose⟩
  · intro infixRead
    obtain ⟨op, left, right, reads, loose⟩ := infixRead
    obtain ⟨leftExpr, rightExpr, rfl, -, -⟩ := reading_operation_cases reads
    exact loose

theorem guarded_congr_reading {floor : Nat} (bounded : floor ≤ Formatter.unary)
    (same : first.reading = second.reading) (text : String) :
    Formatter.guarded first text floor = Formatter.guarded second text floor := by
  have agrees : Formatter.bindingPower first < floor ↔ Formatter.bindingPower second < floor := by
    rw [bindingPower_lt_iff bounded, bindingPower_lt_iff bounded, same]
  simp only [Formatter.guarded, agrees]

theorem formatExpr_neg_number {magnitude value : I64} (negative : value.value < 0)
    (flips : value.value = -magnitude.value) :
    formatExpr (.unaryOp .neg (.number magnitude)) = formatExpr (.number value) := by
  have guardless : Formatter.guarded (.number magnitude) (toString magnitude.value)
      Formatter.unary = toString magnitude.value :=
    if_neg (by simp [Formatter.bindingPower, Formatter.atom, Formatter.unary])
  have magnitudes : magnitude.value.natAbs = value.value.natAbs := by omega
  rw [formatExpr, formatExpr, formatExpr, guardless, ← String.toList_inj, String.toList_append,
    Formatter.toList_toString_int, Formatter.toList_toString_int, if_neg (by omega),
    if_pos negative, magnitudes]
  rfl

theorem infixPowers_le_unary (op : BinaryOperator) :
    (Formatter.infixPowers op).1 ≤ Formatter.unary ∧
      (Formatter.infixPowers op).2 ≤ Formatter.unary := by
  cases op <;> decide

theorem formatExpr_congr_reading (same : first.reading = second.reading) :
    formatExpr first = formatExpr second := by
  induction alike_of_reading_eq same with
  | number => rfl
  | folded negative flips => exact formatExpr_neg_number negative flips
  | unfolded negative flips => exact (formatExpr_neg_number negative flips).symm
  | unaryOp op alike ih =>
      cases op
      simp only [formatExpr, ih alike.reading_eq,
        guarded_congr_reading (Nat.le_refl _) alike.reading_eq]
  | binaryOp op onLeft onRight leftIH rightIH =>
      have powers := infixPowers_le_unary op
      simp only [formatExpr, leftIH onLeft.reading_eq, rightIH onRight.reading_eq,
        guarded_congr_reading powers.1 onLeft.reading_eq,
        guarded_congr_reading powers.2 onRight.reading_eq]

end Readings

/-!
## What a shared rendering says
-/

theorem formatExpr_eq_iff_reading_eq {first second : Expr} :
    formatExpr first = formatExpr second ↔ first.reading = second.reading :=
  ⟨reading_eq_of_formatExpr_eq, formatExpr_congr_reading⟩

theorem formatExpr_eq_iff_alike {first second : Expr} :
    formatExpr first = formatExpr second ↔ first.Alike second :=
  formatExpr_eq_iff_reading_eq.trans ⟨alike_of_reading_eq, Expr.Alike.reading_eq⟩

theorem evaluate_congr_formatExpr {first second : Expr}
    (same : formatExpr first = formatExpr second) : evaluate first = evaluate second :=
  evaluate_congr_reading (reading_eq_of_formatExpr_eq same)

theorem evaluate_congr_formatExpr_literal :
    evaluate (.number ⟨-3, by decide, by decide⟩) =
      evaluate (.unaryOp .neg (.number ⟨3, by decide, by decide⟩)) :=
  evaluate_congr_formatExpr (by decide +kernel)

theorem formatExpr_collides :
    ¬(formatExpr (.number ⟨-3, by decide, by decide⟩) =
        formatExpr (.unaryOp .neg (.number ⟨3, by decide, by decide⟩)) ↔
      Expr.number ⟨-3, by decide, by decide⟩ =
        .unaryOp .neg (.number ⟨3, by decide, by decide⟩)) := by
  intro names
  cases names.mp (by decide +kernel)

/-- One rendering names one tree, except between different trees that differ only
in minuses at literals. -/
theorem formatExpr_names_tree_iff (first second : Expr) :
    (formatExpr first = formatExpr second ↔ first = second) ↔
      ¬(first ≠ second ∧ first.Alike second) := by
  rw [formatExpr_eq_iff_alike]
  constructor
  · intro names differ
    exact differ.1 (names.mp differ.2)
  · intro apart
    constructor
    · intro alike
      by_contra different
      exact apart ⟨different, alike⟩
    · intro same
      exact formatExpr_eq_iff_alike.mp (congrArg formatExpr same)

/-- What renders like an infix node is one, and its operands render alike. -/
theorem operands_of_formatExpr_eq {op : BinaryOperator} {left right expr : Expr}
    (same : formatExpr expr = formatExpr (.binaryOp op left right)) :
    ∃ leftOther rightOther, expr = .binaryOp op leftOther rightOther ∧
      formatExpr leftOther = formatExpr left ∧ formatExpr rightOther = formatExpr right := by
  obtain ⟨leftOther, rightOther, rfl, onLeft, onRight⟩ :=
    reading_operation_cases (reading_eq_of_formatExpr_eq same)
  exact ⟨leftOther, rightOther, rfl, formatExpr_congr_reading onLeft,
    formatExpr_congr_reading onRight⟩

private theorem length_le_guarded (child : Expr) (text : String) (floor : Nat) :
    text.length ≤ (Formatter.guarded child text floor).length := by
  rw [Formatter.guarded]
  split
  · simp only [String.length_append]
    omega
  · exact Nat.le_refl _

theorem formatExpr_operand_length_lt (op : BinaryOperator) (left right : Expr) :
    (formatExpr left).length < (formatExpr (.binaryOp op left right)).length ∧
      (formatExpr right).length < (formatExpr (.binaryOp op left right)).length := by
  have leftBounded := length_le_guarded left (formatExpr left) (Formatter.infixPowers op).1
  have rightBounded := length_le_guarded right (formatExpr right) (Formatter.infixPowers op).2
  have space : " ".length = 1 := rfl
  simp only [formatExpr, String.length_append, space]
  omega

end Proofhouse
