import Proofhouse.FormatterCollisions
import Proofhouse.LexerSegments
import Proofhouse.Library.RefusedLiterals
import Proofhouse.ParseErrors

/-!
# What a rendering means

A rendering evaluates as the tree behind it does. The one literal no text can
spell makes it unreadable, and the parser says where.
-/

set_option autoImplicit false

namespace Proofhouse

open Library Lexer

/-!
## Trees that text can spell
-/

theorem exists_magnitude {value : I64} (negative : value.value < 0) (spellable : value ≠ I64.min) :
    ∃ magnitude : I64, value.value = -magnitude.value := by
  have least := value.least_le
  have notLeast : value.value ≠ -9223372036854775808 := fun same =>
    spellable (BoundedInteger.ext same)
  exact ⟨⟨-value.value, by omega, by omega⟩, by simp⟩

/-- Prefix minuses in the place of negative literals. -/
theorem exists_alike_nonneg {expr : Expr} (spellable : I64.min ∉ expr.literals) :
    ∃ tree : Expr, tree.Alike expr ∧ ∀ value ∈ tree.literals, 0 ≤ value.value := by
  induction expr with
  | number value =>
      by_cases negative : value.value < 0
      · obtain ⟨magnitude, flips⟩ := exists_magnitude negative fun same =>
          spellable (by simp [Expr.literals, same])
        refine ⟨.unaryOp .neg (.number magnitude), .folded negative flips, ?_⟩
        intro literal member
        cases List.mem_singleton.mp member
        omega
      · refine ⟨.number value, .number value, ?_⟩
        intro literal member
        cases List.mem_singleton.mp member
        omega
  | unaryOp op operand ih =>
      obtain ⟨tree, alike, nonnegative⟩ := ih spellable
      exact ⟨.unaryOp op tree, .unaryOp op alike, nonnegative⟩
  | binaryOp op left right leftIH rightIH =>
      simp only [Expr.literals, List.mem_append, not_or] at spellable
      obtain ⟨leftTree, onLeft, leftNonneg⟩ := leftIH spellable.1
      obtain ⟨rightTree, onRight, rightNonneg⟩ := rightIH spellable.2
      refine ⟨.binaryOp op leftTree rightTree, .binaryOp op onLeft onRight, ?_⟩
      intro literal member
      exact (List.mem_append.mp member).elim (leftNonneg literal) (rightNonneg literal)

theorem parse_formatExpr_of_spellable {expr : Expr} (spellable : I64.min ∉ expr.literals) :
    ∃ tree : Expr, parse (formatExpr expr) = .ok tree ∧ evaluate tree = evaluate expr := by
  obtain ⟨tree, alike, nonnegative⟩ := exists_alike_nonneg spellable
  refine ⟨tree, ?_, evaluate_congr_reading alike.reading_eq⟩
  rw [← formatExpr_eq_iff_alike.mpr alike]
  exact parse_formatExpr_of_nonneg nonnegative

/-!
## The literal no text spells
-/

def isNumeral (token : Token) : Bool :=
  decide (token.kind = .number)

/-- The digits of a literal, without its sign. -/
def I64.digits (value : I64) : String :=
  toString value.value.natAbs

def numerals (faces : List (TokenKind × String)) : List String :=
  (faces.filter fun face => decide (face.1 = .number)).map Prod.snd

theorem numerals_append (left right : List (TokenKind × String)) :
    numerals (left ++ right) = numerals left ++ numerals right := by
  simp [numerals]

theorem numerals_cons {kind : TokenKind} (lexeme : String) (faces : List (TokenKind × String))
    (other : kind ≠ .number) : numerals ((kind, lexeme) :: faces) = numerals faces := by
  simp [numerals, other]

theorem numerals_guardedFaces (child : Expr) (faces : List (TokenKind × String)) (floor : Nat) :
    numerals (Formatter.guardedFaces child faces floor) = numerals faces := by
  rw [Formatter.guardedFaces]
  split
  · rw [numerals_cons _ _ (by decide), numerals_append, numerals_cons _ _ (by decide)]
    exact List.append_nil _
  · rfl

/-- The numbers in a rendering are the literals of the tree, in order. -/
theorem numerals_faces (expr : Expr) :
    numerals (Formatter.faces expr) = expr.literals.map I64.digits := by
  induction expr with
  | number value =>
      rw [Formatter.faces, Formatter.literalFaces]
      split
      · rfl
      · rfl
  | unaryOp op operand ih =>
      cases op
      rw [Formatter.faces, numerals_cons _ _ (by decide), numerals_guardedFaces, ih]
      rfl
  | binaryOp op left right leftIH rightIH =>
      have operator : Formatter.operatorKind op ≠ .number := by cases op <;> decide
      rw [Formatter.faces, numerals_append, numerals_guardedFaces, numerals_cons _ _ operator,
        numerals_guardedFaces, leftIH, rightIH, Expr.literals, List.map_append]

theorem lexemes_eq_numerals (tokens : List Token) :
    (tokens.filter isNumeral).map Token.lexeme = numerals (tokens.map Token.face) := by
  rw [numerals, List.filter_map, List.map_map]
  rfl

theorem decimalValue_digits (value : I64) :
    decimalValue value.digits.toList = value.value.natAbs :=
  Formatter.decimalValue_toString _

theorem natAbs_le_of_ne_min {value : I64} (spellable : value ≠ I64.min) :
    value.value.natAbs ≤ 9223372036854775807 := by
  have least := value.least_le
  have greatest := value.le_greatest
  have notLeast : value.value ≠ -9223372036854775808 := fun same =>
    spellable (BoundedInteger.ext same)
  omega

theorem exprGrammar_narrows_readingGrammar : exprGrammar.Narrows readingGrammar where
  loosest := rfl
  literal := by
    intro token value opens
    cases kind : token.kind with
    | number =>
        simp only [exprGrammar, tokenGrammar, openingWith, kind]
        cases readLiteral token.lexeme with
        | none => exact .inl rfl
        | some expr => exact .inr ⟨expr, rfl⟩
    | plus | minus | star | slash | lParen | rParen =>
        simp [readingGrammar, tokenGrammar, openingWith, kind] at opens
  prefixed := by
    intro token apply opens
    cases kind : token.kind with
    | minus => exact ⟨.unaryOp .neg, by simp [exprGrammar, tokenGrammar, openingWith, kind]⟩
    | number =>
        simp only [readingGrammar, tokenGrammar, openingWith, kind] at opens
        split at opens <;> cases opens
    | plus | star | slash | lParen | rParen =>
        simp [readingGrammar, tokenGrammar, openingWith, kind] at opens
  bracket := by
    intro token opens
    cases kind : token.kind with
    | lParen => simp [exprGrammar, tokenGrammar, openingWith, kind]
    | number =>
        simp only [readingGrammar, tokenGrammar, openingWith, kind] at opens
        split at opens <;> cases opens
    | plus | minus | star | slash | rParen =>
        simp [readingGrammar, tokenGrammar, openingWith, kind] at opens
  operator := by
    intro token level join operator
    simp only [readingGrammar, tokenGrammar, Option.map_eq_some_iff, Prod.mk.injEq] at operator
    obtain ⟨⟨op, precedence⟩, found, rfl, rfl⟩ := operator
    refine ⟨?_, .binaryOp op, by simp [exprGrammar, tokenGrammar, found]⟩
    cases kind : token.kind <;> simp [exprGrammar, tokenGrammar, openingWith, kind]
    simp [kind, infixOperator] at found
  closes := by
    intro token closes
    have kind : token.kind = .rParen := by simpa [readingGrammar, tokenGrammar] using closes
    exact ⟨by simp [exprGrammar, tokenGrammar, openingWith, kind],
      by simp [exprGrammar, tokenGrammar, kind]⟩

theorem refused_of_digits {token : Token} {value : I64} (isNumber : token.kind = .number)
    (lexeme : token.lexeme = value.digits) :
    exprGrammar.opening token = .refused ↔ value = I64.min := by
  rw [refused_iff fun _ => lexeme ▸ Formatter.digitRun_toString _, lexeme, decimalValue_digits]
  constructor
  · intro refused
    by_contra spellable
    have bounded := natAbs_le_of_ne_min spellable
    omega
  · intro same
    subst same
    exact ⟨isNumber, by decide⟩

/-- The first number of a rendering that the parser refuses. -/
theorem firstRefused_of_literals {expr : Expr} {tokens : List Token} {before after : List I64}
    (spelled : tokens.map Token.face = Formatter.faces expr)
    (literals : expr.literals = before ++ I64.min :: after) (leftmost : I64.min ∉ before) :
    ∃ token, (tokens.filter isNumeral)[before.length]? = some token ∧
      token.lexeme = I64.min.digits ∧ exprGrammar.firstRefused? tokens = some token := by
  have lexemes := lexemes_eq_numerals tokens
  rw [spelled, numerals_faces, literals, List.map_append, List.map_cons] at lexemes
  obtain ⟨earlier, others, split, onEarlier, onOthers⟩ := List.map_eq_append_iff.mp lexemes
  obtain ⟨token, later, rfl, lexeme, -⟩ := List.map_eq_cons_iff.mp onOthers
  obtain ⟨left, right, rfl, onLeft, onRight⟩ := List.filter_eq_append_iff.mp split
  obtain ⟨gap, rest, rfl, gapless, isNumber, -⟩ := List.filter_eq_cons_iff.mp onRight
  have kind : token.kind = .number := by simpa [isNumeral] using isNumber
  have sameLength : earlier.length = before.length := by
    simpa using congrArg List.length onEarlier
  refine ⟨token, ?_, lexeme, ?_⟩
  · rw [split, ← sameLength]
    simp
  · have refused := (refused_of_digits kind lexeme).mpr rfl
    refine List.find?_eq_some_iff_append.mpr
      ⟨by simpa using refused, left ++ gap, rest, by simp, ?_⟩
    intro other member
    simp only [Bool.not_eq_true', ← Bool.not_eq_true, Opening.isRefused_iff]
    intro otherRefused
    by_cases otherKind : other.kind = .number
    · have inLeft : other ∈ left := by
        rcases List.mem_append.mp member with inLeft | inGap
        · exact inLeft
        · exact absurd (by simp [isNumeral, otherKind]) (gapless other inGap)
      have isEarlier : other ∈ earlier :=
        onLeft ▸ List.mem_filter.mpr ⟨inLeft, by simp [isNumeral, otherKind]⟩
      obtain ⟨value, inBefore, digits⟩ :=
        List.mem_map.mp (onEarlier ▸ List.mem_map_of_mem isEarlier)
      have least := (refused_of_digits otherKind digits.symm).mp otherRefused
      exact leftmost (least ▸ inBefore)
    · have refusal := (refused_iff fun kind => absurd kind otherKind).mp otherRefused
      exact otherKind refusal.1

/-- The digits of the literal of this rank begin at byte `place` of the rendering,
whose numbers are the literals of the tree in order. -/
def DigitsAt (expr : Expr) (rank place : Nat) : Prop :=
  ∃ tokens token, tokenize (formatExpr expr) = .ok tokens ∧
    (tokens.filter isNumeral).map Token.lexeme = expr.literals.map I64.digits ∧
    (tokens.filter isNumeral)[rank]? = some token ∧ token.offset = place ∧
    ∃ before after, Placed 0 (formatExpr expr).toList token before after

theorem parse_formatExpr_of_min {expr : Expr} {before after : List I64}
    (literals : expr.literals = before ++ I64.min :: after) (leftmost : I64.min ∉ before) :
    ∃ place, DigitsAt expr before.length place ∧
      parse (formatExpr expr) = .error (.parse ⟨place, .numberOutOfRange⟩) := by
  obtain ⟨tokens, scanned, spelled⟩ := Formatter.tokenize_formatExpr expr
  obtain ⟨token, ranked, -, first⟩ := firstRefused_of_literals spelled literals leftmost
  have member : token ∈ tokens := (List.mem_filter.mp (List.mem_of_getElem? ranked)).1
  have segments := (tokenize_ok_iff.mp scanned).segments rfl
  have numbers : (tokens.filter isNumeral).map Token.lexeme = expr.literals.map I64.digits := by
    rw [lexemes_eq_numerals, spelled, numerals_faces]
  refine ⟨token.offset, ⟨tokens, token, scanned, numbers, ranked, rfl,
    segments.placed token member⟩, ?_⟩
  obtain ⟨result, reads, same⟩ := parse_reads scanned
  have refused := (derives_reading spelled).reads_refused exprGrammar_narrows_readingGrammar first
  cases reads.deterministic refused
  exact same

/-- A rendering evaluates as its tree, unless a literal in the tree is the least
integer: then the leftmost one is the number the parser finds out of range. -/
theorem formatExpr_preserves_meaning (expr : Expr) :
    (I64.min ∉ expr.literals →
      (∃ tree, parse (formatExpr expr) = .ok tree) ∧
      evaluateText (formatExpr expr) = (evaluate expr).mapError .eval) ∧
    (I64.min ∈ expr.literals →
      ∃ before after place, expr.literals = before ++ I64.min :: after ∧ I64.min ∉ before ∧
        DigitsAt expr before.length place ∧
        parse (formatExpr expr) = .error (.parse ⟨place, .numberOutOfRange⟩)) := by
  constructor
  · intro spellable
    obtain ⟨tree, parsed, same⟩ := parse_formatExpr_of_spellable spellable
    refine ⟨⟨tree, parsed⟩, ?_⟩
    rw [evaluateText, parsed, ← same]
    rfl
  · intro member
    obtain ⟨before, after, literals, leftmost⟩ := List.eq_append_cons_of_mem member
    obtain ⟨place, digits, failed⟩ := parse_formatExpr_of_min literals leftmost
    exact ⟨before, after, place, literals, leftmost, digits, failed⟩

end Proofhouse
