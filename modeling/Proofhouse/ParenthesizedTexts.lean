import Proofhouse.EvaluationOrder
import Proofhouse.Library.Enclosures
import Proofhouse.WhitespaceRemoval

/-!
# Texts in parentheses

A text that parses stands in parentheses for its tree, and for the value of that
tree: what is around the parentheses does not look inside.
-/

set_option autoImplicit false

namespace Proofhouse

open Library

theorem prefixed_negates {token : Token} {apply : Expr → Expr}
    (opens : exprGrammar.opening token = .prefixed apply) : apply = .unaryOp .neg := by
  simp only [exprGrammar, tokenGrammar, openingWith] at opens
  split at opens
  case h_1 => split at opens <;> cases opens
  case h_2 =>
    cases opens
    rfl
  all_goals cases opens

theorem operator_joins {token : Token} {own : Nat} {combine : Expr → Expr → Expr}
    (operator : exprGrammar.operator? token = some (own, combine)) :
    ∃ op, combine = .binaryOp op := by
  obtain ⟨⟨op, level⟩, -, same⟩ := Option.map_eq_some_iff.mp operator
  cases same
  exact ⟨op, rfl⟩

theorem exists_context {around : Expr → Expr} (surrounds : exprGrammar.Surrounds around) :
    ∃ context : Context, ∀ inner, around inner = context.fill inner := by
  induction surrounds with
  | alone => exact ⟨.hole, fun _ => rfl⟩
  | prefixed opens _ ih =>
      obtain ⟨context, same⟩ := ih
      cases prefixed_negates opens
      exact ⟨.negated context, fun inner => congrArg _ (same inner)⟩
  | left operator _ ih =>
      obtain ⟨context, same⟩ := ih
      obtain ⟨op, rfl⟩ := operator_joins operator
      exact ⟨.onLeft op context _, fun inner => congrArg (Expr.binaryOp op · _) (same inner)⟩
  | right operator _ ih =>
      obtain ⟨context, same⟩ := ih
      obtain ⟨op, rfl⟩ := operator_joins operator
      exact ⟨.onRight op _ context, fun inner => congrArg _ (same inner)⟩

/-!
## Tokens of a text around parentheses
-/

/-- The text in parentheses, between two others. -/
def parenthesized (left inner right : String) : String :=
  left ++ "(" ++ inner ++ ")" ++ right

/-- The tokens of a text in parentheses, as if each text stood at the front. -/
def parenthesizedTokens (left inner right : List Token) : List Token :=
  left ++ ⟨.lParen, "(", 0⟩ :: (inner ++ ⟨.rParen, ")", 0⟩ :: right)

theorem parenthesized_toList (left inner right : String) :
    (parenthesized left inner right).toList =
      left.toList ++ '(' :: (inner.toList ++ ')' :: right.toList) := by
  simp [parenthesized]

theorem tokenize_parenthesized {left inner right : String} {before within after : List Token}
    (onLeft : tokenize left = .ok before) (onInner : tokenize inner = .ok within)
    (onRight : tokenize right = .ok after) :
    ∃ tokens, tokenize (parenthesized left inner right) = .ok tokens ∧
      tokens.map Token.bare = (parenthesizedTokens before within after).map Token.bare := by
  have moved : ∀ (width : Nat) (tokens : List Token),
      (tokens.map (Token.move (· + width))).map Token.bare = tokens.map Token.bare := by
    intro width tokens
    rw [List.map_map]
    rfl
  let opened := 0 + Lexer.byteLength left.toList + '('.utf8Size
  let closed := opened + Lexer.byteLength inner.toList + ')'.utf8Size
  have scansInner := (tokenize_ok_iff.mp onInner).shift opened
  have scansRight := (tokenize_ok_iff.mp onRight).shift closed
  rw [Nat.zero_add] at scansInner scansRight
  have closes : Lexer.Parted inner.toList (')' :: right.toList) := .inr rfl
  have opens : Lexer.Parted left.toList ('(' :: (inner.toList ++ ')' :: right.toList)) := .inr rfl
  have fromInner := scansInner.join closes (.symbol rfl scansRight)
  have scans := (tokenize_ok_iff.mp onLeft).join opens (.symbol rfl fromInner)
  rw [← parenthesized_toList] at scans
  refine ⟨_, tokenize_ok_iff.mpr scans, ?_⟩
  simp only [parenthesizedTokens, List.map_append, List.map_cons, moved]
  rfl

/-- Around a text in parentheses both sides scan, if the whole does. -/
theorem tokenize_sides {left inner right : String} {tokens : List Token}
    (scanned : tokenize (parenthesized left inner right) = .ok tokens) :
    (∃ before, tokenize left = .ok before) ∧ ∃ after, tokenize right = .ok after := by
  have admitted := tokenize_ok_iff_admitted.mp ⟨tokens, scanned⟩
  rw [parenthesized_toList] at admitted
  refine ⟨tokenize_ok_iff_admitted.mpr fun ch member => admitted ch ?_,
    tokenize_ok_iff_admitted.mpr fun ch member => admitted ch ?_⟩
  · exact List.mem_append_left _ member
  · simp [member]

/-- The tokens in parentheses as a bracketed phrase of the grammar. -/
def enclose (inner : List Token) (tree : Expr)
    (derived : exprGrammar.Derives (.chain additive) inner tree) : exprGrammar.Enclosed where
  opener := ⟨.lParen, "(", 0⟩
  inner := inner
  closer := ⟨.rParen, ")", 0⟩
  value := tree
  opens := rfl
  notOperator := rfl
  notCloser := rfl
  derived := derived
  closes := rfl

theorem parenthesizedTokens_eq (left right inner : List Token) (tree : Expr)
    (derived : exprGrammar.Derives (.chain additive) inner tree) :
    parenthesizedTokens left inner right =
      left ++ ((enclose inner tree derived).tokens ++ right) := by
  simp [parenthesizedTokens, OperatorGrammar.Enclosed.tokens, enclose]

/-- One text in parentheses that makes the whole parse gives a context for all. -/
theorem exists_context_of_parse {left inner right : String} {tree whole : Expr}
    (onInner : parse inner = .ok tree)
    (onWhole : parse (parenthesized left inner right) = .ok whole) :
    ∃ context : Context, whole = context.fill tree ∧ ∀ other otherTree,
      parse other = .ok otherTree →
        parse (parenthesized left other right) = .ok (context.fill otherTree) := by
  obtain ⟨tokens, scanned, derived⟩ := parse_ok_iff.mp onWhole
  obtain ⟨within, scannedInner, derivedInner⟩ := parse_ok_iff.mp onInner
  obtain ⟨⟨before, scannedLeft⟩, after, scannedRight⟩ := tokenize_sides scanned
  obtain ⟨again, rescanned, bare⟩ := tokenize_parenthesized scannedLeft scannedInner scannedRight
  cases scanned.symm.trans rescanned
  have placed := derives_congr_bare bare.symm derived
  rw [parenthesizedTokens_eq _ _ _ _ derivedInner] at placed
  obtain ⟨around, surrounds, same, others⟩ := placed.around_enclosed
  obtain ⟨context, fills⟩ := exists_context surrounds
  refine ⟨context, same.trans (fills tree), fun other otherTree onOther => ?_⟩
  obtain ⟨otherTokens, scannedOther, derivedOther⟩ := parse_ok_iff.mp onOther
  obtain ⟨_, scannedWhole, bareWhole⟩ :=
    tokenize_parenthesized scannedLeft scannedOther scannedRight
  refine parse_ok_of_bare scannedWhole bareWhole ?_
  rw [parenthesizedTokens_eq _ _ _ _ derivedOther, ← fills]
  exact others (enclose otherTokens otherTree derivedOther)

/-- What stands around parentheses is a context for the trees of all texts that
parse, or makes an expression with none of them. -/
theorem parse_parenthesized (left right : String) :
    (∃ context : Context, ∀ inner tree, parse inner = .ok tree →
      parse (parenthesized left inner right) = .ok (context.fill tree)) ∨
    ∀ inner tree, parse inner = .ok tree →
      ∃ error, parse (parenthesized left inner right) = .error error := by
  by_cases fits : ∃ inner tree whole, parse inner = .ok tree ∧
      parse (parenthesized left inner right) = .ok whole
  · obtain ⟨inner, tree, whole, onInner, onWhole⟩ := fits
    obtain ⟨context, -, others⟩ := exists_context_of_parse onInner onWhole
    exact .inl ⟨context, others⟩
  · refine .inr fun inner tree onInner => ?_
    cases outcome : parse (parenthesized left inner right) with
    | ok whole => exact absurd ⟨inner, tree, whole, onInner, outcome⟩ fits
    | error error => exact ⟨error, rfl⟩

theorem evaluateText_of_parse {text : String} {tree : Expr} (parsed : parse text = .ok tree) :
    evaluateText text = (evaluate tree).mapError .eval := by
  rw [evaluateText, parsed]
  rfl

/-- In parentheses, a text can be replaced by any other with its value or failure. -/
theorem evaluateText_parenthesized {inner other : String} {tree otherTree : Expr}
    (onInner : parse inner = .ok tree) (onOther : parse other = .ok otherTree)
    (same : evaluateText inner = evaluateText other) (left right : String) :
    evaluateText (parenthesized left inner right) =
        evaluateText (parenthesized left other right) ∨
      ∃ error otherError, parse (parenthesized left inner right) = .error error ∧
        parse (parenthesized left other right) = .error otherError := by
  have agrees : evaluate tree = evaluate otherTree := by
    rw [evaluateText_of_parse onInner, evaluateText_of_parse onOther] at same
    cases first : evaluate tree <;> cases second : evaluate otherTree <;>
      simp_all [Except.mapError]
  cases whole : parse (parenthesized left inner right) with
  | ok result =>
      obtain ⟨context, rfl, others⟩ := exists_context_of_parse onInner whole
      rw [evaluateText_of_parse whole, evaluateText_of_parse (others other otherTree onOther),
        context.evaluate_congr agrees]
      exact .inl rfl
  | error error =>
      cases otherWhole : parse (parenthesized left other right) with
      | error otherError => exact .inr ⟨error, otherError, rfl, rfl⟩
      | ok result =>
          obtain ⟨context, -, others⟩ := exists_context_of_parse onOther otherWhole
          cases whole.symm.trans (others inner tree onInner)

theorem evaluateText_parenthesized_halves :
    evaluateText (parenthesized "3*" "1/2" "-1") =
      evaluateText (parenthesized "3*" "2/4" "-1") := by
  have half : parse "1/2" =
      .ok (.binaryOp .div (.number ⟨1, by decide, by decide⟩)
        (.number ⟨2, by decide, by decide⟩)) := by
    decide +kernel
  have quarters : parse "2/4" =
      .ok (.binaryOp .div (.number ⟨2, by decide, by decide⟩)
        (.number ⟨4, by decide, by decide⟩)) := by
    decide +kernel
  have same : evaluateText "1/2" = evaluateText "2/4" := by decide +kernel
  have parses : (parse (parenthesized "3*" "1/2" "-1")).isOk = true := by decide +kernel
  rcases evaluateText_parenthesized half quarters same "3*" "-1" with same | ⟨error, _, fails, _⟩
  · exact same
  · rw [fails] at parses
    cases parses

end Proofhouse
