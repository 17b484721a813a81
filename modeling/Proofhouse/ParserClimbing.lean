import Proofhouse.Library.ClimbingFailures
import Proofhouse.Parser

/-!
# The parser climbs an operator grammar

The expression language as an operator grammar over tokens, and the parser as
its precedence-climbing reader: every outcome of the parser, failures included,
is the outcome of a climb on the same tokens.
-/

set_option autoImplicit false

namespace Proofhouse

open Library

/-- What a token opens where an operand is due, over any reading of the digits. -/
def openingWith {α : Type} (literal : String → Option α) (neg : α → α) (token : Token) :
    Opening α :=
  match token.kind with
  | .number =>
      match literal token.lexeme with
      | some value => .literal value
      | none => .refused
  | .minus => .prefixed neg
  | .lParen => .bracket
  | .plus | .star | .slash | .rParen => .unfit

/-- The operators and brackets of expressions, over any values that literals,
negation and the four operators are read into. -/
def tokenGrammar {α : Type} (literal : String → Option α) (neg : α → α)
    (join : BinaryOperator → α → α → α) (zero : (literal "0").isSome = true) :
    OperatorGrammar Token α where
  loosest := additive
  opening := openingWith literal neg
  operator? token := (infixOperator token.kind).map fun entry => (entry.2, join entry.1)
  closes token := decide (token.kind = .rParen)
  closes_not_operator token closes := by
    rw [decide_eq_true_eq] at closes
    rw [closes]
    rfl
  sampleLiteral := ⟨.number, "0", 0⟩
  sampleCloser := ⟨.rParen, ")", 0⟩
  sampleLiteral_opens := by
    obtain ⟨value, read⟩ := Option.isSome_iff_exists.mp zero
    exact ⟨value, by simp [openingWith, read]⟩
  sampleCloser_closes := rfl

def readLiteral (lexeme : String) : Option Expr :=
  (I64.parse? lexeme).map Expr.number

def exprGrammar : OperatorGrammar Token Expr :=
  tokenGrammar readLiteral (.unaryOp .neg) .binaryOp (by decide +kernel)

def ParseError.ofFailure (endOffset : Nat) : Failure Token → ParseError
  | .endOfInput => ⟨endOffset, .unexpectedEndOfInput⟩
  | .unexpected token => ⟨token.offset, .unexpectedToken⟩
  | .refused token => ⟨token.offset, .numberOutOfRange⟩
  | .trailing token => ⟨token.offset, .trailingInput⟩

theorem saturatingAddU8_of_infixOperator {kind : TokenKind} {op : BinaryOperator}
    {precedence : Nat} (operator : infixOperator kind = some (op, precedence)) :
    saturatingAddU8 precedence 1 = precedence + 1 := by
  cases kind <;> cases operator <;> rfl

namespace Parser

private inductive Agrees {bound : Nat} (endOffset : Nat) :
    Except ParseError (Advanced bound Expr) →
      Except (Failure Token) (Expr × List Token) → Prop where
  | ok {value rest} (shorter : rest.length < bound) :
      Agrees endOffset (.ok ⟨value, ⟨rest, endOffset⟩, shorter⟩) (.ok (value, rest))
  | error {failure} : Agrees endOffset (.error (.ofFailure endOffset failure)) (.error failure)

private theorem takeInfixOperator_none {minPrecedence : Nat} {parser : Parser}
    (stopped : parser.takeInfixOperator minPrecedence = none) :
    exprGrammar.Stops minPrecedence parser.tokens := by
  obtain ⟨tokens, endOffset⟩ := parser
  cases tokens with
  | nil => trivial
  | cons token rest =>
      intro own combine operator
      simp only [exprGrammar, tokenGrammar, Option.map_eq_some_iff] at operator
      obtain ⟨⟨op, precedence⟩, found, same⟩ := operator
      cases same
      simp only [takeInfixOperator, found, ite_eq_right_iff, reduceCtorEq, imp_false] at stopped
      exact Nat.lt_of_not_le stopped

private theorem takeInfixOperator_some {minPrecedence : Nat} {parser : Parser}
    {taken : Advanced parser.tokens.length (BinaryOperator × Nat)}
    (took : parser.takeInfixOperator minPrecedence = some taken) :
    ∃ token, parser.tokens = token :: taken.parser.tokens ∧
      taken.parser.endOffset = parser.endOffset ∧
      infixOperator token.kind = some taken.value ∧ minPrecedence ≤ taken.value.2 := by
  obtain ⟨tokens, endOffset⟩ := parser
  cases tokens with
  | nil => cases took
  | cons token rest =>
      simp only [takeInfixOperator] at took
      split at took
      · next op precedence found =>
        split at took
        · next reaches =>
          cases took
          exact ⟨token, rfl, rfl, found, reaches⟩
        · cases took
      · cases took

mutual

private theorem parseExpression_agrees (minPrecedence : Nat) (parser : Parser) :
    ∃ result, exprGrammar.Climbs (.chain minPrecedence) parser.tokens result ∧
      Agrees parser.endOffset (parser.parseExpression minPrecedence) result := by
  obtain ⟨result, climbs, agrees⟩ := parseOperand_agrees parser
  rw [parseExpression]
  generalize parser.parseOperand = outcome at agrees
  cases agrees with
  | error => exact ⟨_, .chainFails climbs, .error⟩
  | @ok left rest shorter =>
      obtain ⟨extended, goesOn, same⟩ :=
        parseInfixChain_agrees minPrecedence left ⟨rest, parser.endOffset⟩
      refine ⟨extended, .chain climbs goesOn, ?_⟩
      simp only [bind, Except.bind]
      generalize parseInfixChain minPrecedence left ⟨rest, parser.endOffset⟩ = chained at same
      cases same with
      | error => exact .error
      | ok _ => exact .ok _
termination_by 2 * parser.tokens.length + 1

private theorem parseInfixChain_agrees (minPrecedence : Nat) (left : Expr) (parser : Parser) :
    ∃ result, exprGrammar.Climbs (.extend minPrecedence left) parser.tokens result ∧
      Agrees parser.endOffset (parser.parseInfixChain minPrecedence left) result := by
  rw [parseInfixChain]
  cases taken : parser.takeInfixOperator minPrecedence with
  | none => exact ⟨_, .stop (takeInfixOperator_none taken), .ok (Nat.lt_succ_self _)⟩
  | some advanced =>
      obtain ⟨token, split, sameEnd, operator, reaches⟩ := takeInfixOperator_some taken
      obtain ⟨⟨op, precedence⟩, ⟨rest, endOffset⟩, shorter⟩ := advanced
      dsimp only at split sameEnd operator reaches
      subst sameEnd
      have afterOperator : rest.length < parser.tokens.length := shorter
      have joins : exprGrammar.operator? token = some (precedence, .binaryOp op) := by
        simp [exprGrammar, tokenGrammar, operator]
      obtain ⟨result, climbs, agrees⟩ :=
        parseExpression_agrees (saturatingAddU8 precedence 1) ⟨rest, parser.endOffset⟩
      rw [saturatingAddU8_of_infixOperator operator] at climbs
      dsimp only
      generalize parseExpression (saturatingAddU8 precedence 1) ⟨rest, parser.endOffset⟩ =
        outcome at agrees
      cases agrees with
      | error => exact ⟨_, split ▸ .joinFails joins reaches climbs, .error⟩
      | @ok right afterRight fewer =>
          have afterOperand : afterRight.length < rest.length := fewer
          obtain ⟨extended, goesOn, same⟩ := parseInfixChain_agrees minPrecedence
            (.binaryOp op left right) ⟨afterRight, parser.endOffset⟩
          refine ⟨extended, split ▸ .join joins reaches climbs goesOn, ?_⟩
          simp only [bind, Except.bind]
          generalize parseInfixChain minPrecedence (.binaryOp op left right)
            ⟨afterRight, parser.endOffset⟩ = chained at same
          cases same with
          | error => exact .error
          | ok _ => exact .ok _
termination_by 2 * parser.tokens.length

private theorem parseOperand_agrees (parser : Parser) :
    ∃ result, exprGrammar.Climbs .operand parser.tokens result ∧
      Agrees parser.endOffset parser.parseOperand result := by
  rw [parseOperand]
  obtain ⟨tokens, endOffset⟩ := parser
  cases tokens with
  | nil => exact ⟨_, .exhausted, @Agrees.error _ _ .endOfInput⟩
  | cons token rest =>
      simp only [take, bind, Except.bind]
      cases kind : token.kind with
      | number =>
          cases read : I64.parse? token.lexeme with
          | none =>
              refine ⟨_, .refused ?_, ?_⟩
              · simp [exprGrammar, tokenGrammar, openingWith, kind, readLiteral, read]
              · simp only [number, read]
                exact @Agrees.error _ _ (.refused token)
          | some value =>
              refine ⟨_,
                @OperatorGrammar.Climbs.literal _ _ exprGrammar token rest (.number value) ?_, ?_⟩
              · simp [exprGrammar, tokenGrammar, openingWith, kind, readLiteral, read]
              · simp only [number, read]
                exact .ok _
      | minus =>
          have opens : exprGrammar.opening token = .prefixed (.unaryOp .neg) := by
            simp [exprGrammar, tokenGrammar, openingWith, kind]
          obtain ⟨result, climbs, agrees⟩ := parseOperand_agrees ⟨rest, endOffset⟩
          dsimp only
          generalize parseOperand ⟨rest, endOffset⟩ = outcome at agrees
          cases agrees with
          | error => exact ⟨_, .prefixedFails opens climbs, .error⟩
          | ok _ => exact ⟨_, .prefixed opens climbs, .ok _⟩
      | lParen =>
          have opens : exprGrammar.opening token = .bracket := by
            simp [exprGrammar, tokenGrammar, openingWith, kind]
          obtain ⟨result, climbs, agrees⟩ := parseExpression_agrees additive ⟨rest, endOffset⟩
          dsimp only
          generalize parseExpression additive ⟨rest, endOffset⟩ = outcome at agrees
          cases agrees with
          | error => exact ⟨_, .bracketFails opens climbs, .error⟩
          | @ok inner afterInner _ =>
              cases afterInner with
              | nil => exact ⟨_, .bracketExhausted opens climbs, @Agrees.error _ _ .endOfInput⟩
              | cons closing others =>
                  by_cases closes : closing.kind = .rParen
                  · refine ⟨_, .bracket opens climbs (by simp [exprGrammar, tokenGrammar, closes]),
                      ?_⟩
                    simp only [closes]
                    exact .ok _
                  · refine ⟨_, .bracketUnclosed opens climbs
                      (by simp [exprGrammar, tokenGrammar, closes]), ?_⟩
                    dsimp only
                    cases other : closing.kind with
                    | rParen => exact absurd other closes
                    | number | plus | minus | star | slash | lParen =>
                        exact @Agrees.error _ _ (.unexpected closing)
      | plus | star | slash | rParen =>
          refine ⟨_, .unfit ?_, @Agrees.error _ _ (.unexpected token)⟩
          simp [exprGrammar, tokenGrammar, openingWith, kind]
termination_by 2 * parser.tokens.length

end

end Parser

/-!
## Outcomes of `parse`
-/

theorem parse_of_lexError {text : String} {error : LexError}
    (failed : tokenize text = .error error) : parse text = .error (.lex error) := by
  rw [parse, failed]
  rfl

theorem parse_reads {text : String} {tokens : List Token}
    (scanned : tokenize text = .ok tokens) :
    ∃ result, exprGrammar.Reads tokens result ∧
      parse text = result.mapError fun failure =>
        .parse (.ofFailure text.utf8ByteSize failure) := by
  obtain ⟨result, climbs, agrees⟩ :=
    Parser.parseExpression_agrees additive ⟨tokens, text.utf8ByteSize⟩
  rw [parse, scanned]
  simp only [Except.mapError, bind, Except.bind]
  generalize Parser.parseExpression additive ⟨tokens, text.utf8ByteSize⟩ = outcome at agrees
  cases agrees with
  | error => exact ⟨_, .fails climbs, rfl⟩
  | @ok expr rest shorter =>
      cases rest with
      | nil => exact ⟨_, .whole climbs, rfl⟩
      | cons token others => exact ⟨_, .trailing climbs, rfl⟩

theorem parse_ok_iff {text : String} {expr : Expr} :
    parse text = .ok expr ↔
      ∃ tokens, tokenize text = .ok tokens ∧
        exprGrammar.Derives (.chain additive) tokens expr := by
  constructor
  · intro parsed
    cases scanned : tokenize text with
    | error error =>
        rw [parse_of_lexError scanned] at parsed
        cases parsed
    | ok tokens =>
        obtain ⟨result, reads, same⟩ := parse_reads scanned
        rw [parsed] at same
        cases result with
        | error failure => cases same
        | ok value =>
            cases same
            exact ⟨tokens, rfl, OperatorGrammar.reads_ok_iff.mp reads⟩
  · intro accepted
    obtain ⟨tokens, scanned, derived⟩ := accepted
    obtain ⟨result, reads, same⟩ := parse_reads scanned
    cases reads.deterministic (OperatorGrammar.reads_ok_iff.mpr derived)
    exact same

theorem parse_parseError {text : String} {tokens : List Token} {error : ParseError}
    (scanned : tokenize text = .ok tokens) (failed : parse text = .error (.parse error)) :
    ∃ failure, exprGrammar.Reads tokens (.error failure) ∧
      error = .ofFailure text.utf8ByteSize failure := by
  obtain ⟨result, reads, same⟩ := parse_reads scanned
  rw [failed] at same
  cases result with
  | ok value => cases same
  | error failure =>
      cases same
      exact ⟨failure, reads, rfl⟩

end Proofhouse
