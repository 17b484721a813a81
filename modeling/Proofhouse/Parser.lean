import Proofhouse.Ast
import Proofhouse.Lexer

/-!
# Parser

The precedence-climbing parser. A step that consumes tokens returns the parser
after it with the evidence that fewer tokens remain.
-/

set_option autoImplicit false

namespace Proofhouse

/-- The tokens still unread, and the byte offset an exhausted parser reports. -/
structure Parser where
  tokens : List Token
  endOffset : Nat

/-- A result and the parser after it, with fewer than `bound` tokens unread. -/
structure Advanced (bound : Nat) (α : Type) where
  value : α
  parser : Parser
  shorter : parser.tokens.length < bound

def additive : Nat := 1

def multiplicative : Nat := 2

def infixOperator : TokenKind → Option (BinaryOperator × Nat)
  | .plus => some (.add, additive)
  | .minus => some (.sub, additive)
  | .star => some (.mul, multiplicative)
  | .slash => some (.div, multiplicative)
  | .number | .lParen | .rParen => none

def number (token : Token) : Except ParseError Expr :=
  match I64.parse? token.lexeme with
  | some value => .ok (.number value)
  | none => .error ⟨token.offset, .numberOutOfRange⟩

def unexpected (token : Token) : ParseError :=
  ⟨token.offset, .unexpectedToken⟩

namespace Parser

def take : (parser : Parser) → Except ParseError (Advanced parser.tokens.length Token)
  | ⟨[], endOffset⟩ => .error ⟨endOffset, .unexpectedEndOfInput⟩
  | ⟨token :: rest, endOffset⟩ => .ok ⟨token, ⟨rest, endOffset⟩, Nat.lt_succ_self _⟩

def takeInfixOperator (minPrecedence : Nat) :
    (parser : Parser) → Option (Advanced parser.tokens.length (BinaryOperator × Nat))
  | ⟨[], _⟩ => none
  | ⟨token :: rest, endOffset⟩ =>
      match infixOperator token.kind with
      | some (op, precedence) =>
          if minPrecedence ≤ precedence then
            some ⟨(op, precedence), ⟨rest, endOffset⟩, Nat.lt_succ_self _⟩
          else none
      | none => none

def checkExhausted : Parser → Except ParseError Unit
  | ⟨[], _⟩ => .ok ()
  | ⟨token :: _, _⟩ => .error ⟨token.offset, .trailingInput⟩

mutual

def parseExpression (minPrecedence : Nat) (parser : Parser) :
    Except ParseError (Advanced parser.tokens.length Expr) := do
  let ⟨left, afterLeft, _⟩ ← parseOperand parser
  let ⟨expr, rest, _⟩ ← parseInfixChain minPrecedence left afterLeft
  return ⟨expr, rest, by omega⟩
termination_by 2 * parser.tokens.length + 1

/-- The loop of `parse_expression`, with the expression built so far. -/
def parseInfixChain (minPrecedence : Nat) (left : Expr) (parser : Parser) :
    Except ParseError (Advanced (parser.tokens.length + 1) Expr) :=
  match parser.takeInfixOperator minPrecedence with
  | none => .ok ⟨left, parser, Nat.lt_succ_self _⟩
  | some ⟨(op, precedence), afterOperator, _⟩ => do
      -- One level up for the right operand groups equal operators to the left.
      let ⟨right, afterRight, _⟩ ←
        parseExpression (saturatingAddU8 precedence 1) afterOperator
      let ⟨expr, rest, _⟩ ←
        parseInfixChain minPrecedence (.binaryOp op left right) afterRight
      return ⟨expr, rest, by omega⟩
termination_by 2 * parser.tokens.length

def parseOperand (parser : Parser) :
    Except ParseError (Advanced parser.tokens.length Expr) := do
  let ⟨token, afterToken, _⟩ ← parser.take
  match token.kind with
  | .number => do
      let literal ← number token
      return ⟨literal, afterToken, by assumption⟩
  | .minus => do
      let ⟨operand, rest, _⟩ ← parseOperand afterToken
      return ⟨.unaryOp .neg operand, rest, by omega⟩
  | .lParen => do
      let ⟨inner, afterInner, _⟩ ← parseExpression additive afterToken
      let ⟨closing, rest, _⟩ ← afterInner.take
      match closing.kind with
      | .rParen => return ⟨inner, rest, by omega⟩
      | .number | .plus | .minus | .star | .slash | .lParen => .error (unexpected closing)
  | .plus | .star | .slash | .rParen => .error (unexpected token)
termination_by 2 * parser.tokens.length

end

end Parser

def parse (text : String) : Except ExpressionError Expr := do
  let tokens ← (tokenize text).mapError .lex
  let parser : Parser := ⟨tokens, text.utf8ByteSize⟩
  let ⟨expr, rest, _⟩ ← (parser.parseExpression additive).mapError .parse
  rest.checkExhausted.mapError .parse
  return expr

end Proofhouse
