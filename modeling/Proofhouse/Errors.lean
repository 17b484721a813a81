import Mathlib.Init

/-!
# Errors of the expression pipeline
-/

set_option autoImplicit false

namespace Proofhouse

structure LexError where
  offset : Nat
  character : Char
  deriving DecidableEq, Repr

inductive ParseErrorKind where
  | unexpectedToken
  | unexpectedEndOfInput
  | trailingInput
  | numberOutOfRange
  deriving DecidableEq, Repr

structure ParseError where
  offset : Nat
  kind : ParseErrorKind
  deriving DecidableEq, Repr

inductive EvalError where
  | divisionByZero
  | overflow
  deriving DecidableEq, Repr

/-- Any failure on the way from a text to a value. -/
inductive ExpressionError where
  | lex (error : LexError)
  | parse (error : ParseError)
  | eval (error : EvalError)
  deriving DecidableEq, Repr

end Proofhouse
