import Proofhouse.Integers

/-!
# Expression trees
-/

set_option autoImplicit false

namespace Proofhouse

inductive UnaryOperator where
  | neg
  deriving DecidableEq, Repr

inductive BinaryOperator where
  | add
  | sub
  | mul
  | div
  deriving DecidableEq, Repr

/-- One node of an expression tree. Literals range over the whole of `i64`,
though the parser builds nonnegative ones only. -/
inductive Expr where
  | number (value : I64)
  | unaryOp (op : UnaryOperator) (operand : Expr)
  | binaryOp (op : BinaryOperator) (left right : Expr)
  deriving DecidableEq, Repr

end Proofhouse
