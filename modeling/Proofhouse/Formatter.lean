import Proofhouse.Ast

/-!
# Formatter

The canonical rendering of an expression tree, with as few parentheses as the
grammar allows.
-/

set_option autoImplicit false

namespace Proofhouse.Formatter

/-- Binding power of `+` and `-`, the loosest the grammar has. -/
def additive : Nat := 1

def multiplicative : Nat := 2

def unary : Nat := 3

def atom : Nat := 4

/-- The power an operator reads at, and the power its right operand must reach. -/
def infixPowers : BinaryOperator → Nat × Nat
  | .add | .sub => (additive, multiplicative)
  | .mul | .div => (multiplicative, unary)

def binarySymbol : BinaryOperator → Char
  | .add => '+'
  | .sub => '-'
  | .mul => '*'
  | .div => '/'

/-- How tightly a node holds on to its own operands. -/
def bindingPower : Expr → Nat
  | .number _ => atom
  | .unaryOp _ _ => unary
  | .binaryOp op _ _ => (infixPowers op).1

/-- A child in a position that demands `floor`. `text` is its rendering, which
the source computes here. -/
def guarded (child : Expr) (text : String) (floor : Nat) : String :=
  if bindingPower child < floor then "(" ++ text ++ ")" else text

end Proofhouse.Formatter

namespace Proofhouse

open Formatter in
def formatExpr : Expr → String
  | .number value => toString value.value
  | .unaryOp .neg operand => "-" ++ guarded operand (formatExpr operand) unary
  | .binaryOp op left right =>
      guarded left (formatExpr left) (infixPowers op).1 ++ " " ++ (binarySymbol op).toString ++
        " " ++ guarded right (formatExpr right) (infixPowers op).2

end Proofhouse
