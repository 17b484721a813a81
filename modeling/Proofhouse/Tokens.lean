import Mathlib.Init

/-!
# Tokens
-/

set_option autoImplicit false

namespace Proofhouse

inductive TokenKind where
  | number
  | plus
  | minus
  | star
  | slash
  | lParen
  | rParen
  deriving DecidableEq, Repr

/-- A token: its kind, the text it matched, and the byte offset of its first
character. -/
structure Token where
  kind : TokenKind
  lexeme : String
  offset : Nat
  deriving DecidableEq, Repr

end Proofhouse
