import Proofhouse.Formatter
import Proofhouse.Integers
import Proofhouse.Tokens

/-!
# Input generators

The strategies offered to property suites, over the combinators of the search
library they are built from, and the text a run of tokens is spelled as.
-/

set_option autoImplicit false

namespace Proofhouse

/-!
## The search library
-/

/-- What the generators use of proptest. `Draws strategy value` says that the
strategy can draw the value. -/
structure Proptest where
  Strategy : Type → Type
  Draws {α : Type} : Strategy α → α → Prop
  just {α : Type} : α → Strategy α
  range : I64 → I64 → Strategy I64
  map {α β : Type} : Strategy α → (α → β) → Strategy β
  triple {α β γ : Type} : Strategy α → Strategy β → Strategy γ → Strategy (α × β × γ)
  oneOf {α : Type} : List (Strategy α) → Strategy α
  /-- `collection::vec`, with the bounds of the length. -/
  vec {α : Type} : Strategy α → Nat → Nat → Strategy (List α)
  /-- `prop_recursive`, with the leaves first. -/
  recursive {α : Type} (leaf : Strategy α) (depth desiredSize expectedBranchSize : Nat)
    (recurse : Strategy α → Strategy α) : Strategy α

namespace Proptest

variable (lib : Proptest)

/-- Values with at most `depth` branches above any leaf. A branch is what `recurse`
makes of a strategy for values of one level less. -/
inductive Nested {α : Type} (leaf : lib.Strategy α)
    (recurse : lib.Strategy α → lib.Strategy α) : Nat → α → Prop where
  | leaf {depth value} : lib.Draws leaf value → Nested leaf recurse depth value
  | branch {depth value} (inner : lib.Strategy α) :
      (∀ other, lib.Draws inner other → Nested leaf recurse depth other) →
      lib.Draws (recurse inner) value → Nested leaf recurse (depth + 1) value

/-- What the documentation of proptest promises of the combinators. Of
`prop_recursive` it promises the depth, and not that every shape comes up. -/
structure Documented : Prop where
  draws_just {α : Type} {value other : α} : lib.Draws (lib.just value) other ↔ other = value
  draws_range {lowest highest value : I64} :
    lib.Draws (lib.range lowest highest) value ↔
      lowest.value ≤ value.value ∧ value.value ≤ highest.value
  draws_map {α β : Type} {strategy : lib.Strategy α} {image : α → β} {value : β} :
    lib.Draws (lib.map strategy image) value ↔
      ∃ origin, lib.Draws strategy origin ∧ value = image origin
  draws_triple {α β γ : Type} {first : lib.Strategy α} {second : lib.Strategy β}
    {third : lib.Strategy γ} {value : α × β × γ} :
    lib.Draws (lib.triple first second third) value ↔
      lib.Draws first value.1 ∧ lib.Draws second value.2.1 ∧ lib.Draws third value.2.2
  draws_oneOf {α : Type} {strategies : List (lib.Strategy α)} {value : α} :
    lib.Draws (lib.oneOf strategies) value ↔
      ∃ strategy ∈ strategies, lib.Draws strategy value
  draws_vec {α : Type} {strategy : lib.Strategy α} {shortest longest : Nat} {values : List α} :
    lib.Draws (lib.vec strategy shortest longest) values ↔
      shortest ≤ values.length ∧ values.length ≤ longest ∧
        ∀ value ∈ values, lib.Draws strategy value
  nested_of_draws_recursive {α : Type} {leaf : lib.Strategy α}
    {depth desiredSize expectedBranchSize : Nat} {recurse : lib.Strategy α → lib.Strategy α}
    {value : α} :
    lib.Draws (lib.recursive leaf depth desiredSize expectedBranchSize recurse) value →
      lib.Nested leaf recurse depth value

end Proptest

/-!
## Tokens
-/

/-- A token at the front of whatever spells it out. -/
def atStart (kind : TokenKind) (lexeme : String) : Token :=
  ⟨kind, lexeme, 0⟩

/-- The loop of `placed`, with the offset of the next token. -/
def placedFrom (offset : Nat) : List Token → List Token
  | [] => []
  | token :: drawn =>
      let width := token.lexeme.utf8ByteSize
      -- One for the separator that `spelling` writes between neighbors.
      { token with offset } :: placedFrom (offset + (width + 1)) drawn

/-- Each token of a run at the offset its own spelling puts it at. -/
def placed (drawn : List Token) : List Token :=
  placedFrom 0 drawn

/-- The text a run of tokens stands for, with one space between neighbors. -/
def spelling (run : List Token) : String :=
  String.intercalate " " (run.map Token.lexeme)

section

variable (lib : Proptest)

/-- Draw a number that is not negative, or one of the six symbols with the character
it always spells as. -/
def tokens : lib.Strategy Token :=
  lib.oneOf [
    lib.map (lib.range I64.zero I64.max) fun value =>
      atStart .number (toString value.value),
    lib.just (atStart .plus "+"),
    lib.just (atStart .minus "-"),
    lib.just (atStart .star "*"),
    lib.just (atStart .slash "/"),
    lib.just (atStart .lParen "("),
    lib.just (atStart .rParen ")")]

def tokenSequences (maxLen : Nat) : lib.Strategy (List Token) :=
  lib.map (lib.vec (tokens lib) 0 maxLen) placed

/-!
## Trees and texts
-/

def binaryOperators : lib.Strategy BinaryOperator :=
  lib.oneOf [lib.just .add, lib.just .sub, lib.just .mul, lib.just .div]

def desiredSize : Nat := 32

def branchSize : Nat := 2

/-- Draw trees whose literals are not negative, with at most `maxDepth` branches
stacked. -/
def expressions (maxDepth : Nat) : lib.Strategy Expr :=
  lib.recursive (lib.map (lib.range I64.zero I64.max) .number) maxDepth desiredSize branchSize
    fun inner =>
      lib.oneOf [
        lib.map inner fun operand => .unaryOp .neg operand,
        lib.map (lib.triple (binaryOperators lib) inner inner) fun (op, left, right) =>
          .binaryOp op left right]

/-- Draw source text that parses back to the tree behind it. -/
def expressionTexts (maxDepth : Nat) : lib.Strategy String :=
  lib.map (expressions lib maxDepth) formatExpr

end

end Proofhouse
