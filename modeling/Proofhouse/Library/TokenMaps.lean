import Proofhouse.Library.ClimbingFailures

/-!
# Reading through a token map

A map of tokens that changes nothing a grammar looks at changes nothing about
how it reads: the mapped run has the same value, or the mapped failure.
-/

set_option autoImplicit false

namespace Library

def Failure.map {τ υ : Type} (change : τ → υ) : Failure τ → Failure υ
  | .endOfInput => .endOfInput
  | .unexpected token => .unexpected (change token)
  | .refused token => .refused (change token)
  | .trailing token => .trailing (change token)

namespace OperatorGrammar

variable {τ υ α : Type} {g : OperatorGrammar τ α} {image : OperatorGrammar υ α} {change : τ → υ}

/-- The grammars cannot tell a token from its image. -/
structure Preserves (g : OperatorGrammar τ α) (image : OperatorGrammar υ α) (change : τ → υ) :
    Prop where
  loosest : image.loosest = g.loosest
  opening : ∀ token, image.opening (change token) = g.opening token
  operator : ∀ token, image.operator? (change token) = g.operator? token
  closes : ∀ token, image.closes (change token) = g.closes token

private def mapOutcome (change : τ → υ) :
    Except (Failure τ) (α × List τ) → Except (Failure υ) (α × List υ)
  | .ok (value, rest) => .ok (value, rest.map change)
  | .error failure => .error (failure.map change)

theorem Stops.mapTokens (preserves : Preserves g image change) {level : Nat} {tokens : List τ}
    (stops : g.Stops level tokens) : image.Stops level (tokens.map change) := by
  cases tokens with
  | nil => trivial
  | cons token rest =>
      intro own combine operator
      exact stops own combine (preserves.operator token ▸ operator)

private theorem Climbs.mapTokens (preserves : Preserves g image change) {goal : Goal α}
    {tokens : List τ} {result : Except (Failure τ) (α × List τ)}
    (climbs : g.Climbs goal tokens result) :
    image.Climbs goal (tokens.map change) (mapOutcome change result) := by
  induction climbs with
  | exhausted => exact .exhausted
  | literal opens => exact .literal ((preserves.opening _).trans opens)
  | refused opens => exact .refused ((preserves.opening _).trans opens)
  | unfit opens => exact .unfit ((preserves.opening _).trans opens)
  | prefixed opens _ ih => exact .prefixed ((preserves.opening _).trans opens) ih
  | prefixedFails opens _ ih => exact .prefixedFails ((preserves.opening _).trans opens) ih
  | bracket opens _ closes ih =>
      exact .bracket ((preserves.opening _).trans opens) (preserves.loosest ▸ ih)
        ((preserves.closes _).trans closes)
  | bracketUnclosed opens _ open_ ih =>
      exact .bracketUnclosed ((preserves.opening _).trans opens) (preserves.loosest ▸ ih)
        ((preserves.closes _).trans open_)
  | bracketExhausted opens _ ih =>
      exact .bracketExhausted ((preserves.opening _).trans opens) (preserves.loosest ▸ ih)
  | bracketFails opens _ ih =>
      exact .bracketFails ((preserves.opening _).trans opens) (preserves.loosest ▸ ih)
  | chain _ _ operandIH extendIH => exact .chain operandIH extendIH
  | chainFails _ ih => exact .chainFails ih
  | stop stops => exact .stop (stops.mapTokens preserves)
  | join operator reaches _ _ rightIH extendIH =>
      exact .join ((preserves.operator _).trans operator) reaches rightIH extendIH
  | joinFails operator reaches _ ih =>
      exact .joinFails ((preserves.operator _).trans operator) reaches ih

theorem Reads.mapTokens (preserves : Preserves g image change) {tokens : List τ}
    {result : Except (Failure τ) α} (reads : g.Reads tokens result) :
    image.Reads (tokens.map change) (result.mapError (Failure.map change)) := by
  cases reads with
  | whole climbs => exact .whole (preserves.loosest ▸ climbs.mapTokens preserves)
  | trailing climbs => exact .trailing (preserves.loosest ▸ climbs.mapTokens preserves)
  | fails climbs => exact .fails (preserves.loosest ▸ climbs.mapTokens preserves)

end OperatorGrammar

end Library
