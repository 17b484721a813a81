import Proofhouse.Library.TokenMaps

/-!
# What decides a climb

Precedence climbing looks at the tokens up to the one it stops at, and at no more
of that one than what it opens, closes and operates as. A failure is therefore
repeated in front of any other tokens.
-/

set_option autoImplicit false

namespace Library

def Failure.token? {τ : Type} : Failure τ → Option τ
  | .endOfInput => none
  | .unexpected token | .refused token | .trailing token => some token

namespace OperatorGrammar

variable {τ α : Type} {g : OperatorGrammar τ α}

/-- A climb that stops at the one token would stop at the other as well. -/
structure Resembles (g : OperatorGrammar τ α) (token other : τ) : Prop where
  unfit : g.opening token = .unfit → g.opening other = .unfit
  refused : g.opening token = .refused → g.opening other = .refused
  closes : g.closes other = g.closes token
  operator : g.operator? other = g.operator? token

theorem Resembles.refl (token : τ) : g.Resembles token token :=
  ⟨id, id, rfl, rfl⟩

/-- The token a climb stops at, with the evidence that it looked at that one. -/
private def stopsAt? : Except (Failure τ) (α × List τ) → Option τ
  | .ok (_, rest) => rest.head?
  | .error failure => failure.token?

/-- The outcome with another token in the place of the one it stops at. -/
private def replaced (other : τ) (later : List τ) :
    Except (Failure τ) (α × List τ) → Except (Failure τ) (α × List τ)
  | .ok (value, _) => .ok (value, other :: later)
  | .error failure => .error (failure.map fun _ => other)

private def Decided (g : OperatorGrammar τ α) (goal : Goal α) (tokens : List τ)
    (result : Except (Failure τ) (α × List τ)) : Prop :=
  ∀ token, stopsAt? result = some token → ∃ used rest, tokens = used ++ token :: rest ∧
    ∀ other later, g.Resembles token other →
      g.Climbs goal (used ++ other :: later) (replaced other later result)

private theorem Decided.lift {goal inner : Goal α} {tokens : List τ}
    {result result' : Except (Failure τ) (α × List τ)} (decided : g.Decided inner tokens result)
    (used : List τ) (same : stopsAt? result' = stopsAt? result)
    (readsOn : ∀ before token rest other later, tokens = before ++ token :: rest →
      g.Resembles token other →
      g.Climbs inner (before ++ other :: later) (replaced other later result) →
      g.Climbs goal (used ++ (before ++ other :: later)) (replaced other later result')) :
    g.Decided goal (used ++ tokens) result' := by
  intro token stops
  obtain ⟨before, rest, rfl, again⟩ := decided token (same ▸ stops)
  refine ⟨used ++ before, rest, by simp, fun other later resembles => ?_⟩
  rw [List.append_assoc]
  exact readsOn before token rest other later rfl resembles (again other later resembles)

private theorem Climbs.decided {goal : Goal α} {tokens : List τ}
    {result : Except (Failure τ) (α × List τ)} (climbs : g.Climbs goal tokens result) :
    g.Decided goal tokens result := by
  induction climbs with
  | exhausted | bracketExhausted => exact nofun
  | @literal first rest value opens =>
      intro token stops
      obtain ⟨later, rfl⟩ := List.head?_eq_some_iff.mp stops
      exact ⟨[first], later, rfl, fun other later _ => .literal opens⟩
  | @refused first rest opens =>
      intro token stops
      cases stops
      exact ⟨[], rest, rfl, fun other later resembles => .refused (resembles.refused opens)⟩
  | @unfit first rest opens =>
      intro token stops
      cases stops
      exact ⟨[], rest, rfl, fun other later resembles => .unfit (resembles.unfit opens)⟩
  | @prefixed first apply tokens value rest opens _ ih =>
      exact ih.lift [first] rfl fun _ _ _ _ _ _ _ again => .prefixed opens again
  | @prefixedFails first apply tokens failure opens _ ih =>
      exact ih.lift [first] rfl fun _ _ _ _ _ _ _ again => .prefixedFails opens again
  | @bracket first tokens value closer rest opens inner closes ih =>
      intro token stops
      obtain ⟨later, rfl⟩ := List.head?_eq_some_iff.mp stops
      obtain ⟨used, rfl, derived, _⟩ := inner.chain_sound
      refine ⟨first :: (used ++ [closer]), later, by simp, fun other later _ => ?_⟩
      exact (Derives.bracket opens derived closes).climbs_operand (other :: later)
  | @bracketUnclosed first tokens value stray rest opens inner open_ ih =>
      intro token stops
      cases stops
      obtain ⟨used, rest, rfl, again⟩ := ih stray rfl
      refine ⟨first :: used, rest, rfl, fun other later resembles => ?_⟩
      exact .bracketUnclosed opens (again other later resembles) (resembles.closes.trans open_)
  | @bracketFails first tokens failure opens _ ih =>
      exact ih.lift [first] rfl fun _ _ _ _ _ _ _ again => .bracketFails opens again
  | @chain level tokens left rest result operand _ _ extendIH =>
      obtain ⟨used, rfl, derived⟩ := operand.operand_sound
      exact extendIH.lift used rfl fun _ _ _ _ _ _ _ again =>
        .chain (derived.climbs_operand _) again
  | chainFails _ ih =>
      exact ih.lift [] rfl fun _ _ _ _ _ _ _ again => .chainFails again
  | @stop level left tokens stops =>
      intro token head
      obtain ⟨rest, rfl⟩ := List.head?_eq_some_iff.mp head
      exact ⟨[], rest, rfl, fun other later resembles =>
        .stop (stops.congr_head later resembles.operator)⟩
  | @join level own first combine left tokens right rest result operator reaches climbsRight _ _
      extendIH =>
      obtain ⟨used, rfl, derived, stops⟩ := climbsRight.chain_sound
      refine extendIH.lift (first :: used) rfl
        fun before token rest other later split resembles again => ?_
      refine .join operator reaches (derived.climbs_chain ?_) again
      -- The chain of the right operand ends before the same operator as it did.
      cases before with
      | nil => exact (split ▸ stops).congr_head _ resembles.operator
      | cons head before => exact (split ▸ stops).congr_head _ rfl
  | @joinFails level own first combine left tokens failure operator reaches _ ih =>
      exact ih.lift [first] rfl fun _ _ _ _ _ _ _ again => .joinFails operator reaches again

/-- A failure that blames a token is repeated with any token like it in its place
and whatever tokens come after. -/
theorem Reads.decided {tokens : List τ} {failure : Failure τ} {token : τ}
    (reads : g.Reads tokens (.error failure)) (blames : failure.token? = some token) :
    ∃ used rest, tokens = used ++ token :: rest ∧ ∀ other later, g.Resembles token other →
      g.Reads (used ++ other :: later) (.error (failure.map fun _ => other)) := by
  cases reads with
  | trailing climbs =>
      cases blames
      obtain ⟨used, rest, split, again⟩ := climbs.decided token rfl
      exact ⟨used, rest, split, fun other later resembles =>
        .trailing (again other later resembles)⟩
  | fails climbs =>
      obtain ⟨used, rest, split, again⟩ := climbs.decided token blames
      exact ⟨used, rest, split, fun other later resembles => .fails (again other later resembles)⟩

end OperatorGrammar

end Library
