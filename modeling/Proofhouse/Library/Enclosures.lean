import Proofhouse.Library.ClimbingTotality

/-!
# Bracketed parts of phrases

A bracketed phrase within a phrase is an operand like a literal, whatever is in
the brackets. What stands around it reads the same way around any other bracketed
phrase, and builds the same value around the value of that one.
-/

set_option autoImplicit false

namespace Library

namespace OperatorGrammar

variable {τ α : Type} {g : OperatorGrammar τ α}

/-!
## Bracketed phrases in the place of literals
-/

/-- A phrase in brackets, which neither go on a chain nor end one from outside. -/
structure Enclosed (g : OperatorGrammar τ α) where
  opener : τ
  inner : List τ
  closer : τ
  value : α
  opens : g.opening opener = .bracket
  notOperator : g.operator? opener = none
  notCloser : g.closes opener = false
  derived : g.Derives (.chain g.loosest) inner value
  closes : g.closes closer = true

def Enclosed.tokens (enclosed : g.Enclosed) : List τ :=
  enclosed.opener :: (enclosed.inner ++ [enclosed.closer])

theorem Enclosed.derives (enclosed : g.Enclosed) :
    g.Derives .operand enclosed.tokens enclosed.value :=
  .bracket enclosed.opens enclosed.derived enclosed.closes

/-- The grammar with bracketed phrases for tokens of their own. -/
def withEnclosed (g : OperatorGrammar τ α) : OperatorGrammar (τ ⊕ g.Enclosed) α where
  loosest := g.loosest
  opening := Sum.elim g.opening fun enclosed => .literal enclosed.value
  operator? := Sum.elim g.operator? fun _ => none
  closes := Sum.elim g.closes fun _ => false
  closes_not_operator token closes := by
    cases token with
    | inl token => exact g.closes_not_operator token closes
    | inr enclosed => rfl
  sampleLiteral := .inl g.sampleLiteral
  sampleCloser := .inl g.sampleCloser
  sampleLiteral_opens := g.sampleLiteral_opens
  sampleCloser_closes := g.sampleCloser_closes

def expand : List (τ ⊕ g.Enclosed) → List τ :=
  List.flatMap (Sum.elim (fun token => [token]) Enclosed.tokens)

/-- The token that is blamed for a bracketed phrase: the one it opens with. -/
def firstToken : τ ⊕ g.Enclosed → τ :=
  Sum.elim id Enclosed.opener

private def expandOutcome :
    Except (Failure (τ ⊕ g.Enclosed)) (α × List (τ ⊕ g.Enclosed)) →
      Except (Failure τ) (α × List τ)
  | .ok (value, rest) => .ok (value, expand rest)
  | .error failure => .error (failure.map firstToken)

theorem Stops.expand {level : Nat} {tokens : List (τ ⊕ g.Enclosed)}
    (stops : g.withEnclosed.Stops level tokens) : g.Stops level (expand tokens) := by
  cases tokens with
  | nil => trivial
  | cons token rest =>
      cases token with
      | inl token => exact stops
      | inr enclosed =>
          intro own combine operator
          cases enclosed.notOperator.symm.trans operator

private theorem Climbs.expand {goal : Goal α} {tokens : List (τ ⊕ g.Enclosed)}
    {result : Except (Failure (τ ⊕ g.Enclosed)) (α × List (τ ⊕ g.Enclosed))}
    (climbs : g.withEnclosed.Climbs goal tokens result) :
    g.Climbs goal (expand tokens) (expandOutcome result) := by
  induction climbs with
  | exhausted => exact .exhausted
  | @literal token rest value opens =>
      cases token with
      | inl token => exact .literal opens
      | inr enclosed =>
          cases opens
          exact enclosed.derives.climbs_operand (OperatorGrammar.expand rest)
  | @refused token rest opens =>
      cases token with
      | inl token => exact .refused opens
      | inr enclosed => cases opens
  | @unfit token rest opens =>
      cases token with
      | inl token => exact .unfit opens
      | inr enclosed => cases opens
  | @prefixed token apply tokens value rest opens _ ih =>
      cases token with
      | inl token => exact .prefixed opens ih
      | inr enclosed => cases opens
  | @prefixedFails token apply tokens failure opens _ ih =>
      cases token with
      | inl token => exact .prefixedFails opens ih
      | inr enclosed => cases opens
  | @bracket token tokens value closer rest opens _ closes ih =>
      cases token with
      | inr enclosed => cases opens
      | inl token =>
          cases closer with
          | inl closer => exact .bracket opens ih closes
          | inr enclosed => cases closes
  | @bracketUnclosed token tokens value other rest opens _ open_ ih =>
      cases token with
      | inr enclosed => cases opens
      | inl token =>
          cases other with
          | inl other => exact .bracketUnclosed opens ih open_
          | inr enclosed => exact .bracketUnclosed opens ih enclosed.notCloser
  | @bracketExhausted token tokens value opens _ ih =>
      cases token with
      | inl token => exact .bracketExhausted opens ih
      | inr enclosed => cases opens
  | @bracketFails token tokens failure opens _ ih =>
      cases token with
      | inl token => exact .bracketFails opens ih
      | inr enclosed => cases opens
  | chain _ _ operandIH extendIH => exact .chain operandIH extendIH
  | chainFails _ ih => exact .chainFails ih
  | stop stops => exact .stop stops.expand
  | @join level own token combine left tokens right rest result operator reaches _ _ rightIH
      extendIH =>
      cases token with
      | inl token => exact .join operator reaches rightIH extendIH
      | inr enclosed => cases operator
  | @joinFails level own token combine left tokens failure operator reaches _ ih =>
      cases token with
      | inl token => exact .joinFails operator reaches ih
      | inr enclosed => cases operator

theorem Reads.expand {tokens : List (τ ⊕ g.Enclosed)}
    {result : Except (Failure (τ ⊕ g.Enclosed)) α} (reads : g.withEnclosed.Reads tokens result) :
    g.Reads (expand tokens) (result.mapError (Failure.map firstToken)) := by
  cases reads with
  | whole climbs => exact .whole climbs.expand
  | fails climbs => exact .fails climbs.expand
  | @trailing value token rest climbs =>
      cases token with
      | inl token => exact .trailing climbs.expand
      | inr enclosed => exact .trailing climbs.expand

/-- Nothing is lost by taking bracketed phrases for literals. -/
theorem derives_expand_iff {tokens : List (τ ⊕ g.Enclosed)} {value : α} :
    g.Derives (.chain g.loosest) (expand tokens) value ↔
      g.withEnclosed.Derives (.chain g.loosest) tokens value := by
  obtain ⟨result, reads⟩ := @exists_reads _ _ g.withEnclosed tokens
  have expanded := reads.expand
  rw [← reads_ok_iff]
  constructor
  · intro read
    have same := expanded.deterministic read
    cases result with
    | error failure => cases same
    | ok tree =>
        cases same
        exact reads_ok_iff.mp reads
  · intro derived
    cases reads.deterministic (reads_ok_iff.mpr derived)
    exact expanded

/-!
## What stands around an operand
-/

/-- What a grammar can build around one value. -/
inductive Surrounds (g : OperatorGrammar τ α) : (α → α) → Prop where
  | alone : Surrounds g id
  | prefixed {token apply around} : g.opening token = .prefixed apply → Surrounds g around →
      Surrounds g fun value => apply (around value)
  | left {token own combine around right} : g.operator? token = some (own, combine) →
      Surrounds g around → Surrounds g fun value => combine (around value) right
  | right {token own combine left around} : g.operator? token = some (own, combine) →
      Surrounds g around → Surrounds g fun value => combine left (around value)

theorem Derives.surrounds {phrase : Phrase} {tokens : List (τ ⊕ g.Enclosed)} {whole : α}
    (derived : g.withEnclosed.Derives phrase tokens whole)
    {before after : List (τ ⊕ g.Enclosed)} {enclosed : g.Enclosed}
    (split : tokens = before ++ .inr enclosed :: after) :
    ∃ around, g.Surrounds around ∧ whole = around enclosed.value ∧
      ∀ other : g.Enclosed,
        g.withEnclosed.Derives phrase (before ++ .inr other :: after) (around other.value) := by
  induction derived generalizing before after with
  | @literal token value opens =>
      cases before with
      | cons first before => simp at split
      | nil =>
          obtain ⟨rfl, rfl⟩ := List.cons.inj split
          cases opens
          exact ⟨id, .alone, rfl, fun other => .literal rfl⟩
  | @prefixed token apply tokens value opens _ ih =>
      cases before with
      | nil =>
          obtain ⟨rfl, -⟩ := List.cons.inj split
          cases opens
      | cons first before =>
          obtain ⟨rfl, rfl⟩ := List.cons.inj split
          obtain ⟨around, surrounds, rfl, again⟩ := ih rfl
          cases token with
          | inr other => cases opens
          | inl token =>
              exact ⟨_, .prefixed opens surrounds, rfl, fun other => .prefixed opens (again other)⟩
  | @bracket token tokens value closer opens _ closes ih =>
      cases before with
      | nil =>
          obtain ⟨rfl, -⟩ := List.cons.inj split
          cases opens
      | cons first before =>
          rw [List.cons_append] at split
          obtain ⟨rfl, rest⟩ := List.cons.inj split
          rcases List.eq_nil_or_concat after with rfl | ⟨within, last, rfl⟩
          · obtain ⟨-, same⟩ := List.append_inj' rest rfl
            cases same
            cases closes
          · rw [List.concat_eq_append, ← List.cons_append, ← List.append_assoc] at rest
            obtain ⟨rfl, same⟩ := List.append_inj' rest rfl
            cases same
            obtain ⟨around, surrounds, rfl, again⟩ := ih rfl
            refine ⟨around, surrounds, rfl, fun other => ?_⟩
            simpa using Derives.bracket opens (again other) closes
  | operand _ ih =>
      obtain ⟨around, surrounds, rfl, again⟩ := ih split
      exact ⟨around, surrounds, rfl, fun other => .operand (again other)⟩
  | @join level own token combine left right leftValue rightValue operator reaches onLeft onRight
      leftIH rightIH =>
      cases token with
      | inr other => cases operator
      | inl token =>
          rcases List.append_eq_append_iff.mp split with ⟨between, rfl, beyond⟩ |
            ⟨between, rfl, beyond⟩
          · cases between with
            | nil => cases beyond
            | cons other between =>
                obtain ⟨rfl, rfl⟩ := List.cons.inj beyond
                obtain ⟨around, surrounds, rfl, again⟩ := rightIH rfl
                refine ⟨_, .right operator surrounds, rfl, fun other => ?_⟩
                simpa using Derives.join operator reaches onLeft (again other)
          · cases between with
            | nil => cases beyond
            | cons other between =>
                obtain ⟨rfl, rfl⟩ := List.cons.inj beyond
                obtain ⟨around, surrounds, rfl, again⟩ := leftIH rfl
                refine ⟨_, .left operator surrounds, rfl, fun other => ?_⟩
                simpa using Derives.join operator reaches (again other) onRight

theorem expand_around (before after : List τ) (enclosed : g.Enclosed) :
    expand (before.map .inl ++ .inr enclosed :: after.map .inl) =
      before ++ (enclosed.tokens ++ after) := by
  have plain : ∀ tokens : List τ, expand (tokens.map (.inl : τ → τ ⊕ g.Enclosed)) = tokens := by
    intro tokens
    rw [expand, List.flatMap_map]
    exact List.flatMap_singleton' tokens
  have split : expand (before.map .inl ++ .inr enclosed :: after.map .inl) =
      expand (before.map (.inl : τ → τ ⊕ g.Enclosed)) ++
        (enclosed.tokens ++ expand (after.map (.inl : τ → τ ⊕ g.Enclosed))) := by
    simp [expand]
  rw [split, plain, plain]

/-- What stands around one bracketed phrase reads the same way around any other. -/
theorem Derives.around_enclosed {before after : List τ} {enclosed : g.Enclosed} {whole : α}
    (derived : g.Derives (.chain g.loosest) (before ++ (enclosed.tokens ++ after)) whole) :
    ∃ around, g.Surrounds around ∧ whole = around enclosed.value ∧
      ∀ other : g.Enclosed,
        g.Derives (.chain g.loosest) (before ++ (other.tokens ++ after)) (around other.value) := by
  rw [← expand_around] at derived
  obtain ⟨around, surrounds, same, again⟩ := (derives_expand_iff.mp derived).surrounds rfl
  refine ⟨around, surrounds, same, fun other => ?_⟩
  rw [← expand_around]
  exact derives_expand_iff.mpr (again other)

end OperatorGrammar

end Library
