import Mathlib.Order.Defs.LinearOrder

/-!
# Operator grammars and precedence climbing

Phrases of an operator grammar over arbitrary tokens and values: operands are
literals, prefixed operands and bracketed chains; a chain joins operands by
left-grouping operators at numeric levels. Precedence climbing is given
as a big-step judgment, failures included, and is sound and complete for the
derivations of the grammar.
-/

set_option autoImplicit false

namespace Library

/-- What a token does where an operand is due. A refused token has the form of
a literal and no value. -/
inductive Opening (α : Type) where
  | literal (value : α)
  | refused
  | prefixed (apply : α → α)
  | bracket
  | unfit

/-- Operators and brackets of a language, with a literal and a closing bracket
to complete a started phrase with. -/
structure OperatorGrammar (τ α : Type) where
  loosest : Nat
  opening : τ → Opening α
  operator? : τ → Option (Nat × (α → α → α))
  closes : τ → Bool
  closes_not_operator : ∀ token, closes token = true → operator? token = none
  sampleLiteral : τ
  sampleCloser : τ
  sampleLiteral_opens : ∃ value, opening sampleLiteral = .literal value
  sampleCloser_closes : closes sampleCloser = true

/-- Why a reader gave up, with the token it blames. -/
inductive Failure (τ : Type) where
  | endOfInput
  | unexpected (token : τ)
  | refused (token : τ)
  | trailing (token : τ)

/-- What a phrase stands for: one operand, or a chain of operators no looser
than a level. -/
inductive Phrase where
  | operand
  | chain (level : Nat)

/-- What climbing is doing: reading a phrase, or extending a chain on the left. -/
inductive Goal (α : Type) where
  | operand
  | chain (level : Nat)
  | extend (level : Nat) (left : α)

namespace OperatorGrammar

variable {τ α : Type} (g : OperatorGrammar τ α)

/-- The phrases of the grammar. An operator takes a chain of its own level on
the left and a strictly tighter one on the right. -/
inductive Derives : Phrase → List τ → α → Prop where
  | literal {token value} : g.opening token = .literal value →
      Derives .operand [token] value
  | prefixed {token apply tokens value} : g.opening token = .prefixed apply →
      Derives .operand tokens value → Derives .operand (token :: tokens) (apply value)
  | bracket {token tokens value closer} : g.opening token = .bracket →
      Derives (.chain g.loosest) tokens value → g.closes closer = true →
      Derives .operand (token :: (tokens ++ [closer])) value
  | operand {level tokens value} :
      Derives .operand tokens value → Derives (.chain level) tokens value
  | join {level own token combine left right leftValue rightValue} :
      g.operator? token = some (own, combine) → level ≤ own →
      Derives (.chain own) left leftValue → Derives (.chain (own + 1)) right rightValue →
      Derives (.chain level) (left ++ token :: right) (combine leftValue rightValue)

/-- A chain of `level` does not go on into these tokens. -/
def Stops (level : Nat) : List τ → Prop
  | [] => True
  | token :: _ => ∀ own combine, g.operator? token = some (own, combine) → own < level

/-- Precedence climbing. A success carries the value and the unread tokens. -/
inductive Climbs : Goal α → List τ → Except (Failure τ) (α × List τ) → Prop where
  | exhausted : Climbs .operand [] (.error .endOfInput)
  | literal {token rest value} : g.opening token = .literal value →
      Climbs .operand (token :: rest) (.ok (value, rest))
  | refused {token rest} : g.opening token = .refused →
      Climbs .operand (token :: rest) (.error (.refused token))
  | unfit {token rest} : g.opening token = .unfit →
      Climbs .operand (token :: rest) (.error (.unexpected token))
  | prefixed {token apply tokens value rest} : g.opening token = .prefixed apply →
      Climbs .operand tokens (.ok (value, rest)) →
      Climbs .operand (token :: tokens) (.ok (apply value, rest))
  | prefixedFails {token apply tokens failure} : g.opening token = .prefixed apply →
      Climbs .operand tokens (.error failure) →
      Climbs .operand (token :: tokens) (.error failure)
  | bracket {token tokens value closer rest} : g.opening token = .bracket →
      Climbs (.chain g.loosest) tokens (.ok (value, closer :: rest)) →
      g.closes closer = true → Climbs .operand (token :: tokens) (.ok (value, rest))
  | bracketUnclosed {token tokens value other rest} : g.opening token = .bracket →
      Climbs (.chain g.loosest) tokens (.ok (value, other :: rest)) →
      g.closes other = false →
      Climbs .operand (token :: tokens) (.error (.unexpected other))
  | bracketExhausted {token tokens value} : g.opening token = .bracket →
      Climbs (.chain g.loosest) tokens (.ok (value, [])) →
      Climbs .operand (token :: tokens) (.error .endOfInput)
  | bracketFails {token tokens failure} : g.opening token = .bracket →
      Climbs (.chain g.loosest) tokens (.error failure) →
      Climbs .operand (token :: tokens) (.error failure)
  | chain {level tokens left rest result} : Climbs .operand tokens (.ok (left, rest)) →
      Climbs (.extend level left) rest result → Climbs (.chain level) tokens result
  | chainFails {level tokens failure} : Climbs .operand tokens (.error failure) →
      Climbs (.chain level) tokens (.error failure)
  | stop {level left tokens} : g.Stops level tokens →
      Climbs (.extend level left) tokens (.ok (left, tokens))
  | join {level own token combine left tokens right rest result} :
      g.operator? token = some (own, combine) → level ≤ own →
      Climbs (.chain (own + 1)) tokens (.ok (right, rest)) →
      Climbs (.extend level (combine left right)) rest result →
      Climbs (.extend level left) (token :: tokens) result
  | joinFails {level own token combine left tokens failure} :
      g.operator? token = some (own, combine) → level ≤ own →
      Climbs (.chain (own + 1)) tokens (.error failure) →
      Climbs (.extend level left) (token :: tokens) (.error failure)

variable {g}

@[simp] theorem stops_nil {level : Nat} : g.Stops level [] := trivial

@[simp] theorem stops_cons {level : Nat} {token : τ} {rest : List τ} :
    g.Stops level (token :: rest) ↔
      ∀ own combine, g.operator? token = some (own, combine) → own < level := Iff.rfl

theorem Stops.mono {level looser : Nat} {tokens : List τ}
    (stops : g.Stops looser tokens) (ordered : looser ≤ level) : g.Stops level tokens := by
  cases tokens with
  | nil => trivial
  | cons token rest =>
      intro own combine operator
      exact Nat.lt_of_lt_of_le (stops own combine operator) ordered

theorem Stops.congr_head {level : Nat} {token other : τ} {rest : List τ}
    (stops : g.Stops level (token :: rest)) (later : List τ)
    (same : g.operator? other = g.operator? token) : g.Stops level (other :: later) := by
  intro own combine operator
  exact stops own combine (same ▸ operator)

theorem Stops.of_head?_eq {level : Nat} {tokens other : List τ} (stops : g.Stops level tokens)
    (sameHead : other.head? = tokens.head?) : g.Stops level other := by
  cases other with
  | nil => trivial
  | cons head tail =>
      cases tokens with
      | nil => cases sameHead
      | cons token rest =>
          cases sameHead
          exact stops

theorem stops_of_closes {level : Nat} {closer : τ} (rest : List τ)
    (closes : g.closes closer = true) : g.Stops level (closer :: rest) := by
  intro own combine operator
  rw [g.closes_not_operator closer closes] at operator
  cases operator

theorem exists_stops (level : Nat) (tokens : List τ) :
    ∃ bound, level ≤ bound ∧ g.Stops (bound + 1) tokens := by
  cases tokens with
  | nil => exact ⟨level, Nat.le_refl _, trivial⟩
  | cons token rest =>
      cases operator : g.operator? token with
      | none => exact ⟨level, Nat.le_refl _, by simp [operator]⟩
      | some entry =>
          obtain ⟨own, combine⟩ := entry
          refine ⟨max level own, Nat.le_max_left _ _, ?_⟩
          intro found joined same
          rw [operator] at same
          cases same
          exact Nat.lt_succ_of_le (Nat.le_max_right _ _)

theorem Derives.loosen {level looser : Nat} {tokens : List τ} {value : α}
    (derived : g.Derives (.chain level) tokens value) (ordered : looser ≤ level) :
    g.Derives (.chain looser) tokens value := by
  cases derived with
  | operand inner => exact .operand inner
  | join operator reaches left right =>
      exact .join operator (Nat.le_trans ordered reaches) left right

/-!
## Soundness
-/

def Accepts (g : OperatorGrammar τ α) : Goal α → List τ → α → List τ → Prop
  | .operand, tokens, value, rest =>
      ∃ used, tokens = used ++ rest ∧ g.Derives .operand used value
  | .chain level, tokens, value, rest =>
      ∃ used, tokens = used ++ rest ∧ g.Derives (.chain level) used value ∧ g.Stops level rest
  | .extend level left, tokens, value, rest =>
      ∀ before bound, g.Derives (.chain bound) before left → level ≤ bound →
        g.Stops (bound + 1) tokens →
        ∃ used, tokens = used ++ rest ∧ g.Derives (.chain level) (before ++ used) value ∧
          g.Stops level rest

private theorem Climbs.accepts {goal : Goal α} {tokens : List τ}
    {result : Except (Failure τ) (α × List τ)} (climbs : g.Climbs goal tokens result) :
    ∀ value rest, result = .ok (value, rest) → g.Accepts goal tokens value rest := by
  induction climbs with
  | exhausted => intro _ _ same; cases same
  | literal opens =>
      intro value rest same
      cases same
      exact ⟨[_], rfl, .literal opens⟩
  | refused => intro _ _ same; cases same
  | unfit => intro _ _ same; cases same
  | prefixed opens _ ih =>
      intro value rest same
      cases same
      obtain ⟨used, split, derived⟩ := ih _ _ rfl
      exact ⟨_ :: used, by rw [split]; rfl, .prefixed opens derived⟩
  | prefixedFails => intro _ _ same; cases same
  | @bracket token tokens inner closer rest opens _ closes ih =>
      intro value rest same
      cases same
      obtain ⟨used, split, derived, _⟩ := ih _ _ rfl
      exact ⟨token :: (used ++ [closer]), by simp [split], .bracket opens derived closes⟩
  | bracketUnclosed => intro _ _ same; cases same
  | bracketExhausted => intro _ _ same; cases same
  | bracketFails => intro _ _ same; cases same
  | @chain level tokens left middle result _ _ operandIH extendIH =>
      intro value rest same
      obtain ⟨used, split, derived⟩ := operandIH _ _ rfl
      obtain ⟨bound, reaches, stops⟩ := exists_stops (g := g) level middle
      obtain ⟨more, splitMore, whole, ends⟩ :=
        extendIH value rest same used bound (.operand derived) reaches stops
      exact ⟨used ++ more, by rw [split, splitMore, List.append_assoc], whole, ends⟩
  | chainFails => intro _ _ same; cases same
  | stop stops =>
      intro value rest same
      cases same
      intro before bound derived reaches _
      exact ⟨[], rfl, by simpa using derived.loosen reaches, stops⟩
  | @join level own token combine left tokens right middle result operator reaches _ _ rightIH
      extendIH =>
      intro value rest same before bound derived _ stops
      obtain ⟨used, split, rightDerived, rightStops⟩ := rightIH _ _ rfl
      have within : own ≤ bound := Nat.lt_succ_iff.mp (stops own combine operator)
      have joined : g.Derives (.chain own) (before ++ token :: used) (combine left right) :=
        .join operator (Nat.le_refl _) (derived.loosen within) rightDerived
      obtain ⟨more, splitMore, whole, ends⟩ :=
        extendIH value rest same _ own joined reaches rightStops
      refine ⟨token :: (used ++ more), ?_, by simpa using whole, ends⟩
      rw [split, splitMore]
      simp
  | joinFails => intro _ _ same; cases same

theorem Climbs.operand_sound {tokens rest : List τ} {value : α}
    (climbs : g.Climbs .operand tokens (.ok (value, rest))) :
    ∃ used, tokens = used ++ rest ∧ g.Derives .operand used value :=
  climbs.accepts value rest rfl

theorem Climbs.chain_sound {level : Nat} {tokens rest : List τ} {value : α}
    (climbs : g.Climbs (.chain level) tokens (.ok (value, rest))) :
    ∃ used, tokens = used ++ rest ∧ g.Derives (.chain level) used value ∧ g.Stops level rest :=
  climbs.accepts value rest rfl

/-!
## Completeness
-/

/-- How a derived phrase is read in front of any remaining tokens. A chain is
read from any looser level, where reading then goes on into those tokens. -/
private def Read (g : OperatorGrammar τ α) : Phrase → List τ → α → Prop
  | .operand, tokens, value =>
      ∀ rest, g.Climbs .operand (tokens ++ rest) (.ok (value, rest))
  | .chain level, tokens, value =>
      ∀ looser rest result, looser ≤ level → g.Stops (level + 1) rest →
        g.Climbs (.extend looser value) rest result →
        g.Climbs (.chain looser) (tokens ++ rest) result

private theorem Read.chain_whole {level : Nat} {tokens rest : List τ} {value : α}
    (read : Read g (.chain level) tokens value) (stops : g.Stops level rest) :
    g.Climbs (.chain level) (tokens ++ rest) (.ok (value, rest)) :=
  read level rest _ (Nat.le_refl _) (stops.mono (Nat.le_succ _)) (.stop stops)

private theorem Derives.read {phrase : Phrase} {tokens : List τ} {value : α}
    (derived : g.Derives phrase tokens value) : Read g phrase tokens value := by
  induction derived with
  | literal opens => exact fun _ => .literal opens
  | prefixed opens _ ih => exact fun rest => .prefixed opens (ih rest)
  | @bracket token tokens value closer opens _ closes ih =>
      intro rest
      have inner := Read.chain_whole ih (stops_of_closes rest closes)
      simpa using Climbs.bracket opens inner closes
  | operand _ ih =>
      intro looser rest result _ _ goesOn
      exact .chain (ih rest) goesOn
  | @join level own token combine left right leftValue rightValue operator reaches _ _ leftIH
      rightIH =>
      intro looser rest result ordered stops goesOn
      have tight : g.Stops (own + 1) rest := stops.mono (Nat.succ_le_succ reaches)
      have within : looser ≤ own := Nat.le_trans ordered reaches
      have step : g.Climbs (.extend looser leftValue) (token :: (right ++ rest)) result :=
        .join operator within (Read.chain_whole rightIH tight) goesOn
      have atOperator : g.Stops (own + 1) (token :: (right ++ rest)) := by
        intro found joined same
        rw [operator] at same
        cases same
        exact Nat.lt_succ_self _
      simpa using leftIH looser _ result within atOperator step

theorem Derives.climbs_operand {tokens : List τ} {value : α}
    (derived : g.Derives .operand tokens value) (rest : List τ) :
    g.Climbs .operand (tokens ++ rest) (.ok (value, rest)) :=
  derived.read rest

theorem Derives.climbs_chain {level : Nat} {tokens rest : List τ} {value : α}
    (derived : g.Derives (.chain level) tokens value) (stops : g.Stops level rest) :
    g.Climbs (.chain level) (tokens ++ rest) (.ok (value, rest)) :=
  Read.chain_whole derived.read stops

/-- A chain is read from any looser level, where reading then goes on. -/
theorem Derives.climbs_extend {level looser : Nat} {tokens rest : List τ} {value : α}
    {result : Except (Failure τ) (α × List τ)} (derived : g.Derives (.chain level) tokens value)
    (ordered : looser ≤ level) (stops : g.Stops (level + 1) rest)
    (goesOn : g.Climbs (.extend looser value) rest result) :
    g.Climbs (.chain looser) (tokens ++ rest) result :=
  derived.read looser rest result ordered stops goesOn

end OperatorGrammar

end Library
