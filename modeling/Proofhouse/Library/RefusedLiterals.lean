import Proofhouse.Library.ClimbingFailures

/-!
# Literals out of range

A grammar that refuses some of the literals another one reads, and otherwise
reads the same tokens: on a run the wider grammar derives, the narrower one
derives a value as well, or fails at the first literal it refuses.
-/

set_option autoImplicit false

namespace Library

def Opening.isRefused {α : Type} : Opening α → Bool
  | .refused => true
  | .literal _ | .prefixed _ | .bracket | .unfit => false

@[simp] theorem Opening.isRefused_iff {α : Type} {opening : Opening α} :
    opening.isRefused = true ↔ opening = .refused := by
  cases opening <;> simp [isRefused]

namespace OperatorGrammar

variable {τ α β : Type}

/-- `g` reads tokens as `wide` does, except for literals that it refuses. -/
structure Narrows (g : OperatorGrammar τ α) (wide : OperatorGrammar τ β) : Prop where
  loosest : wide.loosest = g.loosest
  literal : ∀ {token value}, wide.opening token = .literal value →
    g.opening token = .refused ∨ ∃ own, g.opening token = .literal own
  prefixed : ∀ {token apply}, wide.opening token = .prefixed apply →
    ∃ own, g.opening token = .prefixed own
  bracket : ∀ {token}, wide.opening token = .bracket → g.opening token = .bracket
  operator : ∀ {token level join}, wide.operator? token = some (level, join) →
    g.opening token ≠ .refused ∧ ∃ own, g.operator? token = some (level, own)
  closes : ∀ {token}, wide.closes token = true →
    g.opening token ≠ .refused ∧ g.closes token = true

def firstRefused? (g : OperatorGrammar τ α) (tokens : List τ) : Option τ :=
  tokens.find? fun token => (g.opening token).isRefused

variable {g : OperatorGrammar τ α} {wide : OperatorGrammar τ β}

@[simp] theorem firstRefused?_nil : g.firstRefused? [] = none := rfl

theorem firstRefused?_cons {token : τ} {tokens : List τ} (opens : g.opening token ≠ .refused) :
    g.firstRefused? (token :: tokens) = g.firstRefused? tokens :=
  List.find?_cons_of_neg (by simpa using opens)

theorem firstRefused?_append (left right : List τ) :
    g.firstRefused? (left ++ right) = (g.firstRefused? left).or (g.firstRefused? right) :=
  List.find?_append

theorem Derives.narrowed (narrows : g.Narrows wide) {phrase : Phrase} {tokens : List τ}
    {value : β} (derived : wide.Derives phrase tokens value)
    (none : g.firstRefused? tokens = none) : ∃ own, g.Derives phrase tokens own := by
  induction derived with
  | @literal token value opens =>
      rcases narrows.literal opens with refused | ⟨own, reads⟩
      · simp [firstRefused?, refused, Opening.isRefused] at none
      · exact ⟨own, .literal reads⟩
  | @prefixed token apply tokens value opens _ ih =>
      obtain ⟨own, reads⟩ := narrows.prefixed opens
      rw [firstRefused?_cons (by simp [reads])] at none
      obtain ⟨value, inner⟩ := ih none
      exact ⟨own value, .prefixed reads inner⟩
  | @bracket token tokens value closer opens _ closes ih =>
      have reads := narrows.bracket opens
      rw [firstRefused?_cons (by simp [reads]), firstRefused?_append, Option.or_eq_none_iff] at none
      obtain ⟨value, inner⟩ := ih none.1
      exact ⟨value, .bracket reads (narrows.loosest ▸ inner) (narrows.closes closes).2⟩
  | operand _ ih =>
      obtain ⟨value, inner⟩ := ih none
      exact ⟨value, .operand inner⟩
  | @join level own token combine left right _ _ operator reaches _ _ leftIH rightIH =>
      obtain ⟨opens, joins, found⟩ := narrows.operator operator
      rw [firstRefused?_append, firstRefused?_cons opens, Option.or_eq_none_iff] at none
      obtain ⟨leftValue, onLeft⟩ := leftIH none.1
      obtain ⟨rightValue, onRight⟩ := rightIH none.2
      exact ⟨joins leftValue rightValue, .join found reaches onLeft onRight⟩

/-- How a phrase is refused at `token`, whatever follows the phrase. -/
private def RefusedAt (g : OperatorGrammar τ α) (token : τ) : Phrase → List τ → Prop
  | .operand, tokens => ∀ rest, g.Climbs .operand (tokens ++ rest) (.error (.refused token))
  | .chain level, tokens => ∀ looser rest, looser ≤ level →
      g.Climbs (.chain looser) (tokens ++ rest) (.error (.refused token))

private theorem Derives.refusedAt (narrows : g.Narrows wide) {phrase : Phrase} {tokens : List τ}
    {value : β} (derived : wide.Derives phrase tokens value) {blamed : τ}
    (first : g.firstRefused? tokens = some blamed) : RefusedAt g blamed phrase tokens := by
  induction derived with
  | @literal token value opens =>
      intro rest
      rw [firstRefused?, List.find?_singleton] at first
      split at first
      · next refused =>
        cases first
        exact .refused (Opening.isRefused_iff.mp refused)
      · cases first
  | @prefixed token apply tokens value opens _ ih =>
      obtain ⟨own, reads⟩ := narrows.prefixed opens
      rw [firstRefused?_cons (by simp [reads])] at first
      exact fun rest => .prefixedFails reads (ih first rest)
  | @bracket token tokens value closer opens _ closes ih =>
      have reads := narrows.bracket opens
      have tail : g.firstRefused? [closer] = none := by
        rw [firstRefused?_cons (narrows.closes closes).1, firstRefused?_nil]
      rw [firstRefused?_cons (by simp [reads]), firstRefused?_append, tail, Option.or_none] at first
      intro rest
      have inner := ih first g.loosest ([closer] ++ rest) (Nat.le_of_eq narrows.loosest.symm)
      exact .bracketFails reads (by simpa using inner)
  | operand _ ih => exact fun looser rest _ => .chainFails (ih first rest)
  | @join level own token combine left right leftValue _ operator reaches onLeft _ leftIH
      rightIH =>
      intro looser rest ordered
      have within : looser ≤ own := Nat.le_trans ordered reaches
      obtain ⟨opens, joins, found⟩ := narrows.operator operator
      rw [firstRefused?_append, firstRefused?_cons opens] at first
      cases inLeft : g.firstRefused? left with
      | some earlier =>
          rw [inLeft, Option.some_or] at first
          cases first
          simpa using leftIH inLeft looser (token :: right ++ rest) within
      | none =>
          rw [inLeft, Option.none_or] at first
          obtain ⟨read, derived⟩ := onLeft.narrowed narrows inLeft
          have fails := rightIH first (own + 1) rest (Nat.le_refl _)
          have atOperator : g.Stops (own + 1) (token :: (right ++ rest)) := by
            intro level join same
            rw [found] at same
            cases same
            exact Nat.lt_succ_self _
          simpa using derived.climbs_extend within atOperator (.joinFails found within fails)

theorem Derives.reads_refused (narrows : g.Narrows wide) {tokens : List τ} {value : β}
    (derived : wide.Derives (.chain wide.loosest) tokens value) {blamed : τ}
    (first : g.firstRefused? tokens = some blamed) :
    g.Reads tokens (.error (.refused blamed)) := by
  have fails := derived.refusedAt narrows first g.loosest [] (Nat.le_of_eq narrows.loosest.symm)
  rw [List.append_nil] at fails
  exact .fails fails

end OperatorGrammar

end Library
