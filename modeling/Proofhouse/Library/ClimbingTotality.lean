import Proofhouse.Library.TokenMaps

/-!
# Every token run is read

Climbing has a result on every run, so that where the mapped run derives a value,
the run itself does as well.
-/

set_option autoImplicit false

namespace Library

namespace OperatorGrammar

variable {τ υ α : Type} {g : OperatorGrammar τ α}

theorem Derives.nonempty {phrase : Phrase} {tokens : List τ} {value : α}
    (derived : g.Derives phrase tokens value) : tokens ≠ [] := by
  induction derived with
  | literal | prefixed | bracket => exact List.cons_ne_nil _ _
  | operand _ ih => exact ih
  | join => simp

/-- Climbing reaches every goal on the runs it is asked about. -/
private structure Total (g : OperatorGrammar τ α) (tokens : List τ) : Prop where
  operand : ∃ result, g.Climbs .operand tokens result
  extend : ∀ level left, ∃ result, g.Climbs (.extend level left) tokens result

private theorem Total.chain {tokens : List τ} (total : Total g tokens)
    (shorter : ∀ rest : List τ, rest.length < tokens.length → Total g rest) (level : Nat) :
    ∃ result, g.Climbs (.chain level) tokens result := by
  obtain ⟨result, operand⟩ := total.operand
  cases result with
  | error failure => exact ⟨_, .chainFails operand⟩
  | ok outcome =>
      obtain ⟨left, rest⟩ := outcome
      obtain ⟨used, rfl, derived⟩ := operand.operand_sound
      have consumed : rest.length < (used ++ rest).length := by
        have positive := List.length_pos_iff.mpr derived.nonempty
        rw [List.length_append]
        omega
      obtain ⟨extended, extend⟩ := (shorter rest consumed).extend level left
      exact ⟨extended, .chain operand extend⟩

private theorem total_of_shorter {tokens : List τ}
    (shorter : ∀ rest : List τ, rest.length < tokens.length → Total g rest) :
    Total g tokens := by
  cases tokens with
  | nil => exact ⟨⟨_, .exhausted⟩, fun level left => ⟨_, .stop trivial⟩⟩
  | cons token rest =>
      have within : rest.length < (token :: rest).length := Nat.lt_succ_self _
      have next := shorter rest within
      have chain := next.chain fun others fewer => shorter others (Nat.lt_trans fewer within)
      constructor
      · cases opens : g.opening token with
        | literal value => exact ⟨_, .literal opens⟩
        | refused => exact ⟨_, .refused opens⟩
        | unfit => exact ⟨_, .unfit opens⟩
        | prefixed apply =>
            obtain ⟨_ | ⟨value, later⟩, operand⟩ := next.operand
            · exact ⟨_, .prefixedFails opens operand⟩
            · exact ⟨_, .prefixed opens operand⟩
        | bracket =>
            obtain ⟨_ | ⟨value, _ | ⟨closer, later⟩⟩, inner⟩ := chain g.loosest
            · exact ⟨_, .bracketFails opens inner⟩
            · exact ⟨_, .bracketExhausted opens inner⟩
            · cases closes : g.closes closer with
              | true => exact ⟨_, .bracket opens inner closes⟩
              | false => exact ⟨_, .bracketUnclosed opens inner closes⟩
      · intro level left
        cases operator : g.operator? token with
        | none => exact ⟨_, .stop (by simp [operator])⟩
        | some entry =>
            obtain ⟨own, combine⟩ := entry
            rcases Nat.lt_or_ge own level with looser | reaches
            · refine ⟨_, .stop fun found joined same => ?_⟩
              cases operator.symm.trans same
              exact looser
            · obtain ⟨_ | ⟨right, later⟩, climbsRight⟩ := chain (own + 1)
              · exact ⟨_, .joinFails operator reaches climbsRight⟩
              · obtain ⟨used, rfl, -, -⟩ := climbsRight.chain_sound
                have fewer : later.length < (token :: (used ++ later)).length := by
                  simp only [List.length_cons, List.length_append]
                  omega
                obtain ⟨result, extend⟩ := (shorter later fewer).extend level (combine left right)
                exact ⟨result, .join operator reaches climbsRight extend⟩

theorem exists_reads (tokens : List τ) : ∃ result, g.Reads tokens result := by
  have total : ∀ run : List τ, Total g run := by
    intro run
    induction size : run.length using Nat.strongRecOn generalizing run with
    | ind length ih =>
        subst size
        exact total_of_shorter fun rest fewer => ih _ fewer rest rfl
  obtain ⟨_ | ⟨value, _ | ⟨token, rest⟩⟩, climbs⟩ :=
    (total tokens).chain (fun rest _ => total rest) g.loosest
  · exact ⟨_, .fails climbs⟩
  · exact ⟨_, .whole climbs⟩
  · exact ⟨_, .trailing climbs⟩

/-- Tokens a grammar cannot tell apart derive the same values. -/
theorem derives_map_iff {image : OperatorGrammar υ α} {change : τ → υ}
    (preserves : Preserves g image change) {tokens : List τ} {value : α} :
    image.Derives (.chain image.loosest) (tokens.map change) value ↔
      g.Derives (.chain g.loosest) tokens value := by
  obtain ⟨result, reads⟩ := @exists_reads _ _ g tokens
  have images := reads.mapTokens preserves
  rw [← reads_ok_iff, ← reads_ok_iff]
  constructor
  · intro mapped
    have same := images.deterministic mapped
    cases result with
    | error failure => cases same
    | ok tree =>
        cases same
        exact reads
  · intro read
    cases reads.deterministic read
    exact images

end OperatorGrammar

end Library
