import Proofhouse.Library.OperatorGrammar

/-!
# Where precedence climbing fails

A failed climb blames the first token after which no phrase can go on: what
comes before that token can be completed to a phrase, and no phrase begins with
what comes up to and including it. The climbing judgment is deterministic, so
the grammar is unambiguous.
-/

set_option autoImplicit false

namespace Library

namespace OperatorGrammar

variable {τ α : Type} {g : OperatorGrammar τ α}

theorem Climbs.deterministic {goal : Goal α} {tokens : List τ}
    {first second : Except (Failure τ) (α × List τ)}
    (climbs : g.Climbs goal tokens first) (again : g.Climbs goal tokens second) :
    first = second := by
  induction climbs generalizing second with
  | exhausted => cases again; rfl
  | literal opens => cases again <;> simp_all
  | refused opens => cases again <;> simp_all
  | unfit opens => cases again <;> simp_all
  | prefixed opens _ ih => cases again <;> grind
  | prefixedFails opens _ ih => cases again <;> grind
  | bracket opens _ closes ih => cases again <;> grind
  | bracketUnclosed opens _ closes ih => cases again <;> grind
  | bracketExhausted opens _ ih => cases again <;> grind
  | bracketFails opens _ ih => cases again <;> grind
  | chain _ _ operandIH extendIH => cases again <;> grind
  | chainFails _ ih => cases again <;> grind
  | stop stops => cases again <;> grind [Stops]
  | join operator reaches _ _ rightIH extendIH => cases again <;> grind [Stops]
  | joinFails operator reaches _ ih => cases again <;> grind [Stops]

theorem Derives.unique {level : Nat} {tokens : List τ} {first second : α}
    (derived : g.Derives (.chain level) tokens first)
    (again : g.Derives (.chain level) tokens second) : first = second := by
  have read := derived.climbs_chain stops_nil
  have reread := again.climbs_chain stops_nil
  have same := read.deterministic reread
  simpa using same

variable (g)

/-- A complete phrase: a chain at the loosest level. -/
def Sentence (tokens : List τ) : Prop :=
  ∃ value, g.Derives (.chain g.loosest) tokens value

/-- A token run some complete phrase begins with. -/
def Viable (tokens : List τ) : Prop :=
  ∃ more, g.Sentence (tokens ++ more)

/-- A run of nothing but sample literals and sample closing brackets. -/
def Padding (tokens : List τ) : Prop :=
  ∀ token ∈ tokens, token = g.sampleLiteral ∨ token = g.sampleCloser

/-- A token run that sample tokens complete to a phrase. -/
def Completable (tokens : List τ) : Prop :=
  ∃ more, g.Padding more ∧ g.Sentence (tokens ++ more)

/-- Tokens that differ at most in the value they stand for as literals. -/
def Alike (token other : τ) : Prop :=
  (g.opening token = .unfit → g.opening other = .unfit) ∧
    g.closes other = g.closes token ∧ g.operator? other = g.operator? token

/-- Token runs that finish what a goal has begun. -/
private def Completes : Goal α → List τ → Prop
  | .operand, tokens => ∃ value, g.Derives .operand tokens value
  | .chain level, tokens => ∃ value, g.Derives (.chain level) tokens value
  | .extend level left, tokens =>
      ∀ before bound, g.Derives (.chain bound) before left → level ≤ bound →
        g.Stops (bound + 1) tokens → ∃ value, g.Derives (.chain level) (before ++ tokens) value

/-- A failure at a token of the run is repeated whatever follows that token,
and the tokens before it can be completed. -/
private def Blames (fails : List τ → Failure τ → Prop) (completes : List τ → Prop)
    (tokens : List τ) : Failure τ → Prop
  | .endOfInput => ∃ more, more ≠ [] ∧ g.Padding more ∧ completes (tokens ++ more)
  | .unexpected token =>
      ∃ before after, tokens = before ++ token :: after ∧
        (∃ more, g.Padding more ∧ completes (before ++ more)) ∧
        ∀ other later, g.Alike token other →
          fails (before ++ other :: later) (.unexpected other)
  | .refused token =>
      ∃ before after, tokens = before ++ token :: after ∧ g.opening token = .refused ∧
        (∀ other value, g.opening other = .literal value →
          ∃ more, g.Padding more ∧ completes (before ++ other :: more)) ∧
        ∀ later, fails (before ++ token :: later) (.refused token)
  | .trailing _ => False

/-- A run that a goal may be read from in place of `tokens`: to extend a chain,
the next token decides whether the operand before it is finished. -/
private def Follows (goal : Goal α) (tokens other : List τ) : Prop :=
  match goal with
  | .extend _ _ => other.head? = tokens.head?
  | _ => True

variable {g}

@[simp] theorem padding_nil : g.Padding [] := by
  simp [Padding]

theorem Padding.append {left right : List τ} (leftPads : g.Padding left)
    (rightPads : g.Padding right) : g.Padding (left ++ right) := by
  intro token member
  rcases List.mem_append.mp member with inLeft | inRight
  · exact leftPads token inLeft
  · exact rightPads token inRight

theorem padding_sampleLiteral : g.Padding [g.sampleLiteral] := by
  simp [Padding]

theorem padding_sampleCloser : g.Padding [g.sampleCloser] := by
  simp [Padding]

private theorem Blames.lift {fails fails' : List τ → Failure τ → Prop}
    {completes completes' : List τ → Prop} {rest : List τ} {failure : Failure τ}
    (used : List τ) (blames : g.Blames fails completes rest failure)
    (readsOn : ∀ tokens why, fails tokens why → fails' (used ++ tokens) why)
    (goesOn : ∀ tokens, completes tokens →
      ∃ tail, g.Padding tail ∧ completes' (used ++ tokens ++ tail)) :
    g.Blames fails' completes' (used ++ rest) failure := by
  cases failure with
  | endOfInput =>
      obtain ⟨more, nonempty, pads, complete⟩ := blames
      obtain ⟨tail, tailPads, whole⟩ := goesOn _ complete
      exact ⟨more ++ tail, by simp [nonempty], pads.append tailPads, by simpa using whole⟩
  | unexpected token =>
      obtain ⟨before, after, split, ⟨more, pads, complete⟩, repeats⟩ := blames
      obtain ⟨tail, tailPads, whole⟩ := goesOn _ complete
      refine ⟨used ++ before, after, by simp [split],
        ⟨more ++ tail, pads.append tailPads, by simpa using whole⟩, ?_⟩
      intro other later alike
      simpa using readsOn _ _ (repeats other later alike)
  | refused token =>
      obtain ⟨before, after, split, opens, complete, repeats⟩ := blames
      refine ⟨used ++ before, after, by simp [split], opens, ?_, ?_⟩
      · intro other value literal
        obtain ⟨more, pads, completed⟩ := complete other value literal
        obtain ⟨tail, tailPads, whole⟩ := goesOn _ completed
        exact ⟨more ++ tail, pads.append tailPads, by simpa using whole⟩
      · intro later
        simpa using readsOn _ _ (repeats later)
  | trailing token => exact blames

/-- Every failed climb blames rightly. In the extension of a chain the blamed
token never comes first, so a reading that replaces it meets the same operator. -/
private theorem Climbs.blames {goal : Goal α} {tokens : List τ}
    {result : Except (Failure τ) (α × List τ)} (climbs : g.Climbs goal tokens result) :
    ∀ failure, result = .error failure →
      g.Blames (fun run why => Follows goal tokens run ∧ g.Climbs goal run (.error why))
        (fun run => Follows goal tokens run ∧ g.Completes goal run) tokens failure := by
  obtain ⟨sample, sampleOpens⟩ := g.sampleLiteral_opens
  induction climbs with
  | exhausted =>
      intro failure same
      cases same
      exact ⟨[g.sampleLiteral], by simp, padding_sampleLiteral, trivial, sample,
        .literal sampleOpens⟩
  | @refused token rest opens =>
      intro failure same
      cases same
      refine ⟨[], rest, rfl, opens, ?_, fun later => ⟨trivial, .refused opens⟩⟩
      intro other value literal
      exact ⟨[], padding_nil, trivial, value, .literal literal⟩
  | @unfit token rest opens =>
      intro failure same
      cases same
      refine ⟨[], rest, rfl,
        ⟨[g.sampleLiteral], padding_sampleLiteral, trivial, sample, .literal sampleOpens⟩, ?_⟩
      intro other later alike
      exact ⟨trivial, .unfit (alike.1 opens)⟩
  | @prefixedFails token apply tokens _ opens _ ih =>
      intro failure same
      refine (ih failure (by simpa using same)).lift [token] ?_ ?_
      · intro run why failed
        obtain ⟨-, fails⟩ := failed
        exact ⟨trivial, .prefixedFails opens fails⟩
      · intro run complete
        obtain ⟨-, value, derived⟩ := complete
        exact ⟨[], padding_nil, trivial, apply value, by simpa using Derives.prefixed opens derived⟩
  | @bracketUnclosed token tokens value other rest opens inner open_ ih =>
      intro failure same
      cases same
      obtain ⟨used, rfl, derived, stops⟩ := inner.chain_sound
      refine ⟨token :: used, rest, rfl,
        ⟨[g.sampleCloser], padding_sampleCloser, trivial, value, ?_⟩, ?_⟩
      · simpa using Derives.bracket opens derived g.sampleCloser_closes
      · intro replacement later alike
        have reread := derived.climbs_chain (stops.congr_head later alike.2.2)
        exact ⟨trivial, .bracketUnclosed opens reread (alike.2.1.trans open_)⟩
  | @bracketExhausted token tokens value opens inner ih =>
      intro failure same
      cases same
      obtain ⟨used, rfl, derived, _⟩ := inner.chain_sound
      refine ⟨[g.sampleCloser], by simp, padding_sampleCloser, trivial, value, ?_⟩
      simpa using Derives.bracket opens derived g.sampleCloser_closes
  | @bracketFails token tokens _ opens _ ih =>
      intro failure same
      refine (ih failure (by simpa using same)).lift [token] ?_ ?_
      · intro run why failed
        obtain ⟨-, fails⟩ := failed
        exact ⟨trivial, .bracketFails opens fails⟩
      · intro run complete
        obtain ⟨-, value, derived⟩ := complete
        exact ⟨[g.sampleCloser], padding_sampleCloser, trivial, value, by
          simpa using Derives.bracket opens derived g.sampleCloser_closes⟩
  | @chain level tokens left rest _ operand _ _ extendIH =>
      intro failure same
      obtain ⟨used, rfl, derived⟩ := operand.operand_sound
      refine (extendIH failure same).lift used ?_ ?_
      · intro run why failed
        obtain ⟨-, fails⟩ := failed
        exact ⟨trivial, .chain (derived.climbs_operand run) fails⟩
      · intro run completed
        obtain ⟨-, complete⟩ := completed
        obtain ⟨bound, reaches, stops⟩ := exists_stops (g := g) level run
        obtain ⟨value, whole⟩ := complete used bound (.operand derived) reaches stops
        exact ⟨[], padding_nil, trivial, value, by simpa using whole⟩
  | @chainFails level tokens _ _ ih =>
      intro failure same
      refine (ih failure (by simpa using same)).lift [] ?_ ?_
      · intro run why failed
        obtain ⟨-, fails⟩ := failed
        exact ⟨trivial, .chainFails fails⟩
      · intro run complete
        obtain ⟨-, value, derived⟩ := complete
        exact ⟨[], padding_nil, trivial, value, by simpa using Derives.operand derived⟩
  | literal | prefixed | bracket | stop =>
      intro failure same
      cases same
  | @join level own token combine left tokens right rest _ operator reaches climbsRight _ _
      extendIH =>
      intro failure same
      obtain ⟨used, rfl, derived, stops⟩ := climbsRight.chain_sound
      refine (extendIH failure same).lift (token :: used) ?_ ?_
      · intro run why failed
        obtain ⟨sameHead, fails⟩ := failed
        exact ⟨rfl, .join operator reaches
          (derived.climbs_chain (stops.of_head?_eq sameHead)) fails⟩
      · intro run completed
        obtain ⟨sameHead, complete⟩ := completed
        refine ⟨[], padding_nil, by simp [Follows], ?_⟩
        intro before bound leftDerived _ leftStops
        have within : own ≤ bound := Nat.lt_succ_iff.mp (leftStops own combine operator)
        have joined : g.Derives (.chain own) (before ++ token :: used) (combine left right) :=
          .join operator (Nat.le_refl _) (leftDerived.loosen within) derived
        obtain ⟨value, whole⟩ := complete _ own joined reaches (stops.of_head?_eq sameHead)
        exact ⟨value, by simpa using whole⟩
  | @joinFails level own token combine left tokens _ operator reaches _ ih =>
      intro failure same
      refine (ih failure (by simpa using same)).lift [token] ?_ ?_
      · intro run why failed
        obtain ⟨-, fails⟩ := failed
        exact ⟨rfl, .joinFails operator reaches fails⟩
      · intro run complete
        obtain ⟨-, value, derived⟩ := complete
        refine ⟨[], padding_nil, by simp [Follows], ?_⟩
        intro before bound leftDerived _ leftStops
        have within : own ≤ bound := Nat.lt_succ_iff.mp (leftStops own combine operator)
        exact ⟨combine left value, by
          simpa using Derives.join operator reaches (leftDerived.loosen within) derived⟩

/-!
## Reading a whole token run
-/

/-- Reading a whole run: one chain at the loosest level, and nothing after it. -/
inductive Reads (g : OperatorGrammar τ α) : List τ → Except (Failure τ) α → Prop where
  | whole {tokens value} : g.Climbs (.chain g.loosest) tokens (.ok (value, [])) →
      Reads g tokens (.ok value)
  | trailing {tokens value token rest} :
      g.Climbs (.chain g.loosest) tokens (.ok (value, token :: rest)) →
      Reads g tokens (.error (.trailing token))
  | fails {tokens failure} : g.Climbs (.chain g.loosest) tokens (.error failure) →
      Reads g tokens (.error failure)

theorem Reads.deterministic {tokens : List τ} {first second : Except (Failure τ) α}
    (reads : g.Reads tokens first) (again : g.Reads tokens second) : first = second := by
  cases reads with
  | whole climbs => cases again with
      | whole other | trailing other | fails other =>
          have same := climbs.deterministic other
          simp_all
  | trailing climbs => cases again with
      | whole other | trailing other | fails other =>
          have same := climbs.deterministic other
          simp_all
  | fails climbs => cases again with
      | whole other | trailing other | fails other =>
          have same := climbs.deterministic other
          simp_all

theorem reads_ok_iff {tokens : List τ} {value : α} :
    g.Reads tokens (.ok value) ↔ g.Derives (.chain g.loosest) tokens value := by
  constructor
  · intro reads
    cases reads with
    | whole climbs =>
        obtain ⟨used, rfl, derived, _⟩ := climbs.chain_sound
        simpa using derived
  · intro derived
    exact .whole (by simpa using derived.climbs_chain stops_nil)

/-- What a failure says about the run it came from. -/
def Explains (g : OperatorGrammar τ α) (tokens : List τ) : Failure τ → Prop
  | .endOfInput => ∃ more, more ≠ [] ∧ g.Padding more ∧ g.Sentence (tokens ++ more)
  | .trailing token =>
      ∃ before after, tokens = before ++ token :: after ∧ g.Sentence before ∧
        ¬ g.Viable (before ++ [token])
  | .unexpected token =>
      ∃ before after, tokens = before ++ token :: after ∧ g.Completable before ∧
        ¬ g.Sentence before ∧ ∀ other, g.Alike token other → ¬ g.Viable (before ++ [other])
  | .refused token =>
      ∃ before after, tokens = before ++ token :: after ∧ g.opening token = .refused ∧
        ¬ g.Sentence before ∧ ¬ g.Viable (before ++ [token]) ∧
        ∀ other value, g.opening other = .literal value → g.Completable (before ++ [other])

theorem Derives.extend {level own : Nat} {tokens : List τ} {value literal : α} {token zero : τ}
    {combine : α → α → α} (derived : g.Derives (.chain level) tokens value)
    (operator : g.operator? token = some (own, combine)) (reaches : level ≤ own)
    (opens : g.opening zero = .literal literal) :
    ∃ result, g.Derives (.chain level) (tokens ++ token :: [zero]) result := by
  generalize phraseEq : Phrase.chain level = phrase at derived
  induction derived generalizing level with
  | literal | prefixed | bracket => cases phraseEq
  | operand inner _ =>
      cases phraseEq
      exact ⟨_, .join operator reaches (.operand inner) (.operand (.literal opens))⟩
  | @join _ within joined first left right leftValue rightValue found ordered leftDerived
      rightDerived _ rightIH =>
      cases phraseEq
      rcases Nat.lt_or_ge within own with tighter | looser
      · obtain ⟨result, extended⟩ := rightIH (Nat.succ_le_of_lt tighter) rfl
        exact ⟨_, by simpa using Derives.join found ordered leftDerived extended⟩
      · have whole := Derives.join found looser leftDerived rightDerived
        exact ⟨_, .join operator reaches whole (.operand (.literal opens))⟩

private theorem not_viable_of_fails {before : List τ} {token : τ} {failure : Failure τ}
    (fails : ∀ later, g.Climbs (.chain g.loosest) (before ++ token :: later) (.error failure)) :
    ¬ g.Viable (before ++ [token]) := by
  intro viable
  obtain ⟨more, value, derived⟩ := viable
  have read := derived.climbs_chain stops_nil
  have failed := fails more
  simp only [List.append_assoc, List.cons_append, List.nil_append, List.append_nil] at read
  cases read.deterministic failed

/-- No phrase ends where a climb fails: its next token would be an operator
that goes on, or the climb would have stopped there. -/
private theorem not_sentence_of_fails {before after : List τ} {token : τ}
    {failure : Failure τ} (stuck : ¬ g.Viable (before ++ [token]))
    (fails : g.Climbs (.chain g.loosest) (before ++ token :: after) (.error failure)) :
    ¬ g.Sentence before := by
  intro sentence
  obtain ⟨value, derived⟩ := sentence
  obtain ⟨sample, sampleOpens⟩ := g.sampleLiteral_opens
  have stops : g.Stops g.loosest (token :: after) := by
    intro own combine operator
    by_contra admitted
    obtain ⟨result, extended⟩ := derived.extend operator (Nat.le_of_not_lt admitted) sampleOpens
    exact stuck ⟨[g.sampleLiteral], result, by simpa using extended⟩
  cases (derived.climbs_chain stops).deterministic fails

theorem Reads.explains {tokens : List τ} {failure : Failure τ}
    (reads : g.Reads tokens (.error failure)) : g.Explains tokens failure := by
  cases reads with
  | @trailing value token rest climbs =>
      obtain ⟨used, rfl, derived, stops⟩ := climbs.chain_sound
      refine ⟨used, rest, rfl, ⟨value, derived⟩, ?_⟩
      intro whole
      obtain ⟨more, whole, other⟩ := whole
      have cut := derived.climbs_chain (stops.congr_head more rfl)
      have read := other.climbs_chain stops_nil
      simp only [List.append_assoc, List.cons_append, List.nil_append, List.append_nil] at read
      cases read.deterministic cut
  | fails climbs =>
      have blames := climbs.blames failure rfl
      cases failure with
      | endOfInput =>
          obtain ⟨more, nonempty, pads, -, value, derived⟩ := blames
          exact ⟨more, nonempty, pads, value, derived⟩
      | unexpected token =>
          obtain ⟨before, after, rfl, ⟨more, pads, -, value, derived⟩, repeats⟩ := blames
          have stuck : ∀ other, g.Alike token other → ¬ g.Viable (before ++ [other]) :=
            fun other alike => not_viable_of_fails fun later => (repeats other later alike).2
          have self : g.Alike token token := ⟨id, rfl, rfl⟩
          exact ⟨before, after, rfl, ⟨more, pads, value, derived⟩,
            not_sentence_of_fails (stuck token self) climbs, stuck⟩
      | refused token =>
          obtain ⟨before, after, rfl, opens, complete, repeats⟩ := blames
          have stuck := not_viable_of_fails fun later => (repeats later).2
          refine ⟨before, after, rfl, opens, not_sentence_of_fails stuck climbs, stuck, ?_⟩
          intro other value literal
          obtain ⟨more, pads, -, whole, derived⟩ := complete other value literal
          exact ⟨more, pads, whole, by simpa using derived⟩
      | trailing token => exact blames.elim

end OperatorGrammar

end Library
