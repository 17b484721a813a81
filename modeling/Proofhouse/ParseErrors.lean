import Proofhouse.Grammar

/-!
# Parse errors

A parse error names the first token no complete expression can have there, or
the end of a text that more tokens would complete, and says why.
-/

set_option autoImplicit false

namespace Proofhouse

open Library

/-- Token runs that form a complete expression with every number in range. -/
def Complete (tokens : List Token) : Prop :=
  DigitLexemes tokens ∧ ∃ expr, Spells .expr tokens expr

/-- Token runs some complete expression begins with. -/
def ViablePrefix (tokens : List Token) : Prop :=
  ∃ more, Complete (tokens ++ more)

def InRange (token : Token) : Prop :=
  token.kind = .number ∧ DigitRun token.lexeme.toList ∧
    decimalValue token.lexeme.toList ≤ 9223372036854775807

/-- A number too large for its type, where one in range could have stood. -/
def BlamesRange (before : List Token) (token : Token) : Prop :=
  token.kind = .number ∧ 9223372036854775807 < decimalValue token.lexeme.toList ∧
    ∃ other, InRange other ∧ ViablePrefix (before ++ [other])

theorem complete_iff_sentence {tokens : List Token} (lexemes : DigitLexemes tokens) :
    Complete tokens ↔ exprGrammar.Sentence tokens := by
  constructor
  · intro complete
    obtain ⟨_, expr, spells⟩ := complete
    exact ⟨expr, (spells_iff_derives lexemes).mp spells⟩
  · intro sentence
    obtain ⟨expr, derived⟩ := sentence
    exact ⟨lexemes, expr, (spells_iff_derives lexemes).mpr derived⟩

theorem ViablePrefix.viable {tokens : List Token} (viable : ViablePrefix tokens) :
    exprGrammar.Viable tokens := by
  obtain ⟨more, complete⟩ := viable
  exact ⟨more, (complete_iff_sentence complete.1).mp complete⟩

theorem digitLexemes_of_padding {more : List Token} (pads : exprGrammar.Padding more) :
    DigitLexemes more := by
  intro token member isNumber
  rcases pads token member with rfl | rfl
  · change DigitRun "0".toList
    decide
  · cases isNumber

theorem viablePrefix_of_completable {tokens : List Token} (lexemes : DigitLexemes tokens)
    (completable : exprGrammar.Completable tokens) : ViablePrefix tokens := by
  obtain ⟨more, pads, sentence⟩ := completable
  have whole := digitLexemes_append.mpr ⟨lexemes, digitLexemes_of_padding pads⟩
  exact ⟨more, (complete_iff_sentence whole).mpr sentence⟩

theorem alike_of_number {token other : Token} (isNumber : token.kind = .number)
    (otherNumber : other.kind = .number) : exprGrammar.Alike token other := by
  refine ⟨?_, ?_, ?_⟩
  · intro unfit
    simp only [exprGrammar, tokenGrammar, openingWith, isNumber] at unfit
    split at unfit <;> cases unfit
  · simp [exprGrammar, tokenGrammar, isNumber, otherNumber]
  · simp [exprGrammar, tokenGrammar, isNumber, otherNumber]

theorem opens_of_inRange {token : Token} (inRange : InRange token) :
    ∃ expr, exprGrammar.opening token = .literal expr := by
  obtain ⟨isNumber, digits, bounded⟩ := inRange
  have read := (readLiteral_eq_some_iff digits).mpr
    ⟨⟨decimalValue token.lexeme.toList, by omega, by omega⟩, bounded, rfl, rfl⟩
  exact ⟨_, (exprGrammar_opening_number isNumber).mpr read⟩

theorem refused_iff {token : Token}
    (digits : token.kind = .number → DigitRun token.lexeme.toList) :
    exprGrammar.opening token = .refused ↔
      token.kind = .number ∧ 9223372036854775807 < decimalValue token.lexeme.toList := by
  cases kind : token.kind with
  | number =>
      by_cases bounded : decimalValue token.lexeme.toList ≤ 9223372036854775807
      · obtain ⟨expr, opens⟩ := opens_of_inRange ⟨kind, digits kind, bounded⟩
        simp [opens, bounded]
      · have unread : readLiteral token.lexeme = none := by
          cases read : readLiteral token.lexeme with
          | none => rfl
          | some expr =>
              obtain ⟨_, within, _⟩ := (readLiteral_eq_some_iff (digits kind)).mp read
              exact absurd within bounded
        have opens : exprGrammar.opening token = .refused := by
          simp [exprGrammar, tokenGrammar, openingWith, kind, unread]
        simp only [opens, true_and, true_iff]
        omega
  | plus | minus | star | slash | lParen | rParen =>
      simp [exprGrammar, tokenGrammar, openingWith, kind]

/-- What an error says about the run before the token it blames. -/
def Explained (tokens : List Token) (endOffset : Nat) (error : ParseError) : Prop :=
  (error.kind = .unexpectedEndOfInput ∧ error.offset = endOffset ∧
    ∃ more, more ≠ [] ∧ Complete (tokens ++ more)) ∨
  (error.kind ≠ .unexpectedEndOfInput ∧
    ∃ index token, tokens[index]? = some token ∧ error.offset = token.offset ∧
      ViablePrefix (tokens.take index) ∧ ¬ ViablePrefix (tokens.take index ++ [token]) ∧
      (error.kind = .trailingInput ↔ Complete (tokens.take index)) ∧
      (error.kind = .numberOutOfRange ↔
        ¬ Complete (tokens.take index) ∧ BlamesRange (tokens.take index) token) ∧
      (error.kind = .unexpectedToken ↔
        ¬ Complete (tokens.take index) ∧ ¬ BlamesRange (tokens.take index) token))

private theorem explained_at {before after : List Token} {token : Token} {endOffset : Nat}
    {kind : ParseErrorKind} (notEnd : kind ≠ .unexpectedEndOfInput)
    (viable : ViablePrefix before) (stuck : ¬ ViablePrefix (before ++ [token]))
    (trailing : kind = .trailingInput ↔ Complete before)
    (range : kind = .numberOutOfRange ↔ ¬ Complete before ∧ BlamesRange before token) :
    Explained (before ++ token :: after) endOffset ⟨token.offset, kind⟩ := by
  refine .inr ⟨notEnd, before.length, token, by simp, rfl, ?_⟩
  rw [List.take_left' rfl]
  refine ⟨viable, stuck, trailing, range, ?_⟩
  cases kind <;> simp_all

theorem explained_of_reads {tokens : List Token} {endOffset : Nat} {failure : Failure Token}
    (lexemes : DigitLexemes tokens) (reads : exprGrammar.Reads tokens (.error failure)) :
    Explained tokens endOffset (.ofFailure endOffset failure) := by
  have explains := reads.explains
  cases failure with
  | endOfInput =>
      obtain ⟨more, nonempty, pads, sentence⟩ := explains
      have whole := digitLexemes_append.mpr ⟨lexemes, digitLexemes_of_padding pads⟩
      exact .inl ⟨rfl, rfl, more, nonempty, (complete_iff_sentence whole).mpr sentence⟩
  | trailing token =>
      obtain ⟨before, after, rfl, sentence, stuck⟩ := explains
      have within := (digitLexemes_append.mp lexemes).1
      have complete := (complete_iff_sentence within).mpr sentence
      refine explained_at (by decide) ⟨[], by simpa using complete⟩
        (fun viable => stuck viable.viable) ?_ ?_
      · simp [complete]
      · simp [complete]
  | unexpected token =>
      obtain ⟨before, after, rfl, completable, unfinished, stuck⟩ := explains
      have within := (digitLexemes_append.mp lexemes).1
      have incomplete : ¬ Complete before := fun complete =>
        unfinished ((complete_iff_sentence within).mp complete)
      refine explained_at (by decide) (viablePrefix_of_completable within completable)
        (fun viable => stuck token ⟨id, rfl, rfl⟩ viable.viable) ?_ ?_
      · simp [incomplete]
      · simp only [reduceCtorEq, false_iff, not_and]
        intro _ blamesRange
        obtain ⟨isNumber, _, other, inRange, viable⟩ := blamesRange
        exact stuck other (alike_of_number isNumber inRange.1) viable.viable
  | refused token =>
      obtain ⟨before, after, rfl, opens, unfinished, stuck, replaceable⟩ := explains
      obtain ⟨within, withToken⟩ := digitLexemes_append.mp lexemes
      have incomplete : ¬ Complete before := fun complete =>
        unfinished ((complete_iff_sentence within).mp complete)
      obtain ⟨isNumber, tooLarge⟩ := (refused_iff (digitLexemes_cons.mp withToken).1).mp opens
      have sampleInRange : InRange ⟨.number, "0", 0⟩ := ⟨rfl, by decide, by decide⟩
      have viable : ViablePrefix (before ++ [⟨.number, "0", 0⟩]) := by
        obtain ⟨expr, opens⟩ := opens_of_inRange sampleInRange
        refine viablePrefix_of_completable ?_ (replaceable _ expr opens)
        exact digitLexemes_append.mpr ⟨within, digitLexemes_cons.mpr
          ⟨fun _ => sampleInRange.2.1, by intro _ member; cases member⟩⟩
      obtain ⟨more, complete⟩ := viable
      refine explained_at (by decide) ⟨_, by simpa using complete⟩
        (fun viable => stuck viable.viable) ?_ ?_
      · simp [incomplete]
      · simp only [true_iff]
        exact ⟨incomplete, isNumber, tooLarge, _, sampleInRange, more, complete⟩

/-- Every parse error is exact about where and why the text went wrong. -/
theorem parse_error_explained {text : String} {tokens : List Token} {error : ParseError}
    (scanned : tokenize text = .ok tokens) (failed : parse text = .error (.parse error)) :
    Explained tokens text.utf8ByteSize error := by
  obtain ⟨failure, reads, rfl⟩ := parse_parseError scanned failed
  exact explained_of_reads (tokenize_ok_iff.mp scanned).digitLexemes reads

theorem parse_error_explained_stray_star :
    Explained [⟨.number, "1", 0⟩, ⟨.plus, "+", 1⟩, ⟨.star, "*", 2⟩, ⟨.number, "2", 3⟩] 4
      ⟨2, .unexpectedToken⟩ :=
  @parse_error_explained "1+*2" _ _ (by decide +kernel) (by decide +kernel)

end Proofhouse
