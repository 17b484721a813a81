import Mathlib.Data.List.DropRight
import Proofhouse.Library.ClimbingPrefixes
import Proofhouse.Library.ClimbingTotality
import Proofhouse.ParseErrors
import Proofhouse.WhitespaceInsertion

/-!
# Texts that more text follows

More text grows the last number at most and adds tokens after it. An error other
than an unexpected end is therefore final, and an unexpected end is reported for
the texts that some more text completes.
-/

set_option autoImplicit false

namespace Proofhouse

open Library

theorem decimalValue_le_append (run more : List Char) :
    decimalValue run ≤ decimalValue (run ++ more) := by
  simp only [decimalValue, Nat.ofDigitChars_append]
  rw [@Nat.ofDigitChars_eq_ofDigitChars_zero more]
  have positive : 0 < 10 ^ more.length := Nat.pow_pos (by decide)
  exact Nat.le_add_right_of_le (Nat.le_mul_of_pos_left _ positive)

/-- The token, or the number it has become with more digits behind it. -/
def Grows (token other : Token) : Prop :=
  other = token ∨
    token.kind = .number ∧ other.kind = .number ∧ other.offset = token.offset ∧
      decimalValue token.lexeme.toList ≤ decimalValue other.lexeme.toList

namespace Lexer

variable {isWhitespace : Char → Bool} {start : Nat} {left right : List Char}
  {tokens extended : List Token}

/-- Every text ends in a digit run of its own, which may be empty. -/
theorem trailing_digits (chars : List Char) :
    ∃ head run, chars = head ++ run ∧ EndsNoDigit head ∧
      ∀ digit ∈ run, digit.isDigit = true := by
  refine ⟨chars.rdropWhile Char.isDigit, chars.rtakeWhile Char.isDigit,
    List.rdropWhile_append_rtakeWhile.symm, ?_, fun digit => List.mem_rtakeWhile_imp⟩
  intro ch last
  obtain ⟨nonempty, rfl⟩ := List.mem_getLast?_eq_getLast last
  simpa using List.rdropWhile_last_not Char.isDigit chars nonempty

theorem Scans.of_nil {rest : List Char} (scans : Scans isWhitespace start [] tokens rest) :
    tokens = [] := by
  generalize empty : ([] : List Char) = chars at scans
  cases scans with
  | done => rfl
  | space | symbol => cases empty
  | number digits => exact absurd (List.append_eq_nil_iff.mp empty.symm).1 digits.1

theorem Scans.deterministic {chars : List Char} {others : List Token}
    (scans : Scans isWhitespace 0 chars tokens [])
    (again : Scans isWhitespace 0 chars others []) : tokens = others := by
  rw [← @String.toList_ofList chars] at scans again
  have scanned := tokenizeWith_ok_iff.mpr scans
  rw [tokenizeWith_ok_iff.mpr again] at scanned
  cases scanned
  rfl

theorem Scans.leading_number {run chars rest : List Char} (digits : DigitRun run)
    (ends : StartsNoDigit chars) (scans : Scans isWhitespace start (run ++ chars) tokens rest)
    (finished : rest = []) :
    ∃ later, tokens = ⟨.number, String.ofList run, start⟩ :: later ∧
      Scans isWhitespace (start + byteLength run) chars later rest := by
  obtain ⟨nonempty, allDigits⟩ := digits
  obtain ⟨digit, others, rfl⟩ := List.exists_cons_of_ne_nil nonempty
  have isDigit := allDigits digit List.mem_cons_self
  generalize whole : digit :: others ++ chars = all at scans
  cases scans with
  | done =>
      rw [finished] at whole
      cases whole
  | space notDigit =>
      cases whole
      cases notDigit.symm.trans isDigit
  | symbol symbol =>
      cases whole
      cases (singleCharKind_not_digit symbol).symm.trans isDigit
  | @number _ run after later rest runDigits stops onRest =>
      have same : digit :: others = run := by
        rw [← takeWhile_digits allDigits ends, whole, takeWhile_digits runDigits.2 stops]
      subst same
      cases List.append_cancel_left whole
      exact ⟨later, rfl, onRest⟩

theorem Scans.trailing_number {head run : List Char} (apart : EndsNoDigit head)
    (digits : DigitRun run) (scans : Scans isWhitespace start (head ++ run) tokens []) :
    ∃ first, tokens = first ++ [⟨.number, String.ofList run, start + byteLength head⟩] ∧
      Scans isWhitespace start head first [] := by
  obtain ⟨first, last, rfl, onHead, onRun⟩ := (scans_append_iff (.inl apart)).mp scans
  rw [← List.append_nil run] at onRun
  have stops : StartsNoDigit [] := trivial
  obtain ⟨later, rfl, onNothing⟩ := onRun.leading_number digits stops rfl
  cases onNothing.of_nil
  exact ⟨first, rfl, onHead⟩

/-- More text leaves every token but the last in place and grows the last one. -/
theorem Scans.grows (scans : Scans isWhitespace 0 left tokens [])
    (onBoth : Scans isWhitespace 0 (left ++ right) extended []) {before after : List Token}
    {token : Token} (split : tokens = before ++ token :: after) :
    ∃ other later, extended = before ++ other :: later ∧ Grows token other := by
  obtain ⟨head, run, rfl, apart, digits⟩ := trailing_digits left
  rw [List.append_assoc] at onBoth
  obtain ⟨again, beyond, rfl, onHeadAgain, onBeyond⟩ := (scans_append_iff (.inl apart)).mp onBoth
  cases run with
  | nil =>
      rw [List.append_nil] at scans
      cases scans.deterministic onHeadAgain
      exact ⟨token, after ++ beyond, by simp [split], .inl rfl⟩
  | cons digit run =>
      have here : DigitRun (digit :: run) := ⟨List.cons_ne_nil _ _, digits⟩
      obtain ⟨first, rfl, onHead⟩ := scans.trailing_number apart here
      cases onHead.deterministic onHeadAgain
      rcases List.eq_nil_or_concat after with rfl | ⟨between, final, rfl⟩
      · obtain ⟨rfl, same⟩ := List.append_inj' split rfl
        cases same
        have grown : DigitRun (digit :: run ++ right.takeWhile Char.isDigit) := by
          refine ⟨by simp, fun ch member => ?_⟩
          rcases List.mem_append.mp member with inRun | inRight
          · exact digits ch inRun
          · exact List.mem_takeWhile_imp inRight
        rw [← @List.takeWhile_append_dropWhile _ Char.isDigit right, ← List.append_assoc]
          at onBeyond
        obtain ⟨later, rfl, -⟩ :=
          onBeyond.leading_number grown (startsNoDigit_dropWhile right) rfl
        refine ⟨_, later, rfl, .inr ⟨rfl, rfl, rfl, ?_⟩⟩
        rw [String.toList_ofList, String.toList_ofList]
        exact decimalValue_le_append _ _
      · rw [List.concat_eq_append, ← List.cons_append, ← List.append_assoc] at split
        obtain ⟨rfl, -⟩ := List.append_inj' split rfl
        exact ⟨token, between ++ beyond, by simp, .inl rfl⟩

end Lexer

/-!
## Final errors
-/

theorem Grows.offset {token other : Token} (grows : Grows token other) :
    other.offset = token.offset := by
  rcases grows with rfl | ⟨-, -, same, -⟩
  · rfl
  · exact same

theorem Grows.resembles {token other : Token} (grows : Grows token other)
    (digits : token.kind = .number → DigitRun token.lexeme.toList)
    (otherDigits : other.kind = .number → DigitRun other.lexeme.toList) :
    exprGrammar.Resembles token other := by
  rcases grows with rfl | ⟨isNumber, otherNumber, -, grown⟩
  · exact .refl _
  · obtain ⟨unfit, closes, operator⟩ := alike_of_number isNumber otherNumber
    refine ⟨unfit, fun refused => ?_, closes, operator⟩
    obtain ⟨-, tooLarge⟩ := (refused_iff digits).mp refused
    exact (refused_iff otherDigits).mpr ⟨otherNumber, Nat.lt_of_lt_of_le tooLarge grown⟩

/-- The same error at the offset of the one token as at that of the other. -/
theorem ParseError.ofFailure_const {failure : Failure Token} {token other : Token}
    {endOffset laterEnd : Nat} (blames : failure.token? = some token)
    (same : other.offset = token.offset) :
    ofFailure laterEnd (failure.map fun _ => other) = ofFailure endOffset failure := by
  cases failure with
  | endOfInput => cases blames
  | unexpected | refused | trailing =>
      cases blames
      simp only [Failure.map, ofFailure, same]

theorem parse_append_blamed {left right : String} {tokens extended : List Token}
    {failure : Failure Token} {token : Token} (scanned : tokenize left = .ok tokens)
    (onBoth : tokenize (left ++ right) = .ok extended)
    (reads : exprGrammar.Reads tokens (.error failure)) (blames : failure.token? = some token) :
    parse (left ++ right) = .error (.parse (.ofFailure left.utf8ByteSize failure)) := by
  have scans := tokenize_ok_iff.mp scanned
  have further := tokenize_ok_iff.mp onBoth
  obtain ⟨used, rest, split, again⟩ := reads.decided blames
  obtain ⟨other, later, rfl, grows⟩ := scans.grows (String.toList_append ▸ further) split
  have digits : token.kind = .number → DigitRun token.lexeme.toList :=
    scans.digitLexemes token (by simp [split])
  have otherDigits : other.kind = .number → DigitRun other.lexeme.toList :=
    further.digitLexemes other (by simp)
  obtain ⟨result, readsBoth, parsed⟩ := parse_reads onBoth
  cases readsBoth.deterministic (again other later (grows.resembles digits otherDigits))
  rw [parsed, Except.mapError, ParseError.ofFailure_const blames grows.offset]

theorem tokenize_append_stray {left : String} {error : LexError} (right : String)
    (failed : tokenize left = .error error) : tokenize (left ++ right) = .error error := by
  obtain ⟨before, after, split, admitted, stray, place⟩ := Lexer.tokenizeWith_error_iff.mp failed
  refine Lexer.tokenizeWith_error_iff.mpr
    ⟨before, after ++ right.toList, ?_, admitted, stray, place⟩
  rw [String.toList_append, split, List.append_assoc, List.cons_append]

/-- Where the text scans and what is put after it does not, the lexer refuses the
first character that it refuses there. -/
theorem parse_append_refused {left right : String} {tokens : List Token}
    (scanned : tokenize left = .ok tokens) {before after : List Char} {stray : Char}
    (split : right.toList = before ++ stray :: after)
    (admitted : ∀ earlier ∈ before, Lexer.Admitted isWhitespace earlier)
    (refused : ¬Lexer.Admitted isWhitespace stray) :
    parse (left ++ right) =
      .error (.lex ⟨left.utf8ByteSize + Lexer.byteLength before, stray⟩) := by
  have onLeft := tokenize_ok_iff_admitted.mp ⟨tokens, scanned⟩
  refine parse_of_lexError (Lexer.tokenizeWith_error_iff.mpr
    ⟨left.toList ++ before, after, ?_, ?_, refused, ?_⟩)
  · rw [String.toList_append, split, List.append_assoc]
  · exact List.forall_mem_append.mpr ⟨onLeft, admitted⟩
  · rw [Lexer.byteLength_append, Lexer.byteLength_toList]

/-- An error that is not an unexpected end is final where the text does not scan, and
where all that is put after it does. Elsewhere the lexer refuses the first character
it can of what is put after. -/
theorem parse_append_of_error (left right : String) {error : ExpressionError}
    (failed : parse left = .error error)
    (decided : error ≠ .parse ⟨left.utf8ByteSize, .unexpectedEndOfInput⟩) :
    ((¬∀ ch ∈ left.toList, Lexer.Admitted isWhitespace ch) →
      parse (left ++ right) = .error error) ∧
    ((∀ ch ∈ left.toList, Lexer.Admitted isWhitespace ch) →
      ((∀ ch ∈ right.toList, Lexer.Admitted isWhitespace ch) →
        parse (left ++ right) = .error error) ∧
      ∀ before stray after, right.toList = before ++ stray :: after →
        (∀ earlier ∈ before, Lexer.Admitted isWhitespace earlier) →
        ¬Lexer.Admitted isWhitespace stray →
        parse (left ++ right) =
          .error (.lex ⟨left.utf8ByteSize + Lexer.byteLength before, stray⟩)) := by
  constructor
  · intro strayed
    cases scanned : tokenize left with
    | error stray =>
        cases failed.symm.trans (parse_of_lexError scanned)
        exact parse_of_lexError (tokenize_append_stray right scanned)
    | ok tokens => exact absurd (tokenize_ok_iff_admitted.mp ⟨tokens, scanned⟩) strayed
  · intro onLeft
    obtain ⟨tokens, scanned⟩ := tokenize_ok_iff_admitted.mpr onLeft
    refine ⟨fun onRight => ?_, fun before stray after split admitted refused =>
      parse_append_refused scanned split admitted refused⟩
    obtain ⟨extended, onBoth⟩ : ∃ extended, tokenize (left ++ right) = .ok extended :=
      tokenize_ok_iff_admitted.mpr (by
        rw [String.toList_append]
        exact List.forall_mem_append.mpr ⟨onLeft, onRight⟩)
    obtain ⟨result, reads, parsed⟩ := parse_reads scanned
    cases result with
    | ok expr => cases failed.symm.trans parsed
    | error failure =>
        cases failed.symm.trans parsed
        cases blames : failure.token? with
        | some token => exact parse_append_blamed scanned onBoth reads blames
        | none =>
            cases failure with
            | endOfInput => exact absurd rfl decided
            | unexpected | refused | trailing => cases blames

/-- A literal out of range stays out of range with one more digit, and is passed over
for a refused character behind it. A refused character stands, whatever comes. -/
theorem parse_append_of_error_range :
    parse ("1+92233720368547758080" ++ "0*(2)") = .error (.parse ⟨2, .numberOutOfRange⟩) ∧
    parse ("1+92233720368547758080" ++ "0*\u3000#)") = .error (.lex ⟨27, '#'⟩) ∧
    parse ("$" ++ "#") = .error (.lex ⟨0, '$'⟩) := by
  have failed : parse "1+92233720368547758080" = .error (.parse ⟨2, .numberOutOfRange⟩) := by
    decide +kernel
  have strayed : parse "$" = .error (.lex ⟨0, '$'⟩) := by decide +kernel
  obtain ⟨-, scans⟩ := parse_append_of_error _ "0*(2)" failed (by decide +kernel)
  obtain ⟨-, strays⟩ := parse_append_of_error _ "0*\u3000#)" failed (by decide +kernel)
  obtain ⟨stands, -⟩ := parse_append_of_error _ "#" strayed (by decide +kernel)
  refine ⟨(scans (by decide +kernel)).1 (by decide +kernel), ?_, stands (by decide +kernel)⟩
  exact (strays (by decide +kernel)).2 "0*\u3000".toList '#' [')'] (by decide)
    (by decide +kernel) (by decide +kernel)

/-!
## Texts that can be completed
-/

/-- The token without its place. -/
def Token.bare (token : Token) : Token :=
  token.move fun _ => 0

/-- The tokens as a text, a space in front of each. -/
def spaced (tokens : List Token) : List Char :=
  tokens.flatMap fun token => ' ' :: token.lexeme.toList

theorem startsNoDigit_spaced (tokens : List Token) : Lexer.StartsNoDigit (spaced tokens) := by
  cases tokens with
  | nil => trivial
  | cons token tokens => exact rfl

theorem scans_spaced {tokens : List Token} (spelled : ∀ token ∈ tokens, Lexer.Spelled token)
    (start : Nat) :
    ∃ placed, Lexer.Scans isWhitespace start (spaced tokens) placed [] ∧
      placed.map Token.bare = tokens.map Token.bare := by
  induction tokens generalizing start with
  | nil => exact ⟨[], .done, rfl⟩
  | cons token tokens ih =>
      obtain ⟨here, others⟩ := List.forall_mem_cons.mp spelled
      obtain ⟨kind, lexeme, offset⟩ := token
      rcases here with ⟨isNumber, digits⟩ | ⟨ch, single, symbol⟩
      · obtain ⟨placed, scans, same⟩ :=
          ih others (start + ' '.utf8Size + Lexer.byteLength lexeme.toList)
        have number := Lexer.Scans.number digits (startsNoDigit_spaced tokens) scans
        rw [String.ofList_toList] at number
        refine ⟨_, .space rfl rfl rfl number, ?_⟩
        cases isNumber
        rw [List.map_cons, List.map_cons, same]
        rfl
      · obtain rfl : lexeme = ch.toString := String.toList_injective (by simpa using single)
        obtain ⟨placed, scans, same⟩ := ih others (start + ' '.utf8Size + ch.utf8Size)
        have spelling : spaced (⟨kind, ch.toString, offset⟩ :: tokens) =
            ' ' :: ch :: spaced tokens := by simp [spaced]
        rw [spelling]
        have isKind := Lexer.singleCharKind_eq_some_iff.mpr symbol
        refine ⟨_, .space rfl rfl rfl (.symbol isKind scans), ?_⟩
        rw [List.map_cons, List.map_cons, same]
        rfl

theorem spelled_of_padding {more : List Token} (pads : exprGrammar.Padding more) :
    ∀ token ∈ more, Lexer.Spelled token := by
  intro token member
  rcases pads token member with rfl | rfl
  · exact .inl ⟨rfl, digitLexemes_of_padding pads _ member rfl⟩
  · exact .inr ⟨')', rfl, .rParen⟩

/-- What a run derives does not rest on where its tokens are. -/
theorem derives_congr_bare {tokens others : List Token} {expr : Expr}
    (same : tokens.map Token.bare = others.map Token.bare)
    (derived : exprGrammar.Derives (.chain additive) others expr) :
    exprGrammar.Derives (.chain additive) tokens expr := by
  have preserves := @exprGrammar_preserves Token.bare (fun _ => rfl) fun _ => rfl
  have bare := (OperatorGrammar.derives_map_iff preserves).mpr derived
  rw [← same] at bare
  exact (OperatorGrammar.derives_map_iff preserves).mp bare

theorem parse_ok_of_bare {text : String} {tokens others : List Token} {expr : Expr}
    (scanned : tokenize text = .ok tokens) (same : tokens.map Token.bare = others.map Token.bare)
    (derived : exprGrammar.Derives (.chain additive) others expr) : parse text = .ok expr :=
  parse_ok_iff.mpr ⟨tokens, scanned, derives_congr_bare same derived⟩

/-- The texts that begin an expression are those that parse, and those whose error
is the end of the text. -/
theorem viable_iff_ok_or_unexpectedEnd (left : String) :
    (∃ right expr, parse (left ++ right) = .ok expr) ↔
      (∃ expr, parse left = .ok expr) ∨
        parse left = .error (.parse ⟨left.utf8ByteSize, .unexpectedEndOfInput⟩) := by
  constructor
  · rintro ⟨right, expr, parsed⟩
    obtain ⟨extended, onBoth, -⟩ := parse_ok_iff.mp parsed
    cases scanned : tokenize left with
    | error stray => cases onBoth.symm.trans (tokenize_append_stray right scanned)
    | ok tokens =>
        obtain ⟨result, reads, outcome⟩ := parse_reads scanned
        cases result with
        | ok whole => exact .inl ⟨whole, outcome⟩
        | error failure =>
            cases blames : failure.token? with
            | some token =>
                cases parsed.symm.trans (parse_append_blamed scanned onBoth reads blames)
            | none =>
                cases failure with
                | endOfInput => exact .inr outcome
                | unexpected | refused | trailing => cases blames
  · rintro (⟨expr, parsed⟩ | unfinished)
    · exact ⟨"", expr, by rwa [String.append_empty]⟩
    · cases scanned : tokenize left with
      | error stray => cases unfinished.symm.trans (parse_of_lexError scanned)
      | ok tokens =>
          obtain ⟨failure, reads, same⟩ := parse_parseError scanned unfinished
          cases failure with
          | unexpected | refused | trailing => cases congrArg ParseError.kind same
          | endOfInput =>
              obtain ⟨more, -, pads, expr, derived⟩ := reads.explains
              obtain ⟨placed, scans, bare⟩ := scans_spaced (spelled_of_padding pads)
                (0 + Lexer.byteLength left.toList)
              have whole := (tokenize_ok_iff.mp scanned).join
                (.inr (startsNoDigit_spaced more)) scans
              rw [← @String.toList_ofList (spaced more), ← String.toList_append] at whole
              refine ⟨_, expr, parse_ok_of_bare (tokenize_ok_iff.mpr whole) ?_ derived⟩
              rw [List.map_append, List.map_append, bare]

end Proofhouse
