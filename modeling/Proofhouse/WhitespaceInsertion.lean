import Proofhouse.LexerSegments
import Proofhouse.Library.TokenMaps
import Proofhouse.ParserClimbing

/-!
# Whitespace between tokens

A text cut where no digit run crosses scans as its two parts, so whitespace put
into the cut moves what comes after it and changes nothing else.
-/

set_option autoImplicit false

namespace Proofhouse

open Library

def Token.move (place : Nat → Nat) (token : Token) : Token :=
  { token with offset := place token.offset }

def LexError.move (place : Nat → Nat) (error : LexError) : LexError :=
  { error with offset := place error.offset }

def ParseError.move (place : Nat → Nat) (error : ParseError) : ParseError :=
  { error with offset := place error.offset }

/-- The same error, at the place its offset has moved to. -/
def ExpressionError.move (place : Nat → Nat) : ExpressionError → ExpressionError
  | .lex error => .lex (error.move place)
  | .parse error => .parse (error.move place)
  | .eval error => .eval error

/-- Where an offset lies after `width` bytes went in at `boundary`. -/
def movedBy (boundary width offset : Nat) : Nat :=
  if offset < boundary then offset else offset + width

theorem movedBy_of_lt {boundary width offset : Nat} (before : offset < boundary) :
    movedBy boundary width offset = offset :=
  if_pos before

theorem movedBy_of_le {boundary width offset : Nat} (after : boundary ≤ offset) :
    movedBy boundary width offset = offset + width :=
  if_neg (Nat.not_lt_of_le after)

namespace Lexer

/-!
## Scans of a text in two parts
-/

/-- No digit run goes on from the one text into the other. -/
def Parted (left right : List Char) : Prop :=
  EndsNoDigit left ∨ StartsNoDigit right

theorem Parted.of_append {head left right : List Char} (parted : Parted (head ++ left) right) :
    Parted left right :=
  parted.imp_left EndsNoDigit.of_append

theorem Parted.of_cons {ch : Char} {left right : List Char} (parted : Parted (ch :: left) right) :
    Parted left right :=
  @Parted.of_append [ch] left right parted

theorem not_endsNoDigit_of_digitRun {run : List Char} (digits : DigitRun run) :
    ¬EndsNoDigit run := by
  intro ends
  obtain ⟨nonempty, allDigits⟩ := digits
  have last := ends _ (List.getLast?_eq_some_getLast nonempty)
  rw [allDigits _ (List.getLast_mem nonempty)] at last
  cases last

/-- A digit run at the front lies whole before the cut, unless the cut is in front
of it. -/
theorem Parted.digitRun {run chars left right : List Char} (parted : Parted left right)
    (digits : DigitRun run) (cut : run ++ chars = left ++ right) :
    left = [] ∨ ∃ between, left = run ++ between ∧ chars = between ++ right := by
  rcases List.append_eq_append_iff.mp cut with within | ⟨between, rfl, rfl⟩
  · exact .inr within
  · rcases eq_or_ne left [] with empty | nonempty
    · exact .inl empty
    · cases between with
      | nil => exact .inr ⟨[], by simp, rfl⟩
      | cons ch between =>
          obtain ⟨-, allDigits⟩ := digits
          rcases parted with ends | starts
          · exact absurd ends (not_endsNoDigit_of_digitRun
              ⟨nonempty, fun digit member => allDigits digit (List.mem_append_left _ member)⟩)
          · have digit := allDigits ch (by simp)
            rw [show ch.isDigit = false from starts] at digit
            cases digit

variable {isWhitespace : Char → Bool} {start : Nat} {left right gap : List Char}
  {tokens more : List Token}

/-- What a text scans to, it scans to in front of a text no digit run goes on
into. -/
theorem Scans.before {rest : List Char} (scans : Scans isWhitespace start left tokens rest)
    (finished : rest = []) (parted : Parted left right) :
    Scans isWhitespace start (left ++ right) tokens right := by
  induction scans with
  | done =>
      subst finished
      exact .done
  | @space offset ch chars tokens rest notDigit notSymbol white _ ih =>
      exact .space notDigit notSymbol white (ih finished parted.of_cons)
  | @symbol offset ch kind chars tokens rest symbol _ ih =>
      exact .symbol symbol (ih finished parted.of_cons)
  | @number offset run chars tokens rest digits ends _ ih =>
      rw [List.append_assoc]
      refine .number digits (ends.append fun empty => ?_) (ih finished parted.of_append)
      subst empty
      rw [List.append_nil] at parted
      exact parted.resolve_left (not_endsNoDigit_of_digitRun digits)

theorem Scans.join (onLeft : Scans isWhitespace start left tokens [])
    (parted : Parted left right)
    (onRight : Scans isWhitespace (start + byteLength left) right more []) :
    Scans isWhitespace start (left ++ right) (tokens ++ more) [] := by
  refine (onLeft.before rfl parted).append fun later place => ?_
  have same : later = start + byteLength left := by
    rw [byteLength_append] at place
    omega
  exact same ▸ onRight

theorem Scans.split {chars rest : List Char} (scans : Scans isWhitespace start chars tokens rest)
    (finished : rest = []) (cut : chars = left ++ right) (parted : Parted left right) :
    ∃ first second, tokens = first ++ second ∧ Scans isWhitespace start left first [] ∧
      Scans isWhitespace (start + byteLength left) right second [] := by
  induction scans generalizing left with
  | done =>
      subst finished
      obtain ⟨rfl, rfl⟩ := List.append_eq_nil_iff.mp cut.symm
      exact ⟨[], [], rfl, .done, .done⟩
  | space notDigit notSymbol white inner ih =>
      cases left with
      | nil =>
          subst finished cut
          exact ⟨[], _, rfl, .done, .space notDigit notSymbol white inner⟩
      | cons ch left =>
          obtain ⟨rfl, rfl⟩ := List.cons.inj cut
          obtain ⟨first, second, rfl, onLeft, onRight⟩ := ih finished rfl parted.of_cons
          refine ⟨first, second, rfl, .space notDigit notSymbol white onLeft, ?_⟩
          rwa [byteLength_cons, ← Nat.add_assoc]
  | symbol symbol inner ih =>
      cases left with
      | nil =>
          subst finished cut
          exact ⟨[], _, rfl, .done, .symbol symbol inner⟩
      | cons ch left =>
          obtain ⟨rfl, rfl⟩ := List.cons.inj cut
          obtain ⟨first, second, rfl, onLeft, onRight⟩ := ih finished rfl parted.of_cons
          refine ⟨_ :: first, second, rfl, .symbol symbol onLeft, ?_⟩
          rwa [byteLength_cons, ← Nat.add_assoc]
  | @number offset run chars tokens rest digits ends inner ih =>
      rcases parted.digitRun digits cut with rfl | ⟨between, rfl, rfl⟩
      · subst finished cut
        exact ⟨[], _, rfl, .done, .number digits ends inner⟩
      · obtain ⟨first, second, rfl, onLeft, onRight⟩ := ih finished rfl parted.of_append
        refine ⟨_ :: first, second, rfl, .number digits ends.of_append onLeft, ?_⟩
        rwa [byteLength_append, ← Nat.add_assoc]

/-- A text cut where no digit run crosses scans part by part. -/
theorem scans_append_iff (parted : Parted left right) :
    Scans isWhitespace start (left ++ right) tokens [] ↔
      ∃ first second, tokens = first ++ second ∧ Scans isWhitespace start left first [] ∧
        Scans isWhitespace (start + byteLength left) right second [] := by
  constructor
  · intro scans
    exact scans.split rfl rfl parted
  · rintro ⟨first, second, rfl, onLeft, onRight⟩
    exact onLeft.join parted onRight

theorem Scans.shift {chars rest : List Char} (scans : Scans isWhitespace start chars tokens rest)
    (width : Nat) :
    Scans isWhitespace (start + width) chars (tokens.map (Token.move (· + width))) rest := by
  induction scans with
  | done => exact .done
  | space notDigit notSymbol white _ ih =>
      exact .space notDigit notSymbol white (Nat.add_right_comm _ _ _ ▸ ih)
  | symbol symbol _ ih => exact .symbol symbol (Nat.add_right_comm _ _ _ ▸ ih)
  | number digits ends _ ih => exact .number digits ends (Nat.add_right_comm _ _ _ ▸ ih)

theorem Scans.spaces (apart : Apart isWhitespace) (white : ∀ ch ∈ gap, isWhitespace ch = true)
    (scans : Scans isWhitespace (start + byteLength gap) right tokens []) :
    Scans isWhitespace start (gap ++ right) tokens [] := by
  induction gap generalizing start with
  | nil => exact scans
  | cons ch gap ih =>
      obtain ⟨first, others⟩ := List.forall_mem_cons.mp white
      obtain ⟨notDigit, notSymbol⟩ := apart.of_white first
      rw [byteLength_cons, ← Nat.add_assoc] at scans
      exact .space notDigit notSymbol first (ih others scans)

theorem Parted.insert (apart : Apart isWhitespace) (white : ∀ ch ∈ gap, isWhitespace ch = true)
    (parted : Parted left right) : Parted left (gap ++ right) := by
  cases gap with
  | nil => exact parted
  | cons ch gap => exact .inr (apart.of_white (white ch List.mem_cons_self)).1

theorem Scans.offset_lt {chars : List Char} (scans : Scans isWhitespace start chars tokens [])
    {token : Token} (member : token ∈ tokens) :
    start ≤ token.offset ∧ token.offset < start + byteLength chars := by
  have segments := scans.segments rfl
  obtain ⟨before, after, placed⟩ := segments.placed token member
  have positive := byteLength_pos (segments.spelled token member).nonempty
  rw [placed.split, placed.place, byteLength_append, byteLength_append]
  omega

/-- Whitespace in the cut moves the tokens after it and no other. -/
theorem Scans.insert (apart : Apart isWhitespace) (white : ∀ ch ∈ gap, isWhitespace ch = true)
    (parted : Parted left right) (scans : Scans isWhitespace start (left ++ right) tokens []) :
    Scans isWhitespace start (left ++ (gap ++ right))
      (tokens.map (Token.move (movedBy (start + byteLength left) (byteLength gap)))) [] := by
  obtain ⟨first, second, rfl, onLeft, onRight⟩ := (scans_append_iff parted).mp scans
  have stays : first.map (Token.move (movedBy (start + byteLength left) (byteLength gap))) =
      first := by
    refine (List.map_congr_left fun token member => ?_).trans (List.map_id first)
    rw [Token.move, movedBy_of_lt (onLeft.offset_lt member).2, id]
  have moves : second.map (Token.move (movedBy (start + byteLength left) (byteLength gap))) =
      second.map (Token.move (· + byteLength gap)) := by
    refine List.map_congr_left fun token member => ?_
    rw [Token.move, movedBy_of_le (onRight.offset_lt member).1, Token.move]
  rw [List.map_append, stays, moves]
  exact onLeft.join (parted.insert apart white) (.spaces apart white (onRight.shift _))

private theorem within_of_append {ch : Char} {before after : List Char}
    (cut : left ++ right = before ++ ch :: after) :
    (∃ tail, left = before ++ ch :: tail) ∨
      ∃ between, before = left ++ between ∧ right = between ++ ch :: after := by
  rcases List.append_eq_append_iff.mp cut with beyond | ⟨between, isLeft, isTail⟩
  · exact .inr beyond
  · cases between with
    | nil => exact .inr ⟨[], by simpa using isLeft.symm, isTail.symm⟩
    | cons other between =>
        obtain ⟨rfl, -⟩ := List.cons.inj isTail
        exact .inl ⟨between, isLeft⟩

theorem tokenizeWith_insert {left gap right : String} (apart : Apart isWhitespace)
    (white : ∀ ch ∈ gap.toList, isWhitespace ch = true)
    (parted : Parted left.toList right.toList) :
    tokenizeWith isWhitespace (left ++ gap ++ right) =
      ((tokenizeWith isWhitespace (left ++ right)).map
        (List.map (Token.move (movedBy left.utf8ByteSize gap.utf8ByteSize)))).mapError
          (LexError.move (movedBy left.utf8ByteSize gap.utf8ByteSize)) := by
  have joined : (left ++ right).toList = left.toList ++ right.toList := String.toList_append
  have widened : (left ++ gap ++ right).toList =
      left.toList ++ (gap.toList ++ right.toList) := by
    rw [String.toList_append, String.toList_append, List.append_assoc]
  cases scanned : tokenizeWith isWhitespace (left ++ right) with
  | ok tokens =>
      have scans := tokenizeWith_ok_iff.mp scanned
      rw [joined] at scans
      have inserted := scans.insert apart white parted
      rw [byteLength_toList, byteLength_toList, Nat.zero_add, ← widened] at inserted
      exact tokenizeWith_ok_iff.mpr inserted
  | error error =>
      obtain ⟨before, after, cut, admitted, stray, place⟩ := tokenizeWith_error_iff.mp scanned
      rw [joined] at cut
      refine tokenizeWith_error_iff.mpr ?_
      rcases within_of_append cut with ⟨tail, isLeft⟩ | ⟨between, rfl, isRight⟩
      · -- In front of the cut nothing has moved.
        refine ⟨before, tail ++ (gap.toList ++ right.toList), ?_, admitted, stray, ?_⟩
        · rw [widened, isLeft, List.append_assoc]
          rfl
        · have early : error.offset < left.utf8ByteSize := by
            have positive := error.character.utf8Size_pos
            rw [place, ← byteLength_toList, isLeft, byteLength_append, byteLength_cons]
            omega
          exact (movedBy_of_lt early).trans place
      · refine ⟨left.toList ++ (gap.toList ++ between), after, ?_, ?_, stray, ?_⟩
        · rw [widened, isRight, List.append_assoc, List.append_assoc]
          rfl
        · simp only [List.mem_append] at admitted ⊢
          rintro earlier (inLeft | inGap | inRight)
          · exact admitted earlier (.inl inLeft)
          · exact .inr (.inr (white earlier inGap))
          · exact admitted earlier (.inr inRight)
        · rw [byteLength_append, byteLength_toList] at place
          have late : left.utf8ByteSize ≤ error.offset := place ▸ Nat.le_add_right _ _
          refine (movedBy_of_le late).trans ?_
          rw [byteLength_append, byteLength_append, byteLength_toList, byteLength_toList, place]
          omega

end Lexer

/-!
## Whitespace and the parser
-/

open OperatorGrammar

/-- The parser looks at what a token is and what it spells, not at its place. -/
theorem exprGrammar_preserves {change : Token → Token}
    (kind : ∀ token, (change token).kind = token.kind)
    (lexeme : ∀ token, (change token).lexeme = token.lexeme) :
    Preserves exprGrammar exprGrammar change where
  loosest := rfl
  opening token := by simp only [exprGrammar, tokenGrammar, openingWith, kind, lexeme]
  operator token := by simp only [exprGrammar, tokenGrammar, kind]
  closes token := by simp only [exprGrammar, tokenGrammar, kind]

theorem ParseError.ofFailure_map {place : Nat → Nat} {endOffset : Nat} (failure : Failure Token) :
    ofFailure (place endOffset) (failure.map (Token.move place)) =
      (ofFailure endOffset failure).move place := by
  cases failure <;> rfl

theorem parse_move {text other : String} {tokens : List Token} {place : Nat → Nat}
    (scanned : tokenize text = .ok tokens)
    (moved : tokenize other = .ok (tokens.map (Token.move place)))
    (endMoved : other.utf8ByteSize = place text.utf8ByteSize) :
    parse other = (parse text).mapError (ExpressionError.move place) := by
  obtain ⟨result, reads, parsed⟩ := parse_reads scanned
  obtain ⟨otherResult, otherReads, otherParsed⟩ := parse_reads moved
  have preserves := @exprGrammar_preserves (Token.move place) (fun _ => rfl) fun _ => rfl
  have images := reads.mapTokens preserves
  cases otherReads.deterministic images
  rw [otherParsed, parsed, endMoved]
  cases result with
  | ok tree => rfl
  | error failure =>
      simp only [Except.mapError, ParseError.ofFailure_map, ExpressionError.move]

/-- Whitespace goes between any two tokens and changes nothing but where the
second and all after it are. -/
theorem parse_insert_whitespace (left gap right : String)
    (white : ∀ ch ∈ gap.toList, isWhitespace ch = true)
    (parted : Lexer.Parted left.toList right.toList) :
    parse (left ++ gap ++ right) =
      (parse (left ++ right)).mapError
        (ExpressionError.move (movedBy left.utf8ByteSize gap.utf8ByteSize)) := by
  have inserted := Lexer.tokenizeWith_insert Lexer.apart_isWhitespace white parted
  change tokenize _ = ((tokenize _).map _).mapError _ at inserted
  cases scanned : tokenize (left ++ right) with
  | error error =>
      rw [scanned] at inserted
      rw [parse_of_lexError scanned, parse_of_lexError inserted]
      rfl
  | ok tokens =>
      rw [scanned] at inserted
      refine parse_move scanned inserted ?_
      rw [movedBy_of_le (by rw [String.utf8ByteSize_append]; omega), String.utf8ByteSize_append,
        String.utf8ByteSize_append, String.utf8ByteSize_append]
      omega

/-- A wide space in front of a stray star moves the error by three bytes. -/
theorem parse_insert_whitespace_wide :
    parse "1+\u3000*2" = .error (.parse ⟨5, .unexpectedToken⟩) := by
  have narrow : parse "1+*2" = .error (.parse ⟨2, .unexpectedToken⟩) := by decide +kernel
  have white : "\u3000".toList.all isWhitespace = true := by decide +kernel
  have inserted :=
    parse_insert_whitespace "1+" "\u3000" "*2" (List.all_eq_true.mp white) (.inr rfl)
  rw [show "1+" ++ "*2" = "1+*2" from rfl, narrow] at inserted
  exact inserted

end Proofhouse
