import Proofhouse.FormatterLexing
import Proofhouse.LexerSegments
import Proofhouse.Testing
import Proofhouse.WhitespaceInsertion

/-!
# Token runs scan back

The offsets a run is placed at are those the lexer finds in its spelling, and a
text spelled again from its tokens means what it meant.
-/

set_option autoImplicit false

namespace Proofhouse

open Library Lexer Formatter

theorem spelling_placedFrom (offset : Nat) (drawn : List Token) :
    spelling (placedFrom offset drawn) = spelling drawn := by
  have lexemes : (placedFrom offset drawn).map Token.lexeme = drawn.map Token.lexeme := by
    induction drawn generalizing offset with
    | nil => rfl
    | cons token drawn ih => rw [placedFrom, List.map_cons, ih, List.map_cons]
  rw [spelling, lexemes, spelling]

theorem face_placedFrom (offset : Nat) (drawn : List Token) :
    (placedFrom offset drawn).map Token.face = drawn.map Token.face := by
  induction drawn generalizing offset with
  | nil => rfl
  | cons token drawn ih => rw [placedFrom, List.map_cons, ih, List.map_cons, Token.face, Token.face]

/-- The spelling of a run scans to the run, wherever the spelling starts. -/
theorem scans_spelling {drawn : List Token} (spelled : ∀ token ∈ drawn, Spelled token)
    (start : Nat) :
    Scans isWhitespace start (spelling drawn).toList (placedFrom start drawn) [] := by
  induction drawn generalizing start with
  | nil => exact .done
  | cons token drawn ih =>
      obtain ⟨first, others⟩ := List.forall_mem_cons.mp spelled
      have goesOn := ih others (start + (token.lexeme.utf8ByteSize + 1))
      have placed : Spelled { token with offset := start } := first
      cases drawn with
      | nil =>
          have alone := @Scans.token isWhitespace start { token with offset := start } [] []
            rfl placed (fun _ => trivial) .done
          simpa [spelling, placedFrom] using alone
      | cons next drawn =>
          have joined : (spelling (token :: next :: drawn)).toList =
              token.lexeme.toList ++ ' ' :: (spelling (next :: drawn)).toList := by
            simp [spelling]
          rw [joined]
          refine @Scans.token isWhitespace start { token with offset := start } _ _ rfl placed
            (fun _ => rfl) (.space rfl rfl rfl ?_)
          rw [byteLength_toList]
          exact goesOn

theorem tokenize_spelling {drawn : List Token} (spelled : ∀ token ∈ drawn, Spelled token) :
    tokenize (spelling (placed drawn)) = .ok (placed drawn) := by
  rw [placed, spelling_placedFrom]
  exact tokenize_ok_iff.mpr (scans_spelling spelled 0)

theorem length_placedFrom (offset : Nat) (drawn : List Token) :
    (placedFrom offset drawn).length = drawn.length := by
  have faces := congrArg List.length (face_placedFrom offset drawn)
  rwa [List.length_map, List.length_map] at faces

/-!
## A library of sets
-/

namespace Proptest

/-- A library whose strategies are what they draw. It leaves out no nested value. -/
def sets : Proptest where
  Strategy α := α → Prop
  Draws strategy value := strategy value
  just value other := other = value
  range lowest highest value := lowest.value ≤ value.value ∧ value.value ≤ highest.value
  map strategy image value := ∃ origin, strategy origin ∧ value = image origin
  triple first second third value := first value.1 ∧ second value.2.1 ∧ third value.2.2
  oneOf strategies value := ∃ strategy ∈ strategies, strategy value
  vec strategy shortest longest values :=
    shortest ≤ values.length ∧ values.length ≤ longest ∧ ∀ value ∈ values, strategy value
  recursive leaf depth _ _ recurse :=
    Nat.rec leaf (fun _ inner value => inner value ∨ recurse inner value) depth

theorem Nested.succ {lib : Proptest} {α : Type} {leaf : lib.Strategy α}
    {recurse : lib.Strategy α → lib.Strategy α} {depth : Nat} {value : α}
    (nested : lib.Nested leaf recurse depth value) :
    lib.Nested leaf recurse (depth + 1) value := by
  induction nested with
  | leaf drawn => exact .leaf drawn
  | branch inner _ drawn ih => exact .branch inner ih drawn

theorem sets_documented : sets.Documented where
  draws_just := Iff.rfl
  draws_range := Iff.rfl
  draws_map := Iff.rfl
  draws_triple := Iff.rfl
  draws_oneOf := Iff.rfl
  draws_vec := Iff.rfl
  nested_of_draws_recursive {α leaf depth _ _ recurse value} drawn := by
    induction depth generalizing value with
    | zero => exact .leaf drawn
    | succ depth ih =>
        rcases drawn with below | branch
        · exact (ih below).succ
        · exact .branch _ (fun _ drawn => ih drawn) branch

end Proptest

/-!
## Drawn runs
-/

section Draws

variable {lib : Proptest}

theorem draws_tokens_iff (documented : lib.Documented) {token : Token} :
    lib.Draws (tokens lib) token ↔
      (∃ value : I64, 0 ≤ value.value ∧ token = atStart .number (toString value.value)) ∨
        ∃ ch kind, IsSymbol ch kind ∧ token = atStart kind ch.toString := by
  simp only [tokens, documented.draws_oneOf, List.mem_cons, exists_eq_or_imp, documented.draws_map,
    documented.draws_range, documented.draws_just, List.not_mem_nil, or_false, exists_eq_left]
  refine or_congr ⟨?_, ?_⟩ ⟨?_, ?_⟩
  · rintro ⟨value, ⟨nonnegative, -⟩, same⟩
    exact ⟨value, nonnegative, same⟩
  · rintro ⟨value, nonnegative, same⟩
    exact ⟨value, ⟨nonnegative, value.le_greatest⟩, same⟩
  · rintro (rfl | rfl | rfl | rfl | rfl | rfl)
    · exact ⟨_, _, .plus, rfl⟩
    · exact ⟨_, _, .minus, rfl⟩
    · exact ⟨_, _, .star, rfl⟩
    · exact ⟨_, _, .slash, rfl⟩
    · exact ⟨_, _, .lParen, rfl⟩
    · exact ⟨_, _, .rParen, rfl⟩
  · rintro ⟨ch, kind, symbol, rfl⟩
    cases symbol with
    | plus => exact .inl rfl
    | minus => exact .inr (.inl rfl)
    | star => exact .inr (.inr (.inl rfl))
    | slash => exact .inr (.inr (.inr (.inl rfl)))
    | lParen => exact .inr (.inr (.inr (.inr (.inl rfl))))
    | rParen => exact .inr (.inr (.inr (.inr (.inr rfl))))

/-- The tokens drawn are those at the front that spell their kind, a number as a
number of the type prints. -/
theorem draws_tokens_iff_spelled (documented : lib.Documented) {token : Token} :
    lib.Draws (tokens lib) token ↔
      token.offset = 0 ∧ Spelled token ∧
        (token.kind = .number →
          ∃ value : I64, 0 ≤ value.value ∧ token.lexeme = toString value.value) := by
  rw [draws_tokens_iff documented]
  constructor
  · rintro (⟨value, nonnegative, rfl⟩ | ⟨ch, kind, symbol, rfl⟩)
    · refine ⟨rfl, .inl ⟨rfl, ?_⟩, fun _ => ⟨value, nonnegative, rfl⟩⟩
      change DigitRun (toString value.value).toList
      rw [toList_toString_int, if_neg (by omega)]
      exact digitRun_toDigits _
    · refine ⟨rfl, .inr ⟨ch, by simp [atStart], symbol⟩, fun isNumber => ?_⟩
      cases isNumber
      cases symbol
  · obtain ⟨kind, lexeme, offset⟩ := token
    rintro ⟨rfl, ⟨isNumber, -⟩ | ⟨ch, isChar, symbol⟩, canonical⟩
    · obtain ⟨value, nonnegative, same⟩ := canonical isNumber
      cases isNumber
      cases same
      exact .inl ⟨value, nonnegative, rfl⟩
    · obtain rfl : lexeme = ch.toString := String.toList_inj.mp (by simpa using isChar)
      exact .inr ⟨ch, kind, symbol, rfl⟩

/-- Every run the generator draws scans back to itself out of its spelling. -/
theorem tokenSequences_scan_back (documented : lib.Documented) {maxLen : Nat}
    {run : List Token} (drawn : lib.Draws (tokenSequences lib maxLen) run) :
    tokenize (spelling run) = .ok run := by
  obtain ⟨origins, fromVec, rfl⟩ := documented.draws_map.mp drawn
  obtain ⟨-, -, allDrawn⟩ := documented.draws_vec.mp fromVec
  exact tokenize_spelling fun token member =>
    ((draws_tokens_iff_spelled documented).mp (allDrawn token member)).2.1

/-- The generator draws the runs that scan back to themselves, up to its length,
with every number spelled as a number of the type prints. -/
theorem tokenSequences_exact {lib : Proptest} (documented : lib.Documented) (maxLen : Nat)
    (run : List Token) :
    lib.Draws (tokenSequences lib maxLen) run ↔
      run.length ≤ maxLen ∧ tokenize (spelling run) = .ok run ∧
      ∀ token ∈ run, token.kind = .number →
        ∃ value : I64, 0 ≤ value.value ∧ token.lexeme = toString value.value := by
  constructor
  · intro drawn
    have scanned := tokenSequences_scan_back documented drawn
    obtain ⟨origins, fromVec, rfl⟩ := documented.draws_map.mp drawn
    obtain ⟨-, short, allDrawn⟩ := documented.draws_vec.mp fromVec
    refine ⟨by rwa [placed, length_placedFrom], scanned, fun token inRun isNumber => ?_⟩
    have faces : token.face ∈ (placed origins).map Token.face :=
      List.mem_map.mpr ⟨token, inRun, rfl⟩
    rw [placed, face_placedFrom] at faces
    obtain ⟨origin, inOrigins, same⟩ := List.mem_map.mp faces
    obtain ⟨sameKind, sameLexeme⟩ := Prod.mk.inj same
    obtain ⟨-, -, canonical⟩ := (draws_tokens_iff_spelled documented).mp (allDrawn origin inOrigins)
    exact sameLexeme ▸ canonical (sameKind.trans isNumber)
  · rintro ⟨short, scanned, canonical⟩
    have spelled := ((tokenize_ok_iff.mp scanned).segments rfl).spelled
    let origins := run.map fun token => atStart token.kind token.lexeme
    have drawn : ∀ token ∈ origins, lib.Draws (tokens lib) token := by
      intro token member
      obtain ⟨origin, inRun, rfl⟩ := List.mem_map.mp member
      exact (draws_tokens_iff_spelled documented).mpr
        ⟨rfl, spelled origin inRun, canonical origin inRun⟩
    have again : placed origins = run := by
      have rescanned := tokenize_spelling fun token member =>
        ((draws_tokens_iff_spelled documented).mp (drawn token member)).2.1
      have lexemes : spelling origins = spelling run := by
        rw [spelling, List.map_map, spelling]
        rfl
      rw [placed, spelling_placedFrom, lexemes, scanned] at rescanned
      exact (Except.ok.inj rescanned).symm
    refine documented.draws_map.mpr ⟨origins, documented.draws_vec.mpr ⟨?_, ?_, drawn⟩, again.symm⟩
    · exact Nat.zero_le _
    · rwa [List.length_map]

end Draws

/-- The greatest number and the six symbols are drawn at their places, and not at
others. -/
theorem tokenSequences_exact_symbols :
    Proptest.sets.Draws (tokenSequences Proptest.sets 7)
      [⟨.number, "9223372036854775807", 0⟩, ⟨.plus, "+", 20⟩, ⟨.minus, "-", 22⟩, ⟨.star, "*", 24⟩,
        ⟨.slash, "/", 26⟩, ⟨.lParen, "(", 28⟩, ⟨.rParen, ")", 30⟩] ∧
    ¬Proptest.sets.Draws (tokenSequences Proptest.sets 7) [⟨.plus, "+", 1⟩] := by
  constructor
  · refine (tokenSequences_exact Proptest.sets_documented 7 _).mpr
      ⟨by decide, by decide +kernel, ?_⟩
    refine List.forall_mem_cons.mpr ⟨fun _ => ⟨I64.max, by decide, by decide +kernel⟩, ?_⟩
    simp only [List.forall_mem_cons, reduceCtorEq, false_implies, true_and, List.not_mem_nil,
      implies_true]
  · intro drawn
    obtain ⟨-, scanned, -⟩ := (tokenSequences_exact Proptest.sets_documented 7 _).mp drawn
    exact absurd scanned (by decide +kernel)

/-- Runs that spell the same tokens parse to the same tree. -/
theorem parse_ok_congr {text other : String} {tokens others : List Token} {tree : Expr}
    (scanned : tokenize text = .ok tokens) (otherScanned : tokenize other = .ok others)
    (same : others.map Token.face = tokens.map Token.face) (parsed : parse text = .ok tree) :
    parse other = .ok tree := by
  obtain ⟨result, reads, isResult⟩ := parse_reads scanned
  obtain ⟨otherResult, otherReads, isOther⟩ := parse_reads otherScanned
  rw [parsed] at isResult
  -- Put back at the front, the two runs are one.
  let toStart (token : Token) : Token := atStart token.kind token.lexeme
  have preserves := @exprGrammar_preserves toStart (fun _ => rfl) fun _ => rfl
  have sameRun : others.map toStart = tokens.map toStart := by
    have faces := congrArg (List.map fun face => atStart face.1 face.2) same
    rwa [List.map_map, List.map_map] at faces
  have images := otherReads.mapTokens preserves
  rw [sameRun] at images
  have agree := images.deterministic (reads.mapTokens preserves)
  cases result with
  | error failure => cases isResult
  | ok value =>
      cases isResult
      cases otherResult with
      | error failure => cases agree
      | ok value =>
          cases agree
          exact isOther

/-- What a text scans to is a normal form of it, up to where the tokens are. -/
theorem spelling_scans_back :
    (∀ drawn : List Token, (∀ token ∈ drawn, Spelled token) →
      tokenize (spelling (placed drawn)) = .ok (placed drawn)) ∧
    ∀ text tokens, tokenize text = .ok tokens →
      tokenize (spelling tokens) = .ok (placed tokens) ∧
      (placed tokens).map Token.face = tokens.map Token.face ∧
      ∀ tree, parse (spelling tokens) = .ok tree ↔ parse text = .ok tree := by
  refine ⟨fun drawn spelled => tokenize_spelling spelled, fun text tokens scanned => ?_⟩
  have spelled := ((tokenize_ok_iff.mp scanned).segments rfl).spelled
  have rescanned := tokenize_spelling spelled
  rw [placed, spelling_placedFrom] at rescanned
  have same := face_placedFrom 0 tokens
  exact ⟨rescanned, same, fun tree => ⟨parse_ok_congr rescanned scanned same.symm,
    parse_ok_congr scanned rescanned same⟩⟩

/-- Two digit runs side by side stay two, and each symbol gets its spaces. -/
theorem spelling_scans_back_symbols :
    tokenize "12 34 ( + - * / )" =
      .ok [⟨.number, "12", 0⟩, ⟨.number, "34", 3⟩, ⟨.lParen, "(", 6⟩, ⟨.plus, "+", 8⟩,
        ⟨.minus, "-", 10⟩, ⟨.star, "*", 12⟩, ⟨.slash, "/", 14⟩, ⟨.rParen, ")", 16⟩] ∧
    tokenize "( 12 + 3 ) * - 4 / 5" =
      .ok [⟨.lParen, "(", 0⟩, ⟨.number, "12", 2⟩, ⟨.plus, "+", 5⟩, ⟨.number, "3", 7⟩,
        ⟨.rParen, ")", 9⟩, ⟨.star, "*", 11⟩, ⟨.minus, "-", 13⟩, ⟨.number, "4", 15⟩,
        ⟨.slash, "/", 17⟩, ⟨.number, "5", 19⟩] := by
  obtain ⟨drawnBack, scannedBack⟩ := spelling_scans_back
  have number {lexeme : String} (digits : DigitRun lexeme.toList) :
      Spelled (atStart .number lexeme) := .inl ⟨rfl, digits⟩
  have symbol {ch : Char} {kind : TokenKind} {lexeme : String} (isSymbol : IsSymbol ch kind)
      (isChar : lexeme.toList = [ch]) : Spelled (atStart kind lexeme) := .inr ⟨ch, isChar, isSymbol⟩
  have spelled : ∀ token ∈ [atStart .number "12", atStart .number "34", atStart .lParen "(",
      atStart .plus "+", atStart .minus "-", atStart .star "*", atStart .slash "/",
      atStart .rParen ")"], Spelled token := by
    simp only [List.forall_mem_cons]
    exact ⟨number (by decide), number (by decide), symbol .lParen rfl, symbol .plus rfl,
      symbol .minus rfl, symbol .star rfl, symbol .slash rfl, symbol .rParen rfl,
      fun _ member => by cases member⟩
  have scanned : tokenize "(12+3)*-4/5" =
      .ok [⟨.lParen, "(", 0⟩, ⟨.number, "12", 1⟩, ⟨.plus, "+", 3⟩, ⟨.number, "3", 4⟩,
        ⟨.rParen, ")", 5⟩, ⟨.star, "*", 6⟩, ⟨.minus, "-", 7⟩, ⟨.number, "4", 8⟩,
        ⟨.slash, "/", 9⟩, ⟨.number, "5", 10⟩] := by decide +kernel
  exact ⟨drawnBack _ spelled, (scannedBack _ _ scanned).1⟩

end Proofhouse
