import Proofhouse.Integers
import Proofhouse.Lexer

/-!
# Scanning judgments

What the scan has read of a text, with the characters that remain in place, so
that scans compose and no composition splits a digit run. A successful
`tokenize` is exactly a scan of the whole text.
-/

set_option autoImplicit false

namespace Proofhouse.Lexer

open Library

def byteLength (chars : List Char) : Nat :=
  (chars.map Char.utf8Size).sum

@[simp] theorem byteLength_nil : byteLength [] = 0 := rfl

@[simp] theorem byteLength_cons (ch : Char) (chars : List Char) :
    byteLength (ch :: chars) = ch.utf8Size + byteLength chars := by
  simp [byteLength]

@[simp] theorem byteLength_append (left right : List Char) :
    byteLength (left ++ right) = byteLength left + byteLength right := by
  simp [byteLength]

theorem byteLength_ofList (chars : List Char) :
    (String.ofList chars).utf8ByteSize = byteLength chars := by
  induction chars with
  | nil => rfl
  | cons ch chars ih =>
      rw [String.ofList_cons, String.utf8ByteSize_append, String.utf8ByteSize_singleton, ih,
        byteLength_cons]

theorem byteLength_toList (text : String) : byteLength text.toList = text.utf8ByteSize := by
  rw [← byteLength_ofList, String.ofList_toList]

def StartsNoDigit : List Char → Prop
  | [] => True
  | ch :: _ => ch.isDigit = false

theorem StartsNoDigit.of_append {left right : List Char} (ends : StartsNoDigit (left ++ right)) :
    StartsNoDigit left := by
  cases left with
  | nil => trivial
  | cons ch left => exact ends

theorem StartsNoDigit.append {left right : List Char} (onLeft : StartsNoDigit left)
    (onRight : left = [] → StartsNoDigit right) : StartsNoDigit (left ++ right) := by
  cases left with
  | nil => exact onRight rfl
  | cons ch left => exact onLeft

/-- The characters that are tokens of their own, and the kinds of these. -/
inductive IsSymbol : Char → TokenKind → Prop where
  | plus : IsSymbol '+' .plus
  | minus : IsSymbol '-' .minus
  | star : IsSymbol '*' .star
  | slash : IsSymbol '/' .slash
  | lParen : IsSymbol '(' .lParen
  | rParen : IsSymbol ')' .rParen

/-- `Scans ws offset chars tokens rest`: from `offset` on, `chars` reads as
`tokens` up to `rest`. A digit run is read as far as it goes. -/
inductive Scans (isWhitespace : Char → Bool) :
    Nat → List Char → List Token → List Char → Prop where
  | done {offset rest} : Scans isWhitespace offset rest [] rest
  | space {offset ch chars tokens rest} : ch.isDigit = false → singleCharKind ch = none →
      isWhitespace ch = true →
      Scans isWhitespace (offset + ch.utf8Size) chars tokens rest →
      Scans isWhitespace offset (ch :: chars) tokens rest
  | symbol {offset ch kind chars tokens rest} : singleCharKind ch = some kind →
      Scans isWhitespace (offset + ch.utf8Size) chars tokens rest →
      Scans isWhitespace offset (ch :: chars) (⟨kind, ch.toString, offset⟩ :: tokens) rest
  | number {offset run chars tokens rest} : DigitRun run → StartsNoDigit chars →
      Scans isWhitespace (offset + byteLength run) chars tokens rest →
      Scans isWhitespace offset (run ++ chars)
        (⟨.number, String.ofList run, offset⟩ :: tokens) rest

variable {isWhitespace : Char → Bool}

theorem Scans.append {offset : Nat} {chars middle rest : List Char} {tokens more : List Token}
    (scans : Scans isWhitespace offset chars tokens middle)
    (goesOn : ∀ later, later + byteLength middle = offset + byteLength chars →
      Scans isWhitespace later middle more rest) :
    Scans isWhitespace offset chars (tokens ++ more) rest := by
  induction scans with
  | done => exact goesOn _ rfl
  | space notDigit notSymbol white _ ih =>
      refine .space notDigit notSymbol white (ih fun later place => goesOn later ?_)
      simp only [byteLength_cons]
      omega
  | symbol kind _ ih =>
      refine .symbol kind (ih fun later place => goesOn later ?_)
      simp only [byteLength_cons]
      omega
  | number digits ends _ ih =>
      refine .number digits ends (ih fun later place => goesOn later ?_)
      simp only [byteLength_append]
      omega

theorem singleCharKind_eq_some_iff {ch : Char} {kind : TokenKind} :
    singleCharKind ch = some kind ↔ IsSymbol ch kind := by
  constructor
  · intro found
    unfold singleCharKind at found
    split at found
    · cases found; exact .plus
    · cases found; exact .minus
    · cases found; exact .star
    · cases found; exact .slash
    · cases found; exact .lParen
    · cases found; exact .rParen
    · cases found
  · intro symbol
    cases symbol <;> rfl

theorem singleCharKind_eq_none_iff {ch : Char} :
    singleCharKind ch = none ↔ ¬∃ kind, IsSymbol ch kind := by
  simp only [← singleCharKind_eq_some_iff, Option.eq_none_iff_forall_ne_some, not_exists, ne_eq]

theorem singleCharKind_not_digit {ch : Char} {kind : TokenKind}
    (symbol : singleCharKind ch = some kind) : ch.isDigit = false := by
  cases singleCharKind_eq_some_iff.mp symbol <;> rfl

theorem singleCharKind_ne_number (ch : Char) : singleCharKind ch ≠ some .number := by
  intro symbol
  cases singleCharKind_eq_some_iff.mp symbol

theorem charIndices_append (start : Nat) (left right : List Char) :
    charIndices start (left ++ right) =
      charIndices start left ++ charIndices (start + byteLength left) right := by
  induction left generalizing start with
  | nil => simp [charIndices]
  | cons ch left ih => simp [charIndices, ih, Nat.add_assoc]

@[simp] theorem charIndices_map_snd (start : Nat) (chars : List Char) :
    (charIndices start chars).map Prod.snd = chars := by
  induction chars generalizing start with
  | nil => rfl
  | cons ch chars ih => simp [charIndices, ih]

theorem charIndices_bounds {start : Nat} {chars : List Char} {entry : Nat × Char}
    (member : entry ∈ charIndices start chars) :
    start ≤ entry.1 ∧ entry.1 < start + byteLength chars := by
  induction chars generalizing start with
  | nil => cases member
  | cons ch chars ih =>
      have positive := ch.utf8Size_pos
      rw [charIndices, List.mem_cons] at member
      rw [byteLength_cons]
      rcases member with rfl | member
      · exact ⟨Nat.le_refl _, by omega⟩
      · have bounds := ih member
        omega

theorem slice_eq {text : String} {before run after : List Char}
    (split : text.toList = before ++ (run ++ after)) :
    slice text (byteLength before) (byteLength before + byteLength run) =
      String.ofList run := by
  have dropped : (charIndices 0 before).filter (fun entry =>
      decide (byteLength before ≤ entry.1) &&
        decide (entry.1 < byteLength before + byteLength run)) = [] := by
    rw [List.filter_eq_nil_iff]
    intro entry member
    have bounds := charIndices_bounds member
    simp only [Bool.and_eq_true, decide_eq_true_eq]
    omega
  have kept : (charIndices (0 + byteLength before) run).filter (fun entry =>
      decide (byteLength before ≤ entry.1) &&
        decide (entry.1 < byteLength before + byteLength run)) =
      charIndices (0 + byteLength before) run := by
    rw [List.filter_eq_self]
    intro entry member
    have bounds := charIndices_bounds member
    simp only [Bool.and_eq_true, decide_eq_true_eq]
    omega
  have cut : (charIndices (0 + byteLength before + byteLength run) after).filter
      (fun entry => decide (byteLength before ≤ entry.1) &&
        decide (entry.1 < byteLength before + byteLength run)) = [] := by
    rw [List.filter_eq_nil_iff]
    intro entry member
    have bounds := charIndices_bounds member
    simp only [Bool.and_eq_true, decide_eq_true_eq]
    omega
  unfold slice
  rw [split, charIndices_append, charIndices_append, List.filter_append, List.filter_append,
    dropped, kept, cut, List.nil_append, List.append_nil, charIndices_map_snd]

theorem digitRun_charIndices (stop : Nat) (chars : List Char) :
    digitRun stop (charIndices stop chars) =
      (stop + byteLength (chars.takeWhile Char.isDigit),
        charIndices (stop + byteLength (chars.takeWhile Char.isDigit))
          (chars.dropWhile Char.isDigit)) := by
  induction chars generalizing stop with
  | nil => simp [charIndices, digitRun]
  | cons ch chars ih =>
      simp only [charIndices, digitRun]
      by_cases digit : ch.isDigit = true
      · simp [digit, ih, Nat.add_assoc]
      · simp [digit, charIndices]

theorem startsNoDigit_dropWhile (chars : List Char) :
    StartsNoDigit (chars.dropWhile Char.isDigit) := by
  induction chars with
  | nil => trivial
  | cons ch chars ih =>
      by_cases digit : ch.isDigit = true
      · simpa [digit] using ih
      · simp [digit, StartsNoDigit]

theorem takeWhile_digits {run chars : List Char} (digits : ∀ digit ∈ run, digit.isDigit = true)
    (ends : StartsNoDigit chars) : (run ++ chars).takeWhile Char.isDigit = run := by
  induction run with
  | nil => cases chars with
      | nil => rfl
      | cons ch chars => simp_all [StartsNoDigit]
  | cons digit run ih => simp_all

theorem dropWhile_digits {run chars : List Char} (digits : ∀ digit ∈ run, digit.isDigit = true)
    (ends : StartsNoDigit chars) : (run ++ chars).dropWhile Char.isDigit = chars := by
  induction run with
  | nil => cases chars with
      | nil => rfl
      | cons ch chars => simp_all [StartsNoDigit]
  | cons digit run ih => simp_all

/-!
## The scan is the judgment
-/

theorem scan_number {text : String} {before run chars : List Char} (digits : DigitRun run)
    (ends : StartsNoDigit chars) (split : text.toList = before ++ (run ++ chars)) :
    scan isWhitespace text (charIndices (byteLength before) (run ++ chars)) =
      (scan isWhitespace text (charIndices (byteLength before + byteLength run) chars)).map
        (⟨.number, String.ofList run, byteLength before⟩ :: ·) := by
  obtain ⟨nonempty, allDigits⟩ := digits
  cases run with
  | nil => exact absurd rfl nonempty
  | cons digit run =>
      have first : digit.isDigit = true := allDigits digit (by simp)
      have others : ∀ other ∈ run, other.isDigit = true :=
        fun other member => allDigits other (by simp [member])
      have sliced := slice_eq split
      simp only [List.cons_append, charIndices, scan, first, if_true, digitRun_charIndices,
        takeWhile_digits others ends, dropWhile_digits others ends, byteLength_cons,
        Nat.add_assoc] at sliced ⊢
      rw [sliced]
      rfl

theorem scan_symbol {text : String} {offset : Nat} {ch : Char} {chars : List Char}
    {kind : TokenKind} (symbol : singleCharKind ch = some kind) :
    scan isWhitespace text (charIndices offset (ch :: chars)) =
      (scan isWhitespace text (charIndices (offset + ch.utf8Size) chars)).map
        (⟨kind, ch.toString, offset⟩ :: ·) := by
  simp only [charIndices, scan, singleCharKind_not_digit symbol, symbol]
  rfl

theorem scan_space {text : String} {offset : Nat} {ch : Char} {chars : List Char}
    (notDigit : ch.isDigit = false) (notSymbol : singleCharKind ch = none)
    (white : isWhitespace ch = true) :
    scan isWhitespace text (charIndices offset (ch :: chars)) =
      scan isWhitespace text (charIndices (offset + ch.utf8Size) chars) := by
  simp [charIndices, scan, notDigit, notSymbol, white]

theorem scan_stray {text : String} {offset : Nat} {ch : Char} {chars : List Char}
    (notDigit : ch.isDigit = false) (notSymbol : singleCharKind ch = none)
    (stray : isWhitespace ch = false) :
    scan isWhitespace text (charIndices offset (ch :: chars)) = .error ⟨offset, ch⟩ := by
  simp [charIndices, scan, notDigit, notSymbol, stray]

private theorem map_cons_eq_ok {first : Token} {result : Except LexError (List Token)}
    {tokens : List Token} (mapped : result.map (first :: ·) = .ok tokens) :
    ∃ rest, result = .ok rest ∧ tokens = first :: rest := by
  cases result with
  | error error => cases mapped
  | ok rest =>
      cases mapped
      exact ⟨rest, rfl, rfl⟩

theorem digits_or_char (chars : List Char) :
    chars = [] ∨
      (∃ run rest, chars = run ++ rest ∧ DigitRun run ∧ StartsNoDigit rest) ∨
      ∃ ch rest, chars = ch :: rest ∧ ch.isDigit = false := by
  cases chars with
  | nil => exact .inl rfl
  | cons ch rest =>
      by_cases digit : ch.isDigit = true
      · refine .inr (.inl ⟨(ch :: rest).takeWhile Char.isDigit,
          (ch :: rest).dropWhile Char.isDigit, (List.takeWhile_append_dropWhile).symm,
          ⟨by simp [digit], ?_⟩, startsNoDigit_dropWhile _⟩)
        intro other member
        exact List.all_eq_true.mp List.all_takeWhile other member
      · exact .inr (.inr ⟨ch, rest, rfl, by simpa using digit⟩)

private theorem scans_of_scan {text : String} (length : Nat) :
    ∀ (before : List Char) {chars : List Char} {tokens : List Token}, chars.length = length →
      text.toList = before ++ chars →
      scan isWhitespace text (charIndices (byteLength before) chars) = .ok tokens →
      Scans isWhitespace (byteLength before) chars tokens [] := by
  induction length using Nat.strongRecOn with
  | ind length ih =>
      intro before chars tokens size split scanned
      rcases digits_or_char chars with rfl | ⟨run, rest, rfl, digits, ends⟩ |
        ⟨ch, rest, rfl, notDigit⟩
      · simp only [charIndices, scan, Except.ok.injEq] at scanned
        subst scanned
        exact .done
      · rw [scan_number digits ends split] at scanned
        obtain ⟨others, scannedRest, rfl⟩ := map_cons_eq_ok scanned
        have shorter : rest.length < length := by
          have positive := List.length_pos_iff.mpr digits.1
          simp only [List.length_append] at size
          omega
        have whole := ih _ shorter (before ++ run) rfl (by simp [split])
          (by simpa using scannedRest)
        exact .number digits ends (by simpa using whole)
      · have shorter : rest.length < length := by
          simp only [List.length_cons] at size
          omega
        cases symbol : singleCharKind ch with
        | some kind =>
            rw [scan_symbol symbol] at scanned
            obtain ⟨others, scannedRest, rfl⟩ := map_cons_eq_ok scanned
            have whole := ih _ shorter (before ++ [ch]) rfl (by simp [split])
              (by simpa using scannedRest)
            exact .symbol symbol (by simpa using whole)
        | none =>
            cases white : isWhitespace ch with
            | false =>
                rw [scan_stray notDigit symbol white] at scanned
                cases scanned
            | true =>
                rw [scan_space notDigit symbol white] at scanned
                have whole := ih _ shorter (before ++ [ch]) rfl (by simp [split])
                  (by simpa using scanned)
                exact .space notDigit symbol white (by simpa using whole)

private theorem Scans.scan_eq {text : String} {offset : Nat} {chars rest : List Char}
    {tokens : List Token} (scans : Scans isWhitespace offset chars tokens rest) :
    ∀ (before : List Char), rest = [] → byteLength before = offset →
      text.toList = before ++ chars →
      scan isWhitespace text (charIndices offset chars) = .ok tokens := by
  induction scans with
  | done =>
      intro before finished _ _
      subst finished
      simp [charIndices, scan]
  | @space offset ch chars tokens rest notDigit notSymbol white _ ih =>
      intro before finished place split
      rw [scan_space notDigit notSymbol white]
      exact ih (before ++ [ch]) finished (by simp [place]) (by simp [split])
  | @symbol offset ch kind chars tokens rest symbol _ ih =>
      intro before finished place split
      rw [scan_symbol symbol, ih (before ++ [ch]) finished (by simp [place])
        (by simp [split])]
      rfl
  | @number offset run chars tokens rest digits ends _ ih =>
      intro before finished place split
      subst place
      rw [scan_number digits ends split, ih (before ++ run) finished (by simp)
        (by simp [split])]
      rfl

/-- `tokenize` succeeds exactly on the texts that scan to their end. -/
theorem tokenizeWith_ok_iff {text : String} {tokens : List Token} :
    tokenizeWith isWhitespace text = .ok tokens ↔
      Scans isWhitespace 0 text.toList tokens [] := by
  constructor
  · intro scanned
    exact scans_of_scan _ [] rfl rfl scanned
  · intro scans
    exact scans.scan_eq [] rfl rfl rfl

end Proofhouse.Lexer

namespace Proofhouse

theorem tokenize_ok_iff {text : String} {tokens : List Token} :
    tokenize text = .ok tokens ↔ Lexer.Scans isWhitespace 0 text.toList tokens [] :=
  Lexer.tokenizeWith_ok_iff

end Proofhouse
