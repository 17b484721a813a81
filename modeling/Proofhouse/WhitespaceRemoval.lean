import Mathlib.Data.List.Chain
import Proofhouse.ParsePrefixes

/-!
# Texts without their whitespace

Between two numbers no expression goes without a token of its own, so whitespace
is never all that keeps two digits apart in a text that parses, and what parses
parses to the same tree with all whitespace taken out.
-/

set_option autoImplicit false

namespace Proofhouse

open Library

/-- No two numbers stand next to each other. -/
def NumbersApart (tokens : List Token) : Prop :=
  tokens.IsChain fun token next => token.kind = .number → next.kind ≠ .number

theorem numbersApart_around {left right : List Token} {token : Token}
    (notNumber : token.kind ≠ .number) (onLeft : NumbersApart left)
    (onRight : NumbersApart right) : NumbersApart (left ++ token :: right) := by
  refine List.isChain_append.mpr ⟨onLeft, List.isChain_cons.mpr ⟨?_, onRight⟩, ?_⟩
  · exact fun _ _ isNumber => absurd isNumber notNumber
  · intro last _ next first _
    cases first
    exact notNumber

theorem Spells.numbersApart {stratum : Stratum} {tokens : List Token} {expr : Expr}
    (spells : Spells stratum tokens expr) : NumbersApart tokens := by
  induction spells with
  | exprTerm _ ih | termFactor _ ih => exact ih
  | plus kind _ _ leftIH rightIH | minus kind _ _ leftIH rightIH
  | star kind _ _ leftIH rightIH | slash kind _ _ leftIH rightIH =>
      exact numbersApart_around (by simp [kind]) leftIH rightIH
  | number => exact List.isChain_singleton _
  | negation kind _ ih => exact @numbersApart_around [] _ _ (by simp [kind]) .nil ih
  | @parentheses opening closing tokens expr opens _ closes ih =>
      have opened : opening.kind ≠ .number := by simp [opens]
      have closed : closing.kind ≠ .number := by simp [closes]
      exact @numbersApart_around [] _ _ opened .nil (numbersApart_around closed ih .nil)

/-- Two digits with whitespace between them and nothing else. -/
def SplitsDigits (isWhitespace : Char → Bool) (chars : List Char) : Prop :=
  ∃ before first gap second after,
    chars = before ++ first :: (gap ++ second :: after) ∧ gap ≠ [] ∧
      (∀ ch ∈ gap, isWhitespace ch = true) ∧ first.isDigit = true ∧ second.isDigit = true

theorem SplitsDigits.append {isWhitespace : Char → Bool} {chars : List Char} (head : List Char)
    (splits : SplitsDigits isWhitespace chars) : SplitsDigits isWhitespace (head ++ chars) := by
  obtain ⟨before, first, gap, second, after, rfl, apart⟩ := splits
  exact ⟨head ++ before, first, gap, second, after, by rw [List.append_assoc], apart⟩

namespace Lexer

variable {isWhitespace : Char → Bool} {start : Nat} {chars : List Char} {tokens : List Token}

/-- The characters no whitespace is among. -/
def unspaced (isWhitespace : Char → Bool) (chars : List Char) : List Char :=
  chars.filter fun ch => !isWhitespace ch

theorem unspaced_number (apart : Apart isWhitespace) {run : List Char} (digits : DigitRun run)
    (chars : List Char) :
    unspaced isWhitespace (run ++ chars) = run ++ unspaced isWhitespace chars := by
  obtain ⟨-, allDigits⟩ := digits
  rw [unspaced, List.filter_append, List.filter_eq_self.mpr, unspaced]
  intro digit member
  rw [apart.digits digit (allDigits digit member)]
  rfl

theorem unspaced_symbol (apart : Apart isWhitespace) {ch : Char} {kind : TokenKind}
    (symbol : singleCharKind ch = some kind) (chars : List Char) :
    unspaced isWhitespace (ch :: chars) = ch :: unspaced isWhitespace chars := by
  have dark := apart.symbols ch kind (singleCharKind_eq_some_iff.mp symbol)
  exact List.filter_cons_of_pos (by rw [dark]; rfl)

theorem unspaced_space {ch : Char} (white : isWhitespace ch = true) (chars : List Char) :
    unspaced isWhitespace (ch :: chars) = unspaced isWhitespace chars :=
  List.filter_cons_of_neg (by simp [white])

theorem Scans.startsNoDigit_unspaced {rest : List Char} (apart : Apart isWhitespace)
    (scans : Scans isWhitespace start chars tokens rest) (finished : rest = [])
    (notNumber : ∀ token ∈ tokens.head?, token.kind ≠ .number) :
    StartsNoDigit (unspaced isWhitespace chars) := by
  induction scans with
  | done =>
      subst finished
      trivial
  | space _ _ white _ ih =>
      rw [unspaced_space white]
      exact ih finished notNumber
  | symbol symbol =>
      rw [unspaced_symbol apart symbol]
      exact singleCharKind_not_digit symbol
  | number => exact absurd rfl (notNumber _ rfl)

/-- Where numbers are apart, whitespace says nothing but where the tokens are. -/
theorem Scans.unspaced {rest : List Char} (apart : Apart isWhitespace)
    (scans : Scans isWhitespace start chars tokens rest) (finished : rest = [])
    (numbers : NumbersApart tokens) (later : Nat) :
    ∃ placed, Scans isWhitespace later (unspaced isWhitespace chars) placed [] ∧
      placed.map Token.bare = tokens.map Token.bare := by
  induction scans generalizing later with
  | done =>
      subst finished
      exact ⟨[], .done, rfl⟩
  | space _ _ white _ ih =>
      rw [unspaced_space white]
      exact ih finished numbers later
  | @symbol offset ch kind chars tokens rest symbol _ ih =>
      rw [unspaced_symbol apart symbol]
      obtain ⟨placed, scans, same⟩ :=
        ih finished (List.isChain_cons.mp numbers).2 (later + ch.utf8Size)
      refine ⟨_, .symbol symbol scans, ?_⟩
      rw [List.map_cons, List.map_cons, same]
      rfl
  | @number offset run chars tokens rest digits ends inner ih =>
      obtain ⟨alone, numbers⟩ := List.isChain_cons.mp numbers
      rw [unspaced_number apart digits]
      obtain ⟨placed, scans, same⟩ := ih finished numbers (later + byteLength run)
      have stops := inner.startsNoDigit_unspaced apart finished
        fun token first => alone token first rfl
      refine ⟨_, .number digits stops scans, ?_⟩
      rw [List.map_cons, List.map_cons, same]
      rfl

theorem Scans.number_ahead {rest : List Char} (scans : Scans isWhitespace start chars tokens rest)
    {token : Token} (first : tokens.head? = some token) (isNumber : token.kind = .number) :
    ∃ gap digit after, chars = gap ++ digit :: after ∧ (∀ ch ∈ gap, isWhitespace ch = true) ∧
      digit.isDigit = true := by
  induction scans with
  | done => cases first
  | @space offset ch chars tokens rest _ _ white _ ih =>
      obtain ⟨gap, digit, after, rfl, allWhite, isDigit⟩ := ih first
      exact ⟨ch :: gap, digit, after, rfl, List.forall_mem_cons.mpr ⟨white, allWhite⟩, isDigit⟩
  | symbol symbol =>
      cases first
      cases isNumber
      exact absurd symbol (singleCharKind_ne_number _)
  | @number offset run chars tokens rest digits =>
      obtain ⟨nonempty, allDigits⟩ := digits
      obtain ⟨digit, others, rfl⟩ := List.exists_cons_of_ne_nil nonempty
      exact ⟨[], digit, others ++ chars, rfl, nofun, allDigits digit List.mem_cons_self⟩

theorem Scans.after_space {ch : Char} {rest : List Char} (apart : Apart isWhitespace)
    (scans : Scans isWhitespace start (ch :: chars) tokens rest)
    (white : isWhitespace ch = true) (finished : rest = []) :
    Scans isWhitespace (start + ch.utf8Size) chars tokens rest := by
  obtain ⟨notDigit, notSymbol⟩ := apart.of_white white
  generalize whole : ch :: chars = all at scans
  cases scans with
  | done =>
      rw [finished] at whole
      cases whole
  | space _ _ _ onRest =>
      cases whole
      exact onRest
  | symbol symbol =>
      cases whole
      cases notSymbol.symm.trans symbol
  | @number _ run _ _ _ digits =>
      obtain ⟨nonempty, allDigits⟩ := digits
      obtain ⟨digit, others, rfl⟩ := List.exists_cons_of_ne_nil nonempty
      cases whole
      cases notDigit.symm.trans (allDigits ch List.mem_cons_self)

theorem Scans.number_after {gap after : List Char} {digit : Char} (apart : Apart isWhitespace)
    (scans : Scans isWhitespace start (gap ++ digit :: after) tokens [])
    (white : ∀ ch ∈ gap, isWhitespace ch = true) (isDigit : digit.isDigit = true) :
    ∃ token, tokens.head? = some token ∧ token.kind = .number := by
  induction gap generalizing start with
  | nil =>
      have grown : DigitRun (digit :: after.takeWhile Char.isDigit) :=
        ⟨List.cons_ne_nil _ _,
          List.forall_mem_cons.mpr ⟨isDigit, fun _ => List.mem_takeWhile_imp⟩⟩
      have cut : [] ++ digit :: after =
          (digit :: after.takeWhile Char.isDigit) ++ after.dropWhile Char.isDigit := by simp
      rw [cut] at scans
      obtain ⟨later, rfl, -⟩ := scans.leading_number grown (startsNoDigit_dropWhile after) rfl
      exact ⟨_, rfl, rfl⟩
  | cons ch gap ih =>
      obtain ⟨first, others⟩ := List.forall_mem_cons.mp white
      exact ih (scans.after_space apart first rfl) others

theorem numbersApart_of_scans {rest : List Char}
    (scans : Scans isWhitespace start chars tokens rest) (finished : rest = [])
    (whole : ¬SplitsDigits isWhitespace chars) : NumbersApart tokens := by
  induction scans with
  | done => exact .nil
  | @space offset ch chars tokens rest _ _ _ _ ih =>
      exact ih finished fun splits => whole (splits.append [ch])
  | @symbol offset ch kind chars tokens rest symbol _ ih =>
      refine List.isChain_cons.mpr ⟨fun _ _ isNumber => ?_, ih finished fun splits =>
        whole (splits.append [ch])⟩
      cases isNumber
      exact absurd symbol (singleCharKind_ne_number ch)
  | @number offset run chars tokens rest digits ends inner ih =>
      refine List.isChain_cons.mpr ⟨fun next first _ isNumber => whole ?_,
        ih finished fun splits => whole (splits.append run)⟩
      obtain ⟨gap, digit, after, rfl, white, isDigit⟩ := inner.number_ahead first isNumber
      obtain ⟨nonempty, allDigits⟩ := digits
      obtain ⟨others, last, rfl⟩ := (List.eq_nil_or_concat run).resolve_left nonempty
      refine ⟨others, last, gap, digit, after, by simp, ?_, white, allDigits last (by simp),
        isDigit⟩
      · rintro rfl
        cases (show digit.isDigit = false from ends).symm.trans isDigit

theorem Scans.not_splitsDigits (apart : Apart isWhitespace)
    (scans : Scans isWhitespace start chars tokens []) (numbers : NumbersApart tokens) :
    ¬SplitsDigits isWhitespace chars := by
  rintro ⟨before, first, gap, second, after, rfl, nonempty, white, isDigit, nextDigit⟩
  obtain ⟨ch, others, rfl⟩ := List.exists_cons_of_ne_nil nonempty
  have cut : Parted (before ++ [first]) ((ch :: others) ++ second :: after) :=
    .inr (apart.of_white (white ch List.mem_cons_self)).1
  rw [List.append_cons] at scans
  obtain ⟨onLeft, onRight, rfl, left, right⟩ := (scans_append_iff cut).mp scans
  obtain ⟨head, run, split, ends, digits⟩ := trailing_digits (before ++ [first])
  have nonempty : run ≠ [] := by
    rintro rfl
    rw [List.append_nil] at split
    cases (ends first (by simp [← split])).symm.trans isDigit
  rw [split] at left
  obtain ⟨earlier, rfl, -⟩ := left.trailing_number ends ⟨nonempty, digits⟩
  obtain ⟨next, isNext, isNumber⟩ := right.number_after apart white nextDigit
  obtain ⟨-, -, joint⟩ := List.isChain_append.mp numbers
  exact joint _ List.getLast?_concat next isNext rfl isNumber

end Lexer

def withoutWhitespace (text : String) : String :=
  String.ofList (Lexer.unspaced isWhitespace text.toList)

/-- The trees of the texts that parse do not depend on whitespace, and whitespace
must not be what keeps two digits apart. -/
theorem parse_ok_iff_withoutWhitespace (text : String) (expr : Expr) :
    parse text = .ok expr ↔
      parse (withoutWhitespace text) = .ok expr ∧ ¬SplitsDigits isWhitespace text.toList := by
  have apart := Lexer.apart_isWhitespace
  have joined : (withoutWhitespace text).toList = Lexer.unspaced isWhitespace text.toList :=
    String.toList_ofList
  constructor
  · intro parsed
    obtain ⟨tokens, scanned, derived⟩ := parse_ok_iff.mp parsed
    have scans := tokenize_ok_iff.mp scanned
    have numbers := ((spells_iff_derives scans.digitLexemes).mpr derived).numbersApart
    obtain ⟨placed, onJoined, same⟩ := scans.unspaced apart rfl numbers 0
    refine ⟨?_, scans.not_splitsDigits apart numbers⟩
    exact parse_ok_of_bare (tokenize_ok_iff.mpr (joined ▸ onJoined)) same derived
  · rintro ⟨parsed, whole⟩
    obtain ⟨tokens, scanned, derived⟩ := parse_ok_iff.mp parsed
    have onJoined := tokenize_ok_iff.mp scanned
    rw [joined] at onJoined
    have admitted : ∀ ch ∈ text.toList, Lexer.Admitted isWhitespace ch := by
      intro ch member
      cases white : isWhitespace ch with
      | true => exact .inr (.inr white)
      | false =>
          exact onJoined.admitted rfl ch (List.mem_filter.mpr ⟨member, by rw [white]; rfl⟩)
    obtain ⟨others, scans⟩ := Lexer.scans_of_admitted admitted 0
    have numbers := Lexer.numbersApart_of_scans scans rfl whole
    obtain ⟨placed, again, same⟩ := scans.unspaced apart rfl numbers 0
    cases onJoined.deterministic again
    exact parse_ok_of_bare (tokenize_ok_iff.mpr scans) same.symm derived

end Proofhouse
