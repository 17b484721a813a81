import Proofhouse.LexerProperties

/-!
# The segmentation a scan finds

What it means for tokens to segment a text, said without the scan: where tokens
lie, what they spell, and what stands between them. Every admissible text has
one segmentation, and the lexer returns it.
-/

set_option autoImplicit false

namespace Proofhouse

/-- The byte offset right after a token. -/
def Token.stop (token : Token) : Nat :=
  token.offset + Lexer.byteLength token.lexeme.toList

namespace Lexer

open Library

/-- The kind a token has is the one its lexeme spells. -/
def Spelled (token : Token) : Prop :=
  (token.kind = .number ∧ DigitRun token.lexeme.toList) ∨
    ∃ ch, token.lexeme.toList = [ch] ∧ IsSymbol ch token.kind

def EndsNoDigit (chars : List Char) : Prop :=
  ∀ ch, chars.getLast? = some ch → ch.isDigit = false

/-- `token` stands in `chars`, whose first byte is at `start`, between `before`
and `after`. -/
structure Placed (start : Nat) (chars : List Char) (token : Token) (before after : List Char) :
    Prop where
  split : chars = before ++ (token.lexeme.toList ++ after)
  place : token.offset = start + byteLength before

/-- `Segments ws start chars tokens`: the tokens segment characters whose first
byte is at `start`. -/
structure Segments (isWhitespace : Char → Bool) (start : Nat) (chars : List Char)
    (tokens : List Token) : Prop where
  ordered : tokens.Pairwise fun earlier later => earlier.stop ≤ later.offset
  placed : ∀ token ∈ tokens, ∃ before after, Placed start chars token before after
  spelled : ∀ token ∈ tokens, Spelled token
  gaps : ∀ before ch after, chars = before ++ ch :: after → isWhitespace ch = false →
    ∃ token ∈ tokens, token.offset ≤ start + byteLength before ∧
      start + byteLength before < token.stop
  maximal : ∀ token ∈ tokens, token.kind = .number → ∀ before after,
    Placed start chars token before after → EndsNoDigit before ∧ StartsNoDigit after

/-!
## Places in a text
-/

theorem byteLength_pos {chars : List Char} (nonempty : chars ≠ []) : 0 < byteLength chars := by
  cases chars with
  | nil => exact absurd rfl nonempty
  | cons ch chars =>
      have positive := ch.utf8Size_pos
      rw [byteLength_cons]
      omega

/-- A byte offset between two characters splits a text in one way. -/
theorem split_of_byteLength_le {before middle left right : List Char}
    (same : before ++ middle = left ++ right) (ordered : byteLength before ≤ byteLength left) :
    ∃ between, left = before ++ between ∧ middle = between ++ right := by
  rcases List.append_eq_append_iff.mp same with ⟨between, isLeft, isMiddle⟩ |
    ⟨between, isBefore, isRight⟩
  · exact ⟨between, isLeft, isMiddle⟩
  · cases between with
    | nil => exact ⟨[], by simpa using isBefore.symm, by simpa using isRight.symm⟩
    | cons ch between =>
        have positive := ch.utf8Size_pos
        rw [isBefore, byteLength_append, byteLength_cons] at ordered
        omega

theorem split_of_byteLength_eq {before middle left right : List Char}
    (same : before ++ middle = left ++ right) (equal : byteLength before = byteLength left) :
    before = left ∧ middle = right := by
  obtain ⟨between, rfl, rfl⟩ := split_of_byteLength_le same (Nat.le_of_eq equal)
  cases between with
  | nil => exact ⟨(List.append_nil before).symm, rfl⟩
  | cons ch between =>
      have positive := ch.utf8Size_pos
      rw [byteLength_append, byteLength_cons] at equal
      omega

theorem Spelled.nonempty {token : Token} (spelled : Spelled token) :
    token.lexeme.toList ≠ [] := by
  rcases spelled with ⟨-, digits⟩ | ⟨ch, lexeme, -⟩
  · exact digits.1
  · rw [lexeme]
    exact List.cons_ne_nil _ _

theorem Spelled.offset_lt_stop {token : Token} (spelled : Spelled token) :
    token.offset < token.stop := by
  have positive := byteLength_pos spelled.nonempty
  rw [Token.stop]
  omega

theorem Placed.shift {start : Nat} {head chars : List Char} {token : Token}
    {before after : List Char}
    (placed : Placed (start + byteLength head) chars token before after) :
    Placed start (head ++ chars) token (head ++ before) after :=
  ⟨by rw [placed.split, List.append_assoc], by rw [placed.place, byteLength_append, Nat.add_assoc]⟩

theorem Placed.unshift {start : Nat} {head chars : List Char} {token : Token}
    {before after : List Char} (placed : Placed start (head ++ chars) token before after)
    (later : start + byteLength head ≤ token.offset) :
    ∃ between, before = head ++ between ∧
      Placed (start + byteLength head) chars token between after := by
  have ordered : byteLength head ≤ byteLength before := by
    rw [placed.place] at later
    omega
  obtain ⟨between, rfl, split⟩ := split_of_byteLength_le placed.split ordered
  refine ⟨between, rfl, split, ?_⟩
  rw [placed.place, byteLength_append, Nat.add_assoc]

theorem Placed.start_le {start : Nat} {chars : List Char} {token : Token}
    {before after : List Char} (placed : Placed start chars token before after) :
    start ≤ token.offset :=
  placed.place ▸ Nat.le_add_right _ _

theorem endsNoDigit_append {head before : List Char} (ends : EndsNoDigit head)
    (inner : EndsNoDigit before) : EndsNoDigit (head ++ before) := by
  intro ch last
  rw [List.getLast?_append] at last
  cases found : before.getLast? with
  | none => exact ends ch (by simpa [found] using last)
  | some other =>
      rw [found, Option.some_or] at last
      exact inner ch (found.trans last)

theorem EndsNoDigit.of_append {head before : List Char} (ends : EndsNoDigit (head ++ before)) :
    EndsNoDigit before := by
  intro ch last
  refine ends ch ?_
  rw [List.getLast?_append, last, Option.some_or]

/-!
## A scan segments
-/

variable {isWhitespace : Char → Bool} {start : Nat} {head chars : List Char}
  {tokens : List Token}

theorem Segments.start_le (segments : Segments isWhitespace start chars tokens) {token : Token}
    (member : token ∈ tokens) : start ≤ token.offset := by
  obtain ⟨before, after, placed⟩ := segments.placed token member
  exact placed.start_le

/-- A number begins no text that starts without a digit. -/
theorem Placed.not_number {token : Token} {after : List Char} (isNumber : token.kind = .number)
    (spelled : Spelled token) (placed : Placed start chars token [] after) :
    ¬StartsNoDigit chars := by
  intro noDigit
  rw [placed.split] at noDigit
  rcases spelled with ⟨-, nonempty, digits⟩ | ⟨ch, lexeme, symbol⟩
  · cases lexeme : token.lexeme.toList with
    | nil => exact nonempty lexeme
    | cons digit run =>
        rw [lexeme] at noDigit
        have isDigit := digits digit (by simp [lexeme])
        exact absurd (noDigit.symm.trans isDigit) Bool.false_ne_true
  · rw [isNumber] at symbol
    cases symbol

private theorem Segments.maximal_shift
    (segments : Segments isWhitespace (start + byteLength head) chars tokens)
    (apart : EndsNoDigit head ∨ StartsNoDigit chars) :
    ∀ token ∈ tokens, token.kind = .number → ∀ before after,
      Placed start (head ++ chars) token before after →
        EndsNoDigit before ∧ StartsNoDigit after := by
  intro token member isNumber before after placed
  obtain ⟨between, rfl, within⟩ := placed.unshift (segments.start_le member)
  obtain ⟨ends, starts⟩ := segments.maximal token member isNumber _ _ within
  refine ⟨?_, starts⟩
  rcases apart with noDigit | noDigit
  · exact endsNoDigit_append noDigit ends
  · cases between with
    | nil => exact absurd noDigit (within.not_number isNumber (segments.spelled token member))
    | cons ch between =>
        intro other last
        refine ends other ?_
        rwa [List.getLast?_append, List.getLast?_cons, Option.some_or, ← List.getLast?_cons] at last

private theorem Segments.placed_shift
    (segments : Segments isWhitespace (start + byteLength head) chars tokens) :
    ∀ token ∈ tokens, ∃ before after, Placed start (head ++ chars) token before after := by
  intro token member
  obtain ⟨before, after, placed⟩ := segments.placed token member
  exact ⟨head ++ before, after, placed.shift⟩

theorem Segments.space {ch : Char} (notDigit : ch.isDigit = false) (white : isWhitespace ch = true)
    (segments : Segments isWhitespace (start + ch.utf8Size) chars tokens) :
    Segments isWhitespace start (ch :: chars) tokens := by
  have shifted : Segments isWhitespace (start + byteLength [ch]) chars tokens := by
    simpa using segments
  have apart : EndsNoDigit [ch] := by
    intro other last
    cases last
    exact notDigit
  refine ⟨shifted.ordered, shifted.placed_shift, shifted.spelled, ?_,
    shifted.maximal_shift (.inl apart)⟩
  intro before other after split dark
  cases before with
  | nil =>
      cases split
      exact absurd (dark.symm.trans white) Bool.false_ne_true
  | cons first before =>
      cases split
      obtain ⟨token, member, reaches, covers⟩ := segments.gaps before other after rfl dark
      refine ⟨token, member, ?_, ?_⟩
      · rw [byteLength_cons]
        omega
      · rw [byteLength_cons]
        omega

theorem Segments.token {token : Token} (atStart : token.offset = start) (spelled : Spelled token)
    (munched : token.kind = .number → StartsNoDigit chars)
    (segments : Segments isWhitespace token.stop chars tokens) :
    Segments isWhitespace start (token.lexeme.toList ++ chars) (token :: tokens) := by
  have shifted : Segments isWhitespace (start + byteLength token.lexeme.toList) chars tokens := by
    rwa [Token.stop, atStart] at segments
  have apart : EndsNoDigit token.lexeme.toList ∨ StartsNoDigit chars := by
    rcases spelled with ⟨isNumber, -⟩ | ⟨ch, lexeme, symbol⟩
    · exact .inr (munched isNumber)
    · refine .inl fun other last => ?_
      rw [lexeme] at last
      cases last
      exact singleCharKind_not_digit (singleCharKind_eq_some_iff.mpr symbol)
  have first : Placed start (token.lexeme.toList ++ chars) token [] chars := ⟨rfl, atStart⟩
  refine ⟨?_, ?_, ?_, ?_, ?_⟩
  · refine List.pairwise_cons.mpr ⟨fun later member => ?_, segments.ordered⟩
    exact segments.start_le member
  · refine List.forall_mem_cons.mpr ⟨⟨[], chars, first⟩, shifted.placed_shift⟩
  · exact List.forall_mem_cons.mpr ⟨spelled, segments.spelled⟩
  · intro before ch after split dark
    by_cases within : byteLength token.lexeme.toList ≤ byteLength before
    · obtain ⟨between, rfl, rfl⟩ := split_of_byteLength_le split within
      obtain ⟨other, member, reaches, covers⟩ := shifted.gaps between ch after rfl dark
      refine ⟨other, List.mem_cons_of_mem _ member, ?_, ?_⟩
      · rw [byteLength_append]
        omega
      · rw [byteLength_append]
        omega
    · refine ⟨token, List.mem_cons_self, ?_, ?_⟩
      · omega
      · rw [Token.stop]
        omega
  · refine List.forall_mem_cons.mpr ⟨?_, shifted.maximal_shift apart⟩
    intro isNumber before after placed
    have empty : byteLength before = 0 := by
      have place := placed.place
      omega
    obtain ⟨rfl, same⟩ := split_of_byteLength_eq (placed.split.symm.trans first.split) empty
    cases List.append_cancel_left same
    refine ⟨?_, munched isNumber⟩
    intro ch last
    cases last

theorem Scans.segments {rest : List Char} (scans : Scans isWhitespace start chars tokens rest)
    (finished : rest = []) : Segments isWhitespace start chars tokens := by
  induction scans with
  | done =>
      subst finished
      refine ⟨.nil, ?_, ?_, ?_, ?_⟩
      · intro token member; cases member
      · intro token member; cases member
      · intro before ch after split; cases before <;> cases split
      · intro token member; cases member
  | space notDigit _ white _ ih => exact (ih finished).space notDigit white
  | @symbol offset ch kind chars tokens rest symbol _ ih =>
      have spelled : Spelled ⟨kind, ch.toString, offset⟩ :=
        .inr ⟨ch, by simp, singleCharKind_eq_some_iff.mp symbol⟩
      have notNumber : kind ≠ .number := fun same => singleCharKind_ne_number ch (same ▸ symbol)
      have whole := Segments.token rfl spelled (fun isNumber => absurd isNumber notNumber)
        (by simpa [Token.stop] using ih finished)
      simpa using whole
  | @number offset run chars tokens rest digits ends _ ih =>
      have spelled : Spelled ⟨.number, String.ofList run, offset⟩ :=
        .inl ⟨rfl, by simpa using digits⟩
      have whole := Segments.token rfl spelled (fun _ => ends)
        (by simpa [Token.stop] using ih finished)
      simpa using whole

/-!
## Only one list of tokens segments
-/

/-- What the lexer admits without an error. -/
def Admitted (isWhitespace : Char → Bool) (ch : Char) : Prop :=
  ch.isDigit = true ∨ (∃ kind, IsSymbol ch kind) ∨ isWhitespace ch = true

instance (ch : Char) : Decidable (∃ kind, IsSymbol ch kind) :=
  decidable_of_iff (¬singleCharKind ch = none) (not_iff_comm.mp singleCharKind_eq_none_iff.symm)

instance (isWhitespace : Char → Bool) : DecidablePred (Admitted isWhitespace) := fun ch =>
  inferInstanceAs (Decidable
    (ch.isDigit = true ∨ (∃ kind, IsSymbol ch kind) ∨ isWhitespace ch = true))

-- By the list, and not by a search through all characters.
instance (isWhitespace : Char → Bool) (chars : List Char) :
    Decidable (∀ ch ∈ chars, Admitted isWhitespace ch) :=
  List.decidableBAll _ chars

/-- Whitespace that no token could begin with. -/
structure Apart (isWhitespace : Char → Bool) : Prop where
  digits : ∀ ch, ch.isDigit = true → isWhitespace ch = false
  symbols : ∀ ch kind, IsSymbol ch kind → isWhitespace ch = false

theorem Apart.of_white (apart : Apart isWhitespace) {ch : Char} (white : isWhitespace ch = true) :
    ch.isDigit = false ∧ singleCharKind ch = none := by
  constructor
  · by_contra isDigit
    rw [apart.digits ch (by simpa using isDigit)] at white
    cases white
  · refine singleCharKind_eq_none_iff.mpr ?_
    rintro ⟨kind, symbol⟩
    rw [apart.symbols ch kind symbol] at white
    cases white

theorem Segments.drop {leaders others : List Token}
    (segments : Segments isWhitespace start (head ++ chars) (leaders ++ others))
    (within : ∀ token ∈ leaders, token.stop ≤ start + byteLength head)
    (beyond : ∀ token ∈ others, start + byteLength head ≤ token.offset) :
    Segments isWhitespace (start + byteLength head) chars others := by
  have kept : ∀ token ∈ others, token ∈ leaders ++ others :=
    fun _ member => List.mem_append_right _ member
  refine ⟨(List.pairwise_append.mp segments.ordered).2.1, ?_,
    fun token member => segments.spelled token (kept token member), ?_, ?_⟩
  · intro token member
    obtain ⟨before, after, placed⟩ := segments.placed token (kept token member)
    obtain ⟨between, -, inside⟩ := placed.unshift (beyond token member)
    exact ⟨between, after, inside⟩
  · intro before ch after split dark
    obtain ⟨token, member, begins, ends⟩ := segments.gaps (head ++ before) ch after
      (by rw [split, List.append_assoc]) dark
    rw [byteLength_append, ← Nat.add_assoc] at begins ends
    rcases List.mem_append.mp member with early | late
    · have stops := within token early
      omega
    · exact ⟨token, late, begins, ends⟩
  · intro token member isNumber before after placed
    obtain ⟨ends, begins⟩ :=
      segments.maximal token (kept token member) isNumber _ _ placed.shift
    exact ⟨ends.of_append, begins⟩

/-- The token over the first byte comes first, and the others segment the rest. -/
theorem Segments.first {ch : Char}
    (segments : Segments isWhitespace start (ch :: chars) tokens) (dark : isWhitespace ch = false) :
    ∃ token others rest, tokens = token :: others ∧ token.offset = start ∧ Spelled token ∧
      ch :: chars = token.lexeme.toList ++ rest ∧
      (token.kind = .number → StartsNoDigit rest) ∧
      Segments isWhitespace (start + byteLength token.lexeme.toList) rest others := by
  obtain ⟨token, member, reaches, covers⟩ := segments.gaps [] ch chars rfl dark
  simp only [byteLength_nil, Nat.add_zero] at reaches covers
  have atStart : token.offset = start := Nat.le_antisymm reaches (segments.start_le member)
  obtain ⟨before, rest, placed⟩ := segments.placed token member
  have empty : before = [] := by
    by_contra nonempty
    have positive := byteLength_pos nonempty
    have place := placed.place
    omega
  subst empty
  have split : ch :: chars = token.lexeme.toList ++ rest := placed.split
  have stops : token.stop = start + byteLength token.lexeme.toList := by
    rw [Token.stop, atStart]
  cases tokens with
  | nil => cases member
  | cons leader others =>
      obtain ⟨after, -⟩ := List.pairwise_cons.mp segments.ordered
      have leads : leader = token := by
        rcases List.mem_cons.mp member with same | later
        · exact same.symm
        · have ordered := after token later
          have starts := segments.start_le List.mem_cons_self
          have shorter := (segments.spelled leader List.mem_cons_self).offset_lt_stop
          omega
      subst leads
      refine ⟨leader, others, rest, rfl, atStart, segments.spelled leader member, split,
        fun isNumber => (segments.maximal leader member isNumber [] rest placed).2, ?_⟩
      have whole : Segments isWhitespace start (leader.lexeme.toList ++ rest)
          ([leader] ++ others) := split ▸ segments
      refine whole.drop ?_ ?_
      · intro token inLeader
        cases List.mem_singleton.mp inLeader
        exact stops.le
      · exact fun token inOthers => stops ▸ after token inOthers

/-- No token begins at a character that is neither a digit nor a symbol. -/
theorem Segments.of_space {ch : Char} (notDigit : ch.isDigit = false)
    (notSymbol : singleCharKind ch = none)
    (segments : Segments isWhitespace start (ch :: chars) tokens) :
    isWhitespace ch = true ∧ Segments isWhitespace (start + ch.utf8Size) chars tokens := by
  have later : ∀ token ∈ tokens, start + byteLength [ch] ≤ token.offset := by
    intro token member
    obtain ⟨before, after, placed⟩ := segments.placed token member
    cases before with
    | nil =>
        have split := placed.split
        rcases segments.spelled token member with ⟨-, nonempty, digits⟩ | ⟨other, lexeme, symbol⟩
        · cases lexeme : token.lexeme.toList with
          | nil => exact absurd lexeme nonempty
          | cons digit run =>
              rw [lexeme] at split
              cases split
              have isDigit := digits ch (by simp [lexeme])
              exact absurd (notDigit.symm.trans isDigit) Bool.false_ne_true
        · rw [lexeme] at split
          cases split
          exact absurd ⟨_, symbol⟩ (singleCharKind_eq_none_iff.mp notSymbol)
    | cons first before =>
        have place := placed.place
        cases placed.split
        rw [byteLength_cons] at place
        simp only [byteLength_cons, byteLength_nil]
        omega
  constructor
  · cases white : isWhitespace ch with
    | true => rfl
    | false =>
        obtain ⟨token, member, reaches, -⟩ := segments.gaps [] ch chars rfl white
        have beyond := later token member
        have positive := ch.utf8Size_pos
        simp only [byteLength_cons, byteLength_nil] at reaches beyond
        omega
  · have whole : Segments isWhitespace start ([ch] ++ chars) ([] ++ tokens) := segments
    simpa using whole.drop (by simp) later

theorem Scans.token {token : Token} {others : List Token} {rest : List Char}
    (atStart : token.offset = start) (spelled : Spelled token)
    (munched : token.kind = .number → StartsNoDigit rest)
    (scans : Scans isWhitespace (start + byteLength token.lexeme.toList) rest others []) :
    Scans isWhitespace start (token.lexeme.toList ++ rest) (token :: others) [] := by
  obtain ⟨kind, lexeme, offset⟩ := token
  dsimp only at atStart munched scans ⊢
  subst atStart
  rcases spelled with ⟨isNumber, digits⟩ | ⟨ch, isChar, symbol⟩
  · dsimp only at isNumber digits
    subst isNumber
    have whole := Scans.number digits (munched rfl) scans
    rwa [String.ofList_toList] at whole
  · dsimp only at isChar symbol
    have same : lexeme = ch.toString := String.toList_inj.mp (by simpa using isChar)
    subst same
    rw [isChar] at scans ⊢
    exact .symbol (singleCharKind_eq_some_iff.mpr symbol) (by simpa using scans)

theorem Segments.scans (apart : Apart isWhitespace)
    (segments : Segments isWhitespace start chars tokens) :
    Scans isWhitespace start chars tokens [] := by
  induction size : chars.length using Nat.strongRecOn generalizing start chars tokens with
  | ind length ih =>
      subst size
      cases chars with
      | nil =>
          cases tokens with
          | nil => exact .done
          | cons token others =>
              obtain ⟨before, after, placed⟩ := segments.placed token List.mem_cons_self
              have empty := List.append_eq_nil_iff.mp placed.split.symm
              have nonempty := (segments.spelled token List.mem_cons_self).nonempty
              exact absurd (List.append_eq_nil_iff.mp empty.2).1 nonempty
      | cons ch chars =>
          cases white : isWhitespace ch with
          | false =>
              obtain ⟨token, others, rest, rfl, atStart, spelled, split, munched, inner⟩ :=
                segments.first white
              have shorter : rest.length < (ch :: chars).length := by
                have positive := List.length_pos_iff.mpr spelled.nonempty
                rw [split, List.length_append]
                omega
              rw [split]
              exact .token atStart spelled munched (ih _ shorter inner rfl)
          | true =>
              obtain ⟨notDigit, notSymbol⟩ := apart.of_white white
              obtain ⟨-, inner⟩ := segments.of_space notDigit notSymbol
              exact .space notDigit notSymbol white (ih _ (Nat.lt_succ_self _) inner rfl)

theorem segments_iff_scans (apart : Apart isWhitespace) :
    Segments isWhitespace start chars tokens ↔ Scans isWhitespace start chars tokens [] :=
  ⟨Segments.scans apart, fun scans => scans.segments rfl⟩

/-!
## Segmentations of a text
-/

/-- A byte offset between two characters or at an end of the text. -/
def Boundary (text : String) (place : Nat) : Prop :=
  ∃ before after, text.toList = before ++ after ∧ byteLength before = place

structure Segmentation (isWhitespace : Char → Bool) (text : String) (tokens : List Token) :
    Prop where
  ordered : tokens.Pairwise fun earlier later =>
    earlier.offset < later.offset ∧ earlier.stop ≤ later.offset
  boundaries : ∀ token ∈ tokens, Boundary text token.offset ∧ Boundary text token.stop
  sliced : ∀ token ∈ tokens, slice text token.offset token.stop = token.lexeme
  spelled : ∀ token ∈ tokens, Spelled token
  -- A byte outside the tokens belongs to a whitespace character.
  gaps : ∀ before ch after byte, text.toList = before ++ ch :: after →
    byteLength before ≤ byte → byte < byteLength before + ch.utf8Size →
    (∀ token ∈ tokens, ¬(token.offset ≤ byte ∧ byte < token.stop)) → isWhitespace ch = true
  -- No digit stands right before a number or right after it.
  maximal : ∀ token ∈ tokens, token.kind = .number → ∀ before ch after,
    text.toList = before ++ ch :: after →
    byteLength before + ch.utf8Size = token.offset ∨ byteLength before = token.stop →
    ch.isDigit = false

theorem placed_of_sliced {text : String} {token : Token}
    (bounds : Boundary text token.offset ∧ Boundary text token.stop)
    (sliced : slice text token.offset token.stop = token.lexeme) :
    ∃ before after, Placed 0 text.toList token before after := by
  obtain ⟨⟨before, rest, split, place⟩, upTo, after, cut, stop⟩ := bounds
  have ordered : byteLength before ≤ byteLength upTo := by
    rw [place, stop, Token.stop]
    omega
  obtain ⟨run, rfl, rfl⟩ := split_of_byteLength_le (split.symm.trans cut) ordered
  rw [byteLength_append] at stop
  rw [← place, ← stop, slice_eq split] at sliced
  refine ⟨before, after, ?_, by omega⟩
  rw [← sliced, String.toList_ofList, split]

theorem Segmentation.segments {text : String}
    (segmentation : Segmentation isWhitespace text tokens) :
    Segments isWhitespace 0 text.toList tokens := by
  refine ⟨segmentation.ordered.imp And.right, fun token member => ?_, segmentation.spelled, ?_, ?_⟩
  · exact placed_of_sliced (segmentation.boundaries token member)
      (segmentation.sliced token member)
  · intro before ch after split dark
    by_contra uncovered
    have positive := ch.utf8Size_pos
    have white := segmentation.gaps before ch after (byteLength before) split (Nat.le_refl _)
      (by omega) fun token member covers =>
        uncovered ⟨token, member, by omega, by omega⟩
    exact absurd (dark.symm.trans white) Bool.false_ne_true
  · intro token member isNumber before after placed
    have place := placed.place
    constructor
    · intro ch last
      obtain ⟨front, rfl⟩ := List.getLast?_eq_some_iff.mp last
      refine segmentation.maximal token member isNumber front ch (token.lexeme.toList ++ after)
        (by simpa using placed.split) (.inl ?_)
      simp only [byteLength_append, byteLength_cons, byteLength_nil] at place
      omega
    · cases after with
      | nil => trivial
      | cons ch after =>
          refine segmentation.maximal token member isNumber (before ++ token.lexeme.toList) ch after
            (by simpa using placed.split) (.inr ?_)
          rw [byteLength_append, Token.stop]
          omega

theorem Segments.segmentation {text : String}
    (segments : Segments isWhitespace 0 text.toList tokens) :
    Segmentation isWhitespace text tokens := by
  refine ⟨?_, ?_, ?_, segments.spelled, ?_, ?_⟩
  · refine segments.ordered.imp_of_mem fun {earlier later} member _ ordered => ⟨?_, ordered⟩
    have shorter := (segments.spelled earlier member).offset_lt_stop
    omega
  · intro token member
    obtain ⟨before, after, placed⟩ := segments.placed token member
    have place := placed.place
    refine ⟨⟨before, _, placed.split, by omega⟩, before ++ token.lexeme.toList, after,
      by simpa using placed.split, ?_⟩
    rw [byteLength_append, Token.stop]
    omega
  · intro token member
    obtain ⟨before, after, placed⟩ := segments.placed token member
    rw [Token.stop, placed.place, Nat.zero_add, slice_eq placed.split, String.ofList_toList]
  · intro before ch after byte split begins ends uncovered
    by_contra dark
    obtain ⟨token, member, reaches, covers⟩ :=
      segments.gaps before ch after split (by simpa using dark)
    obtain ⟨left, right, placed⟩ := segments.placed token member
    have place := placed.place
    have stops : token.stop = byteLength (left ++ token.lexeme.toList) := by
      rw [byteLength_append, Token.stop]
      omega
    have cut : text.toList = (left ++ token.lexeme.toList) ++ right := by
      simpa using placed.split
    obtain ⟨between, isLeft, same⟩ := split_of_byteLength_le (split.symm.trans cut) (by omega)
    rw [isLeft, byteLength_append] at stops
    cases between with
    | nil =>
        rw [byteLength_nil] at stops
        omega
    | cons other between =>
        cases same
        rw [byteLength_cons] at stops
        exact uncovered token member ⟨by omega, by omega⟩
  · intro token member isNumber before ch after split touches
    obtain ⟨left, right, placed⟩ := segments.placed token member
    obtain ⟨ends, begins⟩ := segments.maximal token member isNumber left right placed
    have place := placed.place
    rcases touches with precedes | follows
    · have cut : text.toList = (before ++ [ch]) ++ after := by simpa using split
      obtain ⟨isLeft, -⟩ := split_of_byteLength_eq (cut.symm.trans placed.split)
        (by rw [byteLength_append, byteLength_cons, byteLength_nil]; omega)
      exact ends ch (by simp [← isLeft])
    · have cut : text.toList = (left ++ token.lexeme.toList) ++ right := by
        simpa using placed.split
      obtain ⟨-, same⟩ := split_of_byteLength_eq (cut.symm.trans split)
        (by rw [byteLength_append, follows, Token.stop]; omega)
      subst same
      exact begins

/-!
## Texts that scan, and the first character that stops a scan
-/

theorem scans_of_admitted (admitted : ∀ ch ∈ chars, Admitted isWhitespace ch) (start : Nat) :
    ∃ tokens, Scans isWhitespace start chars tokens [] := by
  induction size : chars.length using Nat.strongRecOn generalizing start chars with
  | ind length ih =>
      subst size
      rcases digits_or_char chars with rfl | ⟨run, rest, rfl, digits, ends⟩ |
        ⟨ch, rest, rfl, notDigit⟩
      · exact ⟨[], .done⟩
      · have shorter : rest.length < (run ++ rest).length := by
          have positive := List.length_pos_iff.mpr digits.1
          rw [List.length_append]
          omega
        obtain ⟨tokens, scans⟩ := ih _ shorter
          (fun ch member => admitted ch (List.mem_append_right _ member)) _ rfl
        exact ⟨_, .number digits ends scans⟩
      · obtain ⟨tokens, scans⟩ := ih _ (Nat.lt_succ_self _)
          (fun other member => admitted other (List.mem_cons_of_mem _ member))
          (start + ch.utf8Size) rfl
        cases symbol : singleCharKind ch with
        | some kind => exact ⟨_, .symbol symbol scans⟩
        | none =>
            have white : isWhitespace ch = true := by
              simpa [Admitted, notDigit, singleCharKind_eq_none_iff.mp symbol] using
                admitted ch List.mem_cons_self
            exact ⟨_, .space notDigit symbol white scans⟩

theorem Scans.admitted {rest : List Char} (scans : Scans isWhitespace start chars tokens rest)
    (finished : rest = []) : ∀ ch ∈ chars, Admitted isWhitespace ch := by
  induction scans with
  | done =>
      subst finished
      exact nofun
  | space _ _ white _ ih => exact List.forall_mem_cons.mpr ⟨.inr (.inr white), ih finished⟩
  | symbol symbol _ ih =>
      have isSymbol := singleCharKind_eq_some_iff.mp symbol
      exact List.forall_mem_cons.mpr ⟨.inr (.inl ⟨_, isSymbol⟩), ih finished⟩
  | number digits _ _ ih =>
      intro ch member
      rcases List.mem_append.mp member with inRun | beyond
      · exact .inl (digits.2 ch inRun)
      · exact ih finished ch beyond

theorem scan_first_stray {text : String} {ch : Char} {after : List Char}
    (stray : ¬Admitted isWhitespace ch) {before : List Char}
    (admitted : ∀ earlier ∈ before, Admitted isWhitespace earlier) :
    ∀ done, text.toList = done ++ (before ++ ch :: after) →
      scan isWhitespace text (charIndices (byteLength done) (before ++ ch :: after)) =
        .error ⟨byteLength done + byteLength before, ch⟩ := by
  simp only [Admitted, not_or, Bool.not_eq_true] at stray
  obtain ⟨notDigit, notSymbol, dark⟩ := stray
  induction size : before.length using Nat.strongRecOn generalizing before with
  | ind length ih =>
      subst size
      intro done split
      rcases digits_or_char before with rfl | ⟨run, rest, rfl, digits, ends⟩ |
        ⟨first, rest, rfl, otherwise⟩
      · exact scan_stray notDigit (singleCharKind_eq_none_iff.mpr notSymbol) dark
      · have shorter : rest.length < (run ++ rest).length := by
          have positive := List.length_pos_iff.mpr digits.1
          rw [List.length_append]
          omega
        have border : StartsNoDigit (rest ++ ch :: after) := ends.append fun _ => notDigit
        have goesOn := ih _ shorter
          (fun other member => admitted other (List.mem_append_right _ member)) rfl
          (done ++ run) (by simpa using split)
        rw [List.append_assoc] at split ⊢
        rw [scan_number digits border split, ← byteLength_append, goesOn]
        simp only [Except.map, byteLength_append, Nat.add_assoc]
      · have goesOn := ih _ (Nat.lt_succ_self _)
          (fun other member => admitted other (List.mem_cons_of_mem _ member)) rfl
          (done ++ [first]) (by simpa using split)
        simp only [byteLength_append, byteLength_cons, byteLength_nil, Nat.add_zero] at goesOn
        cases symbol : singleCharKind first with
        | some kind =>
            rw [List.cons_append, scan_symbol symbol, goesOn]
            simp only [Except.map, byteLength_cons, Nat.add_assoc]
        | none =>
            have white : isWhitespace first = true := by
              simpa [Admitted, otherwise, singleCharKind_eq_none_iff.mp symbol] using
                admitted first List.mem_cons_self
            rw [List.cons_append, scan_space otherwise symbol white, goesOn]
            simp only [byteLength_cons, Nat.add_assoc]

theorem exists_first_stray (stray : ¬∀ ch ∈ chars, Admitted isWhitespace ch) :
    ∃ before ch after, chars = before ++ ch :: after ∧
      (∀ earlier ∈ before, Admitted isWhitespace earlier) ∧ ¬Admitted isWhitespace ch := by
  induction chars with
  | nil => exact absurd (fun ch member => by cases member) stray
  | cons first chars ih =>
      by_cases admitted : Admitted isWhitespace first
      · obtain ⟨before, ch, after, rfl, earlier, stops⟩ := ih fun all =>
          stray (List.forall_mem_cons.mpr ⟨admitted, all⟩)
        exact ⟨first :: before, ch, after, rfl, List.forall_mem_cons.mpr ⟨admitted, earlier⟩, stops⟩
      · refine ⟨[], first, chars, rfl, ?_, admitted⟩
        intro earlier member
        cases member

/-- A lexical error names the first character that is not admitted. -/
theorem tokenizeWith_error_iff {text : String} {error : LexError} :
    tokenizeWith isWhitespace text = .error error ↔
      ∃ before after, text.toList = before ++ error.character :: after ∧
        (∀ earlier ∈ before, Admitted isWhitespace earlier) ∧
        ¬Admitted isWhitespace error.character ∧ error.offset = byteLength before := by
  have stops : ∀ {before ch after}, text.toList = before ++ ch :: after →
      (∀ earlier ∈ before, Admitted isWhitespace earlier) → ¬Admitted isWhitespace ch →
      tokenizeWith isWhitespace text = .error ⟨byteLength before, ch⟩ := by
    intro before ch after split admitted stray
    have failed := scan_first_stray stray admitted [] split
    rw [tokenizeWith, split]
    simpa using failed
  constructor
  · intro failed
    have stray : ¬∀ ch ∈ text.toList, Admitted isWhitespace ch := by
      intro admitted
      obtain ⟨tokens, scans⟩ := scans_of_admitted admitted 0
      cases (tokenizeWith_ok_iff.mpr scans).symm.trans failed
    obtain ⟨before, ch, after, split, admitted, stray⟩ := exists_first_stray stray
    cases failed.symm.trans (stops split admitted stray)
    exact ⟨before, after, split, admitted, stray, rfl⟩
  · rintro ⟨before, after, split, admitted, stray, place⟩
    rw [stops split admitted stray, ← place]

theorem tokenizeWith_exact (apart : Apart isWhitespace) (text : String) :
    ((∀ ch ∈ text.toList, Admitted isWhitespace ch) →
      ∃ tokens, tokenizeWith isWhitespace text = .ok tokens ∧
        Segmentation isWhitespace text tokens ∧
        ∀ others, Segmentation isWhitespace text others → others = tokens) ∧
    ((¬∀ ch ∈ text.toList, Admitted isWhitespace ch) →
      ∃ before ch after, text.toList = before ++ ch :: after ∧
        (∀ earlier ∈ before, Admitted isWhitespace earlier) ∧ ¬Admitted isWhitespace ch ∧
        tokenizeWith isWhitespace text = .error ⟨byteLength before, ch⟩) := by
  constructor
  · intro admitted
    obtain ⟨tokens, scans⟩ := scans_of_admitted admitted 0
    have scanned := tokenizeWith_ok_iff.mpr scans
    refine ⟨tokens, scanned, ((segments_iff_scans apart).mpr scans).segmentation,
      fun others segmentation => ?_⟩
    have rescanned :=
      tokenizeWith_ok_iff.mpr ((segments_iff_scans apart).mp segmentation.segments)
    rw [scanned] at rescanned
    cases rescanned
    rfl
  · intro stray
    obtain ⟨before, ch, after, split, admitted, stops⟩ := exists_first_stray stray
    exact ⟨before, ch, after, split, admitted, stops,
      tokenizeWith_error_iff.mpr ⟨before, after, split, admitted, stops, rfl⟩⟩

theorem apart_isWhitespace : Apart Proofhouse.isWhitespace := by
  constructor
  · intro ch digit
    have range : 48 ≤ ch.toNat ∧ ch.toNat ≤ 57 := by
      simpa [Char.isDigit, UInt32.le_iff_toNat_le] using digit
    simp only [Proofhouse.isWhitespace, Bool.or_eq_false_iff, Bool.and_eq_false_iff,
      decide_eq_false_iff_not, beq_eq_false_iff_ne]
    omega
  · intro ch kind symbol
    cases symbol <;> rfl

/-- All six symbols, digit runs, and spaces of three bytes and of two. -/
theorem tokenizeWith_exact_wide_space :
    Segmentation Proofhouse.isWhitespace "(7\u3000*42)/-0+\u00a01"
      [⟨.lParen, "(", 0⟩, ⟨.number, "7", 1⟩, ⟨.star, "*", 5⟩, ⟨.number, "42", 6⟩,
        ⟨.rParen, ")", 8⟩, ⟨.slash, "/", 9⟩, ⟨.minus, "-", 10⟩, ⟨.number, "0", 11⟩,
        ⟨.plus, "+", 12⟩, ⟨.number, "1", 15⟩] ∧
    ∃ before after, "+\u3000$*".toList = before ++ '$' :: after ∧ byteLength before = 4 ∧
      (∀ earlier ∈ before, Admitted Proofhouse.isWhitespace earlier) ∧
      ¬Admitted Proofhouse.isWhitespace '$' := by
  constructor
  · obtain ⟨segmented, -⟩ := tokenizeWith_exact apart_isWhitespace "(7\u3000*42)/-0+\u00a01"
    obtain ⟨tokens, scanned, segmentation, -⟩ := segmented (by decide +kernel)
    have read : tokenizeWith Proofhouse.isWhitespace "(7\u3000*42)/-0+\u00a01" =
        .ok [⟨.lParen, "(", 0⟩, ⟨.number, "7", 1⟩, ⟨.star, "*", 5⟩, ⟨.number, "42", 6⟩,
          ⟨.rParen, ")", 8⟩, ⟨.slash, "/", 9⟩, ⟨.minus, "-", 10⟩, ⟨.number, "0", 11⟩,
          ⟨.plus, "+", 12⟩, ⟨.number, "1", 15⟩] := by decide +kernel
    cases scanned.symm.trans read
    exact segmentation
  · obtain ⟨-, stops⟩ := tokenizeWith_exact apart_isWhitespace "+\u3000$*"
    obtain ⟨before, ch, after, split, admitted, stray, failed⟩ := stops (by decide +kernel)
    have read : tokenizeWith Proofhouse.isWhitespace "+\u3000$*" = .error ⟨4, '$'⟩ := by
      decide +kernel
    obtain ⟨place, rfl⟩ := LexError.mk.inj (Except.error.inj (failed.symm.trans read))
    exact ⟨before, after, split, place, admitted, stray⟩

end Lexer

/-- The texts that scan are those of characters the lexer admits. -/
theorem tokenize_ok_iff_admitted {text : String} :
    (∃ tokens, tokenize text = .ok tokens) ↔
      ∀ ch ∈ text.toList, Lexer.Admitted isWhitespace ch := by
  constructor
  · rintro ⟨tokens, scanned⟩
    exact (Lexer.tokenizeWith_ok_iff.mp scanned).admitted rfl
  · intro admitted
    obtain ⟨tokens, scans⟩ := Lexer.scans_of_admitted admitted 0
    exact ⟨tokens, Lexer.tokenizeWith_ok_iff.mpr scans⟩

end Proofhouse
