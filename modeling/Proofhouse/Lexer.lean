import Mathlib.Algebra.GroupWithZero.Nat
import Proofhouse.Errors
import Proofhouse.Tokens

/-!
# Lexer

The scan of a text into tokens, over its characters and their byte offsets.
-/

set_option autoImplicit false

namespace Proofhouse

/-- `char::is_whitespace`: the Unicode `White_Space` property. -/
def isWhitespace (ch : Char) : Bool :=
  let code := ch.toNat
  (0x09 ≤ code && code ≤ 0x0d) || code == 0x20 || code == 0x85 || code == 0xa0 ||
    code == 0x1680 || (0x2000 ≤ code && code ≤ 0x200a) || code == 0x2028 ||
    code == 0x2029 || code == 0x202f || code == 0x205f || code == 0x3000

namespace Lexer

/-- The characters with their byte offsets, the first at `start`. -/
def charIndices (start : Nat) : List Char → List (Nat × Char)
  | [] => []
  | ch :: chars => (start, ch) :: charIndices (start + ch.utf8Size) chars

/-- `text[start..stop]`: the characters that begin within the byte range. -/
def slice (text : String) (start stop : Nat) : String :=
  String.ofList (((charIndices 0 text.toList).filter fun entry =>
    decide (start ≤ entry.1) && decide (entry.1 < stop)).map Prod.snd)

def singleCharKind : Char → Option TokenKind
  | '+' => some .plus
  | '-' => some .minus
  | '*' => some .star
  | '/' => some .slash
  | '(' => some .lParen
  | ')' => some .rParen
  | _ => none

/-- The inner loop over the digits that continue a number: where the run ends,
and the characters after it. -/
def digitRun (stop : Nat) : List (Nat × Char) → Nat × List (Nat × Char)
  | [] => (stop, [])
  | (idx, digit) :: chars =>
      if digit.isDigit then digitRun (idx + digit.utf8Size) chars
      else (stop, (idx, digit) :: chars)

theorem digitRun_length_le (stop : Nat) (chars : List (Nat × Char)) :
    (digitRun stop chars).2.length ≤ chars.length := by
  induction chars generalizing stop with
  | nil => simp [digitRun]
  | cons entry chars ih =>
      obtain ⟨idx, digit⟩ := entry
      simp only [digitRun]
      split
      · exact Nat.le_trans (ih _) (Nat.le_succ _)
      · exact Nat.le_refl _

/-- The outer loop of `tokenize` over the characters still unread. A token goes
in front of those of the characters after it. -/
def scan (isWhitespace : Char → Bool) (text : String) :
    List (Nat × Char) → Except LexError (List Token)
  | [] => .ok []
  | (offset, ch) :: chars =>
      if ch.isDigit then do
        let run := digitRun (offset + ch.utf8Size) chars
        let tokens ← scan isWhitespace text run.2
        return ⟨.number, slice text offset run.1, offset⟩ :: tokens
      else
        match singleCharKind ch with
        | some kind => do
            let tokens ← scan isWhitespace text chars
            return ⟨kind, ch.toString, offset⟩ :: tokens
        | none =>
            if isWhitespace ch then scan isWhitespace text chars
            else .error ⟨offset, ch⟩
termination_by chars => chars.length
decreasing_by
  · exact Nat.lt_succ_of_le (digitRun_length_le _ _)
  · exact Nat.lt_succ_self _
  · exact Nat.lt_succ_self _

/-- `tokenize` over any predicate in the place of `char::is_whitespace`. -/
def tokenizeWith (isWhitespace : Char → Bool) (text : String) :
    Except LexError (List Token) :=
  scan isWhitespace text (charIndices 0 text.toList)

end Lexer

def tokenize (text : String) : Except LexError (List Token) :=
  Lexer.tokenizeWith isWhitespace text

end Proofhouse
