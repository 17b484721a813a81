import Proofhouse.LexerProperties
import Proofhouse.ParserClimbing

/-!
# The documented grammar

The stratified grammar of expressions, with left-recursive sums and products.
On the token runs the lexer produces, its phrases are those of the operator
grammar the parser climbs.
-/

set_option autoImplicit false

namespace Proofhouse

open Library

inductive Stratum where
  | expr
  | term
  | factor

/-- `Spells stratum tokens expr`: the grammar assigns the tree `expr` to the
whole run. Parentheses leave no node of their own. -/
inductive Spells : Stratum → List Token → Expr → Prop where
  | exprTerm {tokens expr} : Spells .term tokens expr → Spells .expr tokens expr
  | plus {token left right leftExpr rightExpr} : token.kind = .plus →
      Spells .expr left leftExpr → Spells .term right rightExpr →
      Spells .expr (left ++ token :: right) (.binaryOp .add leftExpr rightExpr)
  | minus {token left right leftExpr rightExpr} : token.kind = .minus →
      Spells .expr left leftExpr → Spells .term right rightExpr →
      Spells .expr (left ++ token :: right) (.binaryOp .sub leftExpr rightExpr)
  | termFactor {tokens expr} : Spells .factor tokens expr → Spells .term tokens expr
  | star {token left right leftExpr rightExpr} : token.kind = .star →
      Spells .term left leftExpr → Spells .factor right rightExpr →
      Spells .term (left ++ token :: right) (.binaryOp .mul leftExpr rightExpr)
  | slash {token left right leftExpr rightExpr} : token.kind = .slash →
      Spells .term left leftExpr → Spells .factor right rightExpr →
      Spells .term (left ++ token :: right) (.binaryOp .div leftExpr rightExpr)
  | number {token} {value : I64} : token.kind = .number →
      decimalValue token.lexeme.toList ≤ 9223372036854775807 →
      value.value = decimalValue token.lexeme.toList →
      Spells .factor [token] (.number value)
  | negation {token tokens expr} : token.kind = .minus → Spells .factor tokens expr →
      Spells .factor (token :: tokens) (.unaryOp .neg expr)
  | parentheses {opening closing tokens expr} : opening.kind = .lParen →
      Spells .expr tokens expr → closing.kind = .rParen →
      Spells .factor (opening :: (tokens ++ [closing])) expr

/-- Number tokens hold digit runs, as the lexer hands them over. -/
def DigitLexemes (tokens : List Token) : Prop :=
  ∀ token ∈ tokens, token.kind = .number → DigitRun token.lexeme.toList

theorem digitLexemes_append {left right : List Token} :
    DigitLexemes (left ++ right) ↔ DigitLexemes left ∧ DigitLexemes right := by
  simp only [DigitLexemes, List.mem_append]
  constructor
  · intro both
    exact ⟨fun token member => both token (.inl member),
      fun token member => both token (.inr member)⟩
  · rintro ⟨inLeft, inRight⟩ token (member | member)
    · exact inLeft token member
    · exact inRight token member

theorem digitLexemes_cons {token : Token} {tokens : List Token} :
    DigitLexemes (token :: tokens) ↔
      (token.kind = .number → DigitRun token.lexeme.toList) ∧ DigitLexemes tokens := by
  simp [DigitLexemes]

theorem Lexer.Scans.digitLexemes {isWhitespace : Char → Bool} {offset : Nat}
    {chars rest : List Char} {tokens : List Token}
    (scans : Lexer.Scans isWhitespace offset chars tokens rest) : DigitLexemes tokens := by
  induction scans with
  | done => intro token member; cases member
  | space _ _ _ _ ih => exact ih
  | @symbol offset ch kind chars tokens rest symbol _ ih =>
      refine digitLexemes_cons.mpr ⟨?_, ih⟩
      intro isNumber
      exact absurd (isNumber ▸ symbol) (singleCharKind_ne_number ch)
  | number digits _ _ ih =>
      refine digitLexemes_cons.mpr ⟨fun _ => ?_, ih⟩
      simpa using digits

/-- On a digit run the type is the only bound on what a literal may be. -/
theorem readLiteral_eq_some_iff {lexeme : String} (digits : DigitRun lexeme.toList)
    {expr : Expr} :
    readLiteral lexeme = some expr ↔
      ∃ value : I64, decimalValue lexeme.toList ≤ 9223372036854775807 ∧
        value.value = decimalValue lexeme.toList ∧ expr = .number value := by
  simp only [readLiteral, I64.parse?_of_digitRun digits, Option.map_eq_some_iff,
    BoundedInteger.ofInt?_eq_some_iff]
  constructor
  · intro read
    obtain ⟨value, same, rfl⟩ := read
    have upper := value.le_greatest
    exact ⟨value, by omega, same, rfl⟩
  · intro read
    obtain ⟨value, _, same, rfl⟩ := read
    exact ⟨value, same, rfl⟩

theorem exprGrammar_opening_number {token : Token} {expr : Expr} (kind : token.kind = .number) :
    exprGrammar.opening token = .literal expr ↔ readLiteral token.lexeme = some expr := by
  simp only [exprGrammar, tokenGrammar, openingWith, kind]
  cases readLiteral token.lexeme <;> simp

def Stratum.phrase : Stratum → Phrase
  | .expr => .chain additive
  | .term => .chain multiplicative
  | .factor => .operand

theorem Spells.derives {stratum : Stratum} {tokens : List Token} {expr : Expr}
    (spells : Spells stratum tokens expr) (lexemes : DigitLexemes tokens) :
    exprGrammar.Derives stratum.phrase tokens expr := by
  induction spells with
  | exprTerm _ ih => exact (ih lexemes).loosen (by decide)
  | termFactor _ ih => exact .operand (ih lexemes)
  | plus kind _ _ leftIH rightIH | minus kind _ _ leftIH rightIH =>
      obtain ⟨inLeft, inRight⟩ := digitLexemes_append.mp lexemes
      refine .join ?_ (Nat.le_refl _) (leftIH inLeft) (rightIH (digitLexemes_cons.mp inRight).2)
      simp [exprGrammar, tokenGrammar, infixOperator, kind]
  | star kind _ _ leftIH rightIH | slash kind _ _ leftIH rightIH =>
      obtain ⟨inLeft, inRight⟩ := digitLexemes_append.mp lexemes
      refine .join ?_ (Nat.le_refl _) (leftIH inLeft)
        (.operand (rightIH (digitLexemes_cons.mp inRight).2))
      simp [exprGrammar, tokenGrammar, infixOperator, kind]
  | number kind bounded same =>
      have digits := (digitLexemes_cons.mp lexemes).1 kind
      exact .literal ((exprGrammar_opening_number kind).mpr
        ((readLiteral_eq_some_iff digits).mpr ⟨_, bounded, same, rfl⟩))
  | negation kind _ ih =>
      refine .prefixed ?_ (ih (digitLexemes_cons.mp lexemes).2)
      simp [exprGrammar, tokenGrammar, openingWith, kind]
  | parentheses opens _ closes ih =>
      have inner := (digitLexemes_append.mp (digitLexemes_cons.mp lexemes).2).1
      refine .bracket ?_ (ih inner) ?_
      · simp [exprGrammar, tokenGrammar, openingWith, opens]
      · simp [exprGrammar, tokenGrammar, closes]

private def stratumOf : Phrase → Stratum
  | .operand => .factor
  | .chain 0 | .chain 1 => .expr
  | .chain 2 => .term
  | .chain _ => .factor

private theorem Spells.loosen {tokens : List Token} {expr : Expr} (level : Nat)
    (spells : Spells .factor tokens expr) : Spells (stratumOf (.chain level)) tokens expr := by
  match level with
  | 0 | 1 => exact .exprTerm (.termFactor spells)
  | 2 => exact .termFactor spells
  | _ + 3 => exact spells

private theorem spells_of_derives {phrase : Phrase} {tokens : List Token} {expr : Expr}
    (derived : exprGrammar.Derives phrase tokens expr) (lexemes : DigitLexemes tokens) :
    Spells (stratumOf phrase) tokens expr := by
  induction derived with
  | @literal token value opens =>
      have digits := (digitLexemes_cons.mp lexemes).1
      cases kind : token.kind with
      | number =>
          rw [exprGrammar_opening_number kind, readLiteral_eq_some_iff (digits kind)] at opens
          obtain ⟨value, bounded, same, rfl⟩ := opens
          exact .number kind bounded same
      | plus | minus | star | slash | lParen | rParen =>
          simp [exprGrammar, tokenGrammar, openingWith, kind] at opens
  | @prefixed token apply tokens value opens _ ih =>
      have inner := ih (digitLexemes_cons.mp lexemes).2
      cases kind : token.kind with
      | minus =>
          simp only [exprGrammar, tokenGrammar, openingWith, kind, Opening.prefixed.injEq] at opens
          subst opens
          exact .negation kind inner
      | number =>
          simp only [exprGrammar, tokenGrammar, openingWith, kind] at opens
          split at opens <;> cases opens
      | plus | star | slash | lParen | rParen =>
          simp [exprGrammar, tokenGrammar, openingWith, kind] at opens
  | @bracket token tokens value closer opens _ closes ih =>
      have inner := ih (digitLexemes_append.mp (digitLexemes_cons.mp lexemes).2).1
      have closing : closer.kind = .rParen := by
        simpa [exprGrammar, tokenGrammar] using closes
      cases kind : token.kind with
      | lParen => exact .parentheses kind inner closing
      | number =>
          simp only [exprGrammar, tokenGrammar, openingWith, kind] at opens
          split at opens <;> cases opens
      | plus | minus | star | slash | rParen =>
          simp [exprGrammar, tokenGrammar, openingWith, kind] at opens
  | @operand level _ _ _ ih => exact (ih lexemes).loosen level
  | @join level own token combine left right _ _ operator reaches _ _ leftIH rightIH =>
      obtain ⟨inLeft, inRight⟩ := digitLexemes_append.mp lexemes
      have onLeft := leftIH inLeft
      have onRight := rightIH (digitLexemes_cons.mp inRight).2
      simp only [exprGrammar, tokenGrammar, Option.map_eq_some_iff, Prod.mk.injEq] at operator
      obtain ⟨⟨op, precedence⟩, found, rfl, rfl⟩ := operator
      have sums : ∀ {expr}, Spells .expr (left ++ token :: right) expr → precedence = 1 →
          Spells (stratumOf (.chain level)) (left ++ token :: right) expr := by
        intro expr spells isSum
        subst isSum
        match level, reaches with
        | 0, _ | 1, _ => exact spells
      have products : ∀ {expr}, Spells .term (left ++ token :: right) expr → precedence = 2 →
          Spells (stratumOf (.chain level)) (left ++ token :: right) expr := by
        intro expr spells isProduct
        subst isProduct
        match level, reaches with
        | 0, _ | 1, _ => exact .exprTerm spells
        | 2, _ => exact spells
      cases kind : token.kind with
      | plus => rw [kind] at found; cases found; exact sums (.plus kind onLeft onRight) rfl
      | minus => rw [kind] at found; cases found; exact sums (.minus kind onLeft onRight) rfl
      | star => rw [kind] at found; cases found; exact products (.star kind onLeft onRight) rfl
      | slash => rw [kind] at found; cases found; exact products (.slash kind onLeft onRight) rfl
      | number | lParen | rParen => rw [kind] at found; cases found

theorem spells_iff_derives {tokens : List Token} {expr : Expr}
    (lexemes : DigitLexemes tokens) :
    Spells .expr tokens expr ↔ exprGrammar.Derives (.chain additive) tokens expr :=
  ⟨fun spells => spells.derives lexemes, fun derived => spells_of_derives derived lexemes⟩

/-- `parse` accepts the documented grammar, nothing more and nothing less, and
returns the tree that grammar assigns. -/
theorem parse_eq_ok_iff_spells (text : String) (expr : Expr) :
    parse text = .ok expr ↔
      ∃ tokens, tokenize text = .ok tokens ∧ Spells .expr tokens expr := by
  rw [parse_ok_iff]
  constructor
  · intro accepted
    obtain ⟨tokens, scanned, derived⟩ := accepted
    have lexemes := (tokenize_ok_iff.mp scanned).digitLexemes
    exact ⟨tokens, scanned, (spells_iff_derives lexemes).mpr derived⟩
  · intro spelled
    obtain ⟨tokens, scanned, spells⟩ := spelled
    have lexemes := (tokenize_ok_iff.mp scanned).digitLexemes
    exact ⟨tokens, scanned, (spells_iff_derives lexemes).mp spells⟩

end Proofhouse
