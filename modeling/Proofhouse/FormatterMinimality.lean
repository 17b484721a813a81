import Proofhouse.FormatterRoundTrip
import Proofhouse.Library.Brackets

/-!
# Renderings have no parentheses to spare

Every text that spells a tree is the rendering of that tree with matched pairs
of parentheses added, so no text spells it with fewer.
-/

set_option autoImplicit false

namespace Proofhouse

open Library Formatter

/-- A token as texts are compared by: its kind, and a number by its value. -/
abbrev Symbol := TokenKind × Option Nat

def faceSymbol (face : TokenKind × String) : Symbol :=
  (face.1, if face.1 = .number then some (decimalValue face.2.toList) else none)

def Token.symbol (token : Token) : Symbol :=
  faceSymbol token.face

def openSymbol : Symbol := (.lParen, none)

def closeSymbol : Symbol := (.rParen, none)

/-- Deleting matched pairs of parentheses and nothing else. -/
abbrev StripsTo (symbols rest : List Symbol) : Prop :=
  Strips openSymbol closeSymbol symbols rest

abbrev Matched (symbols : List Symbol) : Prop :=
  Balanced openSymbol closeSymbol symbols

def operatorSymbol (op : BinaryOperator) : Symbol := (operatorKind op, none)

def Stratum.floor : Stratum → Nat
  | .expr => Formatter.additive
  | .term => Formatter.multiplicative
  | .factor => unary

/-- The symbols of a rendering where the grammar asks for a stratum. -/
def rendered (floor : Nat) (expr : Expr) : List Symbol :=
  (guardedFaces expr (faces expr) floor).map faceSymbol

theorem rendered_of_loose {expr : Expr} {floor : Nat} (loose : bindingPower expr < floor) :
    rendered floor expr = openSymbol :: ((faces expr).map faceSymbol ++ [closeSymbol]) := by
  rw [rendered, guardedFaces, if_pos loose, List.map_cons, List.map_append]
  rfl

theorem rendered_of_tight {expr : Expr} {floor : Nat} (tight : floor ≤ bindingPower expr) :
    rendered floor expr = (faces expr).map faceSymbol := by
  rw [rendered, guardedFaces, if_neg (Nat.not_lt.mpr tight)]

theorem additive_le_bindingPower (expr : Expr) : Formatter.additive ≤ bindingPower expr := by
  cases expr with
  | number | unaryOp => simp [bindingPower, Formatter.additive, atom, unary]
  | binaryOp op => exact additive_le_infixPowers op

theorem rendered_binaryOp {op : BinaryOperator} {left right : Expr} {floor : Nat}
    (tight : floor ≤ (infixPowers op).1) :
    rendered floor (.binaryOp op left right) =
      rendered (infixPowers op).1 left ++ operatorSymbol op ::
        rendered (infixPowers op).2 right := by
  rw [rendered_of_tight tight, faces, List.map_append, List.map_cons]
  cases op <;> rfl

theorem rendered_neg (operand : Expr) :
    rendered unary (.unaryOp .neg operand) = (.minus, none) :: rendered unary operand := by
  have tight : unary ≤ bindingPower (.unaryOp .neg operand) := Nat.le_refl _
  rw [rendered_of_tight tight]
  rfl

theorem faceSymbol_ne {kind : TokenKind} {lexeme : String} {symbol : Symbol}
    (other : kind ≠ symbol.1) : faceSymbol (kind, lexeme) ≠ symbol :=
  fun same => other (congrArg Prod.fst same)

theorem matched_rendered {expr : Expr} (own : Matched ((faces expr).map faceSymbol))
    (floor : Nat) : Matched (rendered floor expr) := by
  by_cases loose : bindingPower expr < floor
  · rw [rendered_of_loose loose]
    exact .bracketed own
  · rwa [rendered_of_tight (Nat.le_of_not_lt loose)]

theorem matched_faces (expr : Expr) : Matched ((faces expr).map faceSymbol) := by
  induction expr with
  | number value =>
      have digits : Matched [faceSymbol (.number, toString value.value.natAbs)] :=
        .plain (faceSymbol_ne (by decide)) (faceSymbol_ne (by decide))
      rw [faces, literalFaces]
      split
      · exact digits.cons (faceSymbol_ne (by decide)) (faceSymbol_ne (by decide))
      · exact digits
  | unaryOp op operand ih =>
      cases op
      rw [faces, List.map_cons]
      exact (matched_rendered ih unary).cons (faceSymbol_ne (by decide))
        (faceSymbol_ne (by decide))
  | binaryOp op left right leftIH rightIH =>
      rw [faces, List.map_append, List.map_cons]
      refine .append (matched_rendered leftIH _) ((matched_rendered rightIH _).cons
        (faceSymbol_ne ?_) (faceSymbol_ne ?_))
      · cases op <;> decide
      · cases op <;> decide

/-- A looser position may drop the parentheses of a tighter one. -/
theorem strips_rendered (expr : Expr) {floor looser : Nat} (ordered : looser ≤ floor) :
    StripsTo (rendered floor expr) (rendered looser expr) := by
  by_cases loose : bindingPower expr < looser
  · rw [rendered_of_loose loose, rendered_of_loose (Nat.lt_of_lt_of_le loose ordered)]
    exact .refl
  · rw [rendered_of_tight (Nat.le_of_not_lt loose)]
    by_cases guards : bindingPower expr < floor
    · rw [rendered_of_loose guards]
      exact .unwrap (matched_faces expr)
    · rw [rendered_of_tight (Nat.le_of_not_lt guards)]
      exact .refl

/-- Parentheses around a whole phrase are the only ones its rendering may lack. -/
theorem strips_parentheses {symbols : List Symbol} {expr : Expr} (matched : Matched symbols)
    (strips : StripsTo symbols (rendered Formatter.additive expr)) :
    StripsTo (openSymbol :: (symbols ++ [closeSymbol])) (rendered unary expr) := by
  by_cases loose : bindingPower expr < unary
  · rw [rendered_of_loose loose, ← rendered_of_tight (additive_le_bindingPower expr)]
    exact strips.bracketed
  · rw [rendered_of_tight (Nat.le_of_not_lt loose),
      ← rendered_of_tight (additive_le_bindingPower expr)]
    exact (Strips.unwrap matched).trans strips

/-!
## Texts of one tree
-/

theorem symbol_of_kind {token : Token} {kind : TokenKind} (same : token.kind = kind)
    (other : kind ≠ .number) : token.symbol = (kind, none) := by
  simp [Token.symbol, faceSymbol, Token.face, same, other]

theorem symbol_of_number {token : Token} (isNumber : token.kind = .number) :
    token.symbol = (.number, some (decimalValue token.lexeme.toList)) := by
  simp [Token.symbol, faceSymbol, Token.face, isNumber]

theorem rendered_number {value : I64} {magnitude : Nat} (same : value.value = magnitude) :
    rendered unary (.number value) = [(.number, some magnitude)] := by
  have natAbs : value.value.natAbs = magnitude := by omega
  rw [rendered_of_tight (by simp [bindingPower, atom, unary]), faces, literalFaces,
    if_neg (by omega), natAbs]
  simp [faceSymbol]

theorem Spells.matched {stratum : Stratum} {tokens : List Token} {expr : Expr}
    (spells : Spells stratum tokens expr) : Matched (tokens.map Token.symbol) := by
  have apart : ∀ {token : Token} {kind}, token.kind = kind → kind ≠ .lParen → kind ≠ .rParen →
      token.symbol ≠ openSymbol ∧ token.symbol ≠ closeSymbol := by
    intro token kind same notOpening notClosing
    subst same
    exact ⟨faceSymbol_ne notOpening, faceSymbol_ne notClosing⟩
  induction spells with
  | exprTerm _ ih | termFactor _ ih => exact ih
  | plus kind _ _ leftIH rightIH | minus kind _ _ leftIH rightIH | star kind _ _ leftIH rightIH
  | slash kind _ _ leftIH rightIH =>
      obtain ⟨notOpening, notClosing⟩ := apart kind (by decide) (by decide)
      rw [List.map_append, List.map_cons]
      exact .append leftIH (rightIH.cons notOpening notClosing)
  | number kind _ _ =>
      obtain ⟨notOpening, notClosing⟩ := apart kind (by decide) (by decide)
      exact .plain notOpening notClosing
  | negation kind _ ih =>
      obtain ⟨notOpening, notClosing⟩ := apart kind (by decide) (by decide)
      exact ih.cons notOpening notClosing
  | parentheses opens _ closes ih =>
      rw [List.map_cons, List.map_append, symbol_of_kind opens (by decide), List.map_singleton,
        symbol_of_kind closes (by decide)]
      exact .bracketed ih

theorem strips_operation {op : BinaryOperator} {token : Token} {left right : List Token}
    {leftExpr rightExpr : Expr} (kind : token.kind = operatorKind op)
    (onLeft : StripsTo (left.map Token.symbol) (rendered (infixPowers op).1 leftExpr))
    (onRight : StripsTo (right.map Token.symbol) (rendered (infixPowers op).2 rightExpr)) :
    StripsTo ((left ++ token :: right).map Token.symbol)
      (rendered (infixPowers op).1 (.binaryOp op leftExpr rightExpr)) := by
  have symbol : token.symbol = operatorSymbol op :=
    symbol_of_kind kind (by cases op <;> decide)
  rw [List.map_append, List.map_cons, symbol, rendered_binaryOp (Nat.le_refl _)]
  exact onLeft.append (onRight.appendLeft [operatorSymbol op])

theorem Spells.strips {stratum : Stratum} {tokens : List Token} {expr : Expr}
    (spells : Spells stratum tokens expr) :
    StripsTo (tokens.map Token.symbol) (rendered stratum.floor expr) := by
  induction spells with
  | exprTerm _ ih => exact ih.trans (strips_rendered _ (by decide))
  | termFactor _ ih => exact ih.trans (strips_rendered _ (by decide))
  | plus kind _ _ leftIH rightIH => exact strips_operation kind leftIH rightIH
  | minus kind _ _ leftIH rightIH => exact strips_operation kind leftIH rightIH
  | star kind _ _ leftIH rightIH => exact strips_operation kind leftIH rightIH
  | slash kind _ _ leftIH rightIH => exact strips_operation kind leftIH rightIH
  | number kind _ same =>
      rw [List.map_singleton, symbol_of_number kind]
      exact (rendered_number same).symm ▸ .refl
  | negation kind _ ih =>
      rw [List.map_cons, symbol_of_kind kind (by decide)]
      exact (rendered_neg _).symm ▸ ih.appendLeft [_]
  | parentheses opens inner closes ih =>
      rw [List.map_cons, List.map_append, symbol_of_kind opens (by decide), List.map_singleton,
        symbol_of_kind closes (by decide)]
      exact strips_parentheses inner.matched ih

theorem strips_of_parse {text : String} {expr : Expr} (parsed : parse text = .ok expr) :
    ∃ tokens kept, tokenize text = .ok tokens ∧ tokenize (formatExpr expr) = .ok kept ∧
      StripsTo (tokens.map Token.symbol) (kept.map Token.symbol) := by
  obtain ⟨tokens, scanned, spells⟩ := (parse_eq_ok_iff_spells text expr).mp parsed
  obtain ⟨kept, rescanned, spelled⟩ := tokenize_formatExpr expr
  refine ⟨tokens, kept, scanned, rescanned, ?_⟩
  have same : kept.map Token.symbol = rendered Formatter.additive expr := by
    rw [rendered_of_tight (additive_le_bindingPower expr), ← spelled, List.map_map]
    rfl
  rw [same]
  exact spells.strips

/-!
## Counting parentheses
-/

theorem singleCharKind_injective {ch other : Char} {kind : TokenKind}
    (spelled : Lexer.singleCharKind ch = some kind)
    (again : Lexer.singleCharKind other = some kind) : ch = other := by
  cases Lexer.singleCharKind_eq_some_iff.mp spelled <;>
    cases Lexer.singleCharKind_eq_some_iff.mp again <;> rfl

/-- A character that is a token of its own counts as its symbol does. -/
theorem count_symbol {isWhitespace : Char → Bool} {ch : Char} {kind : TokenKind}
    (spelled : Lexer.singleCharKind ch = some kind) {offset : Nat} {chars rest : List Char}
    {tokens : List Token} (scans : Lexer.Scans isWhitespace offset chars tokens rest)
    (finished : rest = []) : chars.count ch = (tokens.map Token.symbol).count (kind, none) := by
  induction scans with
  | done => subst finished; rfl
  | @space _ other _ _ _ _ notSymbol _ _ ih =>
      have differs : other ≠ ch := by
        intro same
        rw [same, spelled] at notSymbol
        cases notSymbol
      rw [List.count_cons_of_ne differs, ih finished]
  | @symbol offset other own _ tokens _ symbol _ ih =>
      have notNumber : own ≠ .number := fun same =>
        Lexer.singleCharKind_ne_number other (same ▸ symbol)
      have face : Token.symbol ⟨own, other.toString, offset⟩ = (own, none) :=
        symbol_of_kind rfl notNumber
      rw [List.map_cons, face, List.count_cons, List.count_cons, ih finished]
      by_cases same : own = kind
      · subst same
        simp [singleCharKind_injective symbol spelled]
      · have differs : other ≠ ch := by
          intro equal
          rw [equal, spelled] at symbol
          exact same (Option.some.inj symbol).symm
        simp [same, differs]
  | @number offset run _ tokens _ digits _ _ ih =>
      have absent : run.count ch = 0 := by
        refine List.count_eq_zero.mpr fun member => ?_
        have isDigit := digits.2 ch member
        rw [Lexer.singleCharKind_not_digit spelled] at isDigit
        cases isDigit
      have notNumber : kind ≠ .number := fun same =>
        Lexer.singleCharKind_ne_number ch (same ▸ spelled)
      have differs : Token.symbol ⟨.number, String.ofList run, offset⟩ ≠ (kind, none) :=
        faceSymbol_ne (Ne.symm notNumber)
      rw [List.count_append, absent, Nat.zero_add, ih finished, List.map_cons,
        List.count_cons_of_ne differs]

theorem count_le_of_parse {text : String} {expr : Expr} (parsed : parse text = .ok expr)
    {ch : Char} {kind : TokenKind} (spelled : Lexer.singleCharKind ch = some kind) :
    (formatExpr expr).toList.count ch ≤ text.toList.count ch := by
  obtain ⟨tokens, kept, scanned, rescanned, strips⟩ := strips_of_parse parsed
  rw [count_symbol spelled (tokenize_ok_iff.mp rescanned) rfl,
    count_symbol spelled (tokenize_ok_iff.mp scanned) rfl]
  exact strips.count_le (kind, none)

/-- The tokens of a rendering are those of any text of its tree with matched pairs
of parentheses deleted, and it can spare no pair of its own. -/
theorem formatExpr_minimal {text : String} {expr : Expr} (parsed : parse text = .ok expr) :
    (∃ tokens kept, tokenize text = .ok tokens ∧ tokenize (formatExpr expr) = .ok kept ∧
      Strips openSymbol closeSymbol (tokens.map Token.symbol) (kept.map Token.symbol)) ∧
    (formatExpr expr).toList.count '(' ≤ text.toList.count '(' ∧
    (formatExpr expr).toList.count ')' ≤ text.toList.count ')' ∧
    ∀ before inner after, (formatExpr expr).toList = before ++ '(' :: (inner ++ ')' :: after) →
      parse (String.ofList (before ++ (inner ++ after))) ≠ .ok expr := by
  refine ⟨strips_of_parse parsed, count_le_of_parse parsed rfl, count_le_of_parse parsed rfl, ?_⟩
  intro before inner after split again
  have fewer := count_le_of_parse again (rfl : Lexer.singleCharKind '(' = some .lParen)
  rw [split, String.toList_ofList] at fewer
  simp only [List.count_append, List.count_cons_self] at fewer
  have kept := (List.sublist_cons_self ')' after).count_le '('
  omega

/-- The parentheses of a product of a sum are needed. -/
theorem formatExpr_minimal_product_of_sum :
    parse "1 + 2 * 3" ≠ .ok (.binaryOp .mul
      (.binaryOp .add (.number ⟨1, by decide, by decide⟩) (.number ⟨2, by decide, by decide⟩))
      (.number ⟨3, by decide, by decide⟩)) := by
  obtain ⟨-, -, -, needed⟩ := @formatExpr_minimal "((1) + 2) * (3)" (.binaryOp .mul
    (.binaryOp .add (.number ⟨1, by decide, by decide⟩) (.number ⟨2, by decide, by decide⟩))
    (.number ⟨3, by decide, by decide⟩)) (by decide +kernel)
  exact needed [] "1 + 2".toList " * 3".toList (by decide +kernel)

end Proofhouse
