import Lox.Proofs.Anchors
import Lox.Proofs.MaximalMunch
import Lox.Proofs.Sources
import Lox.Interpreter
/-!
# Parsing keeps `super` a keyword

The scanner reads every word that is a keyword as that keyword: a name is neither `this` nor
`super`, and the tokens of `this` and `super` read as themselves (`lex_spelled`); in particular
a name is never `super` and the token of `super` reads `super` (`lex_plain`).

The parser takes every declared name,
parameter and assignment target from a name token, and the keyword of `super.member` from the
`super` token. So every program it reads satisfies `Stmt.Scoped .parsed` at every depth
(`readProgram_parsed`, `parseExpression_parsed`), which is what resolution needs to place
`super` where evaluation finds it.

The parser takes those names and keywords from tokens of their kinds (`parseProgram_sourced`),
so a tree read from plain tokens is parsed (`Stmt.Sourced.scoped`).

The last section runs the parser on `fun () {} + 1;`: a statement that begins with an
anonymous function reads only calls and property reads after it, so the `+` is a fault.
-/

namespace Lox

/-- A token whose text is what its kind says of `super`: a name is never `super`, and the
keyword is. -/
def Token.Plain (t : Token) : Prop :=
  (t.kind = .identifier → t.lexeme ≠ "super") ∧ (t.kind = .super → t.lexeme = "super")

/-- A token spelled as its kind says: a name is neither `this` nor `super`, and the keywords
`this` and `super` read as themselves. -/
def Token.Spelled (t : Token) : Prop :=
  (t.kind = .identifier → Bindable t.lexeme) ∧ (t.kind = .this → t.lexeme = "this") ∧
    (t.kind = .super → t.lexeme = "super")

theorem Token.spelled_of_kind {t : Token}
    (h : t.kind ≠ .identifier ∧ t.kind ≠ .this ∧ t.kind ≠ .super) : t.Spelled :=
  ⟨fun e => absurd e h.1, fun e => absurd e h.2.1, fun e => absurd e h.2.2⟩

/-! ## Scanning -/

theorem TokenKind.ofWord_bindable {w : String} (h : TokenKind.ofWord w = .identifier) :
    Bindable w := by
  constructor <;> rintro rfl <;> simp [TokenKind.ofWord, TokenKind.keywords, List.lookup_cons] at h

/-- A word read as a keyword is that keyword's entry in the table of keywords. -/
theorem TokenKind.ofWord_keyword {w : String} {k : TokenKind} (h : TokenKind.ofWord w = k)
    (hk : k ≠ .identifier) : (w, k) ∈ TokenKind.keywords := by
  unfold TokenKind.ofWord at h
  split at h
  · rename_i k' hk'
    subst h
    exact Scopes.mem_of_lookup hk'
  · exact absurd h.symm hk

theorem TokenKind.ofWord_super {w : String} (h : TokenKind.ofWord w = .super) : w = "super" := by
  simpa [TokenKind.keywords] using TokenKind.ofWord_keyword h (by decide)

theorem TokenKind.ofWord_this {w : String} (h : TokenKind.ofWord w = .this) : w = "this" := by
  simpa [TokenKind.keywords] using TokenKind.ofWord_keyword h (by decide)

namespace Lexical

/-- No operator is a name or a keyword. -/
theorem operators_not_word :
    ∀ e ∈ operators, e.1 ≠ .identifier ∧ e.1 ≠ .this ∧ e.1 ≠ .super := by
  decide

/-- A token whose kind and text the lexical grammar pairs is spelled: only words are names or
keywords, and a word is read as its keyword. -/
theorem Spells.spelled {t : Token} (h : Spells t.kind t.lexeme.toList) : t.Spelled := by
  generalize hk : t.kind = k at h
  generalize hp : t.lexeme.toList = p at h
  cases h with
  | operator hm =>
    subst hk
    exact Token.spelled_of_kind (operators_not_word _ hm)
  | integer => exact Token.spelled_of_kind (by simp [hk])
  | decimal => exact Token.spelled_of_kind (by simp [hk])
  | word =>
    -- the token's text is the word its kind was read from
    rename_i c cs _ _
    have hl : t.lexeme = String.ofList (c :: cs) := by rw [← hp, String.ofList_toList]
    refine ⟨fun e => ?_, fun e => ?_, fun e => ?_⟩ <;> rw [hl]
    · exact TokenKind.ofWord_bindable (hk.symm.trans e)
    · exact TokenKind.ofWord_this (hk.symm.trans e)
    · exact TokenKind.ofWord_super (hk.symm.trans e)
  | string => exact Token.spelled_of_kind (by simp [hk])

end Lexical

/-- The scanner spells every token as its kind says. -/
theorem lex_spelled (source : String) : ∀ t ∈ (lex source).1, t.Spelled := by
  intro t ht
  simp only [lex, List.mem_filterMap] at ht
  obtain ⟨x, hx, hxt⟩ := ht
  cases x with
  | ok t' =>
    cases hxt
    have hm : Lexical.Item.token t.kind t.lexeme.toList ∈ (scan source).map Lexical.Item.ofScanned :=
      List.mem_map.2 ⟨.ok t, hx, rfl⟩
    exact (Lexical.Tokenizes.spells (Lexical.tokenizes_scanFrom _ _) hm).spelled
  | error => cases hxt

theorem Token.Spelled.plain {t : Token} (h : t.Spelled) : t.Plain :=
  ⟨fun hk => (h.1 hk).2, h.2.2⟩

/-- The scanner reads every name as a name and `super` as the keyword. -/
theorem lex_plain (source : String) : ∀ t ∈ (lex source).1, t.Plain :=
  fun t ht => (lex_spelled source t ht).plain

/-! ## What parsing yields -/

/-- An expression as parsing makes it: `Expr.Scoped .parsed` at every depth, and, if it is a
name, not the name `super`. -/
def Expr.Parsed (e : Expr) : Prop :=
  (∀ d, Expr.Scoped .parsed d e) ∧ ∀ r, e = .variable r → r.name.lexeme ≠ "super"

/-- A statement as parsing makes it. -/
def Stmt.Parsed (s : Stmt) : Prop := ∀ d, Stmt.Scoped .parsed d s

/-- A name read from a plain token is not `super`. -/
theorem Token.ReadAs.not_super {t : Token} (h : t.ReadAs Token.Plain .identifier) :
    t.lexeme ≠ "super" :=
  h.2.1 h.1

theorem NamesRead.params {params : List Token} (h : NamesRead Token.Plain params) :
    Params params :=
  fun p hp => (h p hp).not_super

mutual

/-- A tree whose names and keywords were read from plain tokens is parsed, at every depth. -/
theorem Expr.Sourced.scoped : ∀ {e : Expr}, Expr.Sourced Token.Plain e → ∀ d,
    Expr.Scoped .parsed d e
  | _, .assign hr hv, d => .assign trivial hr.not_super (hv.scoped d)
  | _, .binary hl hr, d => .binary (hl.scoped d) (hr.scoped d)
  | _, .call hc ha, d => .call (hc.scoped d) fun a h => (ha a h).scoped d
  | _, .get ho, d => .get (ho.scoped d)
  | _, .lambda hp hb, d => .lambda hp.params fun s h => (hb s h).scoped (d + 1)
  | _, .grouping he, d => .grouping (he.scoped d)
  | _, .literal, _ => .literal
  | _, .logical hl hr, d => .logical (hl.scoped d) (hr.scoped d)
  | _, .set ho hv, d => .set (ho.scoped d) (hv.scoped d)
  | _, .superMember hk, _ => .superMember (hk.2.2 hk.1)
  | _, .conditional hc hx hy, d => .conditional (hc.scoped d) (hx.scoped d) (hy.scoped d)
  | _, .this _, _ => .this trivial
  | _, .unary he, d => .unary (he.scoped d)
  | _, .variable _, _ => .variable trivial
termination_by structural _ h => h

theorem Stmt.Sourced.scoped : ∀ {s : Stmt}, Stmt.Sourced Token.Plain s → ∀ d,
    Stmt.Scoped .parsed d s
  | _, .block hb, d => .block fun s h => (hb s h).scoped (d + 1)
  | _, .breakLoop, _ => .breakLoop
  | _, .classDecl hn _ hp hb, _ =>
    .classDecl hn.not_super (fun _ _ => trivial) (fun f hf => (hp f hf).params)
      fun f hf s hs => (hb f hf s hs).scoped _
  | _, .expression he, d => .expression (he.scoped d)
  | _, .function hn hp hb, d => .function hn.not_super hp.params fun s h => (hb s h).scoped (d + 1)
  | _, .ifElse hc ht he, d => .ifElse (hc.scoped d) (ht.scoped d) fun s h => (he s h).scoped d
  | _, .print he, d => .print (he.scoped d)
  | _, .returnFrom hv, d => .returnFrom fun e h => (hv e h).scoped d
  | _, .varDecl hn hi, d => .varDecl hn.not_super fun e h => (hi e h).scoped d
  | _, .whileLoop hc hb, d => .whileLoop (hc.scoped d) (hb.scoped d)
termination_by structural _ h => h

end

theorem Expr.Sourced.parsed {e : Expr} (h : Expr.Sourced Token.Plain e) : e.Parsed :=
  ⟨h.scoped, fun r hr => by subst hr; exact h.variable_name.not_super⟩

/-- Every statement of a program the parser reads is parsed: `Stmt.Scoped .parsed` at every
depth. -/
theorem parseProgram_parsed {tokens : List Token} (h : ∀ t ∈ tokens, t.Plain) :
    ∀ s ∈ (parseProgram tokens).1, s.Parsed :=
  fun s hs => (parseProgram_sourced h s hs).scoped

theorem parseExpression_parsed {tokens : List Token} (h : ∀ t ∈ tokens, t.Plain) {e : Expr}
    (he : parseExpression tokens = .ok e) : e.Parsed :=
  (parseExpression_sourced h he).parsed

theorem readProgram_parsed {source : String} {stmts : List Stmt}
    (h : readProgram source = .parsed stmts) : ∀ s ∈ stmts, s.Parsed := by
  unfold readProgram at h
  generalize hl : lex source = l at h
  obtain ⟨tokens, scanFaults⟩ := l
  dsimp only at h
  split at h
  · cases h
    have hplain := lex_plain source
    rw [hl] at hplain
    exact parseProgram_parsed hplain
  · cases h

/-! ## Statements that begin with an anonymous function -/

/-- The tokens of `fun () {} + 1;`. -/
def lambdaThenPlus : List Token :=
  [⟨.fun, "fun", none, 1, 1⟩, ⟨.leftParen, "(", none, 1, 5⟩, ⟨.rightParen, ")", none, 1, 6⟩,
   ⟨.leftBrace, "\x7b", none, 1, 8⟩, ⟨.rightBrace, "\x7d", none, 1, 9⟩, ⟨.plus, "+", none, 1, 11⟩,
   ⟨.number, "1", some (.number 1), 1, 13⟩, ⟨.semicolon, ";", none, 1, 14⟩]

/-- A declaration that begins with an anonymous function reads only calls and property reads
after it: in `fun () {} + 1;` the `+` is where a `;` is expected, and the statement is
dropped. -/
theorem lambda_statement_stops_at_operator :
    parseProgram lambdaThenPlus =
      ([], [.expected .semicolonAfterExpression ⟨.plus, "+", none, 1, 11⟩]) := by
  -- the declaration reads the function and its empty body, and fails at the `+`
  have hd : ∃ h, Parse.declaration (Parse.Cursor.start lambdaThenPlus) =
      .error (.expected .semicolonAfterExpression ⟨.plus, "+", none, 1, 11⟩,
        ⟨⟨[⟨.number, "1", some (.number 1), 1, 13⟩, ⟨.semicolon, ";", none, 1, 14⟩], 1⟩, h⟩) := by
    rw [Parse.declaration]
    simp [lambdaThenPlus, Parse.Cursor.start, Parse.Cursor.next, Parse.Cursor.check]
    rw [Parse.lambda, Parse.parameters]
    simp [Parse.Cursor.next, Parse.Cursor.check, Parse.Cursor.expect, Parse.Reads.andThen]
    rw [Parse.block, Parse.blockFrom]
    simp [Parse.Cursor.next, Parse.Cursor.check, Parse.Cursor.expect, Parse.Reads.andThen]
    rw [Parse.callSuffix]
    simp [Parse.Cursor.next, Parse.Scans.andThenPast, Parse.Cursor.size]
  obtain ⟨h, hd⟩ := hd
  -- recovery skips `1 ;`, and nothing is left
  rw [parseProgram, Parse.declarations, dif_neg (by decide), hd]
  dsimp only
  rw [Parse.declarations, dif_pos (by decide)]
  rfl

/-- The tokens of `fun () { fun () {} + 1; }`. -/
def lambdaInLambda : List Token :=
  [⟨.fun, "fun", none, 1, 1⟩, ⟨.leftParen, "(", none, 1, 5⟩, ⟨.rightParen, ")", none, 1, 6⟩,
   ⟨.leftBrace, "\x7b", none, 1, 8⟩, ⟨.fun, "fun", none, 1, 10⟩, ⟨.leftParen, "(", none, 1, 14⟩,
   ⟨.rightParen, ")", none, 1, 15⟩, ⟨.leftBrace, "\x7b", none, 1, 17⟩,
   ⟨.rightBrace, "\x7d", none, 1, 18⟩, ⟨.plus, "+", none, 1, 20⟩,
   ⟨.number, "1", some (.number 1), 1, 22⟩, ⟨.semicolon, ";", none, 1, 23⟩,
   ⟨.rightBrace, "\x7d", none, 1, 25⟩]

/-- The same holds inside the body of an anonymous function: `fun () { fun () {} + 1; }` is no
expression to the parser, which stops at the `+` of the inner statement. -/
theorem lambda_body_rejects_leading_lambda :
    parseExpression lambdaInLambda =
      .error (.expected .semicolonAfterExpression ⟨.plus, "+", none, 1, 20⟩) := by
  -- the primary reads the outer `fun` and its body, whose first statement fails at the `+`
  have hp : ∃ h, Parse.primary (Parse.Cursor.start lambdaInLambda) =
      .error (.expected .semicolonAfterExpression ⟨.plus, "+", none, 1, 20⟩,
        ⟨⟨[⟨.number, "1", some (.number 1), 1, 22⟩, ⟨.semicolon, ";", none, 1, 23⟩,
          ⟨.rightBrace, "\x7d", none, 1, 25⟩], 1⟩, h⟩) := by
    rw [Parse.primary]
    simp [lambdaInLambda, Parse.Cursor.start, Parse.Cursor.next]
    rw [Parse.lambda, Parse.parameters]
    simp [Parse.Cursor.next, Parse.Cursor.check, Parse.Cursor.expect, Parse.Reads.andThen,
      Parse.Reads.lift]
    rw [Parse.block, Parse.blockFrom]
    simp [Parse.Cursor.next, Parse.Cursor.check, Parse.Cursor.expect, Parse.Reads.andThen]
    rw [Parse.declaration]
    simp [Parse.Cursor.next, Parse.Cursor.check]
    rw [Parse.lambda, Parse.parameters]
    simp [Parse.Cursor.next, Parse.Cursor.check, Parse.Cursor.expect, Parse.Reads.andThen]
    rw [Parse.block, Parse.blockFrom]
    simp [Parse.Cursor.next, Parse.Cursor.check, Parse.Cursor.expect, Parse.Reads.andThen]
    rw [Parse.callSuffix]
    simp [Parse.Cursor.next, Parse.Scans.andThenPast, Parse.Cursor.size, Parse.Cursor.atEnd]
  obtain ⟨h, hp⟩ := hp
  -- the fault passes unchanged through every level of the grammar above the primary
  have hb : ∀ n, ∃ h, Parse.binaryAt n (Parse.Cursor.start lambdaInLambda) =
      .error (.expected .semicolonAfterExpression ⟨.plus, "+", none, 1, 20⟩,
        ⟨⟨[⟨.number, "1", some (.number 1), 1, 22⟩, ⟨.semicolon, ";", none, 1, 23⟩,
          ⟨.rightBrace, "\x7d", none, 1, 25⟩], 1⟩, h⟩) := by
    intro n
    induction n with
    | zero =>
      -- `fun` is no prefix operator
      have hu : Parse.unary (Parse.Cursor.start lambdaInLambda) =
          Parse.call (Parse.Cursor.start lambdaInLambda) := by
        rw [Parse.unary]
        rfl
      rw [Parse.binaryAt, hu, Parse.call, hp]
      exact ⟨_, rfl⟩
    | succ n ih =>
      obtain ⟨h, ih⟩ := ih
      rw [Parse.binaryAt, ih]
      exact ⟨_, rfl⟩
  obtain ⟨h10, hb10⟩ := hb 10
  rw [parseExpression, Parse.expression, Parse.assignment, Parse.ternary, hb10]
  rfl

end Lox
