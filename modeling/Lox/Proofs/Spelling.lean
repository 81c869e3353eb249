import Lox.Proofs.Anchors
import Lox.Proofs.Runs
/-!
# Parsing keeps `this` and `super` keywords

The scanner spells every token as its kind says (`lex_spelled`). The parser takes every
declared name, parameter and assignment target from a name token, `this` from the token `this`
and the keyword of `super.member` from the token `super` (`parseProgram_sourced`), so a tree
read from spelled tokens is anchored (`Stmt.Sourced.anchored`). So every program it reads is
`Stmt.Anchored .parsed` at every anchor (`readProgram_anchored`), and a program that resolution
accepts is anchored as resolution leaves it (`analyze_anchored`, `parseExpression_anchored`):
that is what evaluation needs to find `this` and `super` where a call binds them.
-/

namespace Lox

/-! ## Parsing -/

/-- A name read from a spelled token is bindable. -/
theorem Token.ReadAs.bindable {t : Token} (h : t.ReadAs Token.Spelled .identifier) :
    Bindable t.lexeme :=
  h.2.1 h.1

theorem NamesRead.binders {params : List Token} (h : NamesRead Token.Spelled params) :
    Binders params :=
  fun p hp => (h p hp).bindable

mutual

/-- A tree whose names and keywords were read from spelled tokens is anchored as parsing makes
it, at every anchor. -/
theorem Expr.Sourced.anchored : ∀ {e : Expr}, Expr.Sourced Token.Spelled e → ∀ a,
    Expr.Anchored .parsed a e
  | _, .assign hr hv, a => .assign hr.bindable (hv.anchored a)
  | _, .binary hl hr, a => .binary (hl.anchored a) (hr.anchored a)
  | _, .call hc ha, a => .call (hc.anchored a) fun e h => (ha e h).anchored a
  | _, .get ho, a => .get (ho.anchored a)
  | _, .lambda hp hb, _ => .lambda hp.binders fun s h => (hb s h).anchored _
  | _, .grouping he, a => .grouping (he.anchored a)
  | _, .literal, _ => .literal
  | _, .logical hl hr, a => .logical (hl.anchored a) (hr.anchored a)
  | _, .set ho hv, a => .set (ho.anchored a) (hv.anchored a)
  | _, .superMember hk, _ => .superMember (hk.2.2.2 hk.1)
  | _, .conditional hc hx hy, a => .conditional (hc.anchored a) (hx.anchored a) (hy.anchored a)
  | _, .this hr, _ => .this (hr.2.2.1 hr.1)
  | _, .unary he, a => .unary (he.anchored a)
  | _, .variable _, _ => .variable
termination_by structural _ h => h

theorem Stmt.Sourced.anchored : ∀ {s : Stmt}, Stmt.Sourced Token.Spelled s → ∀ a,
    Stmt.Anchored .parsed a s
  | _, .block hb, _ => .block fun s h => (hb s h).anchored _
  | _, .breakLoop, _ => .breakLoop
  | _, .classDecl hn _ hp hb, _ =>
    .classDecl hn.bindable (fun f hf => (hp f hf).binders) fun f hf s hs => (hb f hf s hs).anchored _
  | _, .expression he, a => .expression (he.anchored a)
  | _, .function hn hp hb, _ => .function hn.bindable hp.binders fun s h => (hb s h).anchored _
  | _, .ifElse hc ht he, a => .ifElse (hc.anchored a) (ht.anchored a) fun s h => (he s h).anchored a
  | _, .print he, a => .print (he.anchored a)
  | _, .returnFrom hv, a => .returnFrom fun e h => (hv e h).anchored a
  | _, .varDecl hn hi, a => .varDecl hn.bindable fun e h => (hi e h).anchored a
  | _, .whileLoop hc hb, a => .whileLoop (hc.anchored a) (hb.anchored a)
termination_by structural _ h => h

end

/-- Every statement of a program read from a source text is anchored as parsing makes it, at
every anchor. -/
theorem readProgram_anchored {source : String} {stmts : List Stmt}
    (h : readProgram source = .parsed stmts) (a : Option Anchor) :
    ∀ s ∈ stmts, Stmt.Anchored .parsed a s := by
  unfold readProgram at h
  generalize hl : lex source = l at h
  obtain ⟨tokens, scanFaults⟩ := l
  dsimp only at h
  split at h
  · cases h
    have hspelled := lex_spelled source
    rw [hl] at hspelled
    exact fun s hs => (parseProgram_sourced hspelled s hs).anchored a
  · cases h

/-- A program that resolution accepts finds every `this` at the scope of `this` of its class,
and every `super` one scope further out. -/
theorem analyze_anchored {globals : List String} {source : String} {r : Resolved (List Stmt)}
    (h : analyze globals source = .parsed r) (hok : r.isOk) :
    ∀ s ∈ r.tree, Stmt.Anchored .resolved none s := by
  obtain ⟨stmts, hs, rfl⟩ := analyze_read h
  exact resolveProgram_anchored (readProgram_anchored hs none) hok

/-- An expression that resolution accepts, read from a source text, finds every `this` and
`super` where its class puts them. -/
theorem parseExpression_anchored {globals : List String} {source : String} {e : Expr}
    (he : parseExpression (lex source).1 = .ok e) (hok : (resolveExpression globals e).isOk) :
    Expr.Anchored .resolved none (resolveExpression globals e).tree :=
  resolveExpression_anchored ((parseExpression_sourced (lex_spelled source) he).anchored none) hok

end Lox
