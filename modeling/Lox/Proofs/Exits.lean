import Lox.Eval
import Lox.Proofs.Exec
/-!
# Where `break` and `return` may stand

`break` ends the innermost loop and `return` the innermost function call; resolution rejects
a `break` outside a loop of its own function body, a `return` outside a function body, and a
`return` with a value in an initializer. `Stmt.Confined` says this of a statement: a `break`
stands in a loop of its own function body, a `return` in a function body, and the same holds
of every function written inside the statement, with the body of a class's `init` as an
initializer's.

How a statement ends is decided by its own structure alone: a call inside it turns whatever
the function body does into a value. So a confined statement ends only as its place allows
(`Flow.Allowed`), whatever the machine and the fuel: a `while` loop consumes every `break`,
and neither top-level code nor an initializer's body ends with a value returned
(`Confines`, `confines`).
-/

namespace Lox

/-- The code a statement is part of: the top level, a function or method body, or the body of
an initializer. -/
inductive Body where
  | topLevel | function | initializer
  deriving DecidableEq, Repr

mutual

/-- Every function written inside the expression has a confined body. -/
inductive Expr.Confined : Expr → Prop
  | assign {r v} : Expr.Confined v → Expr.Confined (.assign r v)
  | binary {l op t r} : Expr.Confined l → Expr.Confined r → Expr.Confined (.binary l op t r)
  | call {callee paren args} : Expr.Confined callee → (∀ a ∈ args, Expr.Confined a) →
      Expr.Confined (.call callee paren args)
  | get {obj name} : Expr.Confined obj → Expr.Confined (.get obj name)
  | lambda {keyword params body} : (∀ s ∈ body, Stmt.Confined false .function s) →
      Expr.Confined (.lambda keyword params body)
  | grouping {e} : Expr.Confined e → Expr.Confined (.grouping e)
  | literal {l} : Expr.Confined (.literal l)
  | logical {l op t r} : Expr.Confined l → Expr.Confined r → Expr.Confined (.logical l op t r)
  | set {obj name v} : Expr.Confined obj → Expr.Confined v → Expr.Confined (.set obj name v)
  | superMember {keyword member} : Expr.Confined (.superMember keyword member)
  | conditional {c q a b} : Expr.Confined c → Expr.Confined a → Expr.Confined b →
      Expr.Confined (.conditional c q a b)
  | this {r} : Expr.Confined (.this r)
  | unary {op t e} : Expr.Confined e → Expr.Confined (.unary op t e)
  | «variable» {r} : Expr.Confined (.variable r)

/-- At a place inside a loop of its function body or not (`l`), in code of kind `b`: every
`break` stands in a loop of its own function body, every `return` in a function body, and
none with a value in an initializer; so for every function written inside. -/
inductive Stmt.Confined : Bool → Body → Stmt → Prop
  | block {l b body} : (∀ s ∈ body, Stmt.Confined l b s) → Stmt.Confined l b (.block body)
  | breakLoop {b keyword} : Stmt.Confined true b (.breakLoop keyword)
  | classDecl {l b name sup methods getters statics staticGetters} :
      (∀ d ∈ methods, ∀ s ∈ d.body,
        Stmt.Confined false (if d.name.lexeme = "init" then .initializer else .function) s) →
      (∀ d ∈ getters ++ statics ++ staticGetters, ∀ s ∈ d.body, Stmt.Confined false .function s) →
      Stmt.Confined l b (.classDecl name sup methods getters statics staticGetters)
  | expression {l b e} : Expr.Confined e → Stmt.Confined l b (.expression e)
  | function {l b name params body} : (∀ s ∈ body, Stmt.Confined false .function s) →
      Stmt.Confined l b (.function (.mk name params body))
  | ifElse {l b c t e} : Expr.Confined c → Stmt.Confined l b t →
      (∀ s, e = some s → Stmt.Confined l b s) → Stmt.Confined l b (.ifElse c t e)
  | print {l b e} : Expr.Confined e → Stmt.Confined l b (.print e)
  | returnNothing {l b keyword} : b ≠ .topLevel → Stmt.Confined l b (.returnFrom keyword none)
  | returnValue {l keyword e} : Expr.Confined e →
      Stmt.Confined l .function (.returnFrom keyword (some e))
  | varDecl {l b name init} : (∀ e, init = some e → Expr.Confined e) →
      Stmt.Confined l b (.varDecl name init)
  | whileLoop {l b c body} : Expr.Confined c → Stmt.Confined true b body →
      Stmt.Confined l b (.whileLoop c body)

end

/-- How code of kind `b`, inside a loop of its function body or not (`l`), may end: with
`break` only inside a loop, with `return` only in a function body, and in an initializer only
returning `nil`. -/
def Flow.Allowed (l : Bool) (b : Body) : Flow → Prop
  | .normal => True
  | .breakLoop => l = true
  | .returned v => b ≠ .topLevel ∧ (b = .initializer → v = .nil)

namespace Eval

variable {α β : Type}

/-- Whenever `x` succeeds, from any machine, its result satisfies `P`. -/
def Yields (x : Eval α) (P : α → Prop) : Prop :=
  ∀ m a, (exec x m).1 = .ok a → P a

theorem Yields.pure {P : α → Prop} {a : α} (h : P a) : Yields (Pure.pure a) P :=
  fun _ _ e => by cases e; exact h

theorem Yields.throw {P : α → Prop} (e : Interrupt) : Yields (throw e : Eval α) P :=
  fun _ _ h => by cases h

theorem Yields.fail {P : α → Prop} (f : RuntimeFault) : Yields (fail f : Eval α) P :=
  Yields.throw _

/-- What `x >>= f` gives is what `f` gives, whatever `x` gave. -/
theorem Yields.bind {P : β → Prop} (x : Eval α) {f : α → Eval β} (hf : ∀ a, Yields (f a) P) :
    Yields (x >>= f) P := by
  intro m b h
  rw [exec_bind] at h
  rcases hx : exec x m with ⟨_ | a, m1⟩
  · rw [hx] at h
    cases h
  · rw [hx] at h
    exact hf a m1 b h

/-- What `x >>= f` gives is what `f` gives on a result of `x`. -/
theorem Yields.bind_of {Q : α → Prop} {P : β → Prop} {x : Eval α} {f : α → Eval β}
    (hx : Yields x Q) (hf : ∀ a, Q a → Yields (f a) P) : Yields (x >>= f) P := by
  intro m b h
  rw [exec_bind] at h
  rcases hx' : exec x m with ⟨_ | a, m1⟩
  · rw [hx'] at h
    cases h
  · rw [hx'] at h
    exact hf a (hx m a (by rw [hx'])) m1 b h

/-- Running `x` to completion and passing its outcome on later gives what `x` gives. -/
theorem Yields.attempt {Q : α → Prop} {P : β → Prop} {x : Eval α} (hx : Yields x Q)
    {f : Except Interrupt α → Eval β} (hf : ∀ r, (∀ a, r = .ok a → Q a) → Yields (f r) P) :
    Yields (Eval.attempt x >>= f) P := by
  intro m b h
  rw [exec_bind, exec_attempt] at h
  exact hf _ (fun a ha => hx m a ha) _ b h

theorem Yields.resume {P : α → Prop} {r : Except Interrupt α} (h : ∀ a, r = .ok a → P a) :
    Yields (resume r) P := by
  cases r with
  | error e => exact Yields.throw e
  | ok a => exact Yields.pure (h a rfl)

end Eval

open Eval

/-- At fuel `n`, confined statements end only as their place allows. -/
structure Confines (n : Nat) : Prop where
  stmt : ∀ l b s, Stmt.Confined l b s → Yields (execStmt n s) (Flow.Allowed l b)
  loop : ∀ l b c body, Stmt.Confined true b body → Yields (execWhile n c body) (Flow.Allowed l b)
  block : ∀ l b body scope, (∀ s ∈ body, Stmt.Confined l b s) →
    Yields (execBlock n body scope) (Flow.Allowed l b)
  stmts : ∀ l b ss, (∀ s ∈ ss, Stmt.Confined l b s) → Yields (execStmts n ss) (Flow.Allowed l b)

variable {n : Nat}

/-- A `return` allowed inside a loop is allowed around it. -/
theorem Flow.Allowed.returned {l l' : Bool} {b : Body} {v : Value}
    (h : Flow.Allowed l b (.returned v)) : Flow.Allowed l' b (.returned v) := h

/-- Top-level code may only end normally. -/
theorem Flow.Allowed.topLevel {fl : Flow} (h : Flow.Allowed false .topLevel fl) : fl = .normal := by
  cases fl with
  | normal => rfl
  | breakLoop => cases h
  | returned v => exact absurd rfl h.1

theorem Confines.stmt_succ (ih : Confines n) (l : Bool) (b : Body) (s : Stmt)
    (hs : Stmt.Confined l b s) : Yields (execStmt (n + 1) s) (Flow.Allowed l b) := by
  cases hs with
  | block hbody =>
    simp only [execStmt]
    refine Yields.bind _ fun p => Yields.bind _ fun c => ?_
    exact (ih.block l b _ c hbody).attempt fun r hr => Yields.bind _ fun _ => Yields.resume hr
  | breakLoop =>
    simp only [execStmt]
    exact Yields.pure rfl
  | classDecl =>
    unfold execStmt
    extract_lets tail
    -- every way through the declaration ends normally or fails
    have htail : ∀ o, Yields (tail o) (Flow.Allowed l b) := by
      intro o
      simp only [tail]
      refine Yields.bind _ fun here => Yields.bind _ fun _ => ?_
      split
      · exact Yields.bind _ fun _ => Yields.bind _ fun _ => Yields.bind _ fun _ =>
          Yields.bind _ fun _ => Yields.bind _ fun _ => Yields.bind _ fun _ => Yields.pure trivial
      · exact Yields.bind _ fun _ => Yields.bind _ fun _ => Yields.bind _ fun _ =>
          Yields.bind _ fun _ => Yields.pure trivial
    clear_value tail
    split
    · exact Yields.bind _ fun v => by
        split
        · exact Yields.bind _ htail
        · exact Yields.bind _ htail
    · exact Yields.bind _ htail
  | expression =>
    simp only [execStmt]
    exact Yields.bind _ fun _ => Yields.pure trivial
  | function =>
    simp only [execStmt]
    exact Yields.bind _ fun _ => Yields.bind _ fun _ => Yields.bind _ fun _ =>
      Yields.bind _ fun _ => Yields.pure trivial
  | @ifElse _ _ c t e _ ht he =>
    cases e with
    | some e =>
      simp only [execStmt]
      refine Yields.bind _ fun v => ?_
      split
      · exact ih.stmt l b t ht
      · exact ih.stmt l b e (he e rfl)
    | none =>
      simp only [execStmt]
      refine Yields.bind _ fun v => ?_
      split
      · exact ih.stmt l b t ht
      · exact Yields.pure trivial
  | print =>
    simp only [execStmt]
    exact Yields.bind _ fun _ => Yields.bind _ fun _ => Yields.pure trivial
  | returnNothing hb =>
    simp only [execStmt]
    exact Yields.pure ⟨hb, fun _ => rfl⟩
  | returnValue =>
    simp only [execStmt]
    exact Yields.bind _ fun _ => Yields.pure ⟨by decide, by intro h; cases h⟩
  | @varDecl _ _ name init _ =>
    cases init with
    | some e =>
      simp only [execStmt, map_eq_pure_bind, bind_assoc, pure_bind]
      exact Yields.bind _ fun _ => Yields.bind _ fun _ => Yields.bind _ fun _ => Yields.pure trivial
    | none =>
      simp only [execStmt, pure_bind]
      exact Yields.bind _ fun _ => Yields.bind _ fun _ => Yields.pure trivial
  | whileLoop _ hbody =>
    simp only [execStmt]
    exact ih.loop l b _ _ hbody

theorem Confines.loop_succ (ih : Confines n) (l : Bool) (b : Body) (c : Expr) (body : Stmt)
    (hbody : Stmt.Confined true b body) : Yields (execWhile (n + 1) c body) (Flow.Allowed l b) := by
  simp only [execWhile]
  refine Yields.bind _ fun v => ?_
  split
  · -- the loop consumes `break`, and passes a `return` on
    refine (ih.stmt true b body hbody).bind_of fun fl hfl => ?_
    cases fl with
    | normal => exact ih.loop l b c body hbody
    | breakLoop => exact Yields.pure trivial
    | returned v => exact Yields.pure hfl.returned
  · exact Yields.pure trivial

theorem Confines.block_succ (ih : Confines n) (l : Bool) (b : Body) (body : List Stmt)
    (scope : Nat) (hbody : ∀ s ∈ body, Stmt.Confined l b s) :
    Yields (execBlock (n + 1) body scope) (Flow.Allowed l b) := by
  simp only [execBlock]
  refine Yields.bind _ fun p => Yields.bind _ fun _ => ?_
  exact (ih.stmts l b body hbody).attempt fun r hr => Yields.bind _ fun _ => Yields.resume hr

theorem Confines.stmts_succ (ih : Confines n) (l : Bool) (b : Body) (ss : List Stmt)
    (hss : ∀ s ∈ ss, Stmt.Confined l b s) : Yields (execStmts (n + 1) ss) (Flow.Allowed l b) := by
  cases ss with
  | nil =>
    simp only [execStmts]
    exact Yields.pure trivial
  | cons s ss =>
    simp only [execStmts]
    refine (ih.stmt l b s (hss s List.mem_cons_self)).bind_of fun fl hfl => ?_
    split
    · exact ih.stmts l b ss fun s hs => hss s (List.mem_cons_of_mem _ hs)
    · exact Yields.pure hfl

theorem confines_zero : Confines 0 where
  stmt _ _ _ _ := by simp only [execStmt]; exact Yields.throw _
  loop _ _ _ _ _ := by simp only [execWhile]; exact Yields.throw _
  block _ _ _ _ _ := by simp only [execBlock]; exact Yields.throw _
  stmts _ _ _ _ := by simp only [execStmts]; exact Yields.throw _

/-- At any fuel, from any machine, a confined statement ends only as its place allows. -/
theorem confines : ∀ n, Confines n
  | 0 => confines_zero
  | n + 1 =>
    have ih := confines n
    ⟨ih.stmt_succ, ih.loop_succ, ih.block_succ, ih.stmts_succ⟩

end Lox
