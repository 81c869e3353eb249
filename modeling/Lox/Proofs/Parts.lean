import Lox.Proofs.Boundary
/-!
# The parts of a run

Evaluation runs a piece of code by running its parts one after another in the current scope,
and a block statement first opens a scope under the current one and runs its statements there.
`Eval.Code` is such a piece: an expression, a list of arguments, a statement, a loop, a block
with its scope, or a list of statements. `Code.Part c c'` says that running `c` runs `c'` in the
same scope. `Eval.Reaches c m c' m'` says that running `c` from `m` comes to run `c'` from `m'`:
once the parts that may come before it have run, however they ended, and through the blocks
between. A call runs the code of another function, and is no part.

Reaching over-approximates a run: any part may run before any other, any number of times, at
any fuel. So what holds of every machine that `c` reaches holds of every machine from which a
run of `c` evaluates a piece of its code. An invariant of those machines is proved once for
each kind of step, one for each constructor of `Reaches`, and then for every machine reached
by induction on `Reaches`.
-/

namespace Lox

namespace Eval

/-- A piece of code that evaluation runs: in the current scope, or, for a block, in its own. -/
inductive Code where
  | expr (e : Expr)
  | args (es : List Expr)
  | stmt (s : Stmt)
  | loop (c : Expr) (body : Stmt)
  | block (body : List Stmt) (scope : Nat)
  | stmts (ss : List Stmt)

namespace Code

/-- The scope a piece of code runs in. -/
def scope (m : Machine) : Code → Nat
  | .block _ s => s
  | _ => m.current

/-- The machine that running a piece of code at fuel `n` from `m` leaves, however it ends. -/
def after (n : Nat) (m : Machine) : Code → Machine
  | .expr e => (exec (evalExpr n e) m).2
  | .args es => (exec (evalArgs n es) m).2
  | .stmt s => (exec (execStmt n s) m).2
  | .loop c body => (exec (execWhile n c body) m).2
  | .block body scope => (exec (execBlock n body scope) m).2
  | .stmts ss => (exec (execStmts n ss) m).2

/-- The parts that running a piece of code runs in its own scope. -/
inductive Part : Code → Code → Prop
  | assign {r v} : Part (.expr (.assign r v)) (.expr v)
  | binaryLeft {l op t r} : Part (.expr (.binary l op t r)) (.expr l)
  | binaryRight {l op t r} : Part (.expr (.binary l op t r)) (.expr r)
  | callee {callee paren args} : Part (.expr (.call callee paren args)) (.expr callee)
  | arguments {callee paren args} : Part (.expr (.call callee paren args)) (.args args)
  | get {obj name} : Part (.expr (.get obj name)) (.expr obj)
  | grouping {e} : Part (.expr (.grouping e)) (.expr e)
  | logicalLeft {l op t r} : Part (.expr (.logical l op t r)) (.expr l)
  | logicalRight {l op t r} : Part (.expr (.logical l op t r)) (.expr r)
  | setObject {obj name v} : Part (.expr (.set obj name v)) (.expr obj)
  | setValue {obj name v} : Part (.expr (.set obj name v)) (.expr v)
  | condition {c q a b} : Part (.expr (.conditional c q a b)) (.expr c)
  | whenTrue {c q a b} : Part (.expr (.conditional c q a b)) (.expr a)
  | whenFalse {c q a b} : Part (.expr (.conditional c q a b)) (.expr b)
  | unary {op t e} : Part (.expr (.unary op t e)) (.expr e)
  | argsHead {e es} : Part (.args (e :: es)) (.expr e)
  | argsTail {e es} : Part (.args (e :: es)) (.args es)
  | expression {e} : Part (.stmt (.expression e)) (.expr e)
  | ifCondition {c t e} : Part (.stmt (.ifElse c t e)) (.expr c)
  | ifThen {c t e} : Part (.stmt (.ifElse c t e)) (.stmt t)
  | ifElse {c t s} : Part (.stmt (.ifElse c t (some s))) (.stmt s)
  | print {e} : Part (.stmt (.print e)) (.expr e)
  | returnValue {keyword e} : Part (.stmt (.returnFrom keyword (some e))) (.expr e)
  | initializer {name e} : Part (.stmt (.varDecl name (some e))) (.expr e)
  | whileLoop {c body} : Part (.stmt (.whileLoop c body)) (.loop c body)
  | loopCondition {c body} : Part (.loop c body) (.expr c)
  | loopBody {c body} : Part (.loop c body) (.stmt body)
  | stmtsHead {s ss} : Part (.stmts (s :: ss)) (.stmt s)
  | stmtsTail {s ss} : Part (.stmts (s :: ss)) (.stmts ss)

/-- A part, and what it is a part of, run in the current scope. -/
theorem Part.scope_eq {c c' : Code} (h : Part c c') (m : Machine) :
    c.scope m = m.current ∧ c'.scope m = m.current := by
  cases h <;> exact ⟨rfl, rfl⟩

end Code

open Code

/-- Running `c` from `m` comes to run `c'` from `m'`. -/
inductive Reaches : Code → Machine → Code → Machine → Prop
  | refl {c m} : Reaches c m c m
  /-- A part starts from the machine its code has come to. -/
  | part {c c' m c'' m''} : Part c c' → Reaches c' m c'' m'' → Reaches c m c'' m''
  /-- A part has run, at some fuel and however it ended, and its code goes on from there. -/
  | after {c c' m c'' m''} (n : Nat) : Part c c' → Reaches c (c'.after n m) c'' m'' →
      Reaches c m c'' m''
  /-- A block statement opens a scope under the current one. -/
  | enter {body m c'' m''} :
      Reaches (.block body (m.scopes.child m.current).2)
        { m with scopes := (m.scopes.child m.current).1 } c'' m'' →
      Reaches (.stmt (.block body)) m c'' m''
  /-- A block runs its statements with its scope as the current one. -/
  | block {body scope m c'' m''} : Reaches (.stmts body) { m with current := scope } c'' m'' →
      Reaches (.block body scope) m c'' m''

end Eval

namespace Machine

open Eval

variable {m : Machine}

/-- Running a piece of code whose scope is in use, from a sound machine, leaves a sound machine
that it frames. -/
theorem Sound.after (hm : Sound m) (n : Nat) (c : Code) (hc : m.scopes.Live (c.scope m)) :
    Sound (c.after n m) ∧ Frame m (c.after n m) := by
  cases c with
  | expr e => exact ⟨((balanced n).expr e m hm).1, ((balanced n).expr e m hm).2.1⟩
  | args es => exact ⟨((balanced n).args es m hm).1, ((balanced n).args es m hm).2.1⟩
  | stmt s => exact ⟨((balanced n).stmt s m hm).1, ((balanced n).stmt s m hm).2.1⟩
  | loop c body => exact ⟨((balanced n).loop c body m hm).1, ((balanced n).loop c body m hm).2.1⟩
  | block body scope =>
    exact ⟨((balanced n).block body scope m hm hc).1, ((balanced n).block body scope m hm hc).2.1⟩
  | stmts ss => exact ⟨((balanced n).stmts ss m hm).1, ((balanced n).stmts ss m hm).2.1⟩

/-- A part, run from a sound machine, leaves a sound machine that it frames. -/
theorem Sound.part (hm : Sound m) (n : Nat) {c c' : Code} (hp : c.Part c') :
    Sound (c'.after n m) ∧ Frame m (c'.after n m) :=
  hm.after n c' ((hp.scope_eq m).2 ▸ hm.current_live)

end Machine

end Lox
