import Lox.Interpreter
import Lox.Proofs.Boundary
/-!
# Machines at rest

A program runs statement by statement on one machine, and a session runs its steps on one
machine too. Between two top-level statements or expressions the machine is at rest: the
current scope is the globals, no call is active, and the scopes in use are exactly the pinned
ones, so that the arena's count of slots in use is the number of pinned scopes. This holds
however the statement before ended: normally, with a runtime fault raised deep inside calls,
getters, initializers and blocks, with a stack overflow, or out of fuel.

A property of machines that running a top-level statement keeps is kept by a whole run
(`interpret_preserves`), and one that running an accepted program or expression keeps is kept
by every step of a session (`step_preserves`, `steps_preserve`).

`Reachable` collects the machines that top-level evaluation can leave, from a fresh machine;
`interpret` and `step` stay among them (`Reachable.interpret`, `Reachable.step`). The main
statement is `Reachable.atBoundary`.
-/

namespace Lox

namespace Scopes

variable {A : Scopes}

/-- The number of pinned scopes. -/
def pinnedCount (A : Scopes) : Nat := (List.range A.slots.size).countP A.pinnedAt

/-- When the scopes in use are exactly the pinned ones, the free list holds each unpinned slot
once, so the count of slots in use is the number of pinned scopes. -/
theorem WF.len_eq (h : A.WF) (hpin : ∀ s, A.Live s → A.pinnedAt s = true) :
    A.len = A.pinnedCount.toUInt64 := by
  have hperm : A.free.Perm ((List.range A.slots.size).filter fun s => !A.pinnedAt s) := by
    refine (List.perm_ext_iff_of_nodup h.free_nodup (List.nodup_range.filter _)).2 fun s => ?_
    simp only [List.mem_filter, List.mem_range, Bool.not_eq_eq_eq_not, Bool.not_true]
    constructor
    · intro hs
      exact ⟨h.free_lt s hs, h.free_unpinned s hs⟩
    · rintro ⟨hlt, hs⟩
      by_cases hn : s ∈ A.free
      · exact hn
      · simp [hpin s ⟨hlt, hn⟩] at hs
  have hsize : A.slots.size = A.pinnedCount + A.free.length := by
    rw [hperm.length_eq, ← List.countP_eq_length_filter, pinnedCount]
    simpa using List.length_eq_countP_add_countP A.pinnedAt (l := List.range A.slots.size)
  have hsub : A.slots.size - A.free.length = A.pinnedCount := by omega
  unfold len
  rw [← hsub]
  exact (UInt64.ofNat_sub (by omega)).symm

end Scopes

namespace Machine

open Eval

variable {m : Machine}

/-- A machine between top-level statements or expressions. -/
structure AtRest (m : Machine) : Prop where
  sound : Sound m
  current_eq : m.current = Scopes.globals
  depth_eq : m.depth = 0
  live_pinned : ∀ s, m.scopes.Live s → m.scopes.pinnedAt s = true

theorem AtRest.initial (clock : Float) : AtRest (Machine.initial clock) := by
  have hA := Scopes.shaped_define Scopes.new Scopes.globals "clock"
    (some (.function 0 (.native "clock" 0)))
  have hw := Scopes.new_wf.of_shaped hA
  refine ⟨⟨hw, hw.globals_live, Nat.zero_le _,
    Machine.Holds.initial clock (.function 0 (.native "clock" 0))⟩, rfl, rfl, fun s hs => ?_⟩
  have hs0 : s = Scopes.globals := by
    have := hA.live_iff.1 hs
    simp [Scopes.Live, Scopes.new] at this
    exact this
  exact hs0 ▸ hw.globals_pinned

/-- Whatever a framed run leaves, started at rest, is at rest. -/
theorem AtRest.framed {m' : Machine} (h : AtRest m) (hs : Sound m') (hf : Frame m m') :
    AtRest m' where
  sound := hs
  current_eq := hf.current_eq.trans h.current_eq
  depth_eq := hf.depth_eq.trans h.depth_eq
  live_pinned s hs' := by
    by_cases hm : m.scopes.Live s
    · exact hf.pinned s (h.live_pinned s hm)
    · exact hf.fresh_pinned s hs' hm

theorem AtRest.execStmt (h : AtRest m) (n : Nat) (s : Stmt) :
    AtRest (exec (Eval.execStmt n s) m).2 :=
  have hx := (balanced n).stmt s m h.sound
  h.framed hx.1 hx.2.1

theorem AtRest.evalExpr (h : AtRest m) (n : Nat) (e : Expr) :
    AtRest (exec (Eval.evalExpr n e) m).2 :=
  have hx := (balanced n).expr e m h.sound
  h.framed hx.1 hx.2.1

theorem AtRest.clearOutput (h : AtRest m) : AtRest { m with output := "" } :=
  ⟨⟨h.sound.wf, h.sound.current_live, h.sound.depth_le,
    ⟨h.sound.values.scopes, h.sound.values.fields⟩⟩, h.current_eq, h.depth_eq, h.live_pinned⟩

/-- The machines top-level evaluation leaves: a fresh machine, and what a top-level
statement or expression leaves, whatever the fuel and however it ends, and what taking the
printed text leaves. -/
inductive Reachable : Machine → Prop
  | initial (clock : Float) : Reachable (initial clock)
  | stmt {m : Machine} (n : Nat) (s : Stmt) : Reachable m → Reachable (exec (Eval.execStmt n s) m).2
  | expr {m : Machine} (n : Nat) (e : Expr) : Reachable m → Reachable (exec (Eval.evalExpr n e) m).2
  | clearOutput {m : Machine} : Reachable m → Reachable { m with output := "" }

/-- A top-level run of an evaluation hands its outcome on from the machine it leaves. -/
theorem run_bind_exec {α β : Type} (x : Eval α) (f : Except Interrupt α → StateM Machine β)
    (m : Machine) : (ExceptT.run x >>= f).run m = (f (exec x m).1).run (exec x m).2 := rfl

theorem run_get_bind {β : Type} (f : Machine → StateM Machine β) (m : Machine) :
    (get >>= f).run m = (f m).run m := rfl

section Steps

variable (I : Machine → Prop)

/-- A property of machines that running any top-level statement satisfying `P` keeps is kept by
running a list of them, under either policy. -/
theorem interpret_preserves (P : Stmt → Prop)
    (hstmt : ∀ {m : Machine} (s : Stmt), I m → P s → I (exec (Eval.execStmt Eval.fuel s) m).2)
    (policy : Policy) :
    ∀ (ss : List Stmt) {m : Machine}, I m → (∀ s ∈ ss, P s) →
      I ((Machine.interpret policy ss).run m).2
  | [], _, h, _ => h
  | s :: ss, m, h, hss => by
    have hs := hstmt s h (hss s List.mem_cons_self)
    have hrest : ∀ s ∈ ss, P s := fun s hs => hss s (List.mem_cons_of_mem _ hs)
    simp only [Machine.interpret, run_bind_exec]
    generalize exec (Eval.execStmt Eval.fuel s) m = r at hs
    -- a fault stops the run only under `abortProgram`; running out of fuel always does
    obtain ⟨(f | _) | _, m'⟩ := r
    · cases policy with
      | abortProgram => exact hs
      | abortStatement => exact interpret_preserves P hstmt .abortStatement ss hs hrest
    · exact hs
    · exact interpret_preserves P hstmt policy ss hs hrest

/-- A property of machines that running an accepted program, evaluating an accepted expression
and taking the printed text keep is kept by every step of a session: a step that is rejected
leaves its machine as it was. -/
theorem step_preserves
    (hprog : ∀ {m : Machine} {source : String} {r : Resolved (List Stmt)}, I m →
      analyze m.globalNames source = .parsed r → r.isOk →
        I ((Machine.interpret .abortStatement r.tree).run m).2)
    (hexpr : ∀ {m : Machine} {source : String} {e : Expr}, I m →
      parseExpression (lex source).1 = .ok e → (resolveExpression m.globalNames e).isOk →
        I (exec (Eval.evalExpr Eval.fuel (resolveExpression m.globalNames e).tree) m).2)
    (hclear : ∀ {m : Machine}, I m → I { m with output := "" })
    (h : I m) (st : Step) : I ((Machine.step st).run m).2 := by
  cases st with
  | statements source =>
    simp only [Machine.step, run_get_bind]
    split
    · exact h
    · rename_i r hr
      split
      · rename_i hok
        have hi := hprog h hr hok
        simp only [StateT.run_bind]
        generalize (Machine.interpret .abortStatement r.tree).run m = R at hi
        exact hclear hi
      · exact h
  | expression source =>
    simp only [Machine.step]
    split
    · exact h
    · rename_i e he
      split
      · exact h
      · simp only [run_get_bind]
        split
        · rename_i hok
          have hi := hexpr h he hok
          simp only [run_bind_exec]
          generalize exec (Eval.evalExpr Eval.fuel _) m = r at hi
          -- the report depends on how evaluation ended; the machine left does not
          obtain ⟨(_ | _) | _, m'⟩ := r <;> exact hclear hi
        · exact h

/-- A property of machines that every step of a session keeps is kept by the whole session. -/
theorem steps_preserve (hstep : ∀ {m : Machine} (st : Step), I m → I ((Machine.step st).run m).2) :
    ∀ (steps : List Step) {m : Machine}, I m → I ((steps.mapM Machine.step).run m).2
  | [], _, h => h
  | st :: sts, m, h => by
    have hi := hstep st h
    simp only [List.mapM_cons, StateT.run_bind]
    generalize (Machine.step st).run m = S at hi
    exact steps_preserve hstep sts hi

end Steps

/-- Running top-level statements, under either policy, leaves a machine that top-level
evaluation reaches: every statement is one step of `Reachable`. -/
theorem Reachable.interpret (policy : Policy) (ss : List Stmt) (h : Reachable m) :
    Reachable ((Machine.interpret policy ss).run m).2 :=
  interpret_preserves Reachable (fun _ => True) (fun s h _ => h.stmt Eval.fuel s) policy ss h
    fun _ _ => trivial

/-- A step of a session, whatever its source, leaves a machine that top-level evaluation
reaches. -/
theorem Reachable.step (h : Reachable m) (st : Step) : Reachable ((Machine.step st).run m).2 :=
  step_preserves Reachable (fun h _ _ => h.interpret .abortStatement _)
    (fun h _ _ => h.expr Eval.fuel _) Reachable.clearOutput h st

theorem Reachable.atRest (h : Reachable m) : AtRest m := by
  induction h with
  | initial clock => exact AtRest.initial clock
  | stmt n s _ ih => exact ih.execStmt n s
  | expr n e _ ih => exact ih.evalExpr n e
  | clearOutput _ ih => exact ih.clearOutput

/-- Between top-level statements and expressions, the current scope is the globals, no call is
active, the scopes in use are exactly the pinned ones, and the arena counts as many slots in
use as there are pinned scopes.

The machine is sound, and a sound machine is at most `RuntimeFault.maxDepth` calls deep. While
evaluation runs, the depth counts the calls in progress: every part of evaluation, run from a
sound machine, ends at the depth it started from and on a sound machine (`Balanced`), and a
call with the right number of arguments runs its callee exactly one level deeper, only when
fewer than `RuntimeFault.maxDepth` calls are in progress, and gives the level back when the
callee returns. Starting from depth `0`, the depth inside any callee is therefore the number
of calls around it, and it never passes `RuntimeFault.maxDepth`. -/
theorem Reachable.atBoundary (h : Reachable m) :
    m.current = Scopes.globals ∧ m.depth = 0 ∧
      (∀ s, m.scopes.Live s ↔ m.scopes.pinnedAt s = true) ∧
      m.scopes.len = m.scopes.pinnedCount.toUInt64 ∧
      Sound m ∧ (∀ n, Balanced n) ∧
      (∀ m' : Machine, Sound m' → m'.depth ≤ RuntimeFault.maxDepth) ∧
      ∀ n (c : Callee) (paren : Token) (args : List Value) (m' : Machine),
        args.length = c.arity →
        exec (Eval.invoke (n + 1) c paren args) m' =
          if m'.depth ≥ RuntimeFault.maxDepth then (.error (.fault (.stackOverflow paren)), m')
          else ((exec (runCallee n args c) { m' with depth := m'.depth + 1 }).1,
            { (exec (runCallee n args c) { m' with depth := m'.depth + 1 }).2 with
              depth := (exec (runCallee n args c) { m' with depth := m'.depth + 1 }).2.depth - 1 })
    := by
  have hr := h.atRest
  have hw := hr.sound.wf
  refine ⟨hr.current_eq, hr.depth_eq, fun s => ⟨hr.live_pinned s, hw.live_of_pinned⟩,
    hw.len_eq hr.live_pinned, hr.sound, balanced, fun _ hs => hs.depth_le, ?_⟩
  intro n c paren args m' harity
  rw [exec_invoke, if_neg fun h => h harity]

/-- After a program that declares a function, and so pins the globals it closes over. -/
theorem atBoundary_after_function :
    let m := ((Machine.interpret .abortStatement
      [.function (.mk ⟨.identifier, "f", none, 1, 5⟩ [] [])]).run (Machine.initial 0)).2
    Reachable m ∧ m.current = Scopes.globals ∧ m.depth = 0 ∧
      (∀ s, m.scopes.Live s ↔ m.scopes.pinnedAt s = true) ∧
      m.scopes.len = m.scopes.pinnedCount.toUInt64 ∧
      Sound m ∧ (∀ n, Balanced n) ∧
      (∀ m' : Machine, Sound m' → m'.depth ≤ RuntimeFault.maxDepth) ∧
      ∀ n (c : Callee) (paren : Token) (args : List Value) (m' : Machine),
        args.length = c.arity →
        exec (Eval.invoke (n + 1) c paren args) m' =
          if m'.depth ≥ RuntimeFault.maxDepth then (.error (.fault (.stackOverflow paren)), m')
          else ((exec (runCallee n args c) { m' with depth := m'.depth + 1 }).1,
            { (exec (runCallee n args c) { m' with depth := m'.depth + 1 }).2 with
              depth := (exec (runCallee n args c) { m' with depth := m'.depth + 1 }).2.depth - 1 })
    :=
  have h := Reachable.interpret .abortStatement _ (.initial 0)
  ⟨h, Reachable.atBoundary h⟩

end Machine

end Lox
