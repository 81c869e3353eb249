import Lox.Proofs.Agreement
import Lox.Proofs.Hygiene
import Lox.Proofs.Session
import Lox.Proofs.Lookups
import Lox.Proofs.Parts
/-!
# Resolution and evaluation agree on where names live

Resolution counts, for each use of a name found in a local frame, how many frames out the
declaration is. Evaluation runs code inside `d` frames with its current scope at level `d`
(`Scopes.Level`): exactly `d` parent links below the globals, so the lineage of the current
scope holds one scope for each frame around the code, innermost first, and then the globals
(`Scopes.Level.lineage`). Walking `h` links out reaches the `h`-th scope of that lineage, the
one that stands for the frame `h` out, and that scope lies at level `d - h` and at no other
(`Scopes.Level.ancestor_getElem`).

So a source text that resolution accepts, run on its own or as a step of a session, never makes
the interpreter report a fault of its own (a `system` diagnostic): every name that resolution
found in a local frame is found by walking as many scopes out as it counted, `super` is always
a class, and an initializer always has its receiver.

Between top-level statements the machine is `Ready`: sound, wired, with the globals current
and at the root. Parsing gives statements where `super` is only the keyword
(`readProgram_parsed`); resolution turns them into statements whose every name lies inside the
frames around it (`resolveProgram_scoped`); and `agreement` runs such statements from a ready
machine without a fault of the interpreter's own, to a ready machine. The main statement is
`resolution_agrees_with_evaluation`.
-/

namespace Lox

/-- What a session step reports holds no fault of the interpreter's own. -/
def StepOutcome.Safe : StepOutcome → Prop
  | .executed faults => ∀ f ∈ faults, ¬ f.Internal
  | _ => True

theorem analyze_read {globals : List String} {source : String} {r : Resolved (List Stmt)}
    (h : analyze globals source = .parsed r) :
    ∃ stmts, readProgram source = .parsed stmts ∧ r = resolveProgram globals stmts := by
  unfold analyze at h
  split at h
  · cases h
  · rename_i stmts hs
    cases h
    exact ⟨stmts, hs, rfl⟩

/-- A resolved program that reports nothing has every name inside the scopes around it. -/
theorem analyze_scoped {globals : List String} {source : String} {r : Resolved (List Stmt)}
    (h : analyze globals source = .parsed r) (hok : r.isOk) :
    ∀ s ∈ r.tree, Stmt.Scoped .resolved 0 s := by
  obtain ⟨stmts, hs, rfl⟩ := analyze_read h
  exact resolveProgram_scoped (k := 0) (fun s h => readProgram_parsed hs s h 0) hok

namespace Scopes

variable {A : Scopes} {s d : Nat} {l : List Nat}

/-- With the globals at the root, the lineage of a scope at level `d` holds `d + 1` scopes in
use, the last of them the globals. -/
theorem Level.lineage (hroot : A.parentOf globals = none) (h : A.Level s d) :
    ∃ l, A.Lineage s l ∧ l.length = d + 1 ∧ l.getLast? = some globals ∧ ∀ t ∈ l, A.Live t := by
  induction h with
  | base hl => exact ⟨[globals], .last hroot, rfl, rfl, by simpa using hl⟩
  | @step s p d hs hp _ ih =>
    obtain ⟨l, hl, hlen, hlast, hlive⟩ := ih
    obtain ⟨l', rfl⟩ := hl.eq_cons
    refine ⟨s :: p :: l', .cons hp hl, by simp [hlen], by rwa [List.getLast?_cons_cons], ?_⟩
    intro t ht
    rcases List.mem_cons.1 ht with rfl | ht
    · exact hs
    · exact hlive t ht

/-- Walking `h` links out from a scope at level `d` reaches the `h`-th scope of its lineage,
which lies at level `d - h`. -/
theorem Level.ancestor_getElem (hc : A.Level s d) (hl : A.Lineage s l) (hlen : l.length = d + 1)
    {h t : Nat} (ht : l[h]? = some t) : A.ancestor s h = .ok t ∧ A.Level t (d - h) := by
  have hanc : A.ancestor s h = .ok t := hl.ancestorFrom ht
  have hh : h ≤ d := by
    have := (List.getElem?_eq_some_iff.1 ht).1
    omega
  obtain ⟨t', ht', hlev⟩ := hc.ancestorFrom h hh
  have htt : t' = t := by
    unfold ancestor at hanc
    rw [hanc] at ht'
    cases ht'
    rfl
  exact ⟨hanc, htt ▸ hlev⟩

/-- From a scope at level `d`, with the globals at the root: its lineage holds one scope for
each of `d` frames and then the globals, and walking `h` links out reaches the `h`-th of them,
whose level is `d - h` and no other. -/
theorem Level.walk (hroot : A.parentOf globals = none) (hc : A.Level s d) :
    ∃ l, A.Lineage s l ∧ l.length = d + 1 ∧ l.getLast? = some globals ∧
      ∀ h t, l[h]? = some t → A.ancestor s h = .ok t ∧ ∀ k, A.Level t k ↔ k = d - h := by
  obtain ⟨l, hl, hlen, hlast, -⟩ := hc.lineage hroot
  refine ⟨l, hl, hlen, hlast, fun h t ht => ?_⟩
  obtain ⟨hanc, hlev⟩ := hc.ancestor_getElem hl hlen ht
  refine ⟨hanc, fun k => ⟨fun hk => (hlev.unique hroot hk).symm, ?_⟩⟩
  rintro rfl
  exact hlev

/-- Walking `h ≤ d` links out from a scope at level `d` reaches a scope at level `d - h` and at no
other level. -/
theorem Level.reach (hroot : A.parentOf globals = none) (hc : A.Level s d) {h : Nat}
    (hh : h ≤ d) : ∃ t, A.ancestor s h = .ok t ∧ ∀ k, A.Level t k ↔ k = d - h := by
  obtain ⟨l, -, hlen, -, hwalk⟩ := hc.walk hroot
  obtain ⟨t, ht⟩ : ∃ t, l[h]? = some t := Option.isSome_iff_exists.1 (by simp [hlen]; omega)
  exact ⟨t, hwalk h t ht⟩

end Scopes

namespace Eval.Code

variable {c c' : Code} {d : Nat}

/-- Every name of a piece of code lies inside the `d` frames around it, as resolution found it. -/
def Scoped (d : Nat) : Code → Prop
  | .expr e => Expr.Scoped .resolved d e
  | .args es => ∀ e ∈ es, Expr.Scoped .resolved d e
  | .stmt s => Stmt.Scoped .resolved d s
  | .loop c body => Expr.Scoped .resolved d c ∧ Stmt.Scoped .resolved d body
  | .block body _ => ∀ s ∈ body, Stmt.Scoped .resolved d s
  | .stmts ss => ∀ s ∈ ss, Stmt.Scoped .resolved d s

/-- A part lies inside as many frames as the code it is a part of. -/
theorem Part.scoped (hp : Part c c') (h : c.Scoped d) : c'.Scoped d := by
  cases hp <;> simp only [Scoped] at h ⊢
  -- a part of an expression or a statement is one premise of how that is scoped
  case ifElse => cases h with | ifElse _ _ he => exact he _ rfl
  case returnValue => cases h with | returnFrom hv => exact hv _ rfl
  case initializer => cases h with | varDecl _ hinit => exact hinit _ rfl
  case whileLoop => cases h with | whileLoop hc hb => exact ⟨hc, hb⟩
  case argsHead | stmtsHead => exact h _ List.mem_cons_self
  case argsTail | stmtsTail => exact fun x hx => h x (List.mem_cons_of_mem _ hx)
  case loopCondition => exact h.1
  case loopBody => exact h.2
  all_goals cases h; assumption

end Eval.Code

namespace Machine

open Eval

variable {m : Machine}

/-- A machine between top-level statements: sound and wired, with the globals current and at
the root of the arena. -/
structure Ready (m : Machine) : Prop where
  sound : Sound m
  wired : Wired m
  at_globals : m.current = Scopes.globals
  root : m.scopes.parentOf Scopes.globals = none

/-- The top-level code of a ready machine runs at level `0`, with the lineage of the current
scope the globals alone. -/
theorem Ready.level (h : Ready m) : m.scopes.Level m.current 0 :=
  h.at_globals ▸ .base h.sound.wf.globals_live

/-- A framed run keeps the globals at the root. -/
theorem Ready.framed {m' : Machine} (h : Ready m) (hs : Sound m') (hw : Wired m')
    (hf : Frame m m') : Ready m' :=
  ⟨hs, hw, hf.current_eq.trans h.at_globals,
    (hf.parentOf_eq _ h.sound.wf.globals_live).trans h.root⟩

theorem Ready.initial (clock : Float) : Ready (Machine.initial clock) :=
  ⟨(AtRest.initial clock).sound, Wired.initial clock, rfl, rfl⟩

theorem Ready.clearOutput (h : Ready m) : Ready { m with output := "" } :=
  ⟨⟨h.sound.wf, h.sound.current_live, h.sound.depth_le,
    ⟨h.sound.values.scopes, h.sound.values.fields⟩⟩, h.wired.of_eq rfl rfl, h.at_globals, h.root⟩

/-- A resolved top-level statement, run from a ready machine, raises no fault of the
interpreter's own and leaves a ready machine. -/
theorem Ready.execStmt (h : Ready m) (n : Nat) {s : Stmt} (hs : Stmt.Scoped .resolved 0 s) :
    Safe (exec (Eval.execStmt n s) m).1 ∧ Ready (exec (Eval.execStmt n s) m).2 :=
  have ha := (agreement n).stmt s 0 m h.sound h.wired h.level hs
  have hb := (balanced n).stmt s m h.sound
  ⟨ha.2.1, h.framed hb.1 ha.1 hb.2.1⟩

/-- Resolved top-level statements, run from a ready machine under either policy, collect no
fault of the interpreter's own and leave a ready machine. -/
theorem Ready.interpret (h : Ready m) (policy : Policy) {ss : List Stmt}
    (hss : ∀ s ∈ ss, Stmt.Scoped .resolved 0 s) :
    (∀ f ∈ ((Machine.interpret policy ss).run m).1.1, ¬ f.Internal) ∧
      Ready ((Machine.interpret policy ss).run m).2 :=
  ⟨(interpret_agrees policy ss h.sound h.wired h.at_globals hss).1,
    interpret_preserves Ready (fun s => Stmt.Scoped .resolved 0 s)
      (fun _ hm hs => (hm.execStmt _ hs).2) policy ss h hss⟩

/-- A resolved expression, evaluated from a ready machine, raises no fault of the interpreter's
own and leaves a ready machine. -/
theorem Ready.evalExpr (h : Ready m) (n : Nat) {e : Expr} (he : Expr.Scoped .resolved 0 e) :
    Safe (exec (Eval.evalExpr n e) m).1 ∧ Ready (exec (Eval.evalExpr n e) m).2 :=
  have ha := (agreement n).expr e 0 m h.sound h.wired h.level he
  have hb := (balanced n).expr e m h.sound
  ⟨ha.2.1, h.framed hb.1 ha.1 hb.2.1⟩

/-- A step of a session, from a ready machine, reports no fault of the interpreter's own and
leaves a ready machine. -/
theorem Ready.step (h : Ready m) (st : Step) :
    ((Machine.step st).run m).1.outcome.Safe ∧ Ready ((Machine.step st).run m).2 := by
  cases st with
  | statements source =>
    simp only [Machine.step, run_get_bind]
    split
    · exact ⟨trivial, h⟩
    · rename_i r hr
      split
      · rename_i hok
        obtain ⟨hf, hready⟩ := h.interpret .abortStatement (analyze_scoped hr hok)
        simp only [StateT.run_bind]
        generalize (Machine.interpret .abortStatement r.tree).run m = I at hf hready
        obtain ⟨⟨faults, stopped⟩, m'⟩ := I
        refine ⟨?_, hready.clearOutput⟩
        cases stopped
        · exact hf
        · trivial
      · exact ⟨trivial, h⟩
  | expression source =>
    simp only [Machine.step]
    split
    · exact ⟨trivial, h⟩
    · rename_i e he
      split
      · exact ⟨trivial, h⟩
      · simp only [run_get_bind]
        split
        · rename_i hok
          have hparsed := parseExpression_parsed (lex_plain source) he
          obtain ⟨hsafe, hready⟩ := h.evalExpr Eval.fuel
            (resolveExpression_scoped (hparsed.1 0) hok)
          simp only [run_bind_exec]
          generalize exec (Eval.evalExpr Eval.fuel _) m = r at hsafe hready
          obtain ⟨(f | _) | v, m'⟩ := r
          · refine ⟨fun f' hf' => ?_, hready.clearOutput⟩
            change f' ∈ [f] at hf'
            exact List.mem_singleton.1 hf' ▸ hsafe f rfl
          · exact ⟨trivial, hready.clearOutput⟩
          · exact ⟨trivial, hready.clearOutput⟩
        · exact ⟨trivial, h⟩

/-! ## Code runs at the level of the frames around it -/

/-- A machine from which code inside `d` frames runs: sound and wired, with the globals at the
root and the scope the code runs in at level `d`. -/
structure Aligned (d : Nat) (c : Code) (m : Machine) : Prop where
  sound : Sound m
  wired : Wired m
  root : m.scopes.parentOf Scopes.globals = none
  level : m.scopes.Level (c.scope m) d
  inside : c.Scoped d

/-- Running a piece of code from a machine aligned with it leaves a wired machine. -/
theorem Wired.after (hs : Sound m) (hw : Wired m) (n : Nat) {c : Code} {d : Nat}
    (hl : m.scopes.Level (c.scope m) d) (hc : c.Scoped d) : Wired (c.after n m) := by
  cases c with
  | expr e => exact ((agreement n).expr e d m hs hw hl hc).1
  | args es => exact ((agreement n).args es d m hs hw hl hc).1
  | stmt s => exact ((agreement n).stmt s d m hs hw hl hc).1
  | loop c body => exact ((agreement n).loop c body d m hs hw hl hc.1 hc.2).1
  | block body scope => exact ((agreement n).block body scope d m hs hw hl hc).1
  | stmts ss => exact ((agreement n).stmts ss d m hs hw hl hc).1

/-- A ready machine runs top-level code at level `0`. -/
theorem Ready.aligned (h : Ready m) {s : Stmt} (hs : Stmt.Scoped .resolved 0 s) :
    Aligned 0 (.stmt s) m :=
  ⟨h.sound, h.wired, h.root, h.level, hs⟩

namespace Aligned

variable {d : Nat} {c c' : Code}

/-- A part starts aligned where its code is. -/
theorem part (h : Aligned d c m) (hp : c.Part c') : Aligned d c' m :=
  ⟨h.sound, h.wired, h.root, (hp.scope_eq m).2 ▸ (hp.scope_eq m).1 ▸ h.level,
    hp.scoped h.inside⟩

/-- Once a part has run, however it ended, its code is still aligned. -/
theorem after (h : Aligned d c m) (hp : c.Part c') (n : Nat) : Aligned d c (c'.after n m) := by
  obtain ⟨hs, hf⟩ := h.sound.part n hp
  have hl : m.scopes.Level m.current d := (hp.scope_eq m).1 ▸ h.level
  refine ⟨hs, Wired.after h.sound h.wired n ((hp.scope_eq m).2 ▸ hl) (hp.scoped h.inside),
    (hf.parentOf_eq _ h.sound.wf.globals_live).trans h.root, ?_, h.inside⟩
  rw [(hp.scope_eq _).1]
  exact hf.level_current hl

/-- A block statement opens its scope one level below the current one. -/
theorem enter {body : List Stmt} (h : Aligned d (.stmt (.block body)) m) :
    Aligned (d + 1) (.block body (m.scopes.child m.current).2)
      { m with scopes := (m.scopes.child m.current).1 } := by
  obtain ⟨hs1, ho1⟩ := h.sound.child h.sound.current_live
  have hbody : ∀ s ∈ body, Stmt.Scoped .resolved (d + 1) s := by
    have hsc : Stmt.Scoped .resolved d (.block body) := h.inside
    cases hsc with
    | block hb => exact hb
  exact ⟨hs1, h.wired.child h.sound.wf _, (ho1.parentOf_eq _ h.sound.wf.globals_live).trans h.root,
    h.sound.wf.level_child h.level, hbody⟩

/-- A block runs its statements with its scope as the current one. -/
theorem block {body : List Stmt} {scope : Nat} (h : Aligned d (.block body scope) m) :
    Aligned d (.stmts body) { m with current := scope } :=
  ⟨h.sound.setCurrent h.level.live, h.wired.of_eq rfl rfl, h.root, h.level, h.inside⟩

/-- A name that aligned code uses, found `h` frames out, lies inside the frames around it: it
is looked for `h` links out from a scope at level `d`, with `h < d`. -/
theorem name_lt {e : Expr} {r : Reference} {h : Nat} (ha : Aligned d (.expr e) m)
    (he : e = .variable r ∨ e = .this r ∨ ∃ v, e = .assign r v) (hh : r.hops = some h) :
    h < d := by
  have hsc : Expr.Scoped .resolved d e := ha.inside
  rcases he with rfl | rfl | ⟨v, rfl⟩
  · cases hsc with
    | «variable» hr => exact hr h hh
  · cases hsc with
    | this hr => exact hr h hh
  · cases hsc with
    | assign hr _ _ => exact hr h hh

/-- `super` in aligned code is found at least one frame out and inside the frames around it. -/
theorem super_lt {keyword : Reference} {member : Token}
    (ha : Aligned d (.expr (.superMember keyword member)) m) :
    ∃ h, keyword.hops = some (h + 1) ∧ h + 1 < d := by
  have hsc : Expr.Scoped .resolved d (.superMember keyword member) := ha.inside
  cases hsc with
  | superMember hk => exact hk.2

/-- A call of a function that fits, from a sound, wired machine with the globals at the root,
runs the function's body as a block from an aligned machine: in the scope of its parameters,
at the level of the frames around the body. -/
theorem entry (n : Nat) {name : Option String} {params : List Token} {body : List Stmt}
    {scope : Nat} {receiver : Option Value} {isInit : Bool} {args : List Value} (hs : Sound m)
    (hm : Wired m) (hroot : m.scopes.parentOf Scopes.globals = none)
    (hf : Callable.Wired m.scopes (.closure name params body scope receiver isInit))
    (hargs : AllFit m args) :
    ∃ c m1 D, (exec (runBody (n + 1) params body scope receiver args) m).1 =
      returnOf (exec (execBlock n body c) m1).1 ∧ Aligned D (.block body c) m1 := by
  cases hf with
  | @unbound _ _ _ _ d hpin hp hch hbody =>
    obtain ⟨hs2, ho2, hm2, hch2⟩ := Wired.entry_unbound hs hm hpin hp hch hargs
    refine ⟨_, _, d + 1, by rw [exec_runBody_none], hs2, hm2, ?_, hch2, hbody⟩
    exact (ho2.parentOf_eq _ hs.wf.globals_live).trans hroot
  | @bound _ _ _ _ this _ hmem hr =>
    obtain ⟨-, hpin, hp, d, hch, hbody⟩ := hmem
    obtain ⟨hr1, ho1, hs3, ho3, hm3, hch3⟩ := Wired.entry_bound hs hm hpin hp hch hr hargs
    refine ⟨_, _, d + 2, by rw [exec_runBody_some], hs3, hm3, ?_, hch3, hbody⟩
    exact ((ho3.parentOf_eq _ hr1.wf.globals_live).trans
      (ho1.parentOf_eq _ hs.wf.globals_live)).trans hroot

end Aligned

/-- Steps of a session, from a ready machine, report no fault of the interpreter's own and
leave a ready machine. -/
theorem Ready.steps : ∀ (steps : List Step) {m : Machine}, Ready m →
    (∀ r ∈ ((steps.mapM Machine.step).run m).1, r.outcome.Safe) ∧
      Ready ((steps.mapM Machine.step).run m).2
  | [], _, h => ⟨fun _ hr => (by cases hr), h⟩
  | st :: sts, m, h => by
    obtain ⟨hsafe, hready⟩ := h.step st
    simp only [List.mapM_cons, StateT.run_bind]
    generalize (Machine.step st).run m = S at hsafe hready
    obtain ⟨report, m'⟩ := S
    obtain ⟨hrest, hready'⟩ := Ready.steps sts hready
    refine ⟨fun r hr => ?_, hready'⟩
    change r ∈ report :: ((sts.mapM Machine.step).run m').1 at hr
    rcases List.mem_cons.1 hr with rfl | hr
    · exact hsafe
    · exact hrest r hr

end Machine

open Machine in
/-- Every piece of code that a run of aligned code reaches is run from a machine aligned with
it, at the level of the frames around it. -/
theorem Eval.Reaches.aligned {c c' : Eval.Code} {m m' : Machine} (hr : Eval.Reaches c m c' m')
    {d : Nat} (h : Aligned d c m) : ∃ d', Aligned d' c' m' := by
  induction hr generalizing d with
  | refl => exact ⟨d, h⟩
  | part hp _ ih => exact ih (h.part hp)
  | after n hp _ ih => exact ih (h.after hp n)
  | enter _ ih => exact ih h.enter
  | block _ ih => exact ih h.block

open Machine Eval in
/-- Resolution and evaluation agree on where every name lives.

A program that resolution accepts has every name found in a local frame inside the frames
around it, and `super` at least one frame out. From a scope at level `d`, walking `h` links out
reaches the `h`-th scope of its lineage, which holds one scope for each frame and then the
globals: the scope that stands for the frame `h` out, at level `d - h` and at no other level.

Every piece of code is run from a machine aligned with it, its scope at the level of the frames
around it. Between top-level statements of a session the machine is ready, and top-level code,
inside no frame, runs at level `0`. A call of a function runs the function's body as a block at
the level of the frames around the body: one below the level of the scope it closes over, or
two, past the scope of `this`, when it is bound. And every piece of code that a run of aligned
code reaches, through the parts it runs and the blocks it opens, is run from an aligned
machine. So whenever a variable, `this` or the target of an assignment is evaluated, with the
name found `h` frames out, the walk of `h` links from the current scope reaches the scope of
the frame that resolution found it in, and `super`, found `h + 1` frames out, the scope of
`super`: never a scope of a deeper or shallower frame.

Evaluation, at any fuel, keeps the machine wired (`Agreement`) and never faults as the
interpreter's own fault: no scope chain too short, no missing scope, no `super` that is not a
class, no initializer without its receiver. No run of a source text, under either policy, and
no step of a session reports such a fault. -/
theorem resolution_agrees_with_evaluation :
    (∀ (globals : List String) (source : String) (r : Resolved (List Stmt)),
      analyze globals source = .parsed r → r.isOk → ∀ s ∈ r.tree, Stmt.Scoped .resolved 0 s) ∧
    (∀ (A : Scopes) (s d : Nat), A.parentOf Scopes.globals = none → A.Level s d →
      ∃ l, A.Lineage s l ∧ l.length = d + 1 ∧ l.getLast? = some Scopes.globals ∧
        ∀ h t, l[h]? = some t → A.ancestor s h = .ok t ∧ ∀ k, A.Level t k ↔ k = d - h) ∧
    (∀ (clock : Float) (steps : List Step),
      Ready ((steps.mapM Machine.step).run (Machine.initial clock)).2) ∧
    (∀ (m : Machine) (s : Stmt), Ready m → Stmt.Scoped .resolved 0 s → Aligned 0 (.stmt s) m) ∧
    (∀ (n : Nat) (name : Option String) (params : List Token) (body : List Stmt) (scope : Nat)
      (receiver : Option Value) (isInit : Bool) (args : List Value) (m : Machine),
      Sound m → Wired m → m.scopes.parentOf Scopes.globals = none →
      Callable.Wired m.scopes (.closure name params body scope receiver isInit) →
      AllFit m args →
      ∃ c m1 D, (exec (runBody (n + 1) params body scope receiver args) m).1 =
        returnOf (exec (execBlock n body c) m1).1 ∧ Aligned D (.block body c) m1) ∧
    (∀ (c c' : Eval.Code) (m m' : Machine) (d : Nat), Aligned d c m →
      Eval.Reaches c m c' m' → ∃ d', Aligned d' c' m') ∧
    (∀ (d : Nat) (e : Expr) (m : Machine) (r : Reference) (h : Nat), Aligned d (.expr e) m →
      (e = .variable r ∨ e = .this r ∨ ∃ v, e = .assign r v) → r.hops = some h →
      h < d ∧ ∃ t, m.scopes.ancestor m.current h = .ok t ∧ ∀ k, m.scopes.Level t k ↔ k = d - h) ∧
    (∀ (d : Nat) (keyword : Reference) (member : Token) (m : Machine),
      Aligned d (.expr (.superMember keyword member)) m →
      ∃ h, keyword.hops = some (h + 1) ∧ h + 1 < d ∧ ∃ t,
        m.scopes.ancestor m.current (h + 1) = .ok t ∧ ∀ k, m.scopes.Level t k ↔ k = d - (h + 1)) ∧
    (∀ n, Agreement n) ∧
    (∀ (policy : Policy) (clock : Float) (source : String) (warnings : List UnusedLocal)
      (faults : List RuntimeFault) (output : String) (stopped : Bool),
      runSource policy clock source = .finished warnings faults output stopped →
      ∀ f ∈ faults, ¬ f.Internal) ∧
    (∀ (clock : Float) (steps : List Step), ∀ r ∈ runSession clock steps, r.outcome.Safe) := by
  refine ⟨fun _ _ _ h hok => analyze_scoped h hok, fun _ _ _ hroot hc => hc.walk hroot,
    fun clock steps => ((Ready.initial clock).steps steps).2, fun _ _ h hs => h.aligned hs,
    fun n _ _ _ _ _ _ _ _ hs hm hroot hf hargs => Aligned.entry n hs hm hroot hf hargs,
    fun _ _ _ _ _ h hr => hr.aligned h, fun _ _ _ _ _ ha he hh => ?_, fun _ _ _ _ ha => ?_,
    agreement, ?_, fun clock steps => ((Ready.initial clock).steps steps).1⟩
  · have hlt := ha.name_lt he hh
    exact ⟨hlt, ha.level.reach ha.root (Nat.le_of_lt hlt)⟩
  · obtain ⟨h, hh, hlt⟩ := ha.super_lt
    exact ⟨h, hh, hlt, ha.level.reach ha.root (Nat.le_of_lt hlt)⟩
  intro policy clock source warnings faults output stopped h
  unfold runSource at h
  dsimp only at h
  split at h
  · cases h
  · rename_i r hr
    split at h
    · rename_i hok
      have hi := (Ready.initial clock).interpret policy (analyze_scoped hr hok)
      generalize (Machine.interpret policy r.tree).run (Machine.initial clock) = I at hi h
      obtain ⟨⟨fs, st⟩, m'⟩ := I
      cases h
      exact hi.1
    · cases h

/-- A scope opened under the globals lies one level down; its lineage is itself and the globals,
and a name found one frame out is read in the globals. -/
theorem child_of_globals_walk :
    (Scopes.new.child Scopes.globals).1.parentOf Scopes.globals = none ∧
      (Scopes.new.child Scopes.globals).1.Level (Scopes.new.child Scopes.globals).2 1 ∧
      ∃ l, (Scopes.new.child Scopes.globals).1.Lineage (Scopes.new.child Scopes.globals).2 l ∧
        l.length = 1 + 1 ∧ l.getLast? = some Scopes.globals ∧
        ∀ h t, l[h]? = some t →
          (Scopes.new.child Scopes.globals).1.ancestor (Scopes.new.child Scopes.globals).2 h =
            .ok t ∧ ∀ k, (Scopes.new.child Scopes.globals).1.Level t k ↔ k = 1 - h :=
  have hroot : (Scopes.new.child Scopes.globals).1.parentOf Scopes.globals = none := rfl
  have hlev := Scopes.new_wf.level_child (.base Scopes.new_wf.globals_live)
  ⟨hroot, hlev, resolution_agrees_with_evaluation.2.1 _ _ _ hroot hlev⟩

end Lox
