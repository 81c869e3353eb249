import Lox.Resolution.Basic
import Lox.Proofs.Exits
/-!
# What resolution guarantees

Resolution reports a fault only by adding it, and it leaves the loop depth and the function
context as it found them. It reports a `break` outside a loop of its own function body, a
`return` at the top level and a `return` with a value in an initializer; so when it reports
nothing, the tree it gives back is confined (`Stmt.Confined`). The main statement is
`resolveProgram_confined`.
-/

namespace Lox

/-- The code that a function context resolves: top-level code, a function or method body, or
an initializer's body. -/
def Body.ofContext : Resolution.FunctionContext → Body
  | .none => .topLevel
  | .function => .function
  | .method => .function
  | .initializer => .initializer

namespace Resolution

variable {α β : Type}

theorem run_bind (x : ResolveM α) (f : α → ResolveM β) (s : State) :
    (x >>= f).run s = (f (x.run s).1).run (x.run s).2 := rfl

theorem run_get (s : State) : (get : ResolveM State).run s = (s, s) := rfl

theorem run_modify (f : State → State) (s : State) :
    (modify f : ResolveM Unit).run s = ((), f s) := rfl

theorem run_pure (a : α) (s : State) : (pure a : ResolveM α).run s = (a, s) := rfl

/-- From `s` to `s'` resolution only added faults, and left the loop depth and the function
context as they were. -/
structure Keeps (s s' : State) : Prop where
  faults_le : s.faults.size ≤ s'.faults.size
  loopDepth_eq : s'.loopDepth = s.loopDepth
  functionContext_eq : s'.functionContext = s.functionContext

theorem Keeps.refl (s : State) : Keeps s s := ⟨Nat.le_refl _, rfl, rfl⟩

theorem Keeps.trans {s s' s'' : State} (h : Keeps s s') (g : Keeps s' s'') : Keeps s s'' :=
  ⟨Nat.le_trans h.faults_le g.faults_le, g.loopDepth_eq.trans h.loopDepth_eq,
    g.functionContext_eq.trans h.functionContext_eq⟩

/-- Whether the place of a state is inside a loop of the function body being resolved. -/
def State.inLoop (s : State) : Bool := s.loopDepth != 0

/-- From `s`, `x` keeps the state, and when it reports no fault its result satisfies `P` at the
place of `s`. -/
def CheckedAt (x : ResolveM α) (P : Bool → Body → α → Prop) (s : State) : Prop :=
  Keeps s (x.run s).2 ∧
    ((x.run s).2.faults.size = s.faults.size →
      P s.inLoop (Body.ofContext s.functionContext) (x.run s).1)

/-- From any state, `x` keeps it, and when it reports no fault its result satisfies `P` at the
place where it started. -/
def Checks (x : ResolveM α) (P : Bool → Body → α → Prop) : Prop := ∀ s, CheckedAt x P s

/-- A step that keeps every state and whose result needs nothing. -/
def Quiet (x : ResolveM α) : Prop := ∀ s, Keeps s (x.run s).2

theorem Quiet.checks {x : ResolveM α} (hx : Quiet x) : Checks x fun _ _ _ => True :=
  fun s => ⟨hx s, fun _ => trivial⟩

theorem Checks.pure {P : Bool → Body → α → Prop} {a : α} (h : ∀ l b, P l b a) :
    Checks (Pure.pure a) P :=
  fun s => ⟨.refl s, fun _ => h _ _⟩

/-- A fault reported by `x` is one `x >>= f` reports too; what `f` needs of `x`'s result
holds when neither reports one. -/
theorem Checks.bind {Q : Bool → Body → α → Prop} {P : Bool → Body → β → Prop} {x : ResolveM α}
    {f : α → ResolveM β} (hx : Checks x Q) (hf : ∀ a, Checks (f a) fun l b r => Q l b a → P l b r) :
    Checks (x >>= f) P := by
  intro s
  obtain ⟨hk1, hq⟩ := hx s
  obtain ⟨hk2, hp⟩ := hf (x.run s).1 (x.run s).2
  refine ⟨hk1.trans hk2, fun h => ?_⟩
  have h1 : (x.run s).2.faults.size = s.faults.size :=
    Nat.le_antisymm (h ▸ hk2.faults_le) hk1.faults_le
  have h2 : ((f (x.run s).1).run (x.run s).2).2.faults.size = (x.run s).2.faults.size :=
    h1 ▸ h
  have hp := hp h2
  unfold State.inLoop at hp ⊢
  rw [hk1.loopDepth_eq, hk1.functionContext_eq] at hp
  exact hp (hq h1)

theorem Quiet.bind {x : ResolveM α} {f : α → ResolveM β} (hx : Quiet x) (hf : ∀ a, Quiet (f a)) :
    Quiet (x >>= f) :=
  fun s => (hx s).trans (hf _ _)

theorem Quiet.pure {a : α} : Quiet (Pure.pure a : ResolveM α) := fun s => .refl s

theorem Checks.mono {P Q : Bool → Body → α → Prop} {x : ResolveM α} (hx : Checks x P)
    (h : ∀ l b a, P l b a → Q l b a) : Checks x Q :=
  fun s => ⟨(hx s).1, fun e => h _ _ _ ((hx s).2 e)⟩

/-- A fault reported makes every requirement hold vacuously. -/
theorem checks_report {P : Bool → Body → Unit → Prop} (f : StaticFault) : Checks (report f) P := by
  intro s
  unfold CheckedAt
  have hs : ((report f).run s).2 = { s with faults := s.faults.push f } := rfl
  rw [hs]
  exact ⟨⟨by simp, rfl, rfl⟩, fun h => by simp at h⟩

theorem quiet_report (f : StaticFault) : Quiet (report f) :=
  fun s => (checks_report (P := fun _ _ _ => True) f s).1

/-- A step that changes only what `frames`, `globals`, `classContext` and `warnings` hold. -/
theorem quiet_modify {g : State → State} (hf : ∀ s, (g s).faults = s.faults)
    (hl : ∀ s, (g s).loopDepth = s.loopDepth) (hc : ∀ s, (g s).functionContext = s.functionContext) :
    Quiet (modify g) :=
  fun s => ⟨Nat.le_of_eq (congrArg Array.size (hf s)).symm, hl s, hc s⟩

theorem quiet_beginScope (b : Bool) : Quiet (beginScope b) :=
  quiet_modify (fun _ => rfl) (fun _ => rfl) fun _ => rfl

theorem quiet_endScope : Quiet endScope := by
  refine quiet_modify (fun s => ?_) (fun s => ?_) fun s => ?_ <;> (split <;> rfl)

theorem quiet_define (name : Token) : Quiet (define name) := by
  refine quiet_modify (fun s => ?_) (fun s => ?_) fun s => ?_ <;>
    ((repeat' split) <;> rfl)

theorem quiet_insertKeyword (keyword : String) (token : Token) :
    Quiet (insertKeyword keyword token) := by
  refine quiet_modify (fun s => ?_) (fun s => ?_) fun s => ?_ <;> (split <;> rfl)

theorem quiet_setClassContext (c : ClassContext) : Quiet (setClassContext c) :=
  quiet_modify (fun _ => rfl) (fun _ => rfl) fun _ => rfl

theorem Quiet.get_bind {f : State → ResolveM α} (h : ∀ s, Keeps s ((f s).run s).2) :
    Quiet (get >>= f) := h

theorem Quiet.ite {c : Prop} [Decidable c] {x y : ResolveM α} (hx : Quiet x) (hy : Quiet y) :
    Quiet (if c then x else y) := by
  split
  · exact hx
  · exact hy

theorem quiet_declare (name : Token) (reportUnused : Bool) : Quiet (declare name reportUnused) := by
  refine Quiet.get_bind fun s => ?_
  split
  · split
    · exact ⟨Nat.le_refl _, rfl, rfl⟩
    · exact .refl s
  · split
    · exact quiet_report _ s
    · exact ⟨Nat.le_refl _, rfl, rfl⟩

theorem quiet_resolveLocal (r : Reference) (read : Bool) : Quiet (resolveLocal r read) := by
  refine Quiet.get_bind fun s => ?_
  dsimp only
  split
  · exact ⟨Nat.le_refl _, rfl, rfl⟩
  · exact Quiet.ite (Quiet.bind (quiet_report _) fun _ => Quiet.pure) Quiet.pure s

/-- Declaring the parameters of a function, one after another. -/
theorem quiet_params (params : List Token) :
    Quiet (forIn params PUnit.unit fun p _ => do
      declare p false
      define p
      Pure.pure (ForInStep.yield PUnit.unit) : ResolveM PUnit) := by
  induction params with
  | nil => exact Quiet.pure
  | cons p ps ih =>
    simp only [List.forIn_cons]
    refine Quiet.bind (Quiet.bind (quiet_declare p false) fun _ =>
      Quiet.bind (quiet_define p) fun _ => Quiet.pure) fun r => ?_
    split
    · exact Quiet.pure
    · exact ih

/-- A function body, resolved with the function context set to `kind` and no loop around it;
both are restored afterwards. -/
def withinFunction (kind : FunctionContext) (x : ResolveM α) : ResolveM α := do
  let s ← get
  modify fun s => { s with functionContext := kind, loopDepth := 0 }
  let a ← x
  modify fun s' => { s' with functionContext := s.functionContext, loopDepth := s.loopDepth }
  Pure.pure a

theorem Checks.withinFunction {P : Bool → Body → α → Prop} {x : ResolveM α} (kind : FunctionContext)
    (hx : Checks x P) : Checks (withinFunction kind x) fun _ _ a => P false (Body.ofContext kind) a := by
  intro s
  unfold CheckedAt
  simp only [Resolution.withinFunction, run_bind, run_get, run_modify, run_pure]
  obtain ⟨hk, hp⟩ := hx { s with functionContext := kind, loopDepth := 0 }
  exact ⟨⟨hk.faults_le, rfl, rfl⟩, fun h => hp h⟩

theorem resolveFunction_eq (params : List Token) (body : List Stmt) (kind : FunctionContext) :
    resolveFunction params body kind = withinFunction kind (do
      beginScope true
      for p in params do
        declare p false
        define p
      let body ← resolveStmts body
      endScope
      Pure.pure body) := by
  unfold resolveFunction withinFunction
  simp only [bind_assoc, pure_bind]

/-- The four tables of members of a class, resolved one after another. -/
def classMembers (methods getters statics staticGetters : List FunDecl) :
    ResolveM (List FunDecl × List FunDecl × List FunDecl × List FunDecl) := do
  let ms ← resolveMembers true methods
  let gs ← resolveMembers false getters
  let ss ← resolveMembers false statics
  let sgs ← resolveMembers false staticGetters
  Pure.pure (ms, gs, ss, sgs)

/-- The frame of `this` around the members of a class: opened, the members resolved in it, and
closed. -/
def classBody (name : Token) (methods getters statics staticGetters : List FunDecl) :
    ResolveM (List FunDecl × List FunDecl × List FunDecl × List FunDecl) := do
  beginScope false
  insertKeyword "this" name
  let b ← classMembers methods getters statics staticGetters
  endScope
  Pure.pure b

/-- What a class does with its superclass, if it has one: it reports a class that inherits from
itself, resolves the superclass as a read inside a subclass, and opens the frame of `super`. -/
def superFrame (name : Token) : Option Reference → ResolveM (Option Reference)
  | some r => do
    if r.name.lexeme = name.lexeme then report (.inheritsItself r.name)
    setClassContext .subclass
    let r ← resolveLocal r true
    beginScope false
    insertKeyword "super" name
    Pure.pure (some r)
  | none => Pure.pure none

/-- A class declaration in its stages: the name, declared and defined where the class stands;
the frame of `super`; the frame of `this` with the members; and the class context restored. -/
theorem resolveStmt_classDecl (name : Token) (sup : Option Reference)
    (methods getters statics staticGetters : List FunDecl) :
    resolveStmt (.classDecl name sup methods getters statics staticGetters) = (do
      let enclosing := (← get).classContext
      setClassContext .plain
      declare name true
      define name
      let sup ← superFrame name sup
      let b ← classBody name methods getters statics staticGetters
      if sup.isSome then endScope
      setClassContext enclosing
      Pure.pure (.classDecl name sup b.1 b.2.1 b.2.2.1 b.2.2.2)) := by
  rw [resolveStmt]
  cases sup with
  | none => simp only [superFrame, classBody, classMembers, bind_assoc, pure_bind]
  | some r =>
    -- the report of a class inheriting from itself is a one-armed `if`
    by_cases h : r.name.lexeme = name.lexeme <;>
      simp only [superFrame, classBody, classMembers, h, if_true, if_false, bind_assoc,
        pure_bind]

/-- The members are resolved with the frame of `this` on top, and the frame is closed after. -/
theorem classBody_run (name : Token) (methods getters statics staticGetters : List FunDecl)
    (s : State) :
    (classBody name methods getters statics staticGetters).run s =
      let p := (classMembers methods getters statics staticGetters).run
        { s with frames := ⟨[("this", ⟨.used, name, false⟩)], false⟩ :: s.frames }
      (p.1, (endScope.run p.2).2) := rfl

/-- With a superclass: the report of a class inheriting from itself, the superclass resolved
inside a subclass, and the frame of `super` opened over what that leaves. -/
theorem superFrame_run (name : Token) (r : Reference) (s : State) :
    (superFrame name (some r)).run s =
      let w := (StateT.run (if r.name.lexeme = name.lexeme then report (.inheritsItself r.name)
        else (Pure.pure () : ResolveM Unit)) s).2
      let p := (resolveLocal r true).run { w with classContext := .subclass }
      (some p.1,
        { p.2 with frames := ⟨[("super", ⟨.used, name, false⟩)], false⟩ :: p.2.frames }) := by
  by_cases h : r.name.lexeme = name.lexeme <;> simp only [superFrame, h, if_true, if_false] <;> rfl

/-- The body of a loop, resolved one loop deeper. -/
theorem Checks.loop {P : Bool → Body → α → Prop} {x : ResolveM α} {k : α → β} (hx : Checks x P) :
    Checks (do
      modify fun s => { s with loopDepth := s.loopDepth + 1 }
      let a ← x
      modify fun s => { s with loopDepth := s.loopDepth - 1 }
      Pure.pure (k a)) fun _ b r => ∃ a, r = k a ∧ P true b a := by
  intro s
  unfold CheckedAt
  simp only [run_bind, run_modify, run_pure]
  obtain ⟨hk, hp⟩ := hx { s with loopDepth := s.loopDepth + 1 }
  refine ⟨⟨hk.faults_le, by simp [hk.loopDepth_eq], hk.functionContext_eq⟩, fun h => ⟨_, rfl, ?_⟩⟩
  simpa [State.inLoop] using hp h

theorem Checks.after {P : Bool → Body → β → Prop} {x : ResolveM α} {f : α → ResolveM β}
    (hx : Quiet x) (hf : ∀ a, Checks (f a) P) : Checks (x >>= f) P :=
  hx.checks.bind fun a => (hf a).mono fun _ _ _ h _ => h

theorem Checks.ite {P : Bool → Body → α → Prop} {c : Prop} [Decidable c] {x y : ResolveM α}
    (hx : Checks x P) (hy : Checks y P) : Checks (if c then x else y) P := by
  split
  · exact hx
  · exact hy

/-- After a fault is reported, nothing more needs to hold. -/
theorem Checks.report_bind {P Q : Bool → Body → β → Prop} (f : StaticFault)
    {k : Unit → ResolveM β} (hk : ∀ a, Checks (k a) Q) : Checks (report f >>= k) P :=
  (checks_report (P := fun _ _ _ => False) f).bind fun a =>
    (hk a).mono fun _ _ _ _ h => h.elim

theorem quiet_get : Quiet (get : ResolveM State) := fun s => .refl s

/-- A step that reads the state first is checked at each state it may read. -/
theorem Checks.get_bind {P : Bool → Body → α → Prop} {f : State → ResolveM α}
    (h : ∀ s, CheckedAt (f s) P s) : Checks (get >>= f) P := h

theorem Checks.quiet {P : Bool → Body → α → Prop} {x : ResolveM α} (h : Checks x P) : Quiet x :=
  fun s => (h s).1

/-- A function body resolves to a body confined as the body of a function of that kind. -/
theorem Checks.function {P : Bool → Body → List Stmt → Prop} {body : List Stmt}
    (params : List Token) (kind : FunctionContext) (h : Checks (resolveStmts body) P) :
    Checks (resolveFunction params body kind) fun _ _ b => P false (Body.ofContext kind) b := by
  rw [resolveFunction_eq]
  refine Checks.withinFunction kind ?_
  refine Checks.after (quiet_beginScope true) fun _ => Checks.after (quiet_params params) fun _ => ?_
  refine h.bind fun b => Checks.after quiet_endScope fun _ => ?_
  exact Checks.pure fun _ _ hb => hb

/-- The members of a class, resolved as instance methods or not, have confined bodies: an
instance method named `init` as an initializer's, every other as a function's. -/
def MembersConfined (instanceMethods : Bool) (ds : List FunDecl) : Prop :=
  ∀ d ∈ ds, ∀ s ∈ d.body,
    Stmt.Confined false (if instanceMethods && d.name.lexeme = "init" then .initializer else .function) s

theorem ofContext_member (instanceMethods : Bool) (name : String) :
    Body.ofContext (if instanceMethods && name = "init" then .initializer else .method) =
      if instanceMethods && name = "init" then .initializer else .function := by
  split <;> rfl

theorem MembersConfined.append {instanceMethods : Bool} {a b : List FunDecl}
    (ha : MembersConfined instanceMethods a) (hb : MembersConfined instanceMethods b) :
    MembersConfined instanceMethods (a ++ b) :=
  fun d hd => (List.mem_append.1 hd).elim (ha d) (hb d)

/-- The four tables of members, resolved one after another: the instance methods confined as
such, the others as functions. -/
theorem checks_classMembers {methods getters statics staticGetters : List FunDecl}
    (hm : Checks (resolveMembers true methods) fun _ _ ds => MembersConfined true ds)
    (hg : Checks (resolveMembers false getters) fun _ _ ds => MembersConfined false ds)
    (hs : Checks (resolveMembers false statics) fun _ _ ds => MembersConfined false ds)
    (hsg : Checks (resolveMembers false staticGetters) fun _ _ ds => MembersConfined false ds) :
    Checks (classMembers methods getters statics staticGetters) fun _ _ b =>
      MembersConfined true b.1 ∧ MembersConfined false (b.2.1 ++ b.2.2.1 ++ b.2.2.2) :=
  hm.bind fun _ => hg.bind fun _ => hs.bind fun _ => hsg.bind fun _ =>
    Checks.pure fun _ _ hsgs hss hgs hms => ⟨hms, (hgs.append hss).append hsgs⟩

/-- The frame of `this` is opened and closed around the members, and changes no place. -/
theorem checks_classBody (name : Token) {methods getters statics staticGetters : List FunDecl}
    {P : Bool → Body → List FunDecl × List FunDecl × List FunDecl × List FunDecl → Prop}
    (h : Checks (classMembers methods getters statics staticGetters) P) :
    Checks (classBody name methods getters statics staticGetters) P := by
  unfold classBody
  exact Checks.after (quiet_beginScope false) fun _ => Checks.after (quiet_insertKeyword _ _)
    fun _ => h.bind fun _ => Checks.after quiet_endScope fun _ => Checks.pure fun _ _ hb => hb

/-- The frame of `super` keeps the loop depth and the function context. -/
theorem quiet_superFrame (name : Token) : ∀ sup : Option Reference, Quiet (superFrame name sup)
  | none => Quiet.pure
  | some r => by
    have hopen : Quiet (do
        setClassContext .subclass
        let r ← resolveLocal r true
        beginScope false
        insertKeyword "super" name
        Pure.pure (some r) : ResolveM (Option Reference)) :=
      (quiet_setClassContext _).bind fun _ => (quiet_resolveLocal r true).bind fun _ =>
        (quiet_beginScope false).bind fun _ => (quiet_insertKeyword _ _).bind fun _ => Quiet.pure
    simp only [superFrame]
    exact Quiet.ite ((quiet_report _).bind fun _ => hopen) hopen

mutual

theorem checks_resolveExpr : ∀ e : Expr, Checks (resolveExpr e) fun _ _ e' => Expr.Confined e'
  | .assign r v => by
    rw [resolveExpr]
    refine (checks_resolveExpr v).bind fun v' => Checks.after (quiet_resolveLocal r false) fun _ => ?_
    exact Checks.pure fun _ _ hv => .assign hv
  | .binary l op t r => by
    rw [resolveExpr]
    refine (checks_resolveExpr l).bind fun l' => (checks_resolveExpr r).bind fun r' => ?_
    exact Checks.pure fun _ _ hr hl => .binary hl hr
  | .call callee paren args => by
    rw [resolveExpr]
    refine (checks_resolveExpr callee).bind fun c' => (checks_resolveExprs args).bind fun a' => ?_
    exact Checks.pure fun _ _ ha hc => .call hc ha
  | .get obj name => by
    rw [resolveExpr]
    refine (checks_resolveExpr obj).bind fun o' => ?_
    exact Checks.pure fun _ _ ho => .get ho
  | .lambda keyword params body => by
    rw [resolveExpr]
    refine (Checks.function params .function (checks_resolveStmts body)).bind fun b' => ?_
    exact Checks.pure fun _ _ hb => .lambda hb
  | .grouping e => by
    rw [resolveExpr]
    refine (checks_resolveExpr e).bind fun e' => ?_
    exact Checks.pure fun _ _ he => .grouping he
  | .literal l => by
    rw [resolveExpr]
    exact Checks.pure fun _ _ => .literal
  | .logical l op t r => by
    rw [resolveExpr]
    refine (checks_resolveExpr l).bind fun l' => (checks_resolveExpr r).bind fun r' => ?_
    exact Checks.pure fun _ _ hr hl => .logical hl hr
  | .set obj name v => by
    rw [resolveExpr]
    refine (checks_resolveExpr v).bind fun v' => (checks_resolveExpr obj).bind fun o' => ?_
    exact Checks.pure fun _ _ ho hv => .set ho hv
  | .superMember keyword member => by
    rw [resolveExpr]
    refine Checks.after quiet_get fun d => ?_
    split
    · exact Checks.report_bind _ fun _ => Quiet.pure.checks
    · exact Checks.report_bind _ fun _ => Quiet.pure.checks
    · exact Checks.after (quiet_resolveLocal keyword true) fun _ =>
        Checks.pure fun _ _ => .superMember
  | .conditional c q a b => by
    rw [resolveExpr]
    refine (checks_resolveExpr c).bind fun c' => (checks_resolveExpr a).bind fun a' => ?_
    refine (checks_resolveExpr b).bind fun b' => ?_
    exact Checks.pure fun _ _ hb ha hc => .conditional hc ha hb
  | .this keyword => by
    rw [resolveExpr]
    refine Checks.after quiet_get fun d => ?_
    split
    · exact Checks.report_bind _ fun _ => Quiet.pure.checks
    · exact Checks.after (quiet_resolveLocal keyword true) fun _ => Checks.pure fun _ _ => .this
  | .unary op t e => by
    rw [resolveExpr]
    refine (checks_resolveExpr e).bind fun e' => ?_
    exact Checks.pure fun _ _ he => .unary he
  | .variable r => by
    rw [resolveExpr]
    exact Checks.after (quiet_resolveLocal r true) fun _ => Checks.pure fun _ _ => .variable

theorem checks_resolveExprs : ∀ es : List Expr,
    Checks (resolveExprs es) fun _ _ es' => ∀ e ∈ es', Expr.Confined e
  | [] => by
    rw [resolveExprs]
    exact Checks.pure fun _ _ e he => by cases he
  | e :: es => by
    rw [resolveExprs]
    refine (checks_resolveExpr e).bind fun e' => (checks_resolveExprs es).bind fun es' => ?_
    refine Checks.pure fun _ _ hes he x hx => ?_
    rcases List.mem_cons.1 hx with rfl | hx
    · exact he
    · exact hes x hx

theorem checks_resolveOptExpr : ∀ o : Option Expr,
    Checks (resolveOptExpr o) fun _ _ o' => ∀ e, o' = some e → Expr.Confined e
  | none => by
    rw [resolveOptExpr]
    exact Checks.pure fun _ _ e he => by cases he
  | some e => by
    rw [resolveOptExpr]
    refine (checks_resolveExpr e).bind fun e' => ?_
    exact Checks.pure fun _ _ he x hx => by cases hx; exact he

theorem checks_resolveMembers (instanceMethods : Bool) : ∀ ds : List FunDecl,
    Checks (resolveMembers instanceMethods ds) fun _ _ ds' => MembersConfined instanceMethods ds' 
  | [] => by
    rw [resolveMembers]
    exact Checks.pure fun _ _ d hd => by cases hd
  | .mk name params body :: rest => by
    rw [resolveMembers]
    refine (Checks.function params _ (checks_resolveStmts body)).bind fun b' => ?_
    refine (checks_resolveMembers instanceMethods rest).bind fun rest' => ?_
    refine Checks.pure fun _ _ hrest hb d hd => ?_
    rcases List.mem_cons.1 hd with rfl | hd
    · rw [← ofContext_member]
      exact hb
    · exact hrest d hd

theorem checks_resolveStmt : ∀ s : Stmt, Checks (resolveStmt s) fun l b s' => Stmt.Confined l b s'
  | .block body => by
    rw [resolveStmt]
    refine Checks.after (quiet_beginScope false) fun _ => (checks_resolveStmts body).bind fun b' => ?_
    exact Checks.after quiet_endScope fun _ => Checks.pure fun _ _ hb => .block hb
  | .breakLoop keyword => by
    rw [resolveStmt]
    refine Checks.get_bind fun s => ?_
    split
    · exact Checks.report_bind _ (fun _ => Quiet.pure.checks) s
    · rename_i h
      refine ⟨.refl s, fun _ => ?_⟩
      have hl : s.inLoop = true := by simp [State.inLoop, h]
      rw [hl]
      exact .breakLoop
  | .classDecl name sup methods getters statics staticGetters => by
    rw [resolveStmt_classDecl]
    refine Checks.after quiet_get fun d => ?_
    dsimp only
    refine Checks.after (quiet_setClassContext _) fun _ => Checks.after (quiet_declare name true)
      fun _ => Checks.after (quiet_define name) fun _ =>
      Checks.after (quiet_superFrame name sup) fun sup' => ?_
    refine (checks_classBody name (checks_classMembers (checks_resolveMembers true methods)
      (checks_resolveMembers false getters) (checks_resolveMembers false statics)
      (checks_resolveMembers false staticGetters))).bind fun b => ?_
    -- the frame of `super`, if any, is closed, and the class context restored
    have hclass : Checks (setClassContext d.classContext >>= fun _ =>
        Pure.pure (Stmt.classDecl name sup' b.1 b.2.1 b.2.2.1 b.2.2.2)) fun l bd r =>
          MembersConfined true b.1 ∧ MembersConfined false (b.2.1 ++ b.2.2.1 ++ b.2.2.2) →
            Stmt.Confined l bd r :=
      Checks.after (quiet_setClassContext _) fun _ => Checks.pure fun _ _ ⟨hms, hrest⟩ =>
        .classDecl (by simpa [MembersConfined] using hms) (by simpa [MembersConfined] using hrest)
    exact Checks.ite (Checks.after quiet_endScope fun _ => hclass) hclass
  | .expression e => by
    rw [resolveStmt]
    refine (checks_resolveExpr e).bind fun e' => ?_
    exact Checks.pure fun _ _ he => .expression he
  | .function (.mk name params body) => by
    rw [resolveStmt]
    refine Checks.after (quiet_declare name true) fun _ => Checks.after (quiet_define name) fun _ => ?_
    refine (Checks.function params .function (checks_resolveStmts body)).bind fun b' => ?_
    exact Checks.pure fun _ _ hb => .function hb
  | .ifElse c t e => by
    rw [resolveStmt]
    refine (checks_resolveExpr c).bind fun c' => (checks_resolveStmt t).bind fun t' => ?_
    refine (checks_resolveOptStmt e).bind fun e' => ?_
    exact Checks.pure fun _ _ he ht hc => .ifElse hc ht he
  | .print e => by
    rw [resolveStmt]
    refine (checks_resolveExpr e).bind fun e' => ?_
    exact Checks.pure fun _ _ he => .print he
  | .returnFrom keyword none => by
    rw [resolveStmt]
    refine Checks.get_bind fun s => ?_
    extract_lets context tail
    split
    · exact Checks.report_bind _ (fun _ => Quiet.pure.checks) s
    · rename_i h
      have hs : ¬ s.functionContext = .none := h
      refine ⟨.refl s, fun _ => .returnNothing ?_⟩
      cases hc : s.functionContext <;> simp_all [Body.ofContext]
  | .returnFrom keyword (some e) => by
    rw [resolveStmt]
    refine Checks.get_bind fun s => ?_
    extract_lets context tail
    -- the value may only be returned from a function or method body
    have hvalue : Checks (resolveExpr e >>= fun e' => Pure.pure (Stmt.returnFrom keyword (some e')))
        fun l b r => b = .function → Stmt.Confined l b r :=
      (checks_resolveExpr e).bind fun e' => Checks.pure fun _ _ he hb => hb ▸ .returnValue he
    have htail : ∀ a, Quiet (tail a) := by
      intro a
      simp only [tail]
      exact Quiet.ite (Quiet.bind (quiet_report _) fun _ => hvalue.quiet) hvalue.quiet
    split
    · exact Checks.report_bind _ (fun a => (htail a).checks) s
    · rename_i h0
      have hs0 : ¬ s.functionContext = .none := h0
      show CheckedAt (tail ()) _ s
      simp only [tail]
      split
      · exact Checks.report_bind _ (fun _ => hvalue.quiet.checks) s
      · rename_i h1
        have hs1 : ¬ s.functionContext = .initializer := h1
        obtain ⟨hk, hp⟩ := hvalue s
        refine ⟨hk, fun h => hp h ?_⟩
        cases hc : s.functionContext <;> simp_all [Body.ofContext]
  | .varDecl name init => by
    rw [resolveStmt]
    refine Checks.after (quiet_declare name true) fun _ => (checks_resolveOptExpr init).bind fun i' => ?_
    exact Checks.after (quiet_define name) fun _ => Checks.pure fun _ _ hi => .varDecl hi
  | .whileLoop c body => by
    rw [resolveStmt]
    refine (checks_resolveExpr c).bind fun c' => ?_
    refine ((checks_resolveStmt body).loop (k := Stmt.whileLoop c')).mono ?_
    rintro _ _ _ ⟨b', rfl, hb⟩ hc
    exact .whileLoop hc hb

theorem checks_resolveStmts : ∀ ss : List Stmt,
    Checks (resolveStmts ss) fun l b ss' => ∀ s ∈ ss', Stmt.Confined l b s
  | [] => by
    rw [resolveStmts]
    exact Checks.pure fun _ _ s hs => by cases hs
  | s :: ss => by
    rw [resolveStmts]
    refine (checks_resolveStmt s).bind fun s' => (checks_resolveStmts ss).bind fun ss' => ?_
    refine Checks.pure fun _ _ hss hs x hx => ?_
    rcases List.mem_cons.1 hx with rfl | hx
    · exact hs
    · exact hss x hx

theorem checks_resolveOptStmt : ∀ o : Option Stmt,
    Checks (resolveOptStmt o) fun l b o' => ∀ s, o' = some s → Stmt.Confined l b s
  | none => by
    rw [resolveOptStmt]
    exact Checks.pure fun _ _ s hs => by cases hs
  | some s => by
    rw [resolveOptStmt]
    refine (checks_resolveStmt s).bind fun s' => ?_
    exact Checks.pure fun _ _ hs x hx => by cases hx; exact hs

end

end Resolution

open Resolution

/-- A program that resolution accepts is confined top-level code: every `break` stands in a
loop of its own function body, every `return` in a function body, and none with a value in an
initializer. -/
theorem resolveProgram_confined {globals : List String} {program : List Stmt}
    (h : (resolveProgram globals program).isOk) :
    ∀ s ∈ (resolveProgram globals program).tree, Stmt.Confined false .topLevel s := by
  obtain ⟨_, hp⟩ := checks_resolveStmts program (State.initial globals)
  unfold resolveProgram at h ⊢
  revert hp h
  generalize (resolveStmts program).run (State.initial globals) = r
  obtain ⟨tree, st⟩ := r
  intro h hp
  simp only [Resolved.isOk, List.isEmpty_iff, Array.toList_eq_nil_iff] at h
  exact hp (by simp [h, State.initial])

/-- An expression that resolution accepts has only functions with confined bodies in it. -/
theorem resolveExpression_confined {globals : List String} {e : Expr}
    (h : (resolveExpression globals e).isOk) : Expr.Confined (resolveExpression globals e).tree := by
  obtain ⟨_, hp⟩ := checks_resolveExpr e (State.initial globals)
  unfold resolveExpression at h ⊢
  revert hp h
  generalize (resolveExpr e).run (State.initial globals) = r
  obtain ⟨tree, st⟩ := r
  intro h hp
  simp only [Resolved.isOk, List.isEmpty_iff, Array.toList_eq_nil_iff] at h
  exact hp (by simp [h, State.initial])

end Lox
