import Lox.Proofs.Agreement
/-!
# Arity faults name two different counts

A call reports that it got the wrong number of arguments only after comparing the two counts,
and no other step of evaluation reports that fault. So every arity fault that evaluation raises
names two different counts: "Expected 2 arguments but got 2." never arises.

`RuntimeFault.Honest` says that of one fault, and `Eval.Honest x` that `x`, run from any
machine, raises no other. Scope lookups and operators raise no arity fault at all; `honesty`
proves `Honest` of every part of evaluation at every fuel, by induction on the fuel with one
lemma per function of the evaluator.
-/

namespace Lox

/-- A fault that is no arity fault, or an arity fault that names two different counts. -/
def RuntimeFault.Honest : RuntimeFault → Prop
  | .wrongArity _ expected given => expected ≠ given
  | _ => True

/-! ## Lookups and operators raise no arity fault -/

namespace Scopes

variable (A : Scopes) {name : Token} {f : RuntimeFault}

theorem ancestorFrom_honest (total : Nat) :
    ∀ {k s : Nat}, A.ancestorFrom total k s = .error f → f.Honest
  | 0, _, he => by cases he
  | k + 1, s, he => by
    simp only [ancestorFrom] at he
    split at he
    · cases he; trivial
    · split at he
      · exact ancestorFrom_honest total he
      · cases he; trivial

theorem readSlot_honest {v : Option Value} (he : readSlot name v = .error f) : f.Honest := by
  cases v with
  | some _ => cases he
  | none => cases he; trivial

theorem getAt_honest {s h : Nat} (he : A.getAt s h name = .error f) : f.Honest := by
  simp only [getAt, ancestor, bind, Except.bind] at he
  split at he
  · cases he
    exact A.ancestorFrom_honest h ‹_›
  · split at he
    · cases he; trivial
    · split at he
      · exact readSlot_honest he
      · cases he; trivial

theorem getFrom_honest : ∀ {fuel s : Nat}, A.getFrom name fuel s = .error f → f.Honest
  | 0, _, he => by cases he; trivial
  | fuel + 1, s, he => by
    simp only [getFrom] at he
    split at he
    · cases he; trivial
    · split at he
      · exact readSlot_honest he
      · split at he
        · exact getFrom_honest he
        · cases he; trivial

theorem assignAt_honest {s h : Nat} {v : Value} (he : A.assignAt s h name v = .error f) :
    f.Honest := by
  simp only [assignAt, ancestor, bind, Except.bind] at he
  split at he
  · cases he
    exact A.ancestorFrom_honest h ‹_›
  · split at he
    · cases he; trivial
    · split at he
      · cases he
      · cases he; trivial

theorem assignFrom_honest {v : Value} :
    ∀ {fuel s : Nat}, A.assignFrom name v fuel s = .error f → f.Honest
  | 0, _, he => by cases he; trivial
  | fuel + 1, s, he => by
    simp only [assignFrom] at he
    split at he
    · cases he; trivial
    · split at he
      · cases he
      · split at he
        · exact assignFrom_honest he
        · cases he; trivial

end Scopes

section Operators

variable {t : Token} {a b : Value} {f : RuntimeFault}

theorem numbersOf_honest (h : numbersOf t a b = .error f) : f.Honest := by
  unfold numbersOf at h
  split at h <;> cases h
  trivial

theorem integersOf_honest (h : integersOf t a b = .error f) : f.Honest := by
  simp only [integersOf, bind, Except.bind] at h
  split at h
  · cases h
    exact numbersOf_honest ‹_›
  · split at h <;> cases h
    trivial

theorem divisorOf_honest {y : Float} (h : divisorOf t y = .error f) : f.Honest := by
  unfold divisorOf at h
  split at h <;> cases h
  trivial

/-- An operator's fault is about its operands, never about a call. -/
theorem BinaryOp.apply_honest {op : BinaryOp} (h : op.apply t a b = .error f) : f.Honest := by
  cases op <;> simp only [BinaryOp.apply, bind, Except.bind] at h <;>
    (repeat' split at h) <;> cases h <;>
    first
      | exact numbersOf_honest ‹_›
      | exact integersOf_honest ‹_›
      | exact divisorOf_honest ‹_›
      | trivial

end Operators

/-! ## Computations that raise only honest faults -/

namespace Eval

open Machine (exec_invoke exec_runBody_none exec_runBody_some exec_execBlock returnOf)

/-- Run from any machine, `x` raises only honest faults. -/
def Honest {α : Type} (x : Eval α) : Prop :=
  ∀ m f, (exec x m).1 = .error (.fault f) → f.Honest

/-- An outcome that is no fault, or an honest one. -/
def HonestOutcome {α : Type} (r : Except Interrupt α) : Prop :=
  ∀ f, r = .error (.fault f) → f.Honest

variable {α β : Type}

namespace Honest

theorem pure (a : α) : Honest (Pure.pure a : Eval α) := fun _ _ h => by cases h

theorem outOfFuel : Honest (throw .outOfFuel : Eval α) := fun _ _ h => by cases h

theorem fail {f : RuntimeFault} (hf : f.Honest) : Honest (Eval.fail f : Eval α) :=
  fun _ _ h => by cases h; exact hf

theorem ofExcept {r : Except RuntimeFault α} (hr : ∀ f, r = .error f → f.Honest) :
    Honest (Eval.ofExcept r) := by
  cases r with
  | error f => exact fail (hr f rfl)
  | ok a => exact pure a

/-- A step that always gives a result. -/
theorem of_ok {x : Eval α} (hx : ∀ m, ∃ a, (exec x m).1 = .ok a) : Honest x := by
  intro m f h
  obtain ⟨a, ha⟩ := hx m
  rw [ha] at h
  cases h

theorem bind {x : Eval α} {f : α → Eval β} (hx : Honest x) (hf : ∀ a, Honest (f a)) :
    Honest (x >>= f) := by
  intro m e h
  rw [exec_bind] at h
  rcases hxm : exec x m with ⟨r, m1⟩
  rw [hxm] at h
  cases r with
  | error i =>
    cases h
    exact hx m e (by rw [hxm])
  | ok a => exact hf a m1 e h

theorem map {x : Eval α} (g : α → β) (hx : Honest x) : Honest (g <$> x) := by
  rw [map_eq_pure_bind]
  exact hx.bind fun a => pure (g a)

/-- Running `x` and passing on how it ended, whatever runs in between. -/
theorem attempt_bind {x : Eval α} {k : Except Interrupt α → Eval β} (hx : Honest x)
    (hk : ∀ r, HonestOutcome r → Honest (k r)) : Honest (attempt x >>= k) := by
  intro m f h
  rw [exec_bind, exec_attempt] at h
  exact hk _ (hx m) _ f h

theorem resume {r : Except Interrupt α} (hr : HonestOutcome r) : Honest (Eval.resume r) :=
  fun m f h => hr f (by rw [exec_resume] at h; exact h)

end Honest

theorem honest_get : Honest (get : Eval Machine) := .of_ok fun _ => ⟨_, rfl⟩
theorem honest_stamp : Honest stamp := .of_ok fun _ => ⟨_, rfl⟩
theorem honest_currentScope : Honest currentScope := .of_ok fun _ => ⟨_, rfl⟩
theorem honest_childOf (p : Nat) : Honest (childOf p) := .of_ok fun _ => ⟨_, rfl⟩
theorem honest_pin (s : Nat) : Honest (pin s) := .of_ok fun _ => ⟨_, rfl⟩
theorem honest_release (s : Nat) : Honest (release s) := .of_ok fun _ => ⟨_, rfl⟩
theorem honest_emit (text : String) : Honest (emit text) := .of_ok fun _ => ⟨_, rfl⟩
theorem honest_newInstance (c : ClassDef) : Honest (newInstance c) := .of_ok fun _ => ⟨_, rfl⟩

theorem honest_define (s : Nat) (name : String) (v : Option Value) : Honest (define s name v) :=
  .of_ok fun _ => ⟨_, rfl⟩

theorem honest_field? (i : Nat) (name : String) : Honest (field? i name) :=
  .of_ok fun _ => ⟨_, rfl⟩

theorem honest_setField (i : Nat) (name : String) (v : Value) : Honest (setField i name v) :=
  .of_ok fun _ => ⟨_, rfl⟩

theorem honest_lookup (r : Reference) : Honest (lookup r) := by
  unfold lookup
  refine honest_get.bind fun m => ?_
  split
  · exact .ofExcept fun f hf => m.scopes.getAt_honest hf
  · exact .ofExcept fun f hf => m.scopes.getFrom_honest hf

theorem honest_assignTo (r : Reference) (v : Value) : Honest (assignTo r v) := by
  intro m f h
  cases hh : r.hops with
  | some k =>
    rw [exec_assignTo_local m hh] at h
    split at h
    · cases h
    · cases h
      exact m.scopes.assignAt_honest ‹_›
  | none =>
    rw [exec_assignTo_global m hh] at h
    split at h
    · cases h
    · cases h
      exact m.scopes.assignFrom_honest ‹_›

theorem honestOutcome_returnOf {r : Except Interrupt Flow} (h : HonestOutcome r) :
    HonestOutcome (returnOf r) := by
  intro f hf
  rcases r with e | (_ | _ | v) <;> cases hf
  exact h f rfl

/-! ## Every part of evaluation is honest -/

/-- Every part of evaluation at fuel `n`, run from any machine, raises only honest faults. -/
structure Honesty (n : Nat) : Prop where
  expr : ∀ e, Honest (evalExpr n e)
  args : ∀ es, Honest (evalArgs n es)
  invoke : ∀ c paren args, Honest (Eval.invoke n c paren args)
  call : ∀ f args, Honest (callFunction n f args)
  body : ∀ params body scope receiver args, Honest (runBody n params body scope receiver args)
  construct : ∀ c args, Honest (Eval.construct n c args)
  instanceProperty : ∀ i c name, Honest (Eval.instanceProperty n i c name)
  staticProperty : ∀ s c name, Honest (Eval.staticProperty n s c name)
  superMember : ∀ keyword member, Honest (Eval.superMember n keyword member)
  stmt : ∀ s, Honest (execStmt n s)
  loop : ∀ c body, Honest (execWhile n c body)
  block : ∀ body scope, Honest (execBlock n body scope)
  stmts : ∀ ss, Honest (execStmts n ss)

variable {n : Nat}

theorem Honesty.expr_succ (ih : Honesty n) (e : Expr) : Honest (evalExpr (n + 1) e) := by
  cases e with
  | assign r v =>
    simp only [evalExpr]
    exact (ih.expr v).bind fun a => (honest_assignTo r a).bind fun _ => .pure a
  | binary l op t r =>
    simp only [evalExpr]
    exact (ih.expr l).bind fun a => (ih.expr r).bind fun b =>
      .ofExcept fun _ hf => BinaryOp.apply_honest hf
  | call callee paren args =>
    simp only [evalExpr]
    refine (ih.expr callee).bind fun f => (ih.args args).bind fun vs => ?_
    split
    · exact ih.invoke _ paren vs
    · exact ih.invoke _ paren vs
    · exact .fail trivial
  | get obj name =>
    simp only [evalExpr]
    refine (ih.expr obj).bind fun o => ?_
    split
    · exact ih.instanceProperty _ _ name
    · exact ih.staticProperty _ _ name
    · exact .fail trivial
  | lambda keyword params body =>
    simp only [evalExpr]
    exact honest_currentScope.bind fun p => (honest_pin p).bind fun _ =>
      honest_stamp.bind fun s => .pure _
  | grouping e =>
    simp only [evalExpr]
    exact ih.expr e
  | literal l =>
    simp only [evalExpr]
    exact .pure _
  | logical l op t r =>
    simp only [evalExpr]
    refine (ih.expr l).bind fun a => ?_
    cases op <;> dsimp only <;> split
    all_goals first | exact ih.expr r | exact .pure a
  | set obj name v =>
    simp only [evalExpr]
    refine (ih.expr obj).bind fun o => ?_
    split
    · exact (ih.expr v).bind fun a => (honest_setField _ _ a).bind fun _ => .pure a
    · exact .fail trivial
  | superMember keyword member =>
    simp only [evalExpr]
    exact ih.superMember keyword member
  | conditional c q a b =>
    simp only [evalExpr]
    refine (ih.expr c).bind fun v => ?_
    split
    · exact ih.expr a
    · exact ih.expr b
    · exact .fail trivial
  | this r =>
    simp only [evalExpr]
    exact honest_lookup r
  | unary op t e =>
    simp only [evalExpr]
    refine (ih.expr e).bind fun v => ?_
    split
    · exact .pure _
    · exact .fail trivial
    · exact .pure _
  | «variable» r =>
    simp only [evalExpr]
    exact honest_lookup r

theorem Honesty.args_succ (ih : Honesty n) (es : List Expr) : Honest (evalArgs (n + 1) es) := by
  cases es with
  | nil =>
    simp only [evalArgs]
    exact .pure _
  | cons e es =>
    simp only [evalArgs]
    exact (ih.expr e).bind fun v => (ih.args es).bind fun vs => .pure _

/-- The arity fault of a call is raised only when the counts differ. -/
theorem Honesty.invoke_succ (ih : Honesty n) (c : Callee) (paren : Token) (args : List Value) :
    Honest (Eval.invoke (n + 1) c paren args) := by
  intro m f h
  rw [exec_invoke] at h
  split at h
  · cases h
    exact Ne.symm ‹_›
  split at h
  · cases h; trivial
  cases c with
  | function g => exact ih.call g args _ f h
  | classOf k => exact ih.construct k args _ f h

theorem Honesty.body_succ (ih : Honesty n) (params : List Token) (body : List Stmt)
    (scope : Nat) (receiver : Option Value) (args : List Value) :
    Honest (runBody (n + 1) params body scope receiver args) := by
  intro m f h
  cases receiver with
  | none =>
    rw [exec_runBody_none] at h
    exact honestOutcome_returnOf (ih.block body _ _) f h
  | some this =>
    rw [exec_runBody_some] at h
    exact honestOutcome_returnOf (ih.block body _ _) f h

theorem Honesty.call_succ (ih : Honesty n) (f : Callable) (args : List Value) :
    Honest (callFunction (n + 1) f args) := by
  cases f with
  | native name arity =>
    simp only [callFunction]
    exact honest_get.bind fun _ => .pure _
  | closure name params body scope receiver isInit =>
    cases receiver with
    | none =>
      simp only [callFunction]
      split
      · exact .fail trivial
      · exact ih.body _ _ _ _ args
    | some this =>
      simp only [callFunction]
      split
      · exact (ih.body _ _ _ _ args).bind fun _ => .pure _
      · exact ih.body _ _ _ _ args

theorem Honesty.construct_succ (ih : Honesty n) (c : ClassDef) (args : List Value) :
    Honest (Eval.construct (n + 1) c args) := by
  simp only [Eval.construct]
  refine (honest_newInstance c).bind fun inst => ?_
  split
  · exact (ih.call _ args).bind fun _ => .pure inst
  · exact .pure inst

theorem Honesty.instanceProperty_succ (ih : Honesty n) (i : Nat) (c : ClassDef) (name : Token) :
    Honest (Eval.instanceProperty (n + 1) i c name) := by
  simp only [Eval.instanceProperty]
  refine (honest_field? i name.lexeme).bind fun o => ?_
  split
  · exact .pure _
  · split
    · exact ih.invoke _ name []
    · split
      · exact honest_stamp.bind fun _ => .pure _
      · exact .fail trivial

theorem Honesty.staticProperty_succ (ih : Honesty n) (s : Nat) (c : ClassDef) (name : Token) :
    Honest (Eval.staticProperty (n + 1) s c name) := by
  simp only [Eval.staticProperty]
  split
  · exact ih.invoke _ name []
  · split
    · exact honest_stamp.bind fun _ => .pure _
    · exact .fail trivial

theorem Honesty.superMember_succ (ih : Honesty n) (keyword : Reference) (member : Token) :
    Honest (Eval.superMember (n + 1) keyword member) := by
  simp only [Eval.superMember]
  split
  · exact .fail trivial
  · refine honest_get.bind fun m => ?_
    refine (Honest.ofExcept fun f hf => m.scopes.getAt_honest hf).bind fun v => ?_
    split
    · split
      · exact .fail trivial
      · refine honest_get.bind fun m' => ?_
        refine (Honest.ofExcept fun f hf => m'.scopes.getAt_honest hf).bind fun r => ?_
        split
        · exact ih.invoke _ member []
        · split
          · exact honest_stamp.bind fun _ => .pure _
          · exact .fail trivial
    · exact .fail trivial

theorem Honesty.block_succ (ih : Honesty n) (body : List Stmt) (scope : Nat) :
    Honest (execBlock (n + 1) body scope) := by
  intro m f h
  rw [exec_execBlock] at h
  exact ih.stmts body _ f h

theorem Honesty.stmts_succ (ih : Honesty n) (ss : List Stmt) :
    Honest (execStmts (n + 1) ss) := by
  cases ss with
  | nil =>
    simp only [execStmts]
    exact .pure _
  | cons s ss =>
    simp only [execStmts]
    refine (ih.stmt s).bind fun fl => ?_
    split
    · exact ih.stmts ss
    · exact .pure _

theorem Honesty.loop_succ (ih : Honesty n) (c : Expr) (body : Stmt) :
    Honest (execWhile (n + 1) c body) := by
  simp only [execWhile]
  refine (ih.expr c).bind fun v => ?_
  split
  · refine (ih.stmt body).bind fun fl => ?_
    split
    · exact ih.loop c body
    · exact .pure _
    · exact .pure _
  · exact .pure _

theorem Honesty.stmt_succ (ih : Honesty n) (s : Stmt) : Honest (execStmt (n + 1) s) := by
  cases s with
  | block body =>
    simp only [execStmt]
    exact honest_currentScope.bind fun p => (honest_childOf p).bind fun scope =>
      (ih.block body scope).attempt_bind fun r hr => (honest_release scope).bind fun _ =>
        .resume hr
  | breakLoop =>
    simp only [execStmt]
    exact .pure _
  | classDecl name sup methods getters statics staticGetters =>
    unfold execStmt
    extract_lets tail
    -- the declaration once its superclass, if it names one, is found
    have htail : ∀ o, Honest (tail o) := by
      intro o
      simp only [tail]
      refine honest_currentScope.bind fun here => (honest_define _ _ _).bind fun _ => ?_
      -- the members close over the scope of `super`, or over the declaring scope
      have hdecl : ∀ scope, Honest ((pin scope >>= fun _ => stamp >>= fun s =>
          define here name.lexeme (some (.classRef s (ClassDef.mk name.lexeme (o.map (·.2))
            (memberTable scope true methods) (memberTable scope false getters)
            (memberTable scope false statics) (memberTable scope false staticGetters)))) >>=
          fun _ => Pure.pure Flow.normal) : Eval Flow) := fun scope =>
        (honest_pin scope).bind fun _ => honest_stamp.bind fun _ =>
          (honest_define _ _ _).bind fun _ => .pure _
      split
      · exact (honest_childOf _).bind fun sc => (honest_define _ _ _).bind fun _ =>
          (Honest.pure sc).bind hdecl
      · exact (Honest.pure _).bind hdecl
    clear_value tail
    split
    · refine (honest_lookup _).bind fun v => ?_
      split
      · exact (Honest.pure _).bind htail
      · exact Honest.bind (.fail trivial) htail
    · exact (Honest.pure _).bind htail
  | expression e =>
    simp only [execStmt]
    exact (ih.expr e).bind fun _ => .pure _
  | function decl =>
    cases decl with
    | mk name params body =>
      simp only [execStmt]
      exact honest_currentScope.bind fun here => (honest_pin here).bind fun _ =>
        honest_stamp.bind fun _ => (honest_define _ _ _).bind fun _ => .pure _
  | ifElse c t e =>
    cases e with
    | some e =>
      simp only [execStmt]
      refine (ih.expr c).bind fun v => ?_
      split
      · exact ih.stmt t
      · exact ih.stmt e
    | none =>
      simp only [execStmt]
      refine (ih.expr c).bind fun v => ?_
      split
      · exact ih.stmt t
      · exact .pure _
  | print e =>
    simp only [execStmt]
    exact (ih.expr e).bind fun v => (honest_emit _).bind fun _ => .pure _
  | returnFrom keyword v =>
    cases v with
    | some e =>
      simp only [execStmt]
      exact (ih.expr e).bind fun _ => .pure _
    | none =>
      simp only [execStmt]
      exact .pure _
  | varDecl name init =>
    cases init with
    | some e =>
      simp only [execStmt]
      exact ((ih.expr e).map some).bind fun v => honest_currentScope.bind fun here =>
        (honest_define _ _ _).bind fun _ => .pure _
    | none =>
      simp only [execStmt]
      exact (Honest.pure _).bind fun v => honest_currentScope.bind fun here =>
        (honest_define _ _ _).bind fun _ => .pure _
  | whileLoop c body =>
    simp only [execStmt]
    exact ih.loop c body

/-- Out of fuel, every part of evaluation stops at once. -/
theorem honesty_zero : Honesty 0 where
  expr _ := by simp only [evalExpr]; exact .outOfFuel
  args _ := by simp only [evalArgs]; exact .outOfFuel
  invoke _ _ _ := by simp only [Eval.invoke]; exact .outOfFuel
  call _ _ := by simp only [callFunction]; exact .outOfFuel
  body _ _ _ _ _ := by simp only [runBody]; exact .outOfFuel
  construct _ _ := by simp only [Eval.construct]; exact .outOfFuel
  instanceProperty _ _ _ := by simp only [Eval.instanceProperty]; exact .outOfFuel
  staticProperty _ _ _ := by simp only [Eval.staticProperty]; exact .outOfFuel
  superMember _ _ := by simp only [Eval.superMember]; exact .outOfFuel
  stmt _ := by simp only [execStmt]; exact .outOfFuel
  loop _ _ := by simp only [execWhile]; exact .outOfFuel
  block _ _ := by simp only [execBlock]; exact .outOfFuel
  stmts _ := by simp only [execStmts]; exact .outOfFuel

theorem Honesty.succ (ih : Honesty n) : Honesty (n + 1) where
  expr := ih.expr_succ
  args := ih.args_succ
  invoke := ih.invoke_succ
  call := ih.call_succ
  body := ih.body_succ
  construct := ih.construct_succ
  instanceProperty := ih.instanceProperty_succ
  staticProperty := ih.staticProperty_succ
  superMember := ih.superMember_succ
  stmt := ih.stmt_succ
  loop := ih.loop_succ
  block := ih.block_succ
  stmts := ih.stmts_succ

theorem honesty : ∀ n, Honesty n
  | 0 => honesty_zero
  | n + 1 => (honesty n).succ

end Eval

end Lox
