import Lox.Proofs.Mirror
import Lox.Proofs.Session
/-!
# Taking slots back cannot be observed

The interpreter lets go of the scope of a block or a call when it ends, and a later scope may
take its slot. Under the reference allocator `Allocator.fresh` no slot is ever taken back. Run
side by side from machines that mirror each other, the two evaluations go step by step alike
(`Machine.Simulates`): each step ends in machines that mirror each other again, up to a renaming
of slots that changes only where a new scope opens, and both fail alike or give results renamed
alike. A scope the interpreter lets go of is pinned, or no scope in use and no function that
evaluation can reach lies under it (`Machine.Opens.release_safe`), so its slot is in no lineage
the rest of the run walks, and when it is taken again the renaming is only redirected there.

A program therefore runs under the reference allocator exactly as under the interpreter, and a
session gives the same reports up to a renaming of the slots inside the values it gives back,
which nothing a program can observe of a value sees.

## Main statements

* `Lox.Machine.simulates`: every part of evaluation, at any fuel, goes alike under the
  interpreter and under the reference allocator.
* `Lox.Machine.fresh_runSource`, `Lox.Machine.fresh_runSession`: programs and sessions.
-/

namespace Lox

/-- What a call invokes, with its functions renamed. -/
def Eval.Callee.rename (φ : Nat → Nat) : Eval.Callee → Eval.Callee
  | .function f => .function (f.rename φ)
  | .classOf c => .classOf (c.rename φ)

@[simp] theorem Eval.Callee.arity_rename (φ : Nat → Nat) (c : Eval.Callee) :
    (c.rename φ).arity = c.arity := by
  cases c <;> simp [Eval.Callee.rename, Eval.Callee.arity]

/-- How a step of a session ended, with the value it gives renamed. -/
def StepOutcome.rename (φ : Nat → Nat) : StepOutcome → StepOutcome
  | .evaluated v => .evaluated (v.rename φ)
  | o => o

/-- A step's report, with the value it gives renamed. -/
def StepReport.rename (φ : Nat → Nat) (rep : StepReport) : StepReport :=
  { rep with outcome := rep.outcome.rename φ }

theorem Value.IsData.rename_eq {φ : Nat → Nat} {v : Value} (h : v.IsData) : v.rename φ = v := by
  cases v with
  | function _ _ | classRef _ _ | instanceRef _ _ => exact h.elim
  | _ => rfl

namespace Machine

open Eval Scopes

variable {α β γ δ : Type} {φ ψ : Nat → Nat} {m m' r r' : Machine}

/-! ## Evaluation under both allocators -/

/-- An operator gives the same outcome on renamed operands, and what it gives holds no scope. -/
theorem binaryOp_renames (op : BinaryOp) (t : Token) (a b : Value) :
    ExceptRel (Renames Value.rename ψ) (op.apply t a b) (op.apply t (a.rename φ) (b.rename φ)) := by
  rw [BinaryOp.apply_rename]
  cases hv : op.apply t a b with
  | error f => rfl
  | ok v => exact (Value.IsData.rename_eq (BinaryOp.apply_data hv)).symm

/-- Every part of evaluation at fuel `n`, run from machines that mirror each other on inputs
renamed alike, goes alike under the interpreter and under the reference allocator. -/
structure Simulates (n : Nat) : Prop where
  expr : ∀ e φ m r, Mirror φ m r →
    Mirrors (evalExpr n e) (evalExpr (A := .fresh) n e) (Renames Value.rename) φ m r
  args : ∀ es φ m r, Mirror φ m r →
    Mirrors (evalArgs n es) (evalArgs (A := .fresh) n es)
      (Renames fun ψ => List.map (Value.rename ψ)) φ m r
  invoke : ∀ c paren args φ m r, Mirror φ m r → CalleeGood m c → AllGood m args →
    Mirrors (Eval.invoke n c paren args)
      (Eval.invoke (A := .fresh) n (c.rename φ) paren (args.map (Value.rename φ)))
      (Renames Value.rename) φ m r
  call : ∀ f args φ m r, Mirror φ m r → Callable.Fns (ScopePinned m.scopes) f → AllGood m args →
    Mirrors (callFunction n f args)
      (callFunction (A := .fresh) n (f.rename φ) (args.map (Value.rename φ)))
      (Renames Value.rename) φ m r
  body : ∀ params body scope receiver args φ m r, Mirror φ m r →
    m.scopes.pinnedAt scope = true → (∀ v, receiver = some v → Good m v) → AllGood m args →
    Mirrors (runBody n params body scope receiver args)
      (runBody (A := .fresh) n params body (φ scope) (receiver.map (Value.rename φ))
        (args.map (Value.rename φ)))
      (Renames Value.rename) φ m r
  construct : ∀ c args φ m r, Mirror φ m r → ClassDef.Fns (ScopePinned m.scopes) c →
    AllGood m args →
    Mirrors (Eval.construct n c args)
      (Eval.construct (A := .fresh) n (c.rename φ) (args.map (Value.rename φ)))
      (Renames Value.rename) φ m r
  instanceProperty : ∀ i c name φ m r, Mirror φ m r → ClassDef.Fns (ScopePinned m.scopes) c →
    Mirrors (Eval.instanceProperty n i c name)
      (Eval.instanceProperty (A := .fresh) n i (c.rename φ) name) (Renames Value.rename) φ m r
  staticProperty : ∀ s c name φ m r, Mirror φ m r → ClassDef.Fns (ScopePinned m.scopes) c →
    Mirrors (Eval.staticProperty n s c name)
      (Eval.staticProperty (A := .fresh) n s (c.rename φ) name) (Renames Value.rename) φ m r
  superMember : ∀ keyword member φ m r, Mirror φ m r →
    Mirrors (Eval.superMember n keyword member) (Eval.superMember (A := .fresh) n keyword member)
      (Renames Value.rename) φ m r
  stmt : ∀ s φ m r, Mirror φ m r →
    Mirrors (execStmt n s) (execStmt (A := .fresh) n s) (Renames Flow.rename) φ m r
  loop : ∀ c body φ m r, Mirror φ m r →
    Mirrors (execWhile n c body) (execWhile (A := .fresh) n c body) (Renames Flow.rename) φ m r
  block : ∀ body scope φ m r, Mirror φ m r → m.scopes.Live scope →
    Mirrors (execBlock n body scope) (execBlock (A := .fresh) n body (φ scope))
      (Renames Flow.rename) φ m r
  stmts : ∀ ss φ m r, Mirror φ m r →
    Mirrors (execStmts n ss) (execStmts (A := .fresh) n ss) (Renames Flow.rename) φ m r

variable {n : Nat}

theorem Simulates.expr_succ (ih : Simulates n) (e : Expr) (h : Mirror φ m r) :
    Mirrors (evalExpr (n + 1) e) (evalExpr (A := .fresh) (n + 1) e) (Renames Value.rename) φ m r := by
  have hb := balanced n
  cases e with
  | assign ref v =>
    simp only [evalExpr]
    refine (ih.expr v φ m r h).bind_renames (hb.expr v m h.sound)
      fun a m1 r1 ψ1 _ _ ha h1 => ?_
    refine (Mirrors.assignTo h1 ref ha).bind_same (Framed.assignTo h1.sound ref ha)
      fun _ m2 r2 ψ2 hψ2 _ _ h2 => ?_
    exact Mirrors.pure h2 (ha.renames h1.sound hψ2)
  | binary l op t rt =>
    simp only [evalExpr]
    refine (ih.expr l φ m r h).bind_renames (hb.expr l m h.sound)
      fun a m1 r1 ψ1 _ _ ha h1 => ?_
    refine (ih.expr rt ψ1 m1 r1 h1).bind_renames (hb.expr rt m1 h1.sound)
      fun b m2 r2 ψ2 hψ2 hf2 _ h2 => ?_
    rw [show a.rename ψ1 = a.rename ψ2 from (ha.rename_eq h1.sound hψ2).symm]
    exact Mirrors.ofExcept h2 (binaryOp_renames op t a b)
  | call callee paren args =>
    simp only [evalExpr]
    refine (ih.expr callee φ m r h).bind_renames (hb.expr callee m h.sound)
      fun f m1 r1 ψ1 _ _ hf h1 => ?_
    refine (ih.args args ψ1 m1 r1 h1).bind_renames (hb.args args m1 h1.sound)
      fun vs m2 r2 ψ2 hψ2 hf2 hvs h2 => ?_
    -- the callee is renamed as at the end of the arguments
    rw [show f.rename ψ1 = f.rename ψ2 from (hf.rename_eq h1.sound hψ2).symm]
    cases hf.frame hf2 with
    | function s hc => exact ih.invoke (.function _) paren vs ψ2 m2 r2 h2 hc hvs
    | classRef s hc => exact ih.invoke (.classOf _) paren vs ψ2 m2 r2 h2 hc hvs
    | _ => exact Mirrors.fail h2 _
  | get obj name =>
    simp only [evalExpr]
    refine (ih.expr obj φ m r h).bind_renames (hb.expr obj m h.sound)
      fun o m1 r1 ψ1 _ _ ho h1 => ?_
    cases ho with
    | instanceRef i hc => exact ih.instanceProperty i _ name ψ1 m1 r1 h1 hc
    | classRef s hc => exact ih.staticProperty s _ name ψ1 m1 r1 h1 hc
    | _ => exact Mirrors.fail h1 _
  | lambda keyword params body =>
    simp only [evalExpr]
    refine Mirrors.currentScope_bind h ?_
    have hc := h.sound.current_live
    refine (Mirrors.pin h hc).bind_same (Framed.pin h.sound hc)
      fun _ m2 r2 ψ2 hψ2 hf2 _ h2 => ?_
    refine (Mirrors.stamp h2).bind_same (Framed.stamp h2.sound)
      fun k m3 r3 ψ3 hψ3 _ _ h3 => ?_
    refine Mirrors.pure h3 ?_
    simp only [Renames, Value.rename, Callable.rename, Value.renameOption_eq, Option.map_none,
      hψ3 _ (hf2.live _ hc), hψ2 _ hc]
  | grouping e =>
    simp only [evalExpr]
    exact ih.expr e φ m r h
  | literal l =>
    simp only [evalExpr]
    exact Mirrors.pure h (Literal.toValue_rename l).symm
  | logical l op t rt =>
    simp only [evalExpr]
    refine (ih.expr l φ m r h).bind_renames (hb.expr l m h.sound)
      fun a m1 r1 ψ1 _ _ _ h1 => ?_
    rw [Value.truthy_rename]
    -- `and` goes on to the right operand after a truthy left one, `or` after a falsy one
    cases op <;> cases a.truthy <;> simp only [Bool.false_eq_true, if_true, if_false]
    case and.false | or.true => exact Mirrors.pure h1 rfl
    case and.true | or.false => exact ih.expr rt ψ1 m1 r1 h1
  | set obj name v =>
    simp only [evalExpr]
    refine (ih.expr obj φ m r h).bind_renames (hb.expr obj m h.sound)
      fun o m1 r1 ψ1 _ _ _ h1 => ?_
    cases o with
    | instanceRef i c =>
      simp only [Value.rename]
      refine (ih.expr v ψ1 m1 r1 h1).bind_renames (hb.expr v m1 h1.sound)
        fun a m2 r2 ψ2 _ _ ha h2 => ?_
      refine (Mirrors.setField h2 i name.lexeme ha).bind_same (Framed.setField h2.sound i name.lexeme ha)
        fun _ m3 r3 ψ3 hψ3 _ _ h3 => ?_
      exact Mirrors.pure h3 (ha.renames h2.sound hψ3)
    | _ => exact Mirrors.fail h1 _
  | superMember keyword member =>
    simp only [evalExpr]
    exact ih.superMember keyword member φ m r h
  | conditional c q a b =>
    simp only [evalExpr]
    refine (ih.expr c φ m r h).bind_renames (hb.expr c m h.sound)
      fun v m1 r1 ψ1 _ _ _ h1 => ?_
    cases v with
    | bool x =>
      cases x
      · exact ih.expr b ψ1 m1 r1 h1
      · exact ih.expr a ψ1 m1 r1 h1
    | _ => exact Mirrors.fail h1 _
  | this ref =>
    simp only [evalExpr]
    exact Mirrors.lookup h ref
  | unary op t e =>
    simp only [evalExpr]
    refine (ih.expr e φ m r h).bind_renames (hb.expr e m h.sound)
      fun v m1 r1 ψ1 _ _ _ h1 => ?_
    cases op with
    | negate =>
      cases v with
      | number x => exact Mirrors.pure h1 rfl
      | _ => exact Mirrors.fail h1 _
    | not => exact Mirrors.pure h1 (by simp [Renames])
  | «variable» ref =>
    simp only [evalExpr]
    exact Mirrors.lookup h ref

theorem Simulates.args_succ (ih : Simulates n) (es : List Expr) (h : Mirror φ m r) :
    Mirrors (evalArgs (n + 1) es) (evalArgs (A := .fresh) (n + 1) es)
      (Renames fun ψ => List.map (Value.rename ψ)) φ m r := by
  have hb := balanced n
  cases es with
  | nil =>
    simp only [evalArgs]
    exact Mirrors.pure h rfl
  | cons e es =>
    simp only [evalArgs]
    refine (ih.expr e φ m r h).bind_renames (hb.expr e m h.sound)
      fun v m1 r1 ψ1 _ _ hv h1 => ?_
    refine (ih.args es ψ1 m1 r1 h1).bind_renames (hb.args es m1 h1.sound)
      fun vs m2 r2 ψ2 hψ2 _ _ h2 => ?_
    exact Mirrors.pure h2 (by simp only [Renames, List.map_cons, hv.rename_eq h1.sound hψ2])

theorem Simulates.callee (ih : Simulates n) (c : Callee) (args : List Value) (h : Mirror φ m r)
    (hc : CalleeGood m c) (hargs : AllGood m args) :
    Mirrors (runCallee n args c)
      (runCallee (A := .fresh) n (args.map (Value.rename φ)) (c.rename φ))
      (Renames Value.rename) φ m r := by
  cases c with
  | function f => exact ih.call f args φ m r h hc hargs
  | classOf c => exact ih.construct c args φ m r h hc hargs

theorem Simulates.invoke_succ (ih : Simulates n) (c : Callee) (paren : Token) (args : List Value)
    (h : Mirror φ m r) (hc : CalleeGood m c) (hargs : AllGood m args) :
    Mirrors (Eval.invoke (n + 1) c paren args)
      (Eval.invoke (A := .fresh) (n + 1) (c.rename φ) paren (args.map (Value.rename φ)))
      (Renames Value.rename) φ m r := by
  unfold Mirrors
  rw [Machine.exec_invoke, Machine.exec_invoke (A := .fresh)]
  simp only [List.length_map, Callee.arity_rename, h.depth]
  split
  · exact ⟨φ, fun _ _ => rfl, h, rfl⟩
  split
  · exact ⟨φ, fun _ _ => rfl, h, rfl⟩
  obtain ⟨ψ, hψ, hmir, hrel⟩ :=
    ih.callee c args (h.withDepth (d := m.depth + 1) (by omega)) hc hargs
  refine ⟨ψ, hψ, ?_, hrel⟩
  rw [hmir.depth]
  exact hmir.withDepth (by have := hmir.sound.depth_le; omega)

theorem Simulates.call_succ (ih : Simulates n) (f : Callable) (args : List Value)
    (h : Mirror φ m r) (hf : Callable.Fns (ScopePinned m.scopes) f) (hargs : AllGood m args) :
    Mirrors (callFunction (n + 1) f args)
      (callFunction (A := .fresh) (n + 1) (f.rename φ) (args.map (Value.rename φ)))
      (Renames Value.rename) φ m r := by
  have hb := balanced n
  cases hf with
  | native name arity =>
    simp only [callFunction, Callable.rename]
    exact ⟨φ, fun _ _ => rfl, h, congrArg Value.number h.clock⟩
  | closure hp hr =>
    rename_i name params body scope receiver isInit
    cases receiver with
    | some this =>
      simp only [callFunction, Callable.rename, Value.renameOption_eq,
        Option.map_some]
      cases isInit
      · exact ih.body params body scope _ args φ m r h hp hr hargs
      · refine (ih.body params body scope _ args φ m r h hp hr hargs).bind
          (hb.body params body scope _ args m h.sound hp hr hargs)
          fun _ _ m1 r1 ψ1 hψ1 _ _ h1 _ => ?_
        exact Mirrors.pure h1 (Good.renames h.sound (hr this rfl) hψ1)
    | none =>
      simp only [callFunction, Callable.rename, Value.renameOption_eq,
        Option.map_none]
      cases isInit
      · exact ih.body params body scope _ args φ m r h hp hr hargs
      · exact Mirrors.fail h _

/-- A call gives back what its body returned, renamed as the body's flow was. -/
theorem returnOf_renames {x y : Except Interrupt Flow} (h : ExceptRel (Renames Flow.rename ψ) x y) :
    ExceptRel (Renames Value.rename ψ) (returnOf x) (returnOf y) :=
  match x, y, h with
  | .error _, .error _, rfl => rfl
  | .ok fl, .ok _, rfl => by cases fl <;> rfl
  | .ok _, .error _, h => h.elim
  | .error _, .ok _, h => h.elim

/-- The scope of a call's parameters, opened under a scope in use on the left and in a fresh
slot on the right, the arguments bound there, the body run in it and the scope released on the
left: the two runs mirror each other, and the left one frames the machine it started from. -/
theorem Simulates.params (ih : Simulates n) (params : List Token) (body : List Stmt)
    (args : List Value) {q q' : Nat} (h : Mirror φ m r) (hq : m.scopes.Live q) (hq' : q' = φ q)
    (hargs : AllGood m args) :
    let c := (m.scopes.child q).2
    let B := exec (execBlock n body c)
      ((params.zip args).foldl (defineArg c) { m with scopes := (m.scopes.child q).1 })
    let B' := exec (execBlock (A := .fresh) n body r.scopes.slots.size)
      ((params.zip (args.map (Value.rename φ))).foldl (defineArg r.scopes.slots.size)
        { r with scopes := (r.scopes.pushChild q').1 })
    ∃ ψ, (∀ t, m.scopes.Live t → ψ t = φ t) ∧ Frame m { B.2 with scopes := B.2.scopes.release c } ∧
      Mirror ψ { B.2 with scopes := B.2.scopes.release c } B'.2 ∧
      ExceptRel (Renames Flow.rename ψ) B.1 B'.1 := by
  subst hq'
  dsimp only
  have hb := balanced n
  -- the parameters' scope `c` of the left run sits in the fresh slot `n1` on the right
  generalize hc : (m.scopes.child q).2 = c
  generalize hn1 : r.scopes.slots.size = n1
  have h1 := h.child hq
  obtain ⟨hm1, ho1⟩ := h.sound.child hq
  rw [hc, hn1] at h1
  rw [hc] at ho1
  have hold : ∀ t, m.scopes.Live t → redirect φ c n1 t = φ t := fun t ht => by
    rw [← hc]; exact redirect_child_eq q n1 ht
  rw [← hargs.map_rename_eq h.sound hold, List.zip_map_right]
  have h2 := h1.defineArgs (params.zip args) ((ho1.live_iff c).2 (.inr rfl))
    fun x hx => (hargs.zip params x hx).opens ho1
  obtain ⟨hm2, ho2⟩ := ho1.defineArgs _ hm1 fun x hx => (hargs.zip params x hx).opens ho1
  rw [redirect_self] at h2
  have hc2 := (ho2.live_iff c).2 (.inr rfl)
  obtain ⟨ψ, hψ, hmir, hrel⟩ := ih.block body c _ _ _ h2 hc2
  rw [redirect_self] at hmir hrel
  obtain ⟨-, hf3, -⟩ := hb.block body c _ hm2 hc2
  obtain ⟨hmir', hf'⟩ := hmir.close h.sound ho2 hf3
  refine ⟨ψ, fun t ht => ?_, hf', hmir', hrel⟩
  rw [hψ t ((ho2.live_iff t).2 (.inl ht)), hold t ht]

theorem Simulates.body_succ (ih : Simulates n) (params : List Token) (body : List Stmt)
    (scope : Nat) (receiver : Option Value) (args : List Value) (h : Mirror φ m r)
    (hs : m.scopes.pinnedAt scope = true) (hr : ∀ v, receiver = some v → Good m v)
    (hargs : AllGood m args) :
    Mirrors (runBody (n + 1) params body scope receiver args)
      (runBody (A := .fresh) (n + 1) params body (φ scope) (receiver.map (Value.rename φ))
        (args.map (Value.rename φ)))
      (Renames Value.rename) φ m r := by
  have hlive := h.sound.wf.live_of_pinned hs
  unfold Mirrors
  cases receiver with
  | none =>
    rw [Option.map_none, Machine.exec_runBody_none, Allocator.exec_runBody_none (A := .fresh)]
    simp only [fresh_child, fresh_release, Scopes.pushChild_snd]
    obtain ⟨ψ, hψ, -, hmir, hrel⟩ := ih.params params body args h hlive rfl hargs
    exact ⟨ψ, hψ, hmir, returnOf_renames hrel⟩
  | some this =>
    rw [Option.map_some, Machine.exec_runBody_some, Allocator.exec_runBody_some (A := .fresh)]
    simp only [Machine.openReceiver, fresh_child, fresh_release,
      Scopes.pushChild_snd]
    -- the receiver's scope `rs` takes the fresh slot `n1` on the right, and holds `this`
    have h1 := h.child hlive
    obtain ⟨hm1, ho1⟩ := h.sound.child hlive
    have hold1 : ∀ t, m.scopes.Live t →
        redirect φ (m.scopes.child scope).2 r.scopes.slots.size t = φ t :=
      fun t ht => redirect_child_eq scope _ ht
    have hrs := (ho1.live_iff (m.scopes.child scope).2).2 (.inr rfl)
    have hthis : ∀ x, some this = some x → Good { m with scopes := (m.scopes.child scope).1 } x :=
      fun x hx => Option.some.inj hx ▸ (hr this rfl).opens ho1
    have h2 := h1.define hrs "this" hthis
    rw [redirect_self, Option.map_some, (hr this rfl).rename_eq h.sound hold1] at h2
    obtain ⟨hm2, hf2⟩ := hm1.define hthis
    have ho2 := ho1.define (m.scopes.child scope).2 "this" (some this)
    -- the parameters' scope opens under it, and both are released on the left
    have hargs2 : AllGood _ args := fun v hv => ((hargs v hv).opens ho1).frame hf2
    rw [← hargs.map_rename_eq h.sound hold1]
    obtain ⟨ψ, hψ, hf5, hmir, hrel⟩ :=
      ih.params params body args h2 (hf2.live _ hrs) (redirect_self _ _).symm hargs2
    obtain ⟨hmir6, -⟩ := hmir.close h.sound ho2 hf5
    refine ⟨ψ, fun t ht => ?_, hmir6, returnOf_renames hrel⟩
    rw [hψ t (hf2.live t ((ho1.live_iff t).2 (.inl ht))), hold1 t ht]

/-- Finding a member of a class for a receiver: a getter runs at once, a method is bound. -/
theorem Simulates.member (ih : Simulates n) (c : ClassDef) (this : Value)
    (getterKind memberKind : MemberKind) (name : Token) (h : Mirror φ m r)
    (hc : ClassDef.Fns (ScopePinned m.scopes) c) (hthis : Good m this) :
    Mirrors
      (match c.find getterKind name.lexeme with
        | some g => Eval.invoke n (.function (g.bind this)) name []
        | none =>
          match c.find memberKind name.lexeme with
          | some f => do return .function (← stamp) (f.bind this)
          | none => fail (.undefinedProperty name))
      (match (c.rename φ).find getterKind name.lexeme with
        | some g => Eval.invoke (A := .fresh) n (.function (g.bind (this.rename φ))) name []
        | none =>
          match (c.rename φ).find memberKind name.lexeme with
          | some f => do return .function (← stamp) (f.bind (this.rename φ))
          | none => fail (.undefinedProperty name))
      (Renames Value.rename) φ m r := by
  rw [ClassDef.find_rename, ClassDef.find_rename]
  cases hg : c.find getterKind name.lexeme with
  | some g =>
    simp only [Option.map_some, Callable.bind_rename]
    exact ih.invoke (.function (g.bind this)) name [] φ m r h (member_bind_fns hc hg hthis)
      fun _ h => by cases h
  | none =>
    cases hf : c.find memberKind name.lexeme with
    | some f => exact Mirrors.boundMethod h (member_bind_fns hc hf hthis)
    | none => exact Mirrors.fail h _

theorem Simulates.construct_succ (ih : Simulates n) (c : ClassDef) (args : List Value)
    (h : Mirror φ m r) (hc : ClassDef.Fns (ScopePinned m.scopes) c) (hargs : AllGood m args) :
    Mirrors (Eval.construct (n + 1) c args)
      (Eval.construct (A := .fresh) (n + 1) (c.rename φ) (args.map (Value.rename φ)))
      (Renames Value.rename) φ m r := by
  have hb := balanced n
  simp only [Eval.construct]
  refine (Mirrors.newInstance h c).bind_renames (Framed.newInstance h.sound hc)
    fun inst m1 r1 ψ1 hψ1 hf1 hinst h1 => ?_
  have hc1 := hf1.classFns hc
  have hargs1 : AllGood m1 args := fun v hv => (hargs v hv).frame hf1
  rw [← classRename_eq h.sound hc hψ1, ← hargs.map_rename_eq h.sound hψ1, ClassDef.find_rename]
  cases hinit : c.find .method "init" with
  | some init =>
    simp only [Option.map_some, Callable.bind_rename]
    refine (ih.call (init.bind inst) args ψ1 m1 r1 h1 (member_bind_fns hc1 hinit hinst) hargs1).bind
      (hb.call _ args m1 h1.sound (member_bind_fns hc1 hinit hinst) hargs1)
      fun _ _ m2 r2 ψ2 hψ2 _ _ h2 _ => ?_
    exact Mirrors.pure h2 (hinst.renames h1.sound hψ2)
  | none => exact Mirrors.pure h1 rfl

theorem Simulates.instanceProperty_succ (ih : Simulates n) (i : Nat) (c : ClassDef)
    (name : Token) (h : Mirror φ m r) (hc : ClassDef.Fns (ScopePinned m.scopes) c) :
    Mirrors (Eval.instanceProperty (n + 1) i c name)
      (Eval.instanceProperty (A := .fresh) (n + 1) i (c.rename φ) name) (Renames Value.rename) φ m r := by
  simp only [Eval.instanceProperty]
  refine (Mirrors.field? h i name.lexeme).bind_renames (Framed.field? h.sound i name.lexeme)
    fun o m1 r1 ψ1 hψ1 hf1 ho h1 => ?_
  rw [← classRename_eq h.sound hc hψ1]
  cases o with
  | some v => exact Mirrors.pure h1 rfl
  | none =>
    have hc1 := hf1.classFns hc
    exact ih.member c (.instanceRef i c) .getter .method name h1 hc1 (.instanceRef i hc1)

theorem Simulates.staticProperty_succ (ih : Simulates n) (s : Nat) (c : ClassDef)
    (name : Token) (h : Mirror φ m r) (hc : ClassDef.Fns (ScopePinned m.scopes) c) :
    Mirrors (Eval.staticProperty (n + 1) s c name)
      (Eval.staticProperty (A := .fresh) (n + 1) s (c.rename φ) name) (Renames Value.rename) φ m r := by
  simp only [Eval.staticProperty]
  exact ih.member c (.classRef s c) .staticGetter .static name h hc (.classRef s hc)

theorem Simulates.superMember_succ (ih : Simulates n) (keyword : Reference) (member : Token)
    (h : Mirror φ m r) :
    Mirrors (Eval.superMember (n + 1) keyword member)
      (Eval.superMember (A := .fresh) (n + 1) keyword member) (Renames Value.rename) φ m r := by
  simp only [Eval.superMember]
  cases keyword.hops with
  | none => exact Mirrors.fail h _
  | some hops =>
    dsimp only
    refine Mirrors.get_bind ?_
    have hsuper : ExceptRel (Renames Value.rename φ) (m.scopes.getAt m.current hops keyword.name)
        (r.scopes.getAt r.current hops keyword.name) := by
      rw [h.getAt]; exact exceptRel_map _ _
    refine (Mirrors.ofExcept h hsuper).bind_renames
      (Framed.ofExcept h.sound fun v hv => h.sound.values.scopes.getAt hv)
      fun v m2 r2 ψ2 _ _ hv h2 => ?_
    cases hv with
    | classRef k hsup =>
      cases hops with
      | zero => exact Mirrors.fail h2 _
      | succ hops =>
        dsimp only [Value.rename]
        refine Mirrors.get_bind ?_
        have hthis : ExceptRel (Renames Value.rename ψ2)
            (m2.scopes.getAt m2.current hops (thisAt keyword.name))
            (r2.scopes.getAt r2.current hops (thisAt keyword.name)) := by
          rw [h2.getAt]; exact exceptRel_map _ _
        refine (Mirrors.ofExcept h2 hthis).bind_renames
          (Framed.ofExcept h2.sound fun v hv => h2.sound.values.scopes.getAt hv)
          fun rcv m4 r4 ψ4 hψ4 hf4 hrcv h4 => ?_
        have hsup4 := hf4.classFns hsup
        -- the superclass was read before the receiver: rename it as at the end
        rw [← classRename_eq h2.sound hsup hψ4]
        -- a class receiver finds static members, any other receiver instance members
        cases rcv with
        | classRef s c => exact ih.member _ _ .staticGetter .static member h4 hsup4 hrcv
        | _ => exact ih.member _ _ .getter .method member h4 hsup4 hrcv
    | _ => exact Mirrors.fail h2 _

theorem Simulates.block_succ (ih : Simulates n) (body : List Stmt) (scope : Nat)
    (h : Mirror φ m r) (hs : m.scopes.Live scope) :
    Mirrors (execBlock (n + 1) body scope) (execBlock (A := .fresh) (n + 1) body (φ scope))
      (Renames Flow.rename) φ m r := by
  unfold Mirrors
  rw [Machine.exec_execBlock, Machine.exec_execBlock (A := .fresh)]
  obtain ⟨ψ, hψ, hmir, hrel⟩ := ih.stmts body φ _ _ (h.setCurrent hs)
  obtain ⟨-, hf, -⟩ := (balanced n).stmts body _ (h.sound.setCurrent hs)
  refine ⟨ψ, hψ, ?_, hrel⟩
  rw [h.current, ← hψ _ h.sound.current_live]
  exact hmir.setCurrent (hf.live _ h.sound.current_live)

theorem Simulates.stmts_succ (ih : Simulates n) (ss : List Stmt) (h : Mirror φ m r) :
    Mirrors (execStmts (n + 1) ss) (execStmts (A := .fresh) (n + 1) ss)
      (Renames Flow.rename) φ m r := by
  cases ss with
  | nil =>
    simp only [execStmts]
    exact Mirrors.pure h rfl
  | cons s ss =>
    simp only [execStmts]
    refine (ih.stmt s φ m r h).bind_renames ((balanced n).stmt s m h.sound)
      fun fl m1 r1 ψ1 _ _ _ h1 => ?_
    cases fl with
    | normal => exact ih.stmts ss ψ1 m1 r1 h1
    | breakLoop => exact Mirrors.pure h1 rfl
    | returned v => exact Mirrors.pure h1 rfl

theorem Simulates.loop_succ (ih : Simulates n) (c : Expr) (body : Stmt) (h : Mirror φ m r) :
    Mirrors (execWhile (n + 1) c body) (execWhile (A := .fresh) (n + 1) c body)
      (Renames Flow.rename) φ m r := by
  have hb := balanced n
  simp only [execWhile]
  refine (ih.expr c φ m r h).bind_renames (hb.expr c m h.sound)
    fun v m1 r1 ψ1 _ _ _ h1 => ?_
  rw [Value.truthy_rename]
  cases v.truthy
  · exact Mirrors.pure h1 rfl
  · refine (ih.stmt body ψ1 m1 r1 h1).bind_renames (hb.stmt body m1 h1.sound)
      fun fl m2 r2 ψ2 _ _ _ h2 => ?_
    cases fl with
    | normal => exact ih.loop c body ψ2 m2 r2 h2
    | breakLoop => exact Mirrors.pure h2 rfl
    | returned v => exact Mirrors.pure h2 rfl

/-- The last step of a class declaration on both sides: the class, closed over `scope`, becomes
the value of its name. -/
theorem Mirrors.declareClass (h : Mirror φ m r) {here scope here' scope' : Nat} {name : String}
    {sup sup' : Option ClassDef} {ms gs ss sgs : List FunDecl} (hhere : m.scopes.Live here)
    (hhere' : here' = φ here) (hscope : m.scopes.pinnedAt scope = true)
    (hscope' : scope' = φ scope) (hsup : ∀ c, sup = some c → ClassDef.Fns (ScopePinned m.scopes) c)
    (hsup' : sup' = sup.map (ClassDef.rename φ)) :
    Mirrors (do
        let s ← Eval.stamp
        Eval.define here name (some (.classRef s (.mk name sup (memberTable scope true ms)
          (memberTable scope false gs) (memberTable scope false ss) (memberTable scope false sgs))))
        Pure.pure Flow.normal)
      (do
        let s ← Eval.stamp
        Eval.define here' name (some (.classRef s (.mk name sup' (memberTable scope' true ms)
          (memberTable scope' false gs) (memberTable scope' false ss)
          (memberTable scope' false sgs))))
        Pure.pure Flow.normal) (Renames Flow.rename) φ m r := by
  subst hhere' hscope' hsup'
  refine (Mirrors.stamp h).bind_same (Framed.stamp h.sound) fun k m1 r1 ψ1 hψ1 hf1 _ h1 => ?_
  have hcls : ∀ x, some (Value.classRef k (.mk name sup (memberTable scope true ms)
      (memberTable scope false gs) (memberTable scope false ss) (memberTable scope false sgs))) =
      some x → Good m1 x := fun x hx => by
    cases hx
    exact .classRef k (classDef_fns (fun c hc => hf1.classFns (hsup c hc)) (hf1.pinned _ hscope))
  have hsup1 : sup.map (ClassDef.rename ψ1) = sup.map (ClassDef.rename φ) := by
    cases sup with
    | none => rfl
    | some c => exact congrArg some (classRename_eq h.sound (hsup c rfl) hψ1)
  have hd := Mirrors.define h1 (hf1.live _ hhere) name hcls
  simp only [Option.map_some, Value.rename, ClassDef.rename, ClassDef.renameOption_eq,
    Callable.renameTable_eq, memberTable_rename, hsup1, hψ1 _ hhere,
    hψ1 _ (h.sound.wf.live_of_pinned hscope)] at hd
  refine hd.bind_same (Framed.define h1.sound hcls) fun _ m2 r2 ψ2 _ _ _ h2 => ?_
  exact Mirrors.pure h2 rfl

theorem Simulates.stmt_succ (ih : Simulates n) (s : Stmt) (h : Mirror φ m r) :
    Mirrors (execStmt (n + 1) s) (execStmt (A := .fresh) (n + 1) s)
      (Renames Flow.rename) φ m r := by
  have hb := balanced n
  cases s with
  | block body =>
    simp only [execStmt]
    refine Mirrors.currentScope_bind h ?_
    have hc := h.sound.current_live
    obtain ⟨hm2, ho2⟩ := h.sound.child hc
    have hk := ih.block body _ _ _ _ (h.child hc) ((ho2.live_iff _).2 (.inr rfl))
    rw [redirect_self] at hk
    exact Mirrors.scoped h hc hk (hb.block body _ _ hm2 ((ho2.live_iff _).2 (.inr rfl)))
  | breakLoop keyword =>
    simp only [execStmt]
    exact Mirrors.pure h rfl
  | classDecl name sup methods getters statics staticGetters =>
    unfold execStmt
    extract_lets tail tail'
    -- the declaration once its superclass, if it names one, is found
    have htail : ∀ o o' φ1 m1 r1, Mirror φ1 m1 r1 →
        (∀ x, o = some x → ClassDef.Fns (ScopePinned m1.scopes) x.2) →
        o' = o.map (Prod.map id (ClassDef.rename φ1)) →
        Mirrors (tail o) (tail' o') (Renames Flow.rename) φ1 m1 r1 := by
      intro o o' φ1 m1 r1 h1 ho ho'
      subst ho'
      simp only [tail, tail']
      refine Mirrors.currentScope_bind h1 ?_
      have hlive1 := h1.sound.current_live
      have hnil : ∀ x, some Value.nil = some x → Good m1 x := fun x hx => by
        cases hx; constructor
      refine (Mirrors.define h1 hlive1 name.lexeme hnil).bind_same (Framed.define h1.sound hnil)
        fun _ m3 r3 ψ3 hψ3 hf3 _ h3 => ?_
      have hlive3 := hf3.live _ hlive1
      have hhere3 : φ1 m1.current = ψ3 m1.current := (hψ3 _ hlive1).symm
      -- every later renaming agrees with `φ1` where the superclass's functions close
      have hagree : ∀ ψ : Nat → Nat, (∀ s, m3.scopes.Live s → ψ s = ψ3 s) → ∀ s, m1.scopes.Live s →
          ψ s = φ1 s := fun ψ hψ => agree_trans hf3 hψ3 hψ
      cases o with
      | some sc =>
        obtain ⟨k, c⟩ := sc
        have hc := ho (k, c) rfl
        have hc3 := hf3.classFns hc
        refine Mirrors.superScope h3 hlive3 hhere3 (.classRef k hc3)
          (congrArg (Value.classRef k)
            (classRename_eq h1.sound hc fun s hs => (hagree ψ3 (fun _ _ => rfl) s hs).symm))
          fun ψ4 m4 r4 hψ4 hc4 hf4 hpin h4 => ?_
        exact Mirrors.declareClass h4 (hf4.live _ hlive3)
          (hhere3.trans (hψ4 _ hlive3).symm) hpin hc4.symm
          (fun x hx => by cases hx; exact hf4.classFns hc3)
          (congrArg some (classRename_eq h1.sound hc (hagree ψ4 hψ4)).symm)
      | none =>
        simp only [Option.map_none, pure_bind]
        rw [hhere3]
        refine (Mirrors.pin h3 hlive3).bind_same (Framed.pin h3.sound hlive3)
          fun _ m4 r4 ψ4 hψ4 hf4 hpin h4 => ?_
        exact Mirrors.declareClass h4 (hf4.live _ hlive3) (hψ4 _ hlive3).symm hpin
          (hψ4 _ hlive3).symm (fun x hx => by cases hx) rfl
    cases sup with
    | some ref =>
      dsimp only
      refine (Mirrors.lookup h ref).bind_renames (Framed.lookup h.sound ref)
        fun v m1 r1 ψ1 _ _ hv h1 => ?_
      cases hv with
      | classRef k hc =>
        rename_i c
        simp only [Value.rename, pure_bind]
        refine htail (some (k, c)) (some (k, c.rename ψ1)) ψ1 m1 r1 h1 ?_ rfl
        intro x hx
        cases hx
        exact hc
      | _ => exact Mirrors.fail_bind h1 _ _ _
    | none =>
      dsimp only
      simp only [pure_bind]
      exact htail none none φ m r h (fun x hx => by cases hx) rfl
  | expression e =>
    simp only [execStmt]
    refine (ih.expr e φ m r h).bind_renames (hb.expr e m h.sound)
      fun _ m1 r1 ψ1 _ _ _ h1 => ?_
    exact Mirrors.pure h1 rfl
  | function d =>
    cases d with
    | mk name params body =>
    simp only [execStmt]
    refine Mirrors.currentScope_bind h ?_
    have hc := h.sound.current_live
    refine (Mirrors.pin h hc).bind_same (Framed.pin h.sound hc)
      fun _ m2 r2 ψ2 hψ2 hf2 hpin h2 => ?_
    refine (Mirrors.stamp h2).bind_same (Framed.stamp h2.sound)
      fun k m3 r3 ψ3 hψ3 hf3 _ h3 => ?_
    have hc3 := hf3.live _ (hf2.live _ hc)
    have hfn : ∀ x, some (Value.function k (.closure (some name.lexeme) params body m.current
        none false)) = some x → Good m3 x := fun x hx => by
      cases hx
      exact .function k (.closure (hf3.pinned _ hpin) fun _ h => by cases h)
    have hd := Mirrors.define h3 hc3 name.lexeme hfn
    simp only [Option.map_some, Value.rename, Callable.rename, Value.renameOption_eq,
      Option.map_none, hψ3 _ (hf2.live _ hc), hψ2 _ hc] at hd
    refine hd.bind_same (Framed.define h3.sound hfn) fun _ m4 r4 ψ4 _ _ _ h4 => ?_
    exact Mirrors.pure h4 rfl
  | ifElse c t e =>
    cases e with
    | some e =>
      simp only [execStmt]
      refine (ih.expr c φ m r h).bind_renames (hb.expr c m h.sound)
        fun v m1 r1 ψ1 _ _ _ h1 => ?_
      rw [Value.truthy_rename]
      cases v.truthy
      · exact ih.stmt e ψ1 m1 r1 h1
      · exact ih.stmt t ψ1 m1 r1 h1
    | none =>
      simp only [execStmt]
      refine (ih.expr c φ m r h).bind_renames (hb.expr c m h.sound)
        fun v m1 r1 ψ1 _ _ _ h1 => ?_
      rw [Value.truthy_rename]
      cases v.truthy
      · exact Mirrors.pure h1 rfl
      · exact ih.stmt t ψ1 m1 r1 h1
  | print e =>
    simp only [execStmt]
    refine (ih.expr e φ m r h).bind_renames (hb.expr e m h.sound)
      fun v m1 r1 ψ1 _ _ _ h1 => ?_
    rw [Value.display_rename]
    refine (Mirrors.emit h1 _).bind_same (Framed.emit h1.sound _)
      fun _ m2 r2 ψ2 _ _ _ h2 => ?_
    exact Mirrors.pure h2 rfl
  | returnFrom keyword v =>
    cases v with
    | some e =>
      simp only [execStmt]
      refine (ih.expr e φ m r h).bind_renames (hb.expr e m h.sound)
        fun v m1 r1 ψ1 _ _ _ h1 => ?_
      exact Mirrors.pure h1 rfl
    | none =>
      simp only [execStmt]
      exact Mirrors.pure h rfl
  | varDecl name init =>
    cases init with
    | some e =>
      simp only [execStmt, map_eq_pure_bind, bind_assoc, pure_bind]
      refine (ih.expr e φ m r h).bind_renames (hb.expr e m h.sound)
        fun v m1 r1 ψ1 _ _ hv h1 => ?_
      refine Mirrors.currentScope_bind h1 ?_
      have hv1 : ∀ x, some v = some x → Good m1 x := fun x hx => by
        cases hx; exact hv
      have hd := Mirrors.define h1 h1.sound.current_live name.lexeme hv1
      rw [Option.map_some] at hd
      refine hd.bind_same (Framed.define h1.sound hv1) fun _ m3 r3 ψ3 _ _ _ h3 => ?_
      exact Mirrors.pure h3 rfl
    | none =>
      simp only [execStmt, pure_bind]
      refine Mirrors.currentScope_bind h ?_
      have hnone : ∀ x, (none : Option Value) = some x → Good m x := fun x hx => by cases hx
      refine (Mirrors.define h h.sound.current_live name.lexeme hnone).bind_same
        (Framed.define h.sound hnone) fun _ m2 r2 ψ2 _ _ _ h2 => ?_
      exact Mirrors.pure h2 rfl
  | whileLoop c body =>
    simp only [execStmt]
    exact ih.loop c body φ m r h

/-- Out of fuel, every part of evaluation stops at once on both sides, changing nothing. -/
theorem simulates_zero : Simulates 0 where
  expr _ _ _ _ h := by simp only [evalExpr]; exact Mirrors.throw h _
  args _ _ _ _ h := by simp only [evalArgs]; exact Mirrors.throw h _
  invoke _ _ _ _ _ _ h _ _ := by
    simp only [Eval.invoke]; exact Mirrors.throw h _
  call _ _ _ _ _ h _ _ := by
    simp only [callFunction]; exact Mirrors.throw h _
  body _ _ _ _ _ _ _ _ h _ _ _ := by
    simp only [runBody]; exact Mirrors.throw h _
  construct _ _ _ _ _ h _ _ := by
    simp only [Eval.construct]; exact Mirrors.throw h _
  instanceProperty _ _ _ _ _ _ h _ := by
    simp only [Eval.instanceProperty]; exact Mirrors.throw h _
  staticProperty _ _ _ _ _ _ h _ := by
    simp only [Eval.staticProperty]; exact Mirrors.throw h _
  superMember _ _ _ _ _ h := by
    simp only [Eval.superMember]; exact Mirrors.throw h _
  stmt _ _ _ _ h := by simp only [execStmt]; exact Mirrors.throw h _
  loop _ _ _ _ _ h := by simp only [execWhile]; exact Mirrors.throw h _
  block _ _ _ _ _ h _ := by simp only [execBlock]; exact Mirrors.throw h _
  stmts _ _ _ _ h := by simp only [execStmts]; exact Mirrors.throw h _

/-- Every part of evaluation, at any fuel, run from machines that mirror each other on inputs
renamed alike, goes alike under the interpreter and under the reference allocator: both fail
alike or give results renamed alike, and end in machines that mirror each other. -/
theorem simulates : ∀ n, Simulates n
  | 0 => simulates_zero
  | n + 1 =>
    have ih := simulates n
    { expr e _ _ _ h := ih.expr_succ e h
      args es _ _ _ h := ih.args_succ es h
      invoke c paren args _ _ _ h hc hargs := ih.invoke_succ c paren args h hc hargs
      call f args _ _ _ h hf hargs := ih.call_succ f args h hf hargs
      body params body scope receiver args _ _ _ h hs hr hargs :=
        ih.body_succ params body scope receiver args h hs hr hargs
      construct c args _ _ _ h hc hargs := ih.construct_succ c args h hc hargs
      instanceProperty i c name _ _ _ h hc := ih.instanceProperty_succ i c name h hc
      staticProperty s c name _ _ _ h hc := ih.staticProperty_succ s c name h hc
      superMember keyword member _ _ _ h := ih.superMember_succ keyword member h
      stmt s _ _ _ h := ih.stmt_succ s h
      loop c body _ _ _ h := ih.loop_succ c body h
      block body scope _ _ _ h hs := ih.block_succ body scope h hs
      stmts ss _ _ _ h := ih.stmts_succ ss h }

/-! ## Programs and sessions -/

/-- The arena of a fresh machine embeds in itself. -/
theorem embeds_initial (clock : Float) :
    (initial clock).scopes.Embeds id (initial clock).scopes := by
  have hlive : ∀ s, (initial clock).scopes.Live s → s = Scopes.globals := fun s hs => by
    have := (Scopes.shaped_define Scopes.new Scopes.globals "clock"
      (some (.function 0 (.native "clock" 0)))).live_iff.1 hs
    simp [Scopes.Live, Scopes.new] at this
    exact this
  refine ⟨fun s t hs ht _ => (hlive s hs).trans (hlive t ht).symm, fun s hs => ?_,
    fun s hs => ?_⟩
  · rw [hlive s hs]; rfl
  · rw [hlive s hs]; rfl

/-- A fresh machine mirrors itself. -/
theorem Mirror.initial (clock : Float) : Mirror id (initial clock) (initial clock) :=
  ⟨(AtRest.initial clock).sound, rfl, rfl, embeds_initial clock,
    by simp [renameFields, Machine.initial], rfl, rfl, rfl, rfl, rfl⟩

/-- Top-level statements run alike under both allocators: the same faults, and machines that
mirror each other. -/
theorem Mirror.interpret (policy : Policy) :
    ∀ (ss : List Stmt) {φ : Nat → Nat} {m r : Machine}, Mirror φ m r →
      ∃ (res : List RuntimeFault × Bool) (m' r' : Machine) (ψ : Nat → Nat),
        (Machine.interpret policy ss).run m = (res, m') ∧
        (Machine.interpret (A := .fresh) policy ss).run r = (res, r') ∧
        Frame m m' ∧ (∀ s, m.scopes.Live s → ψ s = φ s) ∧ Mirror ψ m' r'
  | [], φ, m, r, h => ⟨([], false), m, r, φ, rfl, rfl, .refl m, fun _ _ => rfl, h⟩
  | s :: ss, φ, m, r, h => by
    simp only [Machine.interpret, run_bind_exec]
    obtain ⟨ψ1, hψ1, h1, hrel⟩ := (simulates Eval.fuel).stmt s φ m r h
    have hf1 := ((balanced Eval.fuel).stmt s m h.sound).2.1
    generalize exec (execStmt Eval.fuel s) m = X at hψ1 h1 hrel hf1
    generalize exec (execStmt (A := .fresh) Eval.fuel s) r = Y at h1 hrel
    obtain ⟨x, m1⟩ := X
    obtain ⟨y, r1⟩ := Y
    -- the rest of the run, from the machines the statement left
    obtain ⟨res, m', r', ψ, hP, hQ, hf, hψ, hm⟩ := Mirror.interpret policy ss h1
    have hrest := agree_trans hf1 hψ1 hψ
    cases x with
    | ok fl =>
      cases y with
      | ok fl' => exact ⟨res, m', r', ψ, hP, hQ, hf1.trans hf, hrest, hm⟩
      | error e => exact hrel.elim
    | error e =>
      cases y with
      | ok _ => exact hrel.elim
      | error e' =>
        cases hrel
        cases e with
        | outOfFuel => exact ⟨([], true), m1, r1, ψ1, rfl, rfl, hf1, hψ1, h1⟩
        | fault f =>
          cases policy with
          | abortProgram => exact ⟨([f], false), m1, r1, ψ1, rfl, rfl, hf1, hψ1, h1⟩
          | abortStatement =>
            refine ⟨(f :: res.1, res.2), m', r', ψ, ?_, ?_, hf1.trans hf, hrest, hm⟩
            · simp only [StateT.run_bind, hP]
              rfl
            · simp only [StateT.run_bind, hQ]
              rfl

/-- Under the reference allocator, a source text runs exactly as under the interpreter: the
same outcome, with the same runtime faults and the same printed text. -/
theorem fresh_runSource (policy : Policy) (clock : Float) (source : String) :
    runSource (A := .fresh) policy clock source = runSource policy clock source := by
  simp only [Lox.runSource]
  cases analyze (initial clock).globalNames source with
  | malformed sf pf => rfl
  | parsed res =>
    dsimp only
    -- both sides decide on the same test; rewriting it keeps the kernel from comparing the runs
    cases res.isOk
    · simp only [Bool.false_eq_true, if_false]
    · obtain ⟨⟨fs, st⟩, m', r', ψ, hP, hQ, -, -, hm⟩ :=
        Mirror.interpret policy res.tree (Mirror.initial clock)
      simp only [if_true, hP, hQ]
      rw [hm.output]

/-- A step of a session runs alike under both allocators: the report is the same up to the
renaming of the value it gives, which every later renaming that agrees on the scopes in use
renames alike. -/
theorem Mirror.step (st : Step) (h : Mirror φ m r) :
    ∃ ψ, (∀ s, m.scopes.Live s → ψ s = φ s) ∧
      (∀ s, m.scopes.Live s → ((Machine.step st).run m).2.scopes.Live s) ∧
      Mirror ψ ((Machine.step st).run m).2 ((Machine.step (A := .fresh) st).run r).2 ∧
      ((Machine.step (A := .fresh) st).run r).1 = ((Machine.step st).run m).1.rename ψ ∧
      ∀ ψ' : Nat → Nat, (∀ s, ((Machine.step st).run m).2.scopes.Live s → ψ' s = ψ s) →
        ((Machine.step st).run m).1.rename ψ' = ((Machine.step st).run m).1.rename ψ := by
  cases st with
  | statements source =>
    simp only [Machine.step, run_get_bind, h.globalNames]
    cases analyze m.globalNames source with
    | malformed sf pf => exact ⟨φ, fun _ _ => rfl, fun _ hs => hs, h, rfl, fun _ _ => rfl⟩
    | parsed res =>
      dsimp only
      cases res.isOk
      · exact ⟨φ, fun _ _ => rfl, fun _ hs => hs, h, rfl, fun _ _ => rfl⟩
      · rw [if_pos rfl, if_pos rfl]
        simp only [StateT.run_bind]
        obtain ⟨⟨fs, stp⟩, m', r', ψ, hP, hQ, hf, hψ, hm⟩ :=
          Mirror.interpret .abortStatement res.tree h
        rw [hP, hQ]
        -- the report holds no value, so no renaming changes it
        refine ⟨ψ, hψ, fun s hs => hf.live s hs, hm.clearOutput, ?_, fun _ _ => ?_⟩
        · cases stp
          · exact congrArg (fun out => (⟨.executed fs, out, res.warnings⟩ : StepReport)) hm.output
          · exact congrArg (fun out => (⟨.outOfFuel, out, res.warnings⟩ : StepReport)) hm.output
        · cases stp <;> rfl
  | expression source =>
    simp only [Machine.step]
    generalize lex source = L
    obtain ⟨tokens, sf⟩ := L
    dsimp only
    cases parseExpression tokens with
    | error f => exact ⟨φ, fun _ _ => rfl, fun _ hs => hs, h, rfl, fun _ _ => rfl⟩
    | ok e =>
      dsimp only
      cases sf.isEmpty
      · exact ⟨φ, fun _ _ => rfl, fun _ hs => hs, h, rfl, fun _ _ => rfl⟩
      · rw [if_neg (by decide), if_neg (by decide)]
        simp only [run_get_bind, h.globalNames]
        cases (resolveExpression m.globalNames e).isOk
        · exact ⟨φ, fun _ _ => rfl, fun _ hs => hs, h, rfl, fun _ _ => rfl⟩
        · rw [if_pos rfl, if_pos rfl]
          simp only [run_bind_exec]
          generalize (resolveExpression m.globalNames e).tree = tree
          generalize (resolveExpression m.globalNames e).warnings = w
          obtain ⟨ψ, hψ, h1, hrel⟩ := (simulates Eval.fuel).expr tree φ m r h
          obtain ⟨-, hf1, hok⟩ := (balanced Eval.fuel).expr tree m h.sound
          generalize exec (evalExpr Eval.fuel tree) m = X at hψ h1 hrel hf1 hok
          generalize exec (evalExpr (A := .fresh) Eval.fuel tree) r = Y at h1 hrel
          obtain ⟨x, m1⟩ := X
          obtain ⟨y, r1⟩ := Y
          have hlive : ∀ s, m.scopes.Live s → m1.scopes.Live s := fun s hs => hf1.live s hs
          -- whatever the expression gave, taking the printed text leaves the mirror
          cases x with
          | ok v =>
            cases y with
            | ok v' =>
              cases hrel
              refine ⟨ψ, hψ, hlive, h1.clearOutput,
                congrArg (fun out => (⟨.evaluated (v.rename ψ), out, w⟩ : StepReport)) h1.output,
                fun ψ' hψ' => ?_⟩
              exact congrArg (fun v => (⟨.evaluated v, m1.output, w⟩ : StepReport))
                ((hok v rfl).rename_eq h1.sound hψ')
            | error _ => exact hrel.elim
          | error e =>
            cases y with
            | ok _ => exact hrel.elim
            | error e' =>
              cases hrel
              cases e with
              | fault f =>
                exact ⟨ψ, hψ, hlive, h1.clearOutput,
                  congrArg (fun out => (⟨.executed [f], out, w⟩ : StepReport)) h1.output,
                  fun _ _ => rfl⟩
              | outOfFuel =>
                exact ⟨ψ, hψ, hlive, h1.clearOutput,
                  congrArg (fun out => (⟨.outOfFuel, out, w⟩ : StepReport)) h1.output,
                  fun _ _ => rfl⟩

/-- The steps of a session run alike under both allocators, their reports the same up to one
renaming of slots. -/
theorem Mirror.steps : ∀ (steps : List Step) {φ : Nat → Nat} {m r : Machine}, Mirror φ m r →
    ∃ ψ, (∀ s, m.scopes.Live s → ψ s = φ s) ∧
      (∀ s, m.scopes.Live s → ((steps.mapM Machine.step).run m).2.scopes.Live s) ∧
      Mirror ψ ((steps.mapM Machine.step).run m).2 ((steps.mapM (Machine.step (A := .fresh))).run r).2 ∧
      ((steps.mapM (Machine.step (A := .fresh))).run r).1 =
        ((steps.mapM Machine.step).run m).1.map (StepReport.rename ψ)
  | [], φ, _, _, h => ⟨φ, fun _ _ => rfl, fun _ hs => hs, h, rfl⟩
  | st :: sts, φ, m, r, h => by
    simp only [List.mapM_cons, StateT.run_bind]
    obtain ⟨ψ1, hψ1, hl1, h1, hrep, hstable⟩ := Mirror.step st h
    generalize (Machine.step st).run m = P at hl1 h1 hrep hstable
    generalize (Machine.step (A := .fresh) st).run r = Q at h1 hrep
    obtain ⟨rep, m1⟩ := P
    obtain ⟨rep', r1⟩ := Q
    obtain ⟨ψ, hψ, hl, hmir, hreps⟩ := Mirror.steps sts h1
    refine ⟨ψ, fun s hs => (hψ s (hl1 s hs)).trans (hψ1 s hs), fun s hs => hl s (hl1 s hs), hmir,
      ?_⟩
    -- the first report is renamed alike by the renaming at the end of the session
    have hfirst : rep' = rep.rename ψ := hrep.trans (hstable ψ hψ).symm
    dsimp only at hreps
    have hall : rep' :: ((sts.mapM (Machine.step (A := .fresh))).run r1).1 =
        (rep :: ((sts.mapM Machine.step).run m1).1).map (StepReport.rename ψ) := by
      rw [List.map_cons, ← hfirst, ← hreps]
    exact hall

/-- Under the reference allocator a session runs as under the interpreter: the same outcomes,
printed text and warnings at every step, and the same values up to one renaming of the slots of
scopes, which nothing a program can observe of a value sees. -/
theorem fresh_runSession (clock : Float) (steps : List Step) :
    ∃ φ, runSession (A := .fresh) clock steps =
      (runSession clock steps).map (StepReport.rename φ) := by
  obtain ⟨ψ, -, -, -, h⟩ := Mirror.steps steps (Mirror.initial clock)
  exact ⟨ψ, h⟩

/-- Taking the slots of released scopes back cannot be observed. A scope that a block or a call
opens and lets go of once its run is over is pinned, and then releasing it does nothing; or it is
in use, no scope in use lies under it, it is none of the scopes in use when it was opened (the
current scope, and those the enclosing blocks and calls keep), and no pinned scope, such as one a
function closes over, has it on its chain of parents. So under the reference allocator, which
never takes a slot back, every program runs exactly as under the interpreter, under either
policy: the same outcome, runtime faults and printed text. Every session gives the same reports,
step by step, up to one renaming of the slots of scopes inside the values it gives back. -/
theorem reclamation_unobservable :
    (∀ (m m1 m2 : Machine) (c : Nat), Opens m c m1 → Frame m1 m2 → Sound m2 →
      m2.scopes.pinnedAt c = true ∨
        (m2.scopes.Live c ∧ (∀ t, m2.scopes.Live t → m2.scopes.parentOf t ≠ some c) ∧
          (∀ t, m.scopes.Live t → t ≠ c) ∧
          ∀ t k, m2.scopes.pinnedAt t = true → m2.scopes.ancestor t k ≠ .ok c)) ∧
    (∀ policy clock source,
      runSource (A := .fresh) policy clock source = runSource policy clock source) ∧
    ∀ clock steps, ∃ φ : Nat → Nat,
      runSession (A := .fresh) clock steps = (runSession clock steps).map (StepReport.rename φ) :=
  ⟨fun _ _ _ _ ho hf hs => ho.release_safe hf hs, fresh_runSource, fresh_runSession⟩

/-- The scope of a block opened under the globals at the start of a session, let go of at once:
it is in use, nothing lies under it, and no pinned scope reaches it. -/
theorem release_of_fresh_block :
    let m := Machine.initial 0
    let c := (m.scopes.child Scopes.globals).2
    let m1 : Machine := { m with scopes := (m.scopes.child Scopes.globals).1 }
    m1.scopes.pinnedAt c = true ∨
      (m1.scopes.Live c ∧ (∀ t, m1.scopes.Live t → m1.scopes.parentOf t ≠ some c) ∧
        (∀ t, m.scopes.Live t → t ≠ c) ∧
        ∀ t k, m1.scopes.pinnedAt t = true → m1.scopes.ancestor t k ≠ .ok c) := by
  intro m c m1
  have hm := (AtRest.initial 0).sound
  obtain ⟨hm1, ho⟩ := hm.child hm.wf.globals_live
  exact reclamation_unobservable.1 m m1 m1 c ho (Frame.refl m1) hm1

end Machine

end Lox
