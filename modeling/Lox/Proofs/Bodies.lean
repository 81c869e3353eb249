import Mathlib
import Lox.Proofs.Session
import Lox.Proofs.Resolution
/-!
# The bodies of the functions a program can call

A function value is made from code: a function declaration, a lambda, or a member of a class
declaration, whose body it keeps. So when all the code that runs is confined, every function
a machine holds has a confined body: an initializer's as an initializer's body, any other as
a function's. Binding a method to a receiver keeps its body.

`StaysConfined n` says that every part of evaluation at fuel `n`, run on confined code from a
machine whose functions have confined bodies, leaves such a machine and gives back only such
functions; `staysConfined` proves it at every fuel. With the flow lemma `confines` it follows
that no function body that a call runs ends with `break`, and that an initializer's body ends
normally or by `return;`.
-/

namespace Lox

/-- A function whose body is confined as its kind requires: an initializer's body as an
initializer's, any other as a function's. -/
def Callable.Confined : Callable → Prop
  | .native .. => True
  | .closure _ _ body _ _ isInit =>
    ∀ s ∈ body, Stmt.Confined false (if isInit then .initializer else .function) s

theorem Callable.confined_bind (f : Callable) (r : Value) (h : f.Confined) : (f.bind r).Confined := by
  cases f <;> exact h

/-- A value whose functions have confined bodies. -/
def Value.Confined (v : Value) : Prop := Value.Fns Callable.Confined v

/-- A statement's outcome whose returned value, if any, has functions with confined bodies. -/
def Flow.Confined : Flow → Prop
  | .returned v => Value.Confined v
  | _ => True

/-- What a call invokes, with a confined body. -/
def Eval.Callee.Confined : Eval.Callee → Prop
  | .function f => Callable.Fns Callable.Confined f
  | .classOf c => ClassDef.Fns Callable.Confined c

namespace Machine

open Eval

/-- Every function the machine keeps, in its scopes and in the fields of its instances, has a
confined body. -/
def Confined (m : Machine) : Prop := m.Holds Value.Confined

/-- Run from `m`, `x` ends in a machine whose functions have confined bodies, and what it
gives back, if it succeeds, satisfies `ok`. -/
def Stays {α : Type} (x : Eval α) (ok : α → Prop) (m : Machine) : Prop :=
  Confined (exec x m).2 ∧ ∀ a, (exec x m).1 = .ok a → ok a

variable {α β : Type} {m : Machine} {ok : α → Prop}

theorem Confined.of_eq {m' : Machine} (hm : Confined m) (hs : m'.scopes = m.scopes)
    (hf : m'.fields = m.fields) : Confined m' :=
  ⟨hs ▸ hm.scopes, hf ▸ hm.fields⟩

theorem Stays.pure (hm : Confined m) {a : α} (ha : ok a) : Stays (Pure.pure a) ok m :=
  ⟨hm, fun _ h => by cases h; exact ha⟩

theorem Stays.throw (hm : Confined m) (e : Interrupt) : Stays (throw e : Eval α) ok m :=
  ⟨hm, fun _ h => by cases h⟩

theorem Stays.fail (hm : Confined m) (f : RuntimeFault) : Stays (Eval.fail f : Eval α) ok m :=
  Stays.throw hm _

theorem Stays.ofExcept (hm : Confined m) {r : Except RuntimeFault α} (hr : ∀ a, r = .ok a → ok a) :
    Stays (Eval.ofExcept r) ok m := by
  cases r with
  | error f => exact Stays.fail hm f
  | ok a => exact Stays.pure hm (hr a rfl)

theorem Stays.bind {x : Eval α} {f : α → Eval β} {P : α → Prop} {Q : β → Prop}
    (hx : Stays x P m) (hf : ∀ a m', Confined m' → P a → Stays (f a) Q m') : Stays (x >>= f) Q m := by
  obtain ⟨hs, hok⟩ := hx
  unfold Stays
  rw [exec_bind]
  rcases hxm : exec x m with ⟨_ | a, m1⟩
  · rw [hxm] at hs
    exact ⟨hs, fun _ h => by cases h⟩
  · rw [hxm] at hs hok
    exact hf a m1 hs (hok a rfl)

/-- A step that changes neither scopes nor fields. -/
theorem Stays.of_eq {x : Eval α} (hm : Confined m) (hs : (exec x m).2.scopes = m.scopes)
    (hf : (exec x m).2.fields = m.fields) (hok : ∀ a, (exec x m).1 = .ok a → ok a) : Stays x ok m :=
  ⟨hm.of_eq hs hf, hok⟩

theorem Stays.get (hm : Confined m) : Stays (get : Eval Machine) Confined m :=
  ⟨hm, fun _ h => by cases h; exact hm⟩

theorem Stays.currentScope (hm : Confined m) : Stays currentScope (fun _ => True) m :=
  Stays.of_eq hm rfl rfl fun _ _ => trivial

theorem Stays.stamp (hm : Confined m) : Stays stamp (fun _ => True) m :=
  Stays.of_eq hm rfl rfl fun _ _ => trivial

theorem Stays.emit (hm : Confined m) (text : String) : Stays (emit text) (fun _ => True) m :=
  Stays.of_eq hm rfl rfl fun _ _ => trivial

theorem Stays.setCurrent (hm : Confined m) (s : Nat) : Stays (setCurrent s) (fun _ => True) m :=
  Stays.of_eq hm rfl rfl fun _ _ => trivial

theorem Stays.childOf (hm : Confined m) (p : Nat) : Stays (childOf p) (fun _ => True) m :=
  ⟨⟨hm.scopes.child, hm.fields⟩, fun _ _ => trivial⟩

theorem Stays.release (hm : Confined m) (s : Nat) : Stays (release s) (fun _ => True) m :=
  ⟨⟨hm.scopes.release, hm.fields⟩, fun _ _ => trivial⟩

theorem Stays.pin (hm : Confined m) (s : Nat) : Stays (pin s) (fun _ => True) m :=
  ⟨⟨hm.scopes.pins (Scopes.pins_pin _ s), hm.fields⟩, fun _ _ => trivial⟩

theorem Stays.define (hm : Confined m) (s : Nat) (name : String) {v : Option Value}
    (hv : ∀ x, v = some x → Value.Confined x) : Stays (define s name v) (fun _ => True) m :=
  ⟨⟨hm.scopes.define hv, hm.fields⟩, fun _ _ => trivial⟩

theorem Stays.setField (hm : Confined m) (i : Nat) (name : String) {v : Value} (hv : Value.Confined v) :
    Stays (setField i name v) (fun _ => True) m :=
  ⟨Machine.Holds.setField hm i name hv, fun _ _ => trivial⟩

theorem Stays.newInstance (hm : Confined m) {c : ClassDef} (hc : ClassDef.Fns Callable.Confined c) :
    Stays (newInstance c) Value.Confined m :=
  ⟨Machine.Holds.newInstance hm, fun _ h => by cases h; exact .instanceRef _ hc⟩

theorem Stays.field? (hm : Confined m) (i : Nat) (name : String) :
    Stays (field? i name) (fun o => ∀ v, o = some v → Value.Confined v) m :=
  ⟨hm, fun _ h v hv => by cases h; exact Machine.Holds.field hm hv⟩

theorem Stays.lookup (hm : Confined m) (r : Reference) : Stays (lookup r) Value.Confined m := by
  unfold Eval.lookup
  refine (Stays.get hm).bind fun a m1 hm1 ha => ?_
  split
  · exact Stays.ofExcept hm1 fun v hv => ha.scopes.getAt hv
  · exact Stays.ofExcept hm1 fun v hv => ha.scopes.get hv

theorem Stays.assignTo (hm : Confined m) (r : Reference) {v : Value} (hv : Value.Confined v) :
    Stays (assignTo r v) (fun _ => True) m := by
  unfold Stays
  cases hr : r.hops with
  | some h =>
    rw [exec_assignTo_local m hr]
    cases hA : m.scopes.assignAt m.current h r.name v with
    | error f => exact ⟨hm, fun _ h => by cases h⟩
    | ok A => exact ⟨⟨hm.scopes.assignAt hv hA, hm.fields⟩, fun _ _ => trivial⟩
  | none =>
    rw [exec_assignTo_global m hr]
    cases hA : m.scopes.assign Scopes.globals r.name v with
    | error f => exact ⟨hm, fun _ h => by cases h⟩
    | ok A => exact ⟨⟨hm.scopes.assign hv hA, hm.fields⟩, fun _ _ => trivial⟩

theorem Stays.fail_bind (hm : Confined m) (f : RuntimeFault) (k : α → Eval β) {ok : β → Prop} :
    Stays (Eval.fail f >>= k) ok m :=
  ⟨hm, fun _ h => by simp at h⟩

/-- Every part of evaluation at fuel `n`, run on confined code from a machine whose functions
have confined bodies, leaves such a machine and gives back only such functions. -/
structure StaysConfined (n : Nat) : Prop where
  expr : ∀ e m, Confined m → Expr.Confined e → Stays (evalExpr n e) Value.Confined m
  args : ∀ es m, Confined m → (∀ e ∈ es, Expr.Confined e) →
    Stays (evalArgs n es) (fun vs => ∀ v ∈ vs, Value.Confined v) m
  invoke : ∀ c paren args m, Confined m → Callee.Confined c → (∀ v ∈ args, Value.Confined v) →
    Stays (Eval.invoke n c paren args) Value.Confined m
  call : ∀ f args m, Confined m → Callable.Fns Callable.Confined f → (∀ v ∈ args, Value.Confined v) →
    Stays (callFunction n f args) Value.Confined m
  body : ∀ params body scope receiver args b m, Confined m → (∀ s ∈ body, Stmt.Confined false b s) →
    (∀ r, receiver = some r → Value.Confined r) → (∀ v ∈ args, Value.Confined v) →
    Stays (runBody n params body scope receiver args) Value.Confined m
  construct : ∀ c args m, Confined m → ClassDef.Fns Callable.Confined c → (∀ v ∈ args, Value.Confined v) →
    Stays (Eval.construct n c args) Value.Confined m
  instanceProperty : ∀ i c name m, Confined m → ClassDef.Fns Callable.Confined c →
    Stays (Eval.instanceProperty n i c name) Value.Confined m
  staticProperty : ∀ s c name m, Confined m → ClassDef.Fns Callable.Confined c →
    Stays (Eval.staticProperty n s c name) Value.Confined m
  superMember : ∀ keyword member m, Confined m → Stays (Eval.superMember n keyword member) Value.Confined m
  stmt : ∀ l b s m, Confined m → Stmt.Confined l b s → Stays (execStmt n s) Flow.Confined m
  loop : ∀ b c body m, Confined m → Expr.Confined c → Stmt.Confined true b body →
    Stays (execWhile n c body) Flow.Confined m
  block : ∀ l b body scope m, Confined m → (∀ s ∈ body, Stmt.Confined l b s) →
    Stays (execBlock n body scope) Flow.Confined m
  stmts : ∀ l b ss m, Confined m → (∀ s ∈ ss, Stmt.Confined l b s) → Stays (execStmts n ss) Flow.Confined m

variable {n : Nat}

theorem StaysConfined.expr_succ (ih : StaysConfined n) (e : Expr) (m : Machine) (hm : Confined m)
    (he : Expr.Confined e) : Stays (evalExpr (n + 1) e) Value.Confined m := by
  cases he with
  | @assign r v hv =>
    simp only [evalExpr]
    refine (ih.expr v m hm hv).bind fun a m1 hm1 ha => ?_
    refine (Stays.assignTo hm1 r ha).bind fun _ m2 hm2 _ => ?_
    exact Stays.pure hm2 ha
  | @binary l op t r hl hr =>
    simp only [evalExpr]
    refine (ih.expr l m hm hl).bind fun a m1 hm1 _ => ?_
    refine (ih.expr r m1 hm1 hr).bind fun b m2 hm2 _ => ?_
    exact Stays.ofExcept hm2 fun v hv => BinaryOp.apply_fns hv
  | @call callee paren args hc ha =>
    simp only [evalExpr]
    refine (ih.expr callee m hm hc).bind fun f m1 hm1 hf => ?_
    refine (ih.args args m1 hm1 ha).bind fun vs m2 hm2 hvs => ?_
    cases hf with
    | function s hc => exact ih.invoke _ paren vs m2 hm2 hc hvs
    | classRef s hc => exact ih.invoke _ paren vs m2 hm2 hc hvs
    | _ => exact Stays.fail hm2 _
  | @get obj name ho =>
    simp only [evalExpr]
    refine (ih.expr obj m hm ho).bind fun o m1 hm1 hv => ?_
    cases hv with
    | instanceRef i hc => exact ih.instanceProperty i _ name m1 hm1 hc
    | classRef s hc => exact ih.staticProperty s _ name m1 hm1 hc
    | _ => exact Stays.fail hm1 _
  | @lambda keyword params body hbody =>
    simp only [evalExpr]
    refine (Stays.currentScope hm).bind fun s m1 hm1 _ => ?_
    refine (Stays.pin hm1 s).bind fun _ m2 hm2 _ => ?_
    refine (Stays.stamp hm2).bind fun k m3 hm3 _ => ?_
    exact Stays.pure hm3 (.function k (.closure hbody fun _ h => by cases h))
  | @grouping e he =>
    simp only [evalExpr]
    exact ih.expr e m hm he
  | @literal l =>
    simp only [evalExpr]
    exact Stays.pure hm (by cases l <;> constructor)
  | @logical l op t r hl hr =>
    simp only [evalExpr]
    refine (ih.expr l m hm hl).bind fun a m1 hm1 ha => ?_
    cases op <;> dsimp only <;> split
    all_goals first
      | exact ih.expr r m1 hm1 hr
      | exact Stays.pure hm1 ha
  | @set obj name v ho hv =>
    simp only [evalExpr]
    refine (ih.expr obj m hm ho).bind fun o m1 hm1 _ => ?_
    split
    · refine (ih.expr v m1 hm1 hv).bind fun a m2 hm2 ha => ?_
      refine (Stays.setField hm2 _ name.lexeme ha).bind fun _ m3 hm3 _ => ?_
      exact Stays.pure hm3 ha
    · exact Stays.fail hm1 _
  | @superMember keyword member =>
    simp only [evalExpr]
    exact ih.superMember keyword member m hm
  | @conditional c q a b hc ha hb =>
    simp only [evalExpr]
    refine (ih.expr c m hm hc).bind fun v m1 hm1 _ => ?_
    split
    · exact ih.expr a m1 hm1 ha
    · exact ih.expr b m1 hm1 hb
    · exact Stays.fail hm1 _
  | @this r =>
    simp only [evalExpr]
    exact Stays.lookup hm r
  | @unary op t e he =>
    simp only [evalExpr]
    refine (ih.expr e m hm he).bind fun v m1 hm1 _ => ?_
    split
    · exact Stays.pure hm1 (.number _)
    · exact Stays.fail hm1 _
    · exact Stays.pure hm1 (.bool _)
  | @«variable» r =>
    simp only [evalExpr]
    exact Stays.lookup hm r

theorem StaysConfined.args_succ (ih : StaysConfined n) (es : List Expr) (m : Machine)
    (hm : Confined m) (hes : ∀ e ∈ es, Expr.Confined e) :
    Stays (evalArgs (n + 1) es) (fun vs => ∀ v ∈ vs, Value.Confined v) m := by
  cases es with
  | nil =>
    simp only [evalArgs]
    exact Stays.pure hm fun v hv => by cases hv
  | cons e es =>
    simp only [evalArgs]
    refine (ih.expr e m hm (hes e List.mem_cons_self)).bind fun v m1 hm1 hv => ?_
    refine (ih.args es m1 hm1 fun e he => hes e (List.mem_cons_of_mem _ he)).bind
      fun vs m2 hm2 hvs => ?_
    refine Stays.pure hm2 fun w hw => ?_
    rcases List.mem_cons.1 hw with rfl | hw
    · exact hv
    · exact hvs w hw

theorem StaysConfined.invoke_succ (ih : StaysConfined n) (c : Callee) (paren : Token)
    (args : List Value) (m : Machine) (hm : Confined m) (hc : Callee.Confined c)
    (hargs : ∀ v ∈ args, Value.Confined v) : Stays (Eval.invoke (n + 1) c paren args) Value.Confined m := by
  unfold Stays
  rw [exec_invoke]
  split
  · exact ⟨hm, fun _ h => by cases h⟩
  split
  · exact ⟨hm, fun _ h => by cases h⟩
  -- the body runs one call deeper; the depth is not part of what is kept
  have hm' : Confined { m with depth := m.depth + 1 } := hm.of_eq rfl rfl
  obtain ⟨hs, hok⟩ : Stays (runCallee n args c) Value.Confined { m with depth := m.depth + 1 } := by
    cases c with
    | function f => exact ih.call f args _ hm' hc hargs
    | classOf c => exact ih.construct c args _ hm' hc hargs
  exact ⟨hs.of_eq rfl rfl, hok⟩

/-- Binding the arguments of a call, one after another, in the parameter scope `c`. -/
theorem Confined.defineArgs (c : Nat) :
    ∀ (l : List (Token × Value)) {m : Machine}, Confined m → (∀ x ∈ l, Value.Confined x.2) →
      Confined (l.foldl (defineArg c) m)
  | [], _, hm, _ => hm
  | x :: l, m, hm, hl =>
    Confined.defineArgs c l ⟨hm.scopes.define fun y hy => by cases hy; exact hl x List.mem_cons_self,
      hm.fields⟩ fun y hy => hl y (List.mem_cons_of_mem _ hy)

theorem returnOf_confined {r : Except Interrupt Flow} (h : ∀ fl, r = .ok fl → Flow.Confined fl) :
    ∀ v, returnOf r = .ok v → Value.Confined v := by
  intro v hv
  rcases r with e | (_ | _ | w)
  · cases hv
  · cases hv; constructor
  · cases hv; constructor
  · cases hv; exact h _ rfl

theorem StaysConfined.body_succ (ih : StaysConfined n) (params : List Token) (body : List Stmt)
    (scope : Nat) (receiver : Option Value) (args : List Value) (b : Body) (m : Machine)
    (hm : Confined m) (hbody : ∀ s ∈ body, Stmt.Confined false b s)
    (hr : ∀ r, receiver = some r → Value.Confined r) (hargs : ∀ v ∈ args, Value.Confined v) :
    Stays (runBody (n + 1) params body scope receiver args) Value.Confined m := by
  unfold Stays
  have hzip : ∀ x ∈ params.zip args, Value.Confined x.2 := fun x hx => hargs x.2 (List.of_mem_zip hx).2
  cases receiver with
  | none =>
    rw [exec_runBody_none]
    dsimp only
    have hm2 := Confined.defineArgs (m.scopes.child scope).2 _
      (show Confined { m with scopes := (m.scopes.child scope).1 } from ⟨hm.scopes.child, hm.fields⟩) hzip
    obtain ⟨hm3, hok3⟩ := ih.block false b body _ _ hm2 hbody
    exact ⟨⟨hm3.scopes.release, hm3.fields⟩, returnOf_confined hok3⟩
  | some this =>
    rw [exec_runBody_some]
    dsimp only
    have hm1 : Confined (openReceiver scope this m) :=
      ⟨hm.scopes.child.define fun y hy => by cases hy; exact hr this rfl, hm.fields⟩
    have hm2 := Confined.defineArgs ((openReceiver scope this m).scopes.child
      (m.scopes.child scope).2).2 _
      (show Confined { openReceiver scope this m with
        scopes := ((openReceiver scope this m).scopes.child
          (m.scopes.child scope).2).1 } from ⟨hm1.scopes.child, hm1.fields⟩) hzip
    obtain ⟨hm3, hok3⟩ := ih.block false b body _ _ hm2 hbody
    exact ⟨⟨hm3.scopes.release.release, hm3.fields⟩, returnOf_confined hok3⟩

theorem StaysConfined.call_succ (ih : StaysConfined n) (f : Callable) (args : List Value)
    (m : Machine) (hm : Confined m) (hf : Callable.Fns Callable.Confined f)
    (hargs : ∀ v ∈ args, Value.Confined v) : Stays (callFunction (n + 1) f args) Value.Confined m := by
  cases hf with
  | native name arity =>
    simp only [callFunction]
    refine (Stays.get hm).bind fun a m1 hm1 _ => ?_
    exact Stays.pure hm1 (.number _)
  | closure hp hr =>
    rename_i name params body scope receiver isInit
    cases receiver with
    | some this =>
      simp only [callFunction]
      split
      · refine (ih.body params body scope _ args _ m hm hp hr hargs).bind fun _ m1 hm1 _ => ?_
        exact Stays.pure hm1 (hr this rfl)
      · exact ih.body params body scope _ args _ m hm hp hr hargs
    | none =>
      simp only [callFunction]
      split
      · exact Stays.fail hm _
      · exact ih.body params body scope _ args _ m hm hp hr hargs

/-- A member found in a class whose functions have confined bodies, bound to a receiver whose
functions do too. -/
theorem member_bind_confined {c : ClassDef} {kind : MemberKind} {name : String} {f : Callable}
    {r : Value} (hc : ClassDef.Fns Callable.Confined c) (hf : c.find kind name = some f)
    (hr : Value.Confined r) : Callable.Fns Callable.Confined (f.bind r) :=
  (hc.find hf).bind Callable.confined_bind hr

theorem StaysConfined.construct_succ (ih : StaysConfined n) (c : ClassDef) (args : List Value)
    (m : Machine) (hm : Confined m) (hc : ClassDef.Fns Callable.Confined c)
    (hargs : ∀ v ∈ args, Value.Confined v) : Stays (Eval.construct (n + 1) c args) Value.Confined m := by
  simp only [Eval.construct]
  refine (Stays.newInstance hm hc).bind fun inst m1 hm1 hinst => ?_
  split
  · rename_i init hinit
    refine (ih.call _ args m1 hm1 (member_bind_confined hc hinit hinst) hargs).bind
      fun _ m2 hm2 _ => ?_
    exact Stays.pure hm2 hinst
  · exact Stays.pure hm1 hinst

/-- A method bound to a receiver, as a fresh function value. -/
theorem Stays.boundMethod (hm : Confined m) {c : ClassDef} {kind : MemberKind} {name : String}
    {f : Callable} {r : Value} (hc : ClassDef.Fns Callable.Confined c)
    (hf : c.find kind name = some f) (hr : Value.Confined r) :
    Stays (do return Value.function (← Eval.stamp) (f.bind r)) Value.Confined m :=
  (Stays.stamp hm).bind fun k _ hm1 _ => Stays.pure hm1 (.function k (member_bind_confined hc hf hr))

theorem StaysConfined.instanceProperty_succ (ih : StaysConfined n) (i : Nat) (c : ClassDef)
    (name : Token) (m : Machine) (hm : Confined m) (hc : ClassDef.Fns Callable.Confined c) :
    Stays (Eval.instanceProperty (n + 1) i c name) Value.Confined m := by
  simp only [Eval.instanceProperty]
  refine (Stays.field? hm i name.lexeme).bind fun o m1 hm1 ho => ?_
  have hthis : Value.Confined (.instanceRef i c) := .instanceRef i hc
  split
  · exact Stays.pure hm1 (ho _ rfl)
  · split
    · rename_i g hg
      exact ih.invoke _ name [] m1 hm1 (member_bind_confined hc hg hthis) fun _ h => by cases h
    · split
      · rename_i f hf
        exact Stays.boundMethod hm1 hc hf hthis
      · exact Stays.fail hm1 _

theorem StaysConfined.staticProperty_succ (ih : StaysConfined n) (s : Nat) (c : ClassDef)
    (name : Token) (m : Machine) (hm : Confined m) (hc : ClassDef.Fns Callable.Confined c) :
    Stays (Eval.staticProperty (n + 1) s c name) Value.Confined m := by
  simp only [Eval.staticProperty]
  have hthis : Value.Confined (.classRef s c) := .classRef s hc
  split
  · rename_i g hg
    exact ih.invoke _ name [] m hm (member_bind_confined hc hg hthis) fun _ h => by cases h
  · split
    · rename_i f hf
      exact Stays.boundMethod hm hc hf hthis
    · exact Stays.fail hm _

theorem StaysConfined.superMember_succ (ih : StaysConfined n) (keyword : Reference)
    (member : Token) (m : Machine) (hm : Confined m) :
    Stays (Eval.superMember (n + 1) keyword member) Value.Confined m := by
  simp only [Eval.superMember]
  split
  · exact Stays.fail hm _
  · refine (Stays.get hm).bind fun a m1 hm1 ha => ?_
    refine (Stays.ofExcept hm1 fun v hv => ha.scopes.getAt hv).bind fun v m2 hm2 hv => ?_
    split
    · rename_i k sup
      have hsup : ClassDef.Fns Callable.Confined sup := by
        cases hv with
        | classRef _ h => exact h
      split
      · exact Stays.fail hm2 _
      · refine (Stays.get hm2).bind fun a m3 hm3 ha => ?_
        refine (Stays.ofExcept hm3 fun v hv => ha.scopes.getAt hv).bind fun r m4 hm4 hr => ?_
        split
        · rename_i g hg
          exact ih.invoke _ member [] m4 hm4 (member_bind_confined hsup hg hr) fun _ h => by cases h
        · split
          · rename_i f hf
            exact Stays.boundMethod hm4 hsup hf hr
          · exact Stays.fail hm4 _
    · exact Stays.fail hm2 _

/-- A run in a child scope of `p`, released afterwards however the run ends. -/
theorem Stays.scoped {p : Nat} {k : Nat → Eval Flow}
    (hk : Stays (k (m.scopes.child p).2) Flow.Confined { m with scopes := (m.scopes.child p).1 }) :
    Stays (do
      let c ← Eval.childOf p
      let r ← attempt (k c)
      Eval.release c
      resume r) Flow.Confined m := by
  unfold Stays
  simp only [exec_bind, exec_childOf, exec_attempt, exec_release, exec_resume]
  obtain ⟨hm2, hok2⟩ := hk
  exact ⟨⟨hm2.scopes.release, hm2.fields⟩, hok2⟩

/-- The scope of `super` in a class declaration: opened below the declaring scope, holding
the superclass, and pinned. -/
theorem Stays.superScope {p : Nat} {v : Value} {k : Nat → Eval Flow} (hm : Confined m) (hv : Value.Confined v)
    (hk : ∀ m', Confined m' → Stays (k (m.scopes.child p).2) Flow.Confined m') :
    Stays (do
      let sc ← Eval.childOf p
      Eval.define sc "super" (some v)
      let scope ← Pure.pure sc
      Eval.pin scope
      k scope) Flow.Confined m := by
  unfold Stays
  simp only [exec_bind, exec_childOf, exec_define, exec_pure, exec_pin]
  exact hk _ ⟨(hm.scopes.child.define fun x hx => by cases hx; exact hv).pins (Scopes.pins_pin _ _),
    hm.fields⟩

/-- The members of a class, closed over one scope, have confined bodies when the class
declaration is confined. -/
theorem memberTable_confined {scope : Nat} {init : Bool} {decls : List FunDecl}
    (h : ∀ d ∈ decls, ∀ s ∈ d.body,
      Stmt.Confined false (if init && d.name.lexeme = "init" then .initializer else .function) s) :
    ∀ e ∈ memberTable scope init decls, Callable.Fns Callable.Confined e.2 :=
  memberTable_fns fun d hd => h d hd

/-- The last step of a class declaration: the class becomes the value of its name. -/
theorem Stays.declareClass (hm : Confined m) {here scope : Nat} {name : String}
    {sup : Option ClassDef} {ms gs ss sgs : List FunDecl}
    (hsup : ∀ c, sup = some c → ClassDef.Fns Callable.Confined c)
    (hms : ∀ d ∈ ms, ∀ s ∈ d.body,
      Stmt.Confined false (if d.name.lexeme = "init" then .initializer else .function) s)
    (hrest : ∀ d ∈ gs ++ ss ++ sgs, ∀ s ∈ d.body, Stmt.Confined false .function s) :
    Stays (do
      let s ← Eval.stamp
      Eval.define here name (some (.classRef s (.mk name sup (memberTable scope true ms)
        (memberTable scope false gs) (memberTable scope false ss) (memberTable scope false sgs))))
      Pure.pure Flow.normal) Flow.Confined m := by
  refine (Stays.stamp hm).bind fun k m1 hm1 _ => ?_
  have hfalse : ∀ ds : List FunDecl, (∀ d ∈ ds, d ∈ gs ++ ss ++ sgs) →
      ∀ e ∈ memberTable scope false ds, Callable.Fns Callable.Confined e.2 :=
    fun ds hds => memberTable_confined fun d hd => by simpa using hrest d (hds d hd)
  have hc : ClassDef.Fns Callable.Confined (.mk name sup (memberTable scope true ms)
      (memberTable scope false gs) (memberTable scope false ss) (memberTable scope false sgs)) := by
    refine .mk hsup fun kind => ?_
    cases kind
    · exact memberTable_confined fun d hd => by simpa using hms d hd
    · exact hfalse gs fun d hd => by simp [hd]
    · exact hfalse ss fun d hd => by simp [hd]
    · exact hfalse sgs fun d hd => by simp [hd]
  refine (Stays.define hm1 here name fun x hx => by cases hx; exact .classRef k hc).bind
    fun _ m2 hm2 _ => ?_
  exact Stays.pure hm2 trivial

theorem StaysConfined.stmt_succ (ih : StaysConfined n) (l : Bool) (b : Body) (s : Stmt)
    (m : Machine) (hm : Confined m) (hs : Stmt.Confined l b s) :
    Stays (execStmt (n + 1) s) Flow.Confined m := by
  cases hs with
  | @block _ _ body hbody =>
    simp only [execStmt]
    refine (Stays.currentScope hm).bind fun p m1 hm1 _ => ?_
    exact Stays.scoped (ih.block l b body _ _ ⟨hm1.scopes.child, hm1.fields⟩ hbody)
  | breakLoop =>
    simp only [execStmt]
    exact Stays.pure hm trivial
  | @classDecl _ _ name sup methods getters statics staticGetters hms hrest =>
    unfold execStmt
    extract_lets tail
    -- the declaration once its superclass, if it names one, is found
    have htail : ∀ o m', Confined m' → (∀ x, o = some x → ClassDef.Fns Callable.Confined x.2) →
        Stays (tail o) Flow.Confined m' := by
      intro o m1 hm1 ho
      simp only [tail]
      refine (Stays.currentScope hm1).bind fun here m2 hm2 _ => ?_
      refine (Stays.define hm2 _ _ fun x hx => by cases hx; constructor).bind fun _ m3 hm3 _ => ?_
      split
      · rename_i sc c
        refine Stays.superScope hm3 (.classRef sc (ho _ rfl)) fun m4 hm4 => ?_
        exact Stays.declareClass hm4 (fun x hx => by cases hx; exact ho _ rfl) hms hrest
      · simp only [pure_bind]
        refine (Stays.pin hm3 _).bind fun _ m4 hm4 _ => ?_
        exact Stays.declareClass hm4 (fun x hx => by cases hx) hms hrest
    clear_value tail
    split
    · rename_i r
      refine (Stays.lookup hm r).bind fun v m1 hm1 hv => ?_
      split
      · simp only [pure_bind]
        exact htail _ m1 hm1 fun x hx => by
          cases hx
          cases hv with
          | classRef _ hc => exact hc
      · exact Stays.fail_bind hm1 _ _
    · simp only [pure_bind]
      exact htail none m hm fun x hx => by cases hx
  | @expression _ _ e he =>
    simp only [execStmt]
    refine (ih.expr e m hm he).bind fun _ m1 hm1 _ => ?_
    exact Stays.pure hm1 trivial
  | @function _ _ name params body hbody =>
    simp only [execStmt]
    refine (Stays.currentScope hm).bind fun p m1 hm1 _ => ?_
    refine (Stays.pin hm1 p).bind fun _ m2 hm2 _ => ?_
    refine (Stays.stamp hm2).bind fun k m3 hm3 _ => ?_
    refine (Stays.define hm3 _ _ fun x hx => by
      cases hx
      exact .function k (.closure hbody fun _ h => by cases h)).bind fun _ m4 hm4 _ => ?_
    exact Stays.pure hm4 trivial
  | @ifElse _ _ c t e hc ht he =>
    cases e with
    | some e =>
      simp only [execStmt]
      refine (ih.expr c m hm hc).bind fun _ m1 hm1 _ => ?_
      split
      · exact ih.stmt l b t m1 hm1 ht
      · exact ih.stmt l b e m1 hm1 (he e rfl)
    | none =>
      simp only [execStmt]
      refine (ih.expr c m hm hc).bind fun _ m1 hm1 _ => ?_
      split
      · exact ih.stmt l b t m1 hm1 ht
      · exact Stays.pure hm1 trivial
  | @print _ _ e he =>
    simp only [execStmt]
    refine (ih.expr e m hm he).bind fun v m1 hm1 _ => ?_
    refine (Stays.emit hm1 _).bind fun _ m2 hm2 _ => ?_
    exact Stays.pure hm2 trivial
  | returnNothing =>
    simp only [execStmt]
    exact Stays.pure hm .nil
  | @returnValue _ keyword e he =>
    simp only [execStmt]
    refine (ih.expr e m hm he).bind fun v m1 hm1 hv => ?_
    exact Stays.pure hm1 hv
  | @varDecl _ _ name init hinit =>
    cases init with
    | some e =>
      simp only [execStmt, map_eq_pure_bind, bind_assoc, pure_bind]
      refine (ih.expr e m hm (hinit e rfl)).bind fun v m1 hm1 hv => ?_
      refine (Stays.currentScope hm1).bind fun p m2 hm2 _ => ?_
      refine (Stays.define hm2 _ _ fun x hx => by cases hx; exact hv).bind fun _ m3 hm3 _ => ?_
      exact Stays.pure hm3 trivial
    | none =>
      simp only [execStmt, pure_bind]
      refine (Stays.currentScope hm).bind fun p m1 hm1 _ => ?_
      refine (Stays.define hm1 _ _ fun x hx => by cases hx).bind fun _ m2 hm2 _ => ?_
      exact Stays.pure hm2 trivial
  | @whileLoop _ _ c body hc hbody =>
    simp only [execStmt]
    exact ih.loop b c body m hm hc hbody

theorem StaysConfined.loop_succ (ih : StaysConfined n) (b : Body) (c : Expr) (body : Stmt)
    (m : Machine) (hm : Confined m) (hc : Expr.Confined c) (hbody : Stmt.Confined true b body) :
    Stays (execWhile (n + 1) c body) Flow.Confined m := by
  simp only [execWhile]
  refine (ih.expr c m hm hc).bind fun v m1 hm1 _ => ?_
  split
  · refine (ih.stmt true b body m1 hm1 hbody).bind fun fl m2 hm2 hfl => ?_
    split
    · exact ih.loop b c body m2 hm2 hc hbody
    · exact Stays.pure hm2 trivial
    · exact Stays.pure hm2 hfl
  · exact Stays.pure hm1 trivial

theorem StaysConfined.block_succ (ih : StaysConfined n) (l : Bool) (b : Body) (body : List Stmt)
    (scope : Nat) (m : Machine) (hm : Confined m) (hbody : ∀ s ∈ body, Stmt.Confined l b s) :
    Stays (execBlock (n + 1) body scope) Flow.Confined m := by
  unfold Stays
  rw [exec_execBlock]
  obtain ⟨hm1, hok1⟩ := ih.stmts l b body { m with current := scope } (hm.of_eq rfl rfl) hbody
  exact ⟨hm1.of_eq rfl rfl, hok1⟩

theorem StaysConfined.stmts_succ (ih : StaysConfined n) (l : Bool) (b : Body) (ss : List Stmt)
    (m : Machine) (hm : Confined m) (hss : ∀ s ∈ ss, Stmt.Confined l b s) :
    Stays (execStmts (n + 1) ss) Flow.Confined m := by
  cases ss with
  | nil =>
    simp only [execStmts]
    exact Stays.pure hm trivial
  | cons s ss =>
    simp only [execStmts]
    refine (ih.stmt l b s m hm (hss s List.mem_cons_self)).bind fun fl m1 hm1 hfl => ?_
    split
    · exact ih.stmts l b ss m1 hm1 fun s hs => hss s (List.mem_cons_of_mem _ hs)
    · exact Stays.pure hm1 hfl

theorem staysConfined_zero : StaysConfined 0 where
  expr _ _ hm _ := by simp only [evalExpr]; exact Stays.throw hm _
  args _ _ hm _ := by simp only [evalArgs]; exact Stays.throw hm _
  invoke _ _ _ _ hm _ _ := by simp only [Eval.invoke]; exact Stays.throw hm _
  call _ _ _ hm _ _ := by simp only [callFunction]; exact Stays.throw hm _
  body _ _ _ _ _ _ _ hm _ _ _ := by simp only [runBody]; exact Stays.throw hm _
  construct _ _ _ hm _ _ := by simp only [Eval.construct]; exact Stays.throw hm _
  instanceProperty _ _ _ _ hm _ := by simp only [Eval.instanceProperty]; exact Stays.throw hm _
  staticProperty _ _ _ _ hm _ := by simp only [Eval.staticProperty]; exact Stays.throw hm _
  superMember _ _ _ hm := by simp only [Eval.superMember]; exact Stays.throw hm _
  stmt _ _ _ _ hm _ := by simp only [execStmt]; exact Stays.throw hm _
  loop _ _ _ _ hm _ _ := by simp only [execWhile]; exact Stays.throw hm _
  block _ _ _ _ _ hm _ := by simp only [execBlock]; exact Stays.throw hm _
  stmts _ _ _ _ hm _ := by simp only [execStmts]; exact Stays.throw hm _

/-- At any fuel, confined code run from a machine whose functions have confined bodies leaves
such a machine and gives back only such functions. -/
theorem staysConfined : ∀ n, StaysConfined n
  | 0 => staysConfined_zero
  | n + 1 =>
    have ih := staysConfined n
    { expr := ih.expr_succ
      args := ih.args_succ
      invoke := ih.invoke_succ
      call := ih.call_succ
      body := ih.body_succ
      construct := ih.construct_succ
      instanceProperty := ih.instanceProperty_succ
      staticProperty := ih.staticProperty_succ
      superMember := ih.superMember_succ
      stmt := ih.stmt_succ
      loop := ih.loop_succ
      block := ih.block_succ
      stmts := ih.stmts_succ }

/-! ## Runs of accepted code -/

theorem Confined.initial (clock : Float) : Confined (Machine.initial clock) :=
  Machine.Holds.initial clock (.function 0 (.native "clock" 0))

/-- Running confined top-level statements, under either policy, keeps only functions with
confined bodies. -/
theorem Confined.interpret (policy : Policy) (ss : List Stmt) (h : Confined m)
    (hss : ∀ s ∈ ss, Stmt.Confined false .topLevel s) :
    Confined ((Machine.interpret policy ss).run m).2 :=
  interpret_preserves Confined (Stmt.Confined false .topLevel)
    (fun s h hs => ((staysConfined Eval.fuel).stmt false .topLevel s _ h hs).1) policy ss h hss

/-- The machines that running code resolution accepts leaves: a fresh machine, and what a
program or an expression accepted against any globals leaves, run under either policy, and
what taking the printed text leaves. -/
inductive Accepted : Machine → Prop
  | initial (clock : Float) : Accepted (Machine.initial clock)
  | program {m : Machine} (policy : Policy) {globals : List String} {program : List Stmt} :
      (resolveProgram globals program).isOk → Accepted m →
      Accepted ((Machine.interpret policy (resolveProgram globals program).tree).run m).2
  | expression {m : Machine} {globals : List String} {e : Expr} :
      (resolveExpression globals e).isOk → Accepted m →
      Accepted (exec (Eval.evalExpr Eval.fuel (resolveExpression globals e).tree) m).2
  | clearOutput {m : Machine} : Accepted m → Accepted { m with output := "" }

theorem analyze_parsed {globals : List String} {source : String} {r : Resolved (List Stmt)}
    (h : analyze globals source = .parsed r) : ∃ program, r = resolveProgram globals program := by
  unfold analyze at h
  split at h
  · cases h
  · cases h
    exact ⟨_, rfl⟩

/-- A step of a session runs only what resolution accepts. -/
theorem Accepted.step (h : Accepted m) (st : Step) : Accepted ((Machine.step st).run m).2 :=
  step_preserves Accepted
    (fun h hr hok => by
      obtain ⟨program, rfl⟩ := analyze_parsed hr
      exact h.program .abortStatement hok)
    (fun h _ hok => h.expression hok) Accepted.clearOutput h st

theorem Accepted.confined (h : Accepted m) : Confined m := by
  induction h with
  | initial clock => exact Confined.initial clock
  | program policy hok _ ih => exact Confined.interpret policy _ ih (resolveProgram_confined hok)
  | expression hok _ ih => exact ((staysConfined _).expr _ _ ih (resolveExpression_confined hok)).1
  | clearOutput _ ih => exact ih.of_eq rfl rfl

end Machine

/-! ## Where `break` and `return` end -/

/-- A function whose body, run at any fuel from any machine, never ends with `break`, and whose
body, if it is an initializer's, ends normally or returning `nil`. -/
def Callable.EndsWell : Callable → Prop
  | .native .. => True
  | .closure _ _ body _ _ isInit => ∀ (n scope : Nat) (m : Machine) (fl : Flow),
    (Eval.exec (Eval.execBlock n body scope) m).1 = .ok fl →
      fl ≠ .breakLoop ∧ (isInit = true → fl = .normal ∨ fl = .returned .nil)

theorem Callable.Confined.endsWell {f : Callable} (hf : f.Confined) : f.EndsWell := by
  cases f with
  | native name arity => exact trivial
  | closure name params body scope receiver isInit =>
    simp only [Callable.EndsWell]
    intro n c m fl h
    have ha := (confines n).block false _ body c hf m fl h
    cases fl with
    | normal => exact ⟨(fun h => by cases h), fun _ => .inl rfl⟩
    | breakLoop => cases ha
    | returned v =>
      refine ⟨(fun h => by cases h), fun hi => .inr ?_⟩
      subst hi
      rw [ha.2 (if_pos rfl)]

open Eval Machine in
/-- In a run of code that resolution accepts, `break` and `return` never escape. Every
top-level statement of an accepted program ends normally, whatever the machine and the fuel.
Every machine of a run of accepted programs and expressions keeps only functions with confined
bodies; from such a machine every part of evaluation of confined code keeps and gives back only
such functions, so every function a call runs has a confined body. A confined body never ends
with `break`, and an initializer's ends normally or returning `nil`. -/
theorem exits_contained :
    (∀ (globals : List String) (program : List Stmt), (resolveProgram globals program).isOk →
      ∀ s ∈ (resolveProgram globals program).tree, ∀ (n : Nat) (m : Machine) (fl : Flow),
        (exec (Eval.execStmt n s) m).1 = .ok fl → fl = .normal) ∧
    (∀ m, Accepted m → Confined m) ∧ (∀ n, StaysConfined n) ∧
    (∀ f : Callable, f.Confined → f.EndsWell) :=
  ⟨fun _ _ hok s hs n m fl h =>
      ((confines n).stmt false .topLevel s (resolveProgram_confined hok s hs) m fl h).topLevel,
    fun _ h => h.confined, staysConfined, fun _ hf => hf.endsWell⟩

open Eval Machine in
/-- `while (true) break;` is accepted, and it ends normally at every fuel from every machine; a
fresh machine keeps only confined functions; an initializer with an empty body ends normally. -/
theorem loop_break_ends_normally :
    (resolveProgram [] [.whileLoop (.literal (.bool true))
      (.breakLoop ⟨.«break», "break", none, 1, 14⟩)]).isOk = true ∧
    (∀ s ∈ (resolveProgram [] [.whileLoop (.literal (.bool true))
        (.breakLoop ⟨.«break», "break", none, 1, 14⟩)]).tree,
      ∀ (n : Nat) (m : Machine) (fl : Flow), (exec (Eval.execStmt n s) m).1 = .ok fl →
        fl = .normal) ∧
    Confined (Machine.initial 0) ∧ (Callable.closure (some "init") [] [] 0 none true).EndsWell := by
  have hok : (resolveProgram [] [.whileLoop (.literal (.bool true))
      (.breakLoop ⟨.«break», "break", none, 1, 14⟩)]).isOk = true := by cbv
  exact ⟨hok, exits_contained.1 [] _ hok, exits_contained.2.1 _ (.initial 0),
    exits_contained.2.2.2 _ fun _ h => by cases h⟩

end Lox
