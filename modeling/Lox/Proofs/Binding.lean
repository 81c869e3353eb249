import Lox.Proofs.Receivers
import Lox.Proofs.Spelling
import Lox.Proofs.Parts
/-!
# `this` is the receiver

A function carries a receiver `r` (`Callable.Carries`) when every call of it finds `this` bound
to `r`: a member bound to `r`, or a function closed over a pinned scope that binds `this` to `r`
where its body looks for it. Reading a method or a getter from a receiver gives it bound to the
receiver, and it carries the receiver (`ReadsMember.carried`).

A call of a function that carries `r` runs its body from an entry that receives `r`
(`Callable.Carries.entry`): the code's scope binds `this` to `r`, and `super` to the superclass
of the member's class, as many scopes out as resolution put them. Every part of the body's run
receives `r` too (`Eval.Reaches.receives`), so there `this` gives `r`, `super.member` reads along
that superclass, and every function made carries `r`. Evaluation never changes what a pinned
scope binds to `this` or `super`, so a function made during a call carries its receiver whenever
it is called later (`Callable.Carries.after_evalExpr`).
-/

namespace Lox

namespace Scopes

variable {A B : Scopes} {s p j : Nat} {x : String} {v : Value}

/-- What a scope in use binds some scopes out, a new scope under it binds one scope further. -/
theorem BindsAt.child (hA : A.WF) (hp : A.Live p) (hx : ¬ Bindable x) (h : A.BindsAt p j x v) :
    (A.child p).1.BindsAt (A.child p).2 (j + 1) x v := by
  have hpar : (A.child p).1.parentOf (A.child p).2 = some p := by
    rw [hA.parentOf_child, if_pos rfl]
  refine BindsAt.parent hpar (h.of_parents (Q := A.Live)
    (fun t q ht hq => hA.parent_live t q ht hq) (fun t ht => hA.live_child.2 (.inl ht))
    (fun t ht => ?_) (fun t ht y _ => hA.binding_child ht y) hx hp)
  have hne : t ≠ (A.child p).2 := fun e => not_live_child (A := A) p (e ▸ ht)
  rw [hA.parentOf_child, if_neg hne]

/-- An arena of the same shape that binds `this` and `super` alike keeps every binding of them
seen from a scope in use. -/
theorem BindsAt.shaped (hA : A.WF) (hsh : A.Shaped B)
    (hk : ∀ t y, ¬ Bindable y → B.binding t y = A.binding t y) (hx : ¬ Bindable x)
    (hs : A.Live s) (h : A.BindsAt s j x v) : B.BindsAt s j x v :=
  h.of_parents (Q := A.Live) (fun t q ht hq => hA.parent_live t q ht hq)
    (fun _ ht => hsh.live_iff.2 ht) (fun t _ => hsh.parentOf_eq t) (fun t _ y hy => hk t y hy) hx hs

/-- What a scope binds satisfies what every value the arena holds satisfies. -/
theorem BindsAt.holds {P : Value → Prop} (hA : A.Holds P) (h : A.BindsAt s j x v) : P v := by
  obtain ⟨t, -, hb⟩ := h
  obtain ⟨sc, hsc, hl⟩ := Option.bind_eq_some_iff.1 hb
  exact hA t sc hsc _ (mem_of_lookup hl) v rfl

/-- From scope `s`, the anchor `a` is hosted for a call whose receiver is `r`, of a member of a
class whose superclass is `sup`: `this` is bound to `r` at `a`'s hops, and `super` to `sup`, if
there is one, a scope further out. -/
structure HostsFor (A : Scopes) (s : Nat) (r : Value) (sup : Option ClassDef) (a : Anchor) :
    Prop where
  this : A.BindsAt s a.hops "this" r
  super_eq : a.super = sup.isSome
  superclass : ∀ c, sup = some c → ∃ k, A.BindsAt s (a.hops + 1) "super" (.classRef k c)

namespace HostsFor

variable {r : Value} {sup : Option ClassDef} {a : Anchor}

theorem hosts (h : A.HostsFor s r sup a) : A.Hosts s (some a) := by
  refine ⟨⟨r, h.this⟩, fun hs => ?_⟩
  obtain ⟨c, hc⟩ := Option.isSome_iff_exists.1 (h.super_eq ▸ hs)
  obtain ⟨k, hk⟩ := h.superclass c hc
  exact ⟨k, c, hk⟩

/-- Whatever keeps the bindings of `this` and `super` seen from `s` keeps what `s` hosts. -/
theorem of_bindsAt (h : A.HostsFor s r sup a)
    (hk : ∀ {j x v}, ¬ Bindable x → A.BindsAt s j x v → B.BindsAt s j x v) :
    B.HostsFor s r sup a :=
  ⟨hk not_bindable_this h.this, h.super_eq,
    fun c hc => (h.superclass c hc).imp fun _ => hk not_bindable_super⟩

/-- A new scope under a scope in use hosts the anchor one scope further out. -/
theorem child (hA : A.WF) (hp : A.Live p) (h : A.HostsFor p r sup a) :
    (A.child p).1.HostsFor (A.child p).2 r sup a.out :=
  ⟨h.this.child hA hp not_bindable_this, h.super_eq,
    fun c hc => (h.superclass c hc).imp fun _ hk => hk.child hA hp not_bindable_super⟩

end HostsFor

end Scopes

namespace Eval.Code

variable {c c' : Code} {a : Option Anchor}

/-- Every `this` and `super` of a piece of code lies at the anchor `a`, as resolution found it. -/
def Anchored (a : Option Anchor) : Code → Prop
  | .expr e => Expr.Anchored .resolved a e
  | .args es => ∀ e ∈ es, Expr.Anchored .resolved a e
  | .stmt s => Stmt.Anchored .resolved a s
  | .loop c body => Expr.Anchored .resolved a c ∧ Stmt.Anchored .resolved a body
  | .block body _ => ∀ s ∈ body, Stmt.Anchored .resolved a s
  | .stmts ss => ∀ s ∈ ss, Stmt.Anchored .resolved a s

/-- A part lies at the anchor of the code it is a part of. -/
theorem Part.anchored (hp : Part c c') (h : c.Anchored a) : c'.Anchored a := by
  cases hp <;> simp only [Anchored] at h ⊢
  -- a part of an expression or a statement is one premise of how that is anchored
  case ifElse => cases h with | ifElse _ _ he => exact he _ rfl
  case returnValue => cases h with | returnFrom hv => exact hv _ rfl
  case initializer => cases h with | varDecl _ hinit => exact hinit _ rfl
  case whileLoop => cases h with | whileLoop hc hb => exact ⟨hc, hb⟩
  case argsHead | stmtsHead => exact h _ List.mem_cons_self
  case argsTail | stmtsTail => exact fun x hx => h x (List.mem_cons_of_mem _ hx)
  case loopCondition => exact h.1
  case loopBody => exact h.2
  all_goals cases h; assumption

end Eval.Code

/-! ## Functions that carry a receiver -/

/-- The superclass a class was declared with. -/
def ClassDef.superclass : ClassDef → Option ClassDef
  | .mk _ sup .. => sup

/-- A function whose every call finds `this` bound to `r`, and `super`, where its body uses it,
bound to `sup`: a member of a class whose superclass is `sup`, bound to `r`; or a function
closed over a pinned scope that binds both where the anchor of its body, one scope further in,
looks for them. -/
inductive Callable.Carries (A : Scopes) (r : Value) (sup : Option ClassDef) : Callable → Prop
  | native (name : String) (arity : Nat) : Callable.Carries A r sup (.native name arity)
  | bound {name params body scope isInit} :
      Callable.MemberOf A sup (.closure name params body scope none isInit) →
      Value.Tethered A r →
      Callable.Carries A r sup (.closure name params body scope (some r) isInit)
  | made {name params body scope isInit} {a : Anchor} : A.pinnedAt scope = true →
      Binders params → (∀ s ∈ body, Stmt.Anchored .resolved (some a.out) s) →
      A.HostsFor scope r sup a →
      Callable.Carries A r sup (.closure name params body scope none isInit)

namespace Callable.Carries

variable {A B : Scopes} {r : Value} {sup : Option ClassDef} {f : Callable}

/-- What carries a receiver carries it in every arena that keeps the first one steady. -/
theorem keep (hA : A.WF) (hst : A.Steady B) (h : f.Carries A r sup) : f.Carries B r sup := by
  cases h with
  | native name arity => exact .native name arity
  | bound hm hr => exact .bound (hm.keep hA hst) (hr.keep hA hst)
  | made hs hps hbody hh =>
    exact .made (hst.keeps.pinned _ hs) hps hbody
      (hh.of_bindsAt fun hx hb => hst.bindsAt hA hs hx hb)

end Callable.Carries

/-- A member of a class whose superclass is `sup`, bound to a tethered receiver, carries it. -/
theorem Callable.MemberOf.carries {A : Scopes} {sup : Option ClassDef} {f : Callable} {r : Value}
    (hf : f.MemberOf A sup) (hr : Value.Tethered A r) : (f.bind r).Carries A r sup := by
  cases f with
  | native name arity => exact .native name arity
  | closure _ _ _ _ receiver _ =>
    have hnone : receiver = none := hf.1
    subst hnone
    exact .bound hf hr

/-- Every class along the chain of a tethered class is tethered. -/
theorem ClassDef.Tethered.chain {A : Scopes} :
    ∀ {c : ClassDef}, ClassDef.Tethered A c → ∀ d ∈ c.chain, ClassDef.Tethered A d
  | .mk _ none .., h, d, hd => by
    rw [ClassDef.chain, List.mem_singleton] at hd
    exact hd ▸ h
  | .mk _ (some _) .., h, d, hd => by
    rw [ClassDef.chain] at hd
    rcases List.mem_cons.1 hd with rfl | hd
    · exact h
    · exact ClassDef.Tethered.chain h.superclass d hd

/-- A member of a class along the chain of a tethered class, bound to a tethered receiver,
carries it, with the superclass of the class that declares the member. -/
theorem ClassDef.Tethered.carries {A : Scopes} {c d : ClassDef} {kind : MemberKind}
    {e : String × Callable} {r : Value} (hc : ClassDef.Tethered A c) (hd : d ∈ c.chain)
    (he : e ∈ d.table kind) (hr : Value.Tethered A r) :
    (e.2.bind r).Carries A r d.superclass := by
  obtain ⟨name, sup, ms, gs, ss, sgs⟩ := d
  exact ((hc.chain _ hd).table kind e he).carries hr

namespace Eval

/-- Reading `name` on behalf of `r` along the chain of `c` goes from `m` to `res`: it runs the
getter it finds, or gives the method it finds, bound to `r` and carrying it with the superclass
of the class that declares it; or it fails for want of the name. -/
def ReadsCarried (n : Nat) (A : Scopes) (r : Value) (getterKind methodKind : MemberKind)
    (c : ClassDef) (name : Token) (m : Machine) (res : Except Interrupt Value × Machine) : Prop :=
  (∃ d ∈ c.chain, ∃ g, (d.table getterKind).lookup name.lexeme = some g ∧
    (g.bind r).Carries A r d.superclass ∧ res = exec (invoke n (.function (g.bind r)) name []) m) ∨
  (∃ d ∈ c.chain, ∃ f, (d.table methodKind).lookup name.lexeme = some f ∧
    (f.bind r).Carries A r d.superclass ∧
    res = (.ok (.function m.nextStamp (f.bind r)), { m with nextStamp := m.nextStamp + 1 })) ∨
  res = (.error (.fault (.undefinedProperty name)), m)

/-- A read along the chain of a tethered class, on behalf of a tethered receiver, binds what it
finds to the receiver. -/
theorem ReadsMember.carried {n : Nat} {A : Scopes} {r : Value}
    {getterKind methodKind : MemberKind} {c : ClassDef} {name : Token} {m : Machine}
    {res : Except Interrupt Value × Machine} (hc : ClassDef.Tethered A c)
    (hr : Value.Tethered A r) (h : ReadsMember n r getterKind methodKind c name m res) :
    ReadsCarried n A r getterKind methodKind c name m res := by
  rcases h with ⟨g, ⟨pre, d, post, hch, hg, -⟩, rfl⟩ | ⟨-, f, ⟨pre, d, post, hch, hf, -⟩, rfl⟩ |
    ⟨-, -, rfl⟩
  · have hd : d ∈ c.chain := by simp [hch]
    exact .inl ⟨d, hd, g, hg, hc.carries hd (Scopes.mem_of_lookup hg) hr, rfl⟩
  · have hd : d ∈ c.chain := by simp [hch]
    exact .inr (.inl ⟨d, hd, f, hf, hc.carries hd (Scopes.mem_of_lookup hf) hr, rfl⟩)
  · exact .inr (.inr rfl)

end Eval

namespace Machine

open Eval Scopes

variable {m : Machine}

/-! ## Where a call runs its body -/

/-- Where a call of a function over `scope` runs its body on `args`: the scope of its
parameters, opened under `scope`, or, for a function bound to a receiver, under a new scope that
binds `this` to the receiver; and the machine with the arguments bound there. -/
def callEntry (params : List Token) (scope : Nat) (receiver : Option Value) (args : List Value)
    (m : Machine) : Nat × Machine :=
  match receiver with
  | some this =>
    let m1 := openReceiver scope this m
    let rs := (m.scopes.child scope).2
    let c := (m1.scopes.child rs).2
    (c, (params.zip args).foldl (defineArg c) { m1 with scopes := (m1.scopes.child rs).1 })
  | none =>
    let c := (m.scopes.child scope).2
    (c, (params.zip args).foldl (defineArg c) { m with scopes := (m.scopes.child scope).1 })

/-- A call gives what its body gives, run from the call's entry. -/
theorem runBody_callEntry (n : Nat) (params : List Token) (body : List Stmt) (scope : Nat)
    (receiver : Option Value) (args : List Value) (m : Machine) :
    (exec (runBody (n + 1) params body scope receiver args) m).1 =
      returnOf (exec (execBlock n body (callEntry params scope receiver args m).1)
        (callEntry params scope receiver args m).2).1 := by
  cases receiver with
  | some this => rw [exec_runBody_some]; rfl
  | none => rw [exec_runBody_none]; rfl

variable {params : List Token} {args : List Value} {j : Nat} {x x' : String} {v : Value}

/-- A scope of parameters opened under a scope in use, with the arguments bound in it, binds
`this` and `super` one scope further out than its parent does. -/
theorem bindsAt_params (hm : Sound m) (ht : Tethered m) {p : Nat} (hp : m.scopes.Live p)
    (hps : Binders params) (hargs : AllTied m args) (hx : ¬ Bindable x)
    (h : m.scopes.BindsAt p j x v) :
    let c := (m.scopes.child p).2
    ((params.zip args).foldl (defineArg c) { m with scopes := (m.scopes.child p).1 }).scopes.BindsAt
      c (j + 1) x v := by
  intro c
  have hst := hm.wf.steady_child p
  obtain ⟨hm1, -⟩ := hm.child hp
  -- binding the arguments keeps the shape and every binding of `this` and `super`
  obtain ⟨-, hsh, hk⟩ := defineArgs_tethered (c := c) (params.zip args)
    (fun y hy => hps y.1 (List.of_mem_zip hy).1) hm1.wf
    (Tethered.keep hm.wf hst ⟨ht.scopes.child, ht.fields⟩)
    fun y hy => Value.Tethered.keep hm.wf hst (hargs y.2 (List.of_mem_zip hy).2)
  exact (h.child hm.wf hp hx).shaped hm1.wf hsh hk hx (hm.wf.live_child.2 (.inr rfl))

/-- The call of a function that is not bound runs its body one scope under the function's own
scope: `this` and `super` are one scope further out there. -/
theorem callEntry_binds_free (hm : Sound m) (ht : Tethered m) {scope : Nat}
    (hs : m.scopes.pinnedAt scope = true) (hps : Binders params) (hargs : AllTied m args)
    (hx : ¬ Bindable x) (h : m.scopes.BindsAt scope j x v) :
    (callEntry params scope none args m).2.scopes.BindsAt (callEntry params scope none args m).1
      (j + 1) x v :=
  bindsAt_params hm ht (hm.wf.live_of_pinned hs) hps hargs hx h

section Bound

variable {scope : Nat} {this : Value}

/-- The scope of the receiver, opened under a pinned scope: the machine stays sound and
tethered, and the new scope is in use. -/
theorem openReceiver_receptive (hm : Sound m) (ht : Tethered m)
    (hs : m.scopes.pinnedAt scope = true) (hthis : Tied m this) :
    Sound (openReceiver scope this m) ∧ Tethered (openReceiver scope this m) ∧
      (openReceiver scope this m).scopes.Live (m.scopes.child scope).2 := by
  obtain ⟨hm1, ho1⟩ := hm.child (hm.wf.live_of_pinned hs)
  have ho : Opens m (m.scopes.child scope).2 (openReceiver scope this m) := ho1.define _ _ _
  have hnone : ∀ c : ClassDef, (none : Option ClassDef) = some c →
      ∃ k, m.scopes.BindsAt scope 0 "super" (.classRef k c) := fun _ h => by cases h
  exact ⟨(hm1.define fun y hy => by cases hy; exact Good.opens ho1 (Value.Tethered.fns hthis)).1,
    (openReceiver_hosts hm ht hs hnone hthis).2.1, (ho.live_iff _).2 (.inr rfl)⟩

/-- The arguments, tethered before a receiver's scope opens, stay tethered after. -/
theorem AllTied.openReceiver (hm : Sound m) (hargs : AllTied m args) :
    AllTied (openReceiver scope this m) args :=
  fun w hw => Value.Tethered.keep hm.wf (steady_openReceiver hm.wf scope this) (hargs w hw)

/-- The call of a function bound to `this` runs its body where `this`, one scope out, is the
receiver. -/
theorem callEntry_binds_this (hm : Sound m) (ht : Tethered m)
    (hs : m.scopes.pinnedAt scope = true) (hps : Binders params) (hargs : AllTied m args)
    (hthis : Tied m this) :
    (callEntry params scope (some this) args m).2.scopes.BindsAt
      (callEntry params scope (some this) args m).1 1 "this" this := by
  obtain ⟨hr1, ht1, hrs⟩ := openReceiver_receptive hm ht hs hthis
  -- the new scope binds `this` itself, zero scopes out
  obtain ⟨sc, hsc⟩ := Live.getElem? (hm.wf.live_child.2 (.inr rfl) :
    (m.scopes.child scope).1.Live (m.scopes.child scope).2)
  have h0 : (openReceiver scope this m).scopes.BindsAt (m.scopes.child scope).2 0 "this" this :=
    ⟨_, rfl, binding_define_self hsc _ _⟩
  exact bindsAt_params hr1 ht1 hrs hps (hargs.openReceiver hm) not_bindable_this h0

/-- The call of a function bound to `this` finds `super` one scope further out than the
function's own scope binds it, past the scope of the receiver. -/
theorem callEntry_binds_super (hm : Sound m) (ht : Tethered m)
    (hs : m.scopes.pinnedAt scope = true) (hps : Binders params) (hargs : AllTied m args)
    (hthis : Tied m this) (h : m.scopes.BindsAt scope j "super" v) :
    (callEntry params scope (some this) args m).2.scopes.BindsAt
      (callEntry params scope (some this) args m).1 (j + 2) "super" v := by
  obtain ⟨hr1, ht1, hrs⟩ := openReceiver_receptive hm ht hs hthis
  have hpar : (openReceiver scope this m).scopes.parentOf (m.scopes.child scope).2 = some scope := by
    rw [openReceiver, (shaped_define _ _ _ _).parentOf_eq, hm.wf.parentOf_child, if_pos rfl]
  -- the function's scope is pinned, so opening the receiver's scope keeps what it binds
  have h1 := ((steady_openReceiver hm.wf scope this).bindsAt hm.wf hs not_bindable_super h).parent
    hpar
  exact bindsAt_params hr1 ht1 hrs hps (hargs.openReceiver hm) not_bindable_super h1

end Bound

/-! ## What `this` and `super` give -/

/-- `super.member` where the current scope binds `this` and, one scope further out, `super`:
the read walks the chain of the class bound to `super`, on behalf of the receiver bound to
`this`. -/
theorem evalExpr_superMember (n : Nat) {keyword : Reference} {member : Token}
    (hk : Expr.Anchored .resolved (some ⟨j, true⟩) (.superMember keyword member)) {k : Nat}
    {sup : ClassDef} (hsup : m.scopes.BindsAt m.current (j + 1) "super" (.classRef k sup))
    (hthis : m.scopes.BindsAt m.current j "this" v) :
    ReadsMember n v (superKinds v).1 (superKinds v).2 sup member m
      (exec (evalExpr (n + 2) (.superMember keyword member)) m) := by
  cases hk with
  | superMember hu =>
    obtain ⟨hname, j', ha, hhops⟩ := hu
    cases ha
    simp only [evalExpr]
    exact readsMember_superMember n keyword member m hhops (hsup.getAt hname) (hthis.getAt rfl)

/-! ## Runs that receive a receiver -/

theorem exec_lambda (n : Nat) (keyword : Token) (params : List Token) (body : List Stmt) :
    exec (evalExpr (n + 1) (.lambda keyword params body)) m =
      (.ok (.function m.nextStamp (.closure none params body m.current none false)),
        { m with scopes := m.scopes.pin m.current, nextStamp := m.nextStamp + 1 }) := by
  simp only [evalExpr, exec_bind, exec_currentScope, exec_pin, exec_stamp]
  rfl

theorem exec_function (n : Nat) (name : Token) (params : List Token) (body : List Stmt) :
    exec (execStmt (n + 1) (.function (.mk name params body))) m =
      (.ok .normal, { m with
        scopes := (m.scopes.pin m.current).define m.current name.lexeme (some (.function
          m.nextStamp (.closure (some name.lexeme) params body m.current none false))),
        nextStamp := m.nextStamp + 1 }) := by
  simp only [execStmt, exec_bind, exec_currentScope, exec_pin, exec_stamp, exec_define]
  rfl

theorem Tethers.keeps {α : Type} {x : Eval α} {ok : Machine → α → Prop} (h : Tethers x ok m) :
    m.scopes.KeepsKeywords (exec x m).2.scopes ∧ Tethered (exec x m).2 :=
  ⟨h.1, h.2.1⟩

/-- Running a piece of code whose scope is in use and hosts the code's anchor keeps what every
scope in use binds to `this` and `super`, and every value tethered. -/
theorem Tethered.after (hm : Sound m) (ht : Tethered m) (n : Nat) {c : Code} {a : Option Anchor}
    (hl : m.scopes.Live (c.scope m)) (hh : m.scopes.Hosts (c.scope m) a) (hc : c.Anchored a) :
    m.scopes.KeepsKeywords (c.after n m).scopes ∧ Tethered (c.after n m) := by
  have hr := receiving n
  cases c with
  | expr e => exact (hr.expr a e m hm ht hh hc).keeps
  | args es => exact (hr.args a es m hm ht hh hc).keeps
  | stmt s => exact (hr.stmt a s m hm ht hh hc).keeps
  | loop c body => exact (hr.loop a c body m hm ht hh hc.1 hc.2).keeps
  | block body scope => exact (hr.block a body scope m hm ht hl hh hc).keeps
  | stmts ss => exact (hr.stmts a ss m hm ht hh hc).keeps

/-- A scope in use finds `this` and `super` where it found them before a finished part of
evaluation that kept what every scope in use binds to them. -/
theorem bindsAt_of_frame {m' : Machine} {s : Nat} (hA : m.scopes.WF) (hf : Frame m m')
    (hk : m.scopes.KeepsKeywords m'.scopes) (hs : m.scopes.Live s) (hx : ¬ Bindable x)
    (h : m.scopes.BindsAt s j x v) : m'.scopes.BindsAt s j x v :=
  h.of_parents (Q := m.scopes.Live) (fun t p ht hp => hA.parent_live t p ht hp) hf.live
    hf.parentOf_eq hk hx hs

/-- From `m`, code `c` runs where `this` is bound to `r`, and `super` to `sup`, where the anchor
`a` of the code looks for them: the machine is sound and keeps every function tethered, and the
code's scope is in use and hosts `a` for `r` and `sup`. -/
structure Receives (r : Value) (sup : Option ClassDef) (a : Anchor) (c : Code) (m : Machine) :
    Prop where
  sound : Sound m
  tethered : Tethered m
  live : m.scopes.Live (c.scope m)
  hosts : m.scopes.HostsFor (c.scope m) r sup a
  anchored : c.Anchored (some a)

namespace Receives

variable {r : Value} {sup : Option ClassDef} {a : Anchor} {c c' : Code}

/-- A part starts where its code is. -/
theorem part (h : Receives r sup a c m) (hp : c.Part c') : Receives r sup a c' m := by
  have he : c'.scope m = c.scope m := (hp.scope_eq m).2.trans (hp.scope_eq m).1.symm
  exact ⟨h.sound, h.tethered, he ▸ h.live, he ▸ h.hosts, hp.anchored h.anchored⟩

/-- Once a part has run, however it ended, its code goes on in a scope that still hosts the
code's anchor for `r`. -/
theorem after (h : Receives r sup a c m) (n : Nat) (hp : c.Part c') :
    Receives r sup a c (c'.after n m) := by
  have h' := h.part hp
  obtain ⟨hm', hf⟩ := h.sound.part n hp
  obtain ⟨hk, ht'⟩ := Tethered.after h.sound h.tethered n h'.live h'.hosts.hosts h'.anchored
  -- code with parts runs in the current scope, which the part gives back
  have he : c.scope (c'.after n m) = c.scope m := by
    rw [(hp.scope_eq _).1, (hp.scope_eq m).1, hf.current_eq]
  refine ⟨hm', ht', he ▸ hf.live _ h.live, ?_, h.anchored⟩
  rw [he]
  exact h.hosts.of_bindsAt fun hx hb => bindsAt_of_frame h.sound.wf hf hk h.live hx hb

/-- A block statement runs its body in a new scope under the current one, where its anchor is
one scope further out. -/
theorem enter {body : List Stmt} (h : Receives r sup a (.stmt (.block body)) m) :
    Receives r sup a.out (.block body (m.scopes.child m.current).2)
      { m with scopes := (m.scopes.child m.current).1 } := by
  have hs : Stmt.Anchored .resolved (some a) (.block body) := h.anchored
  obtain ⟨hm1, ho1⟩ := h.sound.child h.sound.current_live
  obtain ⟨-, ht1, -⟩ := opened h.sound h.tethered h.sound.current_live (a := none) trivial
  cases hs with
  | block hbody =>
    exact ⟨hm1, ht1, (ho1.live_iff _).2 (.inr rfl),
      h.hosts.child h.sound.wf h.sound.current_live, hbody⟩

/-- A block runs its statements with its scope as the current one. -/
theorem block {body : List Stmt} {scope : Nat} (h : Receives r sup a (.block body scope) m) :
    Receives r sup a (.stmts body) { m with current := scope } :=
  ⟨h.sound.setCurrent h.live, h.tethered.of_eq rfl rfl, h.live, h.hosts, h.anchored⟩

/-- `super.member` reads along the chain of `sup`, on behalf of the receiver, and binds what it
finds to the receiver. -/
theorem superMember {keyword : Reference} {member : Token}
    (h : Receives r sup a (.expr (.superMember keyword member)) m) (n : Nat) :
    ∃ s, sup = some s ∧ ReadsCarried n m.scopes r (superKinds r).1 (superKinds r).2 s member m
      (exec (evalExpr (n + 2) (.superMember keyword member)) m) := by
  obtain ⟨j, b⟩ := a
  have ha : Expr.Anchored .resolved (some ⟨j, b⟩) (.superMember keyword member) := h.anchored
  cases ha with
  | superMember hu =>
    -- resolution puts `super` only where the anchor asks for a superclass
    obtain ⟨-, j', hj, -⟩ := hu
    cases hj
    obtain ⟨s, hs⟩ := Option.isSome_iff_exists.1 h.hosts.super_eq.symm
    obtain ⟨k, hk⟩ := h.hosts.superclass s hs
    have hst : ClassDef.Tethered m.scopes s := by
      cases hk.holds h.tethered.scopes with
      | classRef _ hc => exact hc
    exact ⟨s, hs, (evalExpr_superMember n h.anchored hk h.hosts.this).carried hst
      (h.hosts.this.holds h.tethered.scopes)⟩

/-- A function made by a lambda carries the receiver. -/
theorem lambda {keyword : Token} {params : List Token} {body : List Stmt}
    (h : Receives r sup a (.expr (.lambda keyword params body)) m) (n : Nat) :
    ∃ k f, (exec (evalExpr (n + 1) (.lambda keyword params body)) m).1 = .ok (.function k f) ∧
      f.Carries (exec (evalExpr (n + 1) (.lambda keyword params body)) m).2.scopes r sup := by
  have ha : Expr.Anchored .resolved (some a) (.lambda keyword params body) := h.anchored
  obtain ⟨hk, -⟩ := ((receiving (n + 1)).expr _ _ m h.sound h.tethered h.hosts.hosts ha).keeps
  have hf := ((balanced (n + 1)).expr (.lambda keyword params body) m h.sound).2.1
  rw [exec_lambda] at hk hf ⊢
  cases ha with
  | lambda hps hbody =>
    exact ⟨_, _, rfl, .made (Scopes.pinnedAt_pin h.sound.current_live) hps hbody
      (h.hosts.of_bindsAt fun hx hb => bindsAt_of_frame h.sound.wf hf hk h.live hx hb)⟩

/-- A function statement binds its name, in the current scope, to a function that carries the
receiver. -/
theorem function {name : Token} {params : List Token} {body : List Stmt}
    (h : Receives r sup a (.stmt (.function (.mk name params body))) m) (n : Nat) :
    ∃ k f, (exec (execStmt (n + 1) (.function (.mk name params body))) m).2.scopes.binding
        m.current name.lexeme = some (some (.function k f)) ∧
      f.Carries (exec (execStmt (n + 1) (.function (.mk name params body))) m).2.scopes r sup := by
  have ha : Stmt.Anchored .resolved (some a) (.function (.mk name params body)) := h.anchored
  obtain ⟨hk, -⟩ := ((receiving (n + 1)).stmt _ _ m h.sound h.tethered h.hosts.hosts ha).keeps
  have hf := ((balanced (n + 1)).stmt (.function (.mk name params body)) m h.sound).2.1
  rw [exec_function] at hk hf ⊢
  obtain ⟨sc, hsc⟩ := Live.getElem? ((pins_pin _ m.current).live_iff.2 h.live)
  cases ha with
  | function _ hps hbody =>
    refine ⟨_, _, binding_define_self hsc _ _, .made ?_ hps hbody
      (h.hosts.of_bindsAt fun hx hb => bindsAt_of_frame h.sound.wf hf hk h.live hx hb)⟩
    exact ((shaped_define _ _ _ _).pinnedAt_eq _).trans (Scopes.pinnedAt_pin h.sound.current_live)

end Receives

/-! ## Sessions -/

/-- A machine between top-level statements: sound, with every function it keeps tethered. -/
structure Receptive (m : Machine) : Prop where
  sound : Sound m
  tethered : Tethered m

theorem Receptive.initial (clock : Float) : Receptive (Machine.initial clock) :=
  ⟨(AtRest.initial clock).sound, Machine.Holds.initial clock (.function 0 (.native "clock" 0))⟩

theorem Receptive.clearOutput (h : Receptive m) : Receptive { m with output := "" } :=
  ⟨⟨h.sound.wf, h.sound.current_live, h.sound.depth_le,
    ⟨h.sound.values.scopes, h.sound.values.fields⟩⟩, h.tethered.of_eq rfl rfl⟩

/-- Top-level statements resolved outside any class, run from a receptive machine under either
policy, leave a receptive machine. -/
theorem Receptive.interpret (policy : Policy) (ss : List Stmt) (h : Receptive m)
    (hss : ∀ s ∈ ss, Stmt.Anchored .resolved none s) :
    Receptive ((Machine.interpret policy ss).run m).2 :=
  interpret_preserves Receptive (Stmt.Anchored .resolved none)
    (fun s h hs => ⟨((balanced Eval.fuel).stmt s _ h.sound).1,
      ((receiving Eval.fuel).stmt none s _ h.sound h.tethered trivial hs).2.1⟩) policy ss h hss

/-- A step of a session, from a receptive machine, leaves a receptive machine. -/
theorem Receptive.step (h : Receptive m) (st : Step) : Receptive ((Machine.step st).run m).2 :=
  step_preserves Receptive
    (fun h hr hok => h.interpret .abortStatement _ (analyze_anchored hr hok))
    (fun h he hok =>
      ⟨((balanced Eval.fuel).expr _ _ h.sound).1,
        ((receiving Eval.fuel).expr none _ _ h.sound h.tethered trivial
          (parseExpression_anchored he hok)).2.1⟩)
    Receptive.clearOutput h st

/-- Steps of a session, from a receptive machine, leave a receptive machine. -/
theorem Receptive.steps (steps : List Step) (h : Receptive m) :
    Receptive ((steps.mapM Machine.step).run m).2 :=
  steps_preserve Receptive (fun st h => h.step st) steps h

end Machine

section Carrying

open Machine Eval

variable {r : Value} {sup : Option ClassDef} {m : Machine}

/-- A call of a function that carries `r` runs its body from an entry that receives `r`: a
member finds the receiver's scope one scope out and its superclass's two, a made function
what its scope hosts one scope further out. -/
theorem Callable.Carries.entry {name : Option String} {params : List Token} {body : List Stmt}
    {scope : Nat} {receiver : Option Value} {isInit : Bool} {args : List Value}
    (hf : (Callable.closure name params body scope receiver isInit).Carries m.scopes r sup)
    (hm : Sound m) (ht : Machine.Tethered m) (hargs : AllTied m args) (n : Nat) :
    ∃ a c m1, (exec (runBody (n + 1) params body scope receiver args) m).1 =
      returnOf (exec (execBlock n body c) m1).1 ∧ Receives r sup a (.block body c) m1 := by
  rw [runBody_callEntry]
  cases hf with
  | bound hmem hr =>
    obtain ⟨-, hs, hps, hbody, hsup⟩ := hmem
    obtain ⟨hr1, ht1, hrs⟩ := openReceiver_receptive hm ht hs hr
    obtain ⟨hm2, ho2, ht2, -, -⟩ :=
      params_entry hr1 ht1 hrs (a := none) trivial hps (hargs.openReceiver hm)
    refine ⟨.member sup.isSome, _, _, rfl, hm2, ht2, (ho2.live_iff _).2 (.inr rfl), ?_, hbody⟩
    exact ⟨callEntry_binds_this hm ht hs hps hargs hr, rfl,
      fun c hc => (hsup c hc).imp fun _ hk => callEntry_binds_super hm ht hs hps hargs hr hk⟩
  | @made _ _ _ _ _ a hs hps hbody hh =>
    obtain ⟨hm2, ho2, ht2, -, -⟩ :=
      params_entry hm ht (hm.wf.live_of_pinned hs) (a := none) trivial hps hargs
    refine ⟨a.out, _, _, rfl, hm2, ht2, (ho2.live_iff _).2 (.inr rfl), ?_, hbody⟩
    exact ⟨callEntry_binds_free hm ht hs hps hargs not_bindable_this hh.this, hh.super_eq,
      fun c hc => (hh.superclass c hc).imp fun _ hk =>
        callEntry_binds_free hm ht hs hps hargs not_bindable_super hk⟩

end Carrying

end Lox
