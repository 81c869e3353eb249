import Lox.Proofs.Chains
import Lox.Proofs.Bodies
/-!
# Resolution and evaluation agree on where names live

Evaluation finds a resolved name by walking as many parent links from the current scope as
resolution counted frames. Code inside `d` frames runs with its current scope exactly `d` links
below the globals, one scope for each frame, so the walk ends in the scope of the frame that
declares the name, and it never fails as the interpreter's own fault: no scope chain shorter
than resolution promised, no missing scope, no `super` that is not a class, no initializer
called without a receiver.

`Machine.Wired m` says that every value the machine keeps fits its arena (`Value.Wired`) and
that every scope binds `super`, if at all, to a class. `Agreement n` says that every part of
evaluation at fuel `n`, run from a sound and wired machine on resolved code inside as many
frames as the level of the current scope, keeps the machine wired, raises no fault of the
interpreter's own, and gives back values that fit: a function made inside `d` frames closes
over a scope at level `d`. `agreement` proves it at every fuel.
-/

namespace Lox

/-! ## Operators fault only as the program's fault, and give plain data -/

section Operators

variable {t : Token} {a b : Value} {f : RuntimeFault}

theorem numbersOf_safe (h : numbersOf t a b = .error f) : ¬ f.Internal := by
  unfold numbersOf at h
  split at h <;> cases h
  simp [RuntimeFault.internal_iff]

theorem integersOf_safe (h : integersOf t a b = .error f) : ¬ f.Internal := by
  simp only [integersOf, bind, Except.bind] at h
  split at h
  · cases h
    exact numbersOf_safe ‹_›
  · split at h <;> cases h
    simp [RuntimeFault.internal_iff]

theorem divisorOf_safe {y : Float} (h : divisorOf t y = .error f) : ¬ f.Internal := by
  unfold divisorOf at h
  split at h <;> cases h
  simp [RuntimeFault.internal_iff]

/-- An operator's fault is the operands' fault: wrong kinds, a zero divisor, a shift out of
range. -/
theorem BinaryOp.apply_safe {op : BinaryOp} (h : op.apply t a b = .error f) : ¬ f.Internal := by
  cases op <;> simp only [BinaryOp.apply, bind, Except.bind] at h <;>
    (repeat' split at h) <;> cases h <;>
    first
      | exact numbersOf_safe ‹_›
      | exact integersOf_safe ‹_›
      | exact divisorOf_safe ‹_›
      | simp [RuntimeFault.internal_iff]

theorem Value.IsData.wired {A : Scopes} {v : Value} (h : v.IsData) : Value.Wired A v := by
  cases v with
  | nil => exact .nil
  | bool b => exact .bool b
  | number x => exact .number x
  | string s => exact .string s
  | function | classRef | instanceRef => exact False.elim h

end Operators

namespace Machine

open Eval Scopes

/-- Every value the machine keeps fits its arena, and every scope binds `super`, if at all, to
a class. -/
structure Wired (m : Machine) : Prop where
  values : m.Holds (Value.Wired m.scopes)
  supers : m.scopes.SuperBound

/-- A value that fits the machine's arena. -/
def Fits (m : Machine) (v : Value) : Prop := Value.Wired m.scopes v

/-- Arguments that fit. -/
def AllFit (m : Machine) (vs : List Value) : Prop := ∀ v ∈ vs, Fits m v

/-- A statement's outcome whose returned value, if any, fits. -/
def FlowFits (m : Machine) : Flow → Prop
  | .returned v => Fits m v
  | _ => True

/-- What a call invokes, fitting the machine's arena. -/
def CalleeFits (m : Machine) : Callee → Prop
  | .function f => Callable.Wired m.scopes f
  | .classOf c => ClassDef.Wired m.scopes c

/-- An outcome that is no fault of the interpreter's own. -/
def Safe {α : Type} (r : Except Interrupt α) : Prop :=
  ∀ f, r = .error (.fault f) → ¬ f.Internal

/-- Run from `m`, `x` leaves a wired machine, raises no fault of the interpreter's own, and
gives back, if it succeeds, what `ok` asks of the machine it leaves. -/
def Agrees {α : Type} (x : Eval α) (ok : Machine → α → Prop) (m : Machine) : Prop :=
  Wired (exec x m).2 ∧ Safe (exec x m).1 ∧ ∀ a, (exec x m).1 = .ok a → ok (exec x m).2 a

variable {α β : Type} {m m' : Machine} {ok : Machine → α → Prop}

/-! ## What fits keeps fitting -/

theorem Frame.keepsPinned (hA : m.scopes.WF) (hf : Frame m m') :
    m.scopes.KeepsPinned m'.scopes :=
  ⟨hf.pinned, fun t _ hl => hf.live t hl, fun t ht => hf.parentOf_eq t (hA.live_of_pinned ht)⟩

theorem Frame.level (hf : Frame m m') {s d : Nat} (h : m.scopes.Level s d) : m'.scopes.Level s d :=
  h.mono hf.live hf.parentOf_eq

theorem Frame.level_current (hf : Frame m m') {d : Nat} (h : m.scopes.Level m.current d) :
    m'.scopes.Level m'.current d :=
  hf.current_eq ▸ hf.level h

theorem Fits.frame (hA : m.scopes.WF) (hf : Frame m m') {v : Value} (hv : Fits m v) : Fits m' v :=
  Value.Wired.keep hA (hf.keepsPinned hA) hv

theorem FlowFits.frame (hA : m.scopes.WF) (hf : Frame m m') {fl : Flow} (h : FlowFits m fl) :
    FlowFits m' fl := by
  cases fl with
  | returned v => exact Fits.frame hA hf h
  | _ => trivial

theorem Fits.good {v : Value} (hv : Fits m v) : Good m v := Value.Wired.fns hv

theorem AllFit.good {vs : List Value} (h : AllFit m vs) : AllGood m vs := fun v hv => (h v hv).good

theorem CalleeFits.good {c : Callee} (h : CalleeFits m c) : CalleeGood m c := by
  cases c with
  | function f => exact Callable.Wired.fns h
  | classOf c => exact ClassDef.Wired.fns h

/-- A machine whose values fit its old arena, moved to an arena that keeps its pins. -/
theorem Wired.keep (hA : m.scopes.WF) (hk : m.scopes.KeepsPinned m'.scopes)
    (hv : m'.Holds (Value.Wired m.scopes)) (hs : m'.scopes.SuperBound) : Wired m' :=
  ⟨⟨hv.scopes.mono fun _ h => h.keep hA hk, fun i fs h e he => (hv.fields i fs h e he).keep hA hk⟩,
    hs⟩

theorem Wired.of_eq (hm : Wired m) (hs : m'.scopes = m.scopes) (hf : m'.fields = m.fields) :
    Wired m' :=
  ⟨⟨hs ▸ hm.values.scopes, hf ▸ hs ▸ hm.values.fields⟩, hs ▸ hm.supers⟩

theorem Wired.child (hA : m.scopes.WF) (hm : Wired m) (p : Nat) :
    Wired { m with scopes := (m.scopes.child p).1 } :=
  Wired.keep hA hA.keepsPinned_child ⟨hm.values.scopes.child, hm.values.fields⟩ hm.supers.child

theorem Wired.release (hA : m.scopes.WF) (hm : Wired m) {c : Nat} (hc : m.scopes.Live c) :
    Wired { m with scopes := m.scopes.release c } :=
  Wired.keep hA (keepsPinned_release hc) ⟨hm.values.scopes.release, hm.values.fields⟩
    hm.supers.release

theorem Wired.pin (hA : m.scopes.WF) (hm : Wired m) (s : Nat) :
    Wired { m with scopes := m.scopes.pin s } :=
  Wired.keep hA (pins_pin _ s).keepsPinned
    ⟨hm.values.scopes.pins (pins_pin _ s), hm.values.fields⟩ (hm.supers.pins (pins_pin _ s))

theorem Wired.define (hA : m.scopes.WF) (hm : Wired m) (s : Nat) {name : String}
    {v : Option Value} (hv : ∀ x, v = some x → Fits m x)
    (hsup : ∀ x, v = some x → name = "super" → ∃ k c, x = .classRef k c) :
    Wired { m with scopes := m.scopes.define s name v } :=
  Wired.keep hA (shaped_define _ _ _ _).keepsPinned ⟨hm.values.scopes.define hv, hm.values.fields⟩
    (hm.supers.define hsup)

theorem Wired.setField (hm : Wired m) (i : Nat) (name : String) {v : Value} (hv : Fits m v) :
    Wired { m with fields := m.fields.modify i (setEntry name v) } :=
  ⟨Machine.Holds.setField hm.values i name hv, hm.supers⟩

theorem Wired.newInstance (hm : Wired m) : Wired { m with fields := m.fields.push [] } :=
  ⟨Machine.Holds.newInstance hm.values, hm.supers⟩

/-! ## Steps that agree -/

theorem Agrees.pure (hm : Wired m) {a : α} (ha : ok m a) : Agrees (Pure.pure a) ok m :=
  ⟨hm, fun _ h => (by cases h), fun _ h => by cases h; exact ha⟩

theorem Agrees.outOfFuel (hm : Wired m) : Agrees (throw .outOfFuel : Eval α) ok m :=
  ⟨hm, fun _ h => (by cases h), fun _ h => by cases h⟩

theorem Agrees.fail (hm : Wired m) {f : RuntimeFault} (hf : ¬ f.Internal) :
    Agrees (Eval.fail f : Eval α) ok m := by
  refine ⟨hm, fun f' h => ?_, fun _ h => by simp at h⟩
  simp only [exec_fail, Except.error.injEq, Interrupt.fault.injEq] at h
  exact h ▸ hf

theorem Agrees.ofExcept {P : Machine → α → Prop} (hm : Wired m) {r : Except RuntimeFault α}
    (he : ∀ f, r = .error f → ¬ f.Internal) (hr : ∀ a, r = .ok a → P m a) :
    Agrees (Eval.ofExcept r) P m := by
  cases r with
  | error f => exact Agrees.fail hm (he f rfl)
  | ok a => exact Agrees.pure hm (hr a rfl)

/-- What `f` needs of `x`'s result and machine holds when `x` succeeds: the machine is sound and
framed by `m`, as `Framed` says, and wired. -/
theorem Agrees.bind {x : Eval α} {f : α → Eval β} {P Q : Machine → α → Prop}
    {R : Machine → β → Prop} (hx : Agrees x P m) (hfx : Framed x Q m)
    (hf : ∀ a m', Sound m' → Frame m m' → Wired m' → P m' a → Q m' a → Agrees (f a) R m') :
    Agrees (x >>= f) R m := by
  obtain ⟨hw, hs, hok⟩ := hx
  obtain ⟨hs', hfr, hq⟩ := hfx
  unfold Agrees
  rw [exec_bind]
  rcases hxm : exec x m with ⟨e | a, m1⟩
  · rw [hxm] at hw hs
    dsimp only
    exact ⟨hw, fun f h => hs f (by cases h; rfl), fun _ h => by cases h⟩
  · rw [hxm] at hw hs' hfr hok hq
    exact hf a m1 hs' hfr hw (hok a rfl) (hq a rfl)

/-- A step that changes neither scopes nor fields and cannot fail. -/
theorem Agrees.of_eq {x : Eval α} (hm : Wired m) (hs : (exec x m).2.scopes = m.scopes)
    (hf : (exec x m).2.fields = m.fields) (hsafe : Safe (exec x m).1)
    (hok : ∀ a, (exec x m).1 = .ok a → ok (exec x m).2 a) : Agrees x ok m :=
  ⟨hm.of_eq hs hf, hsafe, hok⟩

theorem Agrees.get (hm : Wired m) : Agrees (get : Eval Machine) (fun m' a => a = m') m :=
  ⟨hm, fun _ h => (by cases h), fun _ h => by cases h; rfl⟩

theorem Agrees.currentScope (hm : Wired m) : Agrees currentScope (fun m' s => s = m'.current) m :=
  ⟨hm, fun _ h => (by cases h), fun _ h => by cases h; rfl⟩

theorem Agrees.stamp (hm : Wired m) : Agrees stamp (fun _ _ => True) m :=
  Agrees.of_eq hm rfl rfl (fun _ h => by cases h) fun _ _ => trivial

theorem Agrees.emit (hm : Wired m) (text : String) : Agrees (emit text) (fun _ _ => True) m :=
  Agrees.of_eq hm rfl rfl (fun _ h => by cases h) fun _ _ => trivial

theorem Agrees.pin (hs : Sound m) (hm : Wired m) (s : Nat) : Agrees (pin s) (fun _ _ => True) m :=
  ⟨hm.pin hs.wf s, fun _ h => (by cases h), fun _ _ => trivial⟩

theorem Agrees.define (hs : Sound m) (hm : Wired m) (s : Nat) {name : String} {v : Option Value}
    (hv : ∀ x, v = some x → Fits m x)
    (hsup : ∀ x, v = some x → name = "super" → ∃ k c, x = .classRef k c) :
    Agrees (define s name v) (fun _ _ => True) m :=
  ⟨hm.define hs.wf s hv hsup, fun _ h => (by cases h), fun _ _ => trivial⟩

theorem Agrees.setField (hm : Wired m) (i : Nat) (name : String) {v : Value} (hv : Fits m v) :
    Agrees (setField i name v) (fun _ _ => True) m :=
  ⟨hm.setField i name hv, fun _ h => (by cases h), fun _ _ => trivial⟩

theorem Agrees.newInstance (hm : Wired m) {c : ClassDef} (hc : ClassDef.Wired m.scopes c) :
    Agrees (newInstance c) Fits m :=
  ⟨hm.newInstance, fun _ h => (by cases h), fun _ h => by cases h; exact .instanceRef _ hc⟩

theorem Agrees.field? (hm : Wired m) (i : Nat) (name : String) :
    Agrees (field? i name) (fun m' o => ∀ v, o = some v → Fits m' v) m :=
  ⟨hm, fun _ h => (by cases h), fun _ h v hv => by cases h; exact Machine.Holds.field hm.values hv⟩

theorem Agrees.fail_bind (hm : Wired m) {f : RuntimeFault} (hf : ¬ f.Internal) (k : α → Eval β)
    {ok : Machine → β → Prop} : Agrees (Eval.fail f >>= k) ok m := by
  refine ⟨hm, fun f' h => ?_, fun _ h => by simp at h⟩
  simp only [exec_bind, exec_fail, Except.error.injEq, Interrupt.fault.injEq] at h
  exact h ▸ hf

/-- A use of a name found inside the `d` frames around it, with the current scope at level `d`:
looked up there, or among the globals. -/
theorem Agrees.lookup (hs : Sound m) (hm : Wired m) {d : Nat} (hc : m.scopes.Level m.current d)
    {r : Reference} (hr : Uses.resolved.name d r) : Agrees (lookup r) Fits m := by
  unfold Eval.lookup
  refine (Agrees.get hm).bind (Framed.get hs) fun a m1 hs1 hf1 hm1 (ha : a = m1) _ => ?_
  subst ha
  have hc1 := hf1.level_current hc
  split
  · rename_i h hh
    exact Agrees.ofExcept hm1 (fun f hf => hc1.getAt_safe (Nat.le_of_lt (hr h hh)) hf)
      fun v hv => hm1.values.scopes.getAt hv
  · exact Agrees.ofExcept hm1 (fun f hf => hs1.wf.getFrom_safe hs1.wf.globals_live hf)
      fun v hv => hm1.values.scopes.get hv

/-- An assignment to a name other than `super` found inside the `d` frames around it, with the
current scope at level `d`. -/
theorem Agrees.assignTo (hs : Sound m) (hm : Wired m) {d : Nat} (hc : m.scopes.Level m.current d)
    {r : Reference} (hr : Uses.resolved.name d r) (hn : r.name.lexeme ≠ "super") {v : Value}
    (hv : Fits m v) : Agrees (assignTo r v) (fun _ _ => True) m := by
  unfold Agrees
  cases hh : r.hops with
  | some h =>
    rw [exec_assignTo_local m hh]
    cases hA : m.scopes.assignAt m.current h r.name v with
    | error f =>
      exact ⟨hm, fun f' he => by cases he; exact hc.assignAt_safe (Nat.le_of_lt (hr h hh)) hA,
        fun _ h => by cases h⟩
    | ok A =>
      refine ⟨Wired.keep hs.wf (shaped_assignAt hA).keepsPinned
        ⟨hm.values.scopes.assignAt hv hA, hm.values.fields⟩
        (hm.supers.assignAt (fun e => absurd e hn) hA), fun _ h => (by cases h), fun _ _ => trivial⟩
  | none =>
    rw [exec_assignTo_global m hh]
    cases hA : m.scopes.assign Scopes.globals r.name v with
    | error f =>
      exact ⟨hm, fun f' he => by cases he; exact hs.wf.assignFrom_safe hs.wf.globals_live hA,
        fun _ h => by cases h⟩
    | ok A =>
      refine ⟨Wired.keep hs.wf (shaped_assign hA).keepsPinned
        ⟨hm.values.scopes.assign hv hA, hm.values.fields⟩
        (hm.supers.assignFrom (fun e => absurd e hn) hA), fun _ h => (by cases h), fun _ _ => trivial⟩

theorem Frame.classWired (hA : m.scopes.WF) (hf : Frame m m') {c : ClassDef}
    (hc : ClassDef.Wired m.scopes c) : ClassDef.Wired m'.scopes c :=
  hc.keep hA (hf.keepsPinned hA)

theorem AllFit.frame (hA : m.scopes.WF) (hf : Frame m m') {vs : List Value} (h : AllFit m vs) :
    AllFit m' vs :=
  fun v hv => Fits.frame hA hf (h v hv)

/-- A member of a class that fits, bound to a receiver that fits, as a fresh function value. -/
theorem Agrees.boundMethod (hs : Sound m) (hm : Wired m) {c : ClassDef} {kind : MemberKind}
    {name : String} {f : Callable} {r : Value} (hc : ClassDef.Wired m.scopes c)
    (hf : c.find kind name = some f) (hr : Fits m r) :
    Agrees (do return Value.function (← Eval.stamp) (f.bind r)) Fits m :=
  (Agrees.stamp hm).bind (Framed.stamp hs) fun k _ _ hf1 hm1 _ _ =>
    Agrees.pure hm1 (Fits.frame hs.wf hf1 (show Fits m (.function k (f.bind r)) from
      .function k ((hc.find hf).bind hr)))

/-! ## Scopes that evaluation opens -/

theorem Fits.release (hA : m.scopes.WF) {c : Nat} (hc : m.scopes.Live c) {v : Value}
    (hv : Fits m v) : Fits { m with scopes := m.scopes.release c } v :=
  Value.Wired.keep hA (keepsPinned_release hc) hv

theorem FlowFits.release (hA : m.scopes.WF) {c : Nat} (hc : m.scopes.Live c) {fl : Flow}
    (h : FlowFits m fl) : FlowFits { m with scopes := m.scopes.release c } fl := by
  cases fl with
  | returned v => exact Fits.release hA hc h
  | _ => trivial

/-- A run in a child scope, released afterwards however the run ends. -/
theorem Agrees.scoped {p : Nat} {k : Nat → Eval Flow} (hs : Sound m) (hp : m.scopes.Live p)
    (hk : Agrees (k (m.scopes.child p).2) FlowFits { m with scopes := (m.scopes.child p).1 })
    (hkf : Framed (k (m.scopes.child p).2) FlowGood { m with scopes := (m.scopes.child p).1 }) :
    Agrees (do
      let c ← childOf p
      let r ← attempt (k c)
      release c
      resume r) FlowFits m := by
  unfold Agrees
  simp only [exec_bind, exec_childOf, exec_attempt, exec_release, exec_resume]
  obtain ⟨-, ho1⟩ := hs.child hp
  obtain ⟨hw2, hsafe2, hok2⟩ := hk
  obtain ⟨hs2, hf2, -⟩ := hkf
  have hc2 := hf2.live _ ((ho1.live_iff _).2 (.inr rfl))
  exact ⟨hw2.release hs2.wf hc2, hsafe2, fun fl h => (hok2 fl h).release hs2.wf hc2⟩

/-- The scope of `super` in a class declaration, opened below a scope at level `d`: it lies at
level `d + 1`. -/
theorem Agrees.superScope {p d : Nat} {s : Nat} {c : ClassDef} {k : Nat → Eval Flow}
    (hs : Sound m) (hm : Wired m) (hp : m.scopes.Level p d) (hc : ClassDef.Wired m.scopes c)
    (hk : ∀ m', Sound m' → Frame m m' → Wired m' →
      m'.scopes.pinnedAt (m.scopes.child p).2 = true →
      m'.scopes.Level (m.scopes.child p).2 (d + 1) → Agrees (k (m.scopes.child p).2) FlowFits m') :
    Agrees (do
      let sc ← childOf p
      Eval.define sc "super" (some (.classRef s c))
      let scope ← Pure.pure sc
      Eval.pin scope
      k scope) FlowFits m := by
  unfold Agrees
  simp only [exec_bind, exec_childOf, exec_define, exec_pure, exec_pin]
  obtain ⟨hs1, ho1⟩ := hs.child hp.live
  have hv1 : Fits { m with scopes := (m.scopes.child p).1 } (.classRef s c) :=
    Value.Wired.keep hs.wf hs.wf.keepsPinned_child (.classRef s hc)
  -- the arena with `super` bound in the new scope
  let A := (m.scopes.child p).1.define (m.scopes.child p).2 "super" (some (.classRef s c))
  have hd : Sound { m with scopes := A } ∧ Frame { m with scopes := (m.scopes.child p).1 }
      { m with scopes := A } :=
    hs1.define fun x hx => by cases hx; exact hv1.good
  have hlive := hd.2.live _ ((ho1.live_iff _).2 (.inr rfl))
  obtain ⟨hs3, hf3⟩ := hd.1.pin hlive
  have hfr := ho1.frame_of_pinned (hd.2.trans hf3) (Scopes.pinnedAt_pin hlive)
  have hm2 : Wired { m with scopes := A } :=
    (hm.child hs.wf p).define hs1.wf _ (fun x hx => by cases hx; exact hv1)
      fun x hx _ => by cases hx; exact ⟨s, c, rfl⟩
  have hch := hf3.level (hd.2.level (hs.wf.level_child hp))
  exact hk _ hs3 hfr (hm2.pin hd.1.wf _) (Scopes.pinnedAt_pin hlive) hch

/-- A class declared with members closed over a pinned scope at level `d`,
parameters not named `super` and bodies inside the `d + 2` scopes around them, and a superclass
that fits, fits. -/
theorem classDef_wired {A : Scopes} {name : String} {sup : Option ClassDef} {scope d : Nat}
    {ms gs ss sgs : List FunDecl} (hsup : ∀ c, sup = some c → ClassDef.Wired A c)
    (hscope : A.pinnedAt scope = true) (hch : A.Level scope d)
    (hp : ∀ f ∈ ms ++ gs ++ ss ++ sgs, Params f.params)
    (hb : ∀ f ∈ ms ++ gs ++ ss ++ sgs, ∀ s ∈ f.body, Stmt.Scoped .resolved (d + 2) s) :
    ClassDef.Wired A (.mk name sup (memberTable scope true ms) (memberTable scope false gs)
      (memberTable scope false ss) (memberTable scope false sgs)) := by
  -- every kind of member is a table of declarations from the class body
  have hmem : ∀ (init : Bool) (decls : List FunDecl), (∀ f ∈ decls, f ∈ ms ++ gs ++ ss ++ sgs) →
      ∀ e ∈ memberTable scope init decls, Callable.Member A e.2 :=
    fun init decls hsub => memberTable_all _ fun f hf =>
      ⟨rfl, hscope, hp f (hsub f hf), d, hch, hb f (hsub f hf)⟩
  refine .mk hsup fun kind => ?_
  cases kind <;> exact hmem _ _ fun f hf => by simp [hf]

/-- The last step of a class declaration: the class, closed over `scope`, becomes the value of
its name. -/
theorem Agrees.declareClass (hs : Sound m) (hm : Wired m) {here scope d : Nat} {name : String}
    (hn : name ≠ "super") {sup : Option ClassDef} {ms gs ss sgs : List FunDecl}
    (hsup : ∀ c, sup = some c → ClassDef.Wired m.scopes c)
    (hscope : m.scopes.pinnedAt scope = true) (hch : m.scopes.Level scope d)
    (hp : ∀ f ∈ ms ++ gs ++ ss ++ sgs, Params f.params)
    (hb : ∀ f ∈ ms ++ gs ++ ss ++ sgs, ∀ s ∈ f.body, Stmt.Scoped .resolved (d + 2) s) :
    Agrees (do
      let s ← Eval.stamp
      Eval.define here name (some (.classRef s (.mk name sup (memberTable scope true ms)
        (memberTable scope false gs) (memberTable scope false ss) (memberTable scope false sgs))))
      Pure.pure Flow.normal) FlowFits m := by
  refine (Agrees.stamp hm).bind (Framed.stamp hs) fun k m1 hs1 hf1 hm1 _ _ => ?_
  have hc : ClassDef.Wired m1.scopes (.mk name sup (memberTable scope true ms)
      (memberTable scope false gs) (memberTable scope false ss) (memberTable scope false sgs)) :=
    classDef_wired (fun c hc => hf1.classWired hs.wf (hsup c hc)) (hf1.pinned _ hscope)
      (hf1.level hch) hp hb
  refine (Agrees.define hs1 hm1 here (fun x hx => by cases hx; exact .classRef k hc)
    fun x hx h => absurd h hn).bind
    (Framed.define hs1 fun x hx => by cases hx; exact .classRef k hc.fns) fun _ m2 _ _ hm2 _ _ => ?_
  exact Agrees.pure hm2 trivial

/-! ## Calls -/

theorem returnOf_safe {r : Except Interrupt Flow} (h : Safe r) : Safe (returnOf r) := by
  intro f hf
  rcases r with e | (_ | _ | v) <;> cases hf
  exact h f rfl

theorem returnOf_fits {r : Except Interrupt Flow} (h : ∀ fl, r = .ok fl → FlowFits m fl) :
    ∀ v, returnOf r = .ok v → Fits m v := by
  intro v hv
  rcases r with e | (_ | _ | w)
  · cases hv
  · cases hv; exact .nil
  · cases hv; exact .nil
  · cases hv; exact h _ rfl

/-- Arguments bound one by one, none named `super`, each fitting. -/
theorem Wired.defineArgs {c : Nat} :
    ∀ (l : List (Token × Value)) {m : Machine}, m.scopes.WF → Wired m →
      (∀ x ∈ l, x.1.lexeme ≠ "super" ∧ Fits m x.2) → Wired (l.foldl (defineArg c) m)
  | [], _, _, hm, _ => hm
  | x :: l, m, hA, hm, hl => by
    have hx := hl x List.mem_cons_self
    have hsh := shaped_define m.scopes c x.1.lexeme (some x.2)
    exact Wired.defineArgs l (hA.of_shaped hsh)
      (hm.define hA c (fun y hy => by cases hy; exact hx.2) fun _ _ h => absurd h hx.1)
      fun y hy => ⟨(hl y (List.mem_cons_of_mem _ hy)).1,
        Value.Wired.keep hA hsh.keepsPinned (hl y (List.mem_cons_of_mem _ hy)).2⟩

theorem Level.defineArgs {c s d : Nat} :
    ∀ (l : List (Token × Value)) (m : Machine), m.scopes.Level s d →
      (l.foldl (defineArg c) m).scopes.Level s d
  | [], _, h => h
  | x :: l, m, h => by
    have hsh := shaped_define m.scopes c x.1.lexeme (some x.2)
    exact Level.defineArgs l _ (h.mono (fun t ht => hsh.live_iff.2 ht) fun t _ => hsh.parentOf_eq t)

theorem AllFit.zip {vs : List Value} (h : AllFit m vs) {params : List Token} (hp : Params params) :
    ∀ x ∈ params.zip vs, x.1.lexeme ≠ "super" ∧ Fits m x.2 :=
  fun x hx => ⟨hp _ (List.of_mem_zip hx).1, h x.2 (List.of_mem_zip hx).2⟩

/-- The entry of a call of an unbound function over a pinned scope at level `d`: the scope of its
parameters, opened under the function's scope with the arguments bound in it, lies at level
`d + 1`. -/
theorem Wired.entry_unbound (hs : Sound m) (hm : Wired m) {scope d : Nat} {params : List Token}
    {args : List Value} (hpin : m.scopes.pinnedAt scope = true) (hp : Params params)
    (hch : m.scopes.Level scope d) (hargs : AllFit m args) :
    Sound ((params.zip args).foldl (defineArg (m.scopes.child scope).2)
        { m with scopes := (m.scopes.child scope).1 }) ∧
      Opens m (m.scopes.child scope).2 ((params.zip args).foldl
        (defineArg (m.scopes.child scope).2) { m with scopes := (m.scopes.child scope).1 }) ∧
      Wired ((params.zip args).foldl (defineArg (m.scopes.child scope).2)
        { m with scopes := (m.scopes.child scope).1 }) ∧
      ((params.zip args).foldl (defineArg (m.scopes.child scope).2)
        { m with scopes := (m.scopes.child scope).1 }).scopes.Level (m.scopes.child scope).2 (d + 1) := by
  obtain ⟨hs1, ho1⟩ := hs.child (hs.wf.live_of_pinned hpin)
  obtain ⟨hs2, ho2⟩ := ho1.defineArgs _ hs1 fun x hx => ((hargs.zip hp x hx).2.good).opens ho1
  refine ⟨hs2, ho2, ?_, Level.defineArgs _ _ (hs.wf.level_child hch)⟩
  exact Wired.defineArgs _ hs1.wf (hm.child hs.wf scope) fun x hx =>
    (hargs.zip hp x hx).imp_right fun h => Value.Wired.keep hs.wf hs.wf.keepsPinned_child h

/-- The entry of a call of a member bound to `this`, over a pinned scope at level `d`: the scope
of the receiver, opened under the member's scope, lies at level `d + 1`, and the scope of the
parameters, opened under it with the arguments bound in it, at level `d + 2`. -/
theorem Wired.entry_bound (hs : Sound m) (hm : Wired m) {scope d : Nat} {params : List Token}
    {args : List Value} {this : Value} (hpin : m.scopes.pinnedAt scope = true)
    (hp : Params params) (hch : m.scopes.Level scope d) (hr : Fits m this)
    (hargs : AllFit m args) :
    Sound (openReceiver scope this m) ∧ Opens m (m.scopes.child scope).2 (openReceiver scope this m) ∧
      Sound ((params.zip args).foldl
        (defineArg ((openReceiver scope this m).scopes.child (m.scopes.child scope).2).2)
        { openReceiver scope this m with
          scopes := ((openReceiver scope this m).scopes.child (m.scopes.child scope).2).1 }) ∧
      Opens (openReceiver scope this m)
        ((openReceiver scope this m).scopes.child (m.scopes.child scope).2).2
        ((params.zip args).foldl
          (defineArg ((openReceiver scope this m).scopes.child (m.scopes.child scope).2).2)
          { openReceiver scope this m with
            scopes := ((openReceiver scope this m).scopes.child (m.scopes.child scope).2).1 }) ∧
      Wired ((params.zip args).foldl
        (defineArg ((openReceiver scope this m).scopes.child (m.scopes.child scope).2).2)
        { openReceiver scope this m with
          scopes := ((openReceiver scope this m).scopes.child (m.scopes.child scope).2).1 }) ∧
      ((params.zip args).foldl
        (defineArg ((openReceiver scope this m).scopes.child (m.scopes.child scope).2).2)
        { openReceiver scope this m with
          scopes := ((openReceiver scope this m).scopes.child (m.scopes.child scope).2).1 }).scopes.Level
        ((openReceiver scope this m).scopes.child (m.scopes.child scope).2).2 (d + 2) := by
  -- the receiver's scope `rs` holds `this`; the call's scope opens below it
  obtain ⟨hs1, ho1⟩ := hs.child (hs.wf.live_of_pinned hpin)
  have hr1 : Sound (openReceiver scope this m) ∧
      Frame { m with scopes := (m.scopes.child scope).1 } (openReceiver scope this m) :=
    hs1.define fun y hy => by cases hy; exact (Fits.good hr).opens ho1
  have ho1' : Opens m (m.scopes.child scope).2 (openReceiver scope this m) := ho1.define _ _ _
  have hmr : Wired (openReceiver scope this m) :=
    (hm.child hs.wf scope).define hs1.wf _
      (fun y hy => by cases hy; exact Value.Wired.keep hs.wf hs.wf.keepsPinned_child hr)
      fun _ _ h => absurd h (by decide)
  have hchr : (openReceiver scope this m).scopes.Level (m.scopes.child scope).2 (d + 1) :=
    hr1.2.level (hs.wf.level_child hch)
  obtain ⟨hs2, ho2⟩ := hr1.1.child ((ho1'.live_iff _).2 (.inr rfl))
  obtain ⟨hs3, ho3⟩ := ho2.defineArgs _ hs2 fun x hx =>
    (((hargs.zip hp x hx).2.good).opens ho1').opens ho2
  refine ⟨hr1.1, ho1', hs3, ho3, ?_, Level.defineArgs _ _ (hr1.1.wf.level_child hchr)⟩
  exact Wired.defineArgs _ hs2.wf (hmr.child hr1.1.wf _) fun x hx =>
    (hargs.zip hp x hx).imp_right fun h =>
      Value.Wired.keep hr1.1.wf hr1.1.wf.keepsPinned_child
        (Fits.frame hs1.wf hr1.2 (Value.Wired.keep hs.wf hs.wf.keepsPinned_child h))

/-! ## Every part of evaluation agrees with resolution -/

/-- Every part of evaluation at fuel `n`, run from a sound and wired machine, on resolved code
inside as many frames `d` as the level of the current scope, and on functions and classes that
fit, agrees: it leaves a wired machine, raises no fault of the interpreter's own, and gives back
what fits. -/
structure Agreement (n : Nat) : Prop where
  expr : ∀ e d m, Sound m → Wired m → m.scopes.Level m.current d → Expr.Scoped .resolved d e →
    Agrees (evalExpr n e) Fits m
  args : ∀ es d m, Sound m → Wired m → m.scopes.Level m.current d →
    (∀ e ∈ es, Expr.Scoped .resolved d e) → Agrees (evalArgs n es) AllFit m
  invoke : ∀ c paren args m, Sound m → Wired m → CalleeFits m c → AllFit m args →
    Agrees (Eval.invoke n c paren args) Fits m
  call : ∀ f args m, Sound m → Wired m → Callable.Wired m.scopes f → AllFit m args →
    Agrees (callFunction n f args) Fits m
  body : ∀ name params body scope receiver isInit args m, Sound m → Wired m →
    Callable.Wired m.scopes (.closure name params body scope receiver isInit) → AllFit m args →
    Agrees (runBody n params body scope receiver args) Fits m
  construct : ∀ c args m, Sound m → Wired m → ClassDef.Wired m.scopes c → AllFit m args →
    Agrees (Eval.construct n c args) Fits m
  instanceProperty : ∀ i c name m, Sound m → Wired m → ClassDef.Wired m.scopes c →
    Agrees (Eval.instanceProperty n i c name) Fits m
  staticProperty : ∀ s c name m, Sound m → Wired m → ClassDef.Wired m.scopes c →
    Agrees (Eval.staticProperty n s c name) Fits m
  superMember : ∀ keyword member d m, Sound m → Wired m → m.scopes.Level m.current d →
    Uses.resolved.super d keyword → Agrees (Eval.superMember n keyword member) Fits m
  stmt : ∀ s d m, Sound m → Wired m → m.scopes.Level m.current d → Stmt.Scoped .resolved d s →
    Agrees (execStmt n s) FlowFits m
  loop : ∀ c body d m, Sound m → Wired m → m.scopes.Level m.current d →
    Expr.Scoped .resolved d c → Stmt.Scoped .resolved d body →
    Agrees (execWhile n c body) FlowFits m
  block : ∀ body scope d m, Sound m → Wired m → m.scopes.Level scope d →
    (∀ s ∈ body, Stmt.Scoped .resolved d s) → Agrees (execBlock n body scope) FlowFits m
  stmts : ∀ ss d m, Sound m → Wired m → m.scopes.Level m.current d →
    (∀ s ∈ ss, Stmt.Scoped .resolved d s) → Agrees (execStmts n ss) FlowFits m

variable {n : Nat}

theorem Agreement.expr_succ (ih : Agreement n) (e : Expr) (d : Nat) (m : Machine) (hs : Sound m)
    (hm : Wired m) (hc : m.scopes.Level m.current d) (he : Expr.Scoped .resolved d e) :
    Agrees (evalExpr (n + 1) e) Fits m := by
  have hb := balanced n
  cases he with
  | @assign _ r v hr hn hv =>
    simp only [evalExpr]
    refine (ih.expr v d m hs hm hc hv).bind (hb.expr v m hs) fun a m1 hs1 hf1 hm1 ha _ => ?_
    refine (Agrees.assignTo hs1 hm1 (hf1.level_current hc) hr hn ha).bind
      (Framed.assignTo hs1 r (Fits.good ha)) fun _ m2 _ hf2 hm2 _ _ => ?_
    exact Agrees.pure hm2 (Fits.frame hs1.wf hf2 ha)
  | @binary _ l op t r hl hr =>
    simp only [evalExpr]
    refine (ih.expr l d m hs hm hc hl).bind (hb.expr l m hs) fun a m1 hs1 hf1 hm1 _ _ => ?_
    refine (ih.expr r d m1 hs1 hm1 (hf1.level_current hc) hr).bind (hb.expr r m1 hs1)
      fun b m2 _ _ hm2 _ _ => ?_
    exact Agrees.ofExcept hm2 (fun f hf => BinaryOp.apply_safe hf) fun v hv =>
      (BinaryOp.apply_data hv).wired
  | @call _ callee paren args hcallee hargs =>
    simp only [evalExpr]
    refine (ih.expr callee d m hs hm hc hcallee).bind (hb.expr callee m hs)
      fun f m1 hs1 hf1 hm1 hf _ => ?_
    refine (ih.args args d m1 hs1 hm1 (hf1.level_current hc) hargs).bind (hb.args args m1 hs1)
      fun vs m2 hs2 hf2 hm2 hvs _ => ?_
    cases (Fits.frame hs1.wf hf2 hf : Fits m2 f) with
    | function s hc' => exact ih.invoke _ paren vs m2 hs2 hm2 hc' hvs
    | classRef s hc' => exact ih.invoke _ paren vs m2 hs2 hm2 hc' hvs
    | _ => exact Agrees.fail hm2 (by simp [RuntimeFault.internal_iff])
  | @get _ obj name ho =>
    simp only [evalExpr]
    refine (ih.expr obj d m hs hm hc ho).bind (hb.expr obj m hs) fun o m1 hs1 _ hm1 ho _ => ?_
    cases (ho : Fits m1 o) with
    | instanceRef i hc' => exact ih.instanceProperty i _ name m1 hs1 hm1 hc'
    | classRef s hc' => exact ih.staticProperty s _ name m1 hs1 hm1 hc'
    | _ => exact Agrees.fail hm1 (by simp [RuntimeFault.internal_iff])
  | @lambda _ keyword params body hp hbody =>
    simp only [evalExpr]
    refine (Agrees.currentScope hm).bind (Framed.currentScope hs)
      fun p m1 hs1 hf1 hm1 (hp1 : p = m1.current) _ => ?_
    subst hp1
    have hc1 := hf1.level_current hc
    refine (Agrees.pin hs1 hm1 _).bind (Framed.pin hs1 hs1.current_live)
      fun _ m2 hs2 hf2 hm2 _ hpin => ?_
    refine (Agrees.stamp hm2).bind (Framed.stamp hs2) fun k m3 _ hf3 hm3 _ _ => ?_
    exact Agrees.pure hm3
      (.function k (.unbound (hf3.pinned _ hpin) hp (hf3.level (hf2.level hc1)) hbody))
  | @grouping _ e he =>
    simp only [evalExpr]
    exact ih.expr e d m hs hm hc he
  | @literal _ l =>
    simp only [evalExpr]
    exact Agrees.pure hm (by cases l <;> constructor)
  | @logical _ l op t r hl hr =>
    simp only [evalExpr]
    refine (ih.expr l d m hs hm hc hl).bind (hb.expr l m hs) fun a m1 hs1 hf1 hm1 ha _ => ?_
    have hc1 := hf1.level_current hc
    cases op with
    | and =>
      dsimp only
      split
      · exact ih.expr r d m1 hs1 hm1 hc1 hr
      · exact Agrees.pure hm1 ha
    | or =>
      dsimp only
      split
      · exact Agrees.pure hm1 ha
      · exact ih.expr r d m1 hs1 hm1 hc1 hr
  | @set _ obj name v ho hv =>
    simp only [evalExpr]
    refine (ih.expr obj d m hs hm hc ho).bind (hb.expr obj m hs) fun o m1 hs1 hf1 hm1 _ _ => ?_
    split
    · refine (ih.expr v d m1 hs1 hm1 (hf1.level_current hc) hv).bind (hb.expr v m1 hs1)
        fun a m2 hs2 _ hm2 ha _ => ?_
      refine (Agrees.setField hm2 _ name.lexeme ha).bind (Framed.setField hs2 _ _ (Fits.good ha))
        fun _ m3 _ hf3 hm3 _ _ => ?_
      exact Agrees.pure hm3 (Fits.frame hs2.wf hf3 ha)
    · exact Agrees.fail hm1 (by simp [RuntimeFault.internal_iff])
  | @superMember _ keyword member hk =>
    simp only [evalExpr]
    exact ih.superMember keyword member d m hs hm hc hk
  | @conditional _ c q a b hcd ha hb' =>
    simp only [evalExpr]
    refine (ih.expr c d m hs hm hc hcd).bind (hb.expr c m hs) fun v m1 hs1 hf1 hm1 _ _ => ?_
    have hc1 := hf1.level_current hc
    split
    · exact ih.expr a d m1 hs1 hm1 hc1 ha
    · exact ih.expr b d m1 hs1 hm1 hc1 hb'
    · exact Agrees.fail hm1 (by simp [RuntimeFault.internal_iff])
  | @this _ r hr =>
    simp only [evalExpr]
    exact Agrees.lookup hs hm hc hr
  | @unary _ op t e he =>
    simp only [evalExpr]
    refine (ih.expr e d m hs hm hc he).bind (hb.expr e m hs) fun v m1 _ _ hm1 _ _ => ?_
    split
    · exact Agrees.pure hm1 (.number _)
    · exact Agrees.fail hm1 (by simp [RuntimeFault.internal_iff])
    · exact Agrees.pure hm1 (.bool _)
  | @«variable» _ r hr =>
    simp only [evalExpr]
    exact Agrees.lookup hs hm hc hr

theorem Agreement.args_succ (ih : Agreement n) (es : List Expr) (d : Nat) (m : Machine)
    (hs : Sound m) (hm : Wired m) (hc : m.scopes.Level m.current d)
    (hes : ∀ e ∈ es, Expr.Scoped .resolved d e) : Agrees (evalArgs (n + 1) es) AllFit m := by
  have hb := balanced n
  cases es with
  | nil =>
    simp only [evalArgs]
    exact Agrees.pure hm fun v hv => by cases hv
  | cons e es =>
    simp only [evalArgs]
    refine (ih.expr e d m hs hm hc (hes e List.mem_cons_self)).bind (hb.expr e m hs)
      fun v m1 hs1 hf1 hm1 hv _ => ?_
    refine (ih.args es d m1 hs1 hm1 (hf1.level_current hc) fun e h =>
      hes e (List.mem_cons_of_mem _ h)).bind (hb.args es m1 hs1) fun vs m2 _ hf2 hm2 hvs _ => ?_
    refine Agrees.pure hm2 fun w hw => ?_
    rcases List.mem_cons.1 hw with rfl | hw
    · exact Fits.frame hs1.wf hf2 hv
    · exact hvs w hw

theorem Agreement.invoke_succ (ih : Agreement n) (c : Callee) (paren : Token) (args : List Value)
    (m : Machine) (hs : Sound m) (hm : Wired m) (hc : CalleeFits m c) (hargs : AllFit m args) :
    Agrees (Eval.invoke (n + 1) c paren args) Fits m := by
  unfold Agrees
  rw [exec_invoke]
  split
  · exact ⟨hm, fun f h => by cases h; simp [RuntimeFault.internal_iff], fun _ h => by cases h⟩
  split
  · exact ⟨hm, fun f h => by cases h; simp [RuntimeFault.internal_iff], fun _ h => by cases h⟩
  rename_i hd
  -- the body runs one call deeper; how deep is no part of what fits
  have hs' : Sound { m with depth := m.depth + 1 } := hs.withDepth (by omega)
  have hm' : Wired { m with depth := m.depth + 1 } := hm.of_eq rfl rfl
  obtain ⟨hw, hsafe, hok⟩ : Agrees (runCallee n args c) Fits { m with depth := m.depth + 1 } := by
    cases c with
    | function f => exact ih.call f args _ hs' hm' hc hargs
    | classOf c => exact ih.construct c args _ hs' hm' hc hargs
  exact ⟨hw.of_eq rfl rfl, hsafe, fun v hv => hok v hv⟩

/-- The scopes a call opens: under the function's scope, the scope of `this` if the function is
bound, then the scope of its parameters. Each lies one level below the one it opens under, so
the parameters' scope lies at the level of the frames around the body. -/
theorem Agreement.body_succ (ih : Agreement n) (name : Option String) (params : List Token)
    (body : List Stmt) (scope : Nat) (receiver : Option Value) (isInit : Bool) (args : List Value)
    (m : Machine) (hs : Sound m) (hm : Wired m)
    (hf : Callable.Wired m.scopes (.closure name params body scope receiver isInit))
    (hargs : AllFit m args) : Agrees (runBody (n + 1) params body scope receiver args) Fits m := by
  have hb := balanced n
  unfold Agrees
  cases hf with
  | @unbound _ _ _ _ d hpin hp hch hbody =>
    rw [exec_runBody_none]
    dsimp only
    obtain ⟨hs2, ho2, hm2, hch2⟩ := Wired.entry_unbound hs hm hpin hp hch hargs
    obtain ⟨hw3, hsafe3, hok3⟩ := ih.block body _ (d + 1) _ hs2 hm2 hch2 hbody
    obtain ⟨hs3, hf3, _⟩ := hb.block body _ _ hs2 ((ho2.live_iff _).2 (.inr rfl))
    have hc3 := hf3.live _ ((ho2.live_iff _).2 (.inr rfl))
    exact ⟨hw3.release hs3.wf hc3, returnOf_safe hsafe3, fun v hv =>
      Fits.release hs3.wf hc3 (returnOf_fits hok3 v hv)⟩
  | @bound _ _ _ _ this _ hmem hr =>
    obtain ⟨-, hpin, hp, d, hch, hbody⟩ := hmem
    rw [exec_runBody_some]
    dsimp only
    obtain ⟨hr1, ho1', hs3, ho3, hm3, hch3⟩ := Wired.entry_bound hs hm hpin hp hch hr hargs
    obtain ⟨hw4, hsafe4, hok4⟩ := ih.block body _ (d + 2) _ hs3 hm3 hch3 hbody
    obtain ⟨hs4, hf4, _⟩ := hb.block body _ _ hs3 ((ho3.live_iff _).2 (.inr rfl))
    obtain ⟨hs5, hf5⟩ := ho3.release hr1 hf4 hs4
    have hc4 := hf4.live _ ((ho3.live_iff _).2 (.inr rfl))
    have hrs5 := hf5.live _ ((ho1'.live_iff _).2 (.inr rfl))
    exact ⟨(hw4.release hs4.wf hc4).release hs5.wf hrs5, returnOf_safe hsafe4, fun v hv =>
      Fits.release hs5.wf hrs5 (Fits.release hs4.wf hc4 (returnOf_fits hok4 v hv))⟩

/-- A call runs only functions that fit: a native one, an unbound one that is no initializer,
or a member bound to its receiver; so an initializer always has its receiver. -/
theorem Agreement.call_succ (ih : Agreement n) (f : Callable) (args : List Value) (m : Machine)
    (hs : Sound m) (hm : Wired m) (hf : Callable.Wired m.scopes f) (hargs : AllFit m args) :
    Agrees (callFunction (n + 1) f args) Fits m := by
  have hb := balanced n
  cases hf with
  | native name arity =>
    simp only [callFunction]
    refine (Agrees.get hm).bind (Framed.get hs) fun a m1 _ _ hm1 _ _ => ?_
    exact Agrees.pure hm1 (.number _)
  | @unbound name params body scope d hpin hp hch hbody =>
    simp only [callFunction]
    exact ih.body name params body scope none false args m hs hm (.unbound hpin hp hch hbody) hargs
  | @bound name params body scope this isInit hmem hr =>
    have hf : Callable.Wired m.scopes (.closure name params body scope (some this) isInit) :=
      .bound hmem hr
    simp only [callFunction]
    split
    · refine (ih.body _ _ _ _ _ _ args m hs hm hf hargs).bind
        (hb.body params body scope _ args m hs hmem.2.1 (fun r h => by cases h; exact Fits.good hr)
          hargs.good) fun _ m1 _ hf1 hm1 _ _ => ?_
      exact Agrees.pure hm1 (Fits.frame hs.wf hf1 hr)
    · exact ih.body _ _ _ _ _ _ args m hs hm hf hargs

theorem Agreement.construct_succ (ih : Agreement n) (c : ClassDef) (args : List Value)
    (m : Machine) (hs : Sound m) (hm : Wired m) (hc : ClassDef.Wired m.scopes c)
    (hargs : AllFit m args) : Agrees (Eval.construct (n + 1) c args) Fits m := by
  have hb := balanced n
  simp only [Eval.construct]
  refine (Agrees.newInstance hm hc).bind (Framed.newInstance hs hc.fns)
    fun inst m1 hs1 hf1 hm1 hinst _ => ?_
  have hc1 := hf1.classWired hs.wf hc
  split
  · rename_i init hinit
    have hinit1 := (hc1.find hinit).bind hinst
    refine (ih.call _ args m1 hs1 hm1 hinit1 (hargs.frame hs.wf hf1)).bind
      (hb.call _ args m1 hs1 (Callable.Wired.fns hinit1) (hargs.frame hs.wf hf1).good)
      fun _ m2 _ hf2 hm2 _ _ => ?_
    exact Agrees.pure hm2 (Fits.frame hs1.wf hf2 hinst)
  · exact Agrees.pure hm1 hinst

theorem Agreement.instanceProperty_succ (ih : Agreement n) (i : Nat) (c : ClassDef)
    (name : Token) (m : Machine) (hs : Sound m) (hm : Wired m) (hc : ClassDef.Wired m.scopes c) :
    Agrees (Eval.instanceProperty (n + 1) i c name) Fits m := by
  simp only [Eval.instanceProperty]
  refine (Agrees.field? hm i name.lexeme).bind (Framed.field? hs i name.lexeme)
    fun o m1 hs1 hf1 hm1 ho _ => ?_
  have hc1 := hf1.classWired hs.wf hc
  have hthis : Fits m1 (.instanceRef i c) := .instanceRef i hc1
  split
  · exact Agrees.pure hm1 (ho _ rfl)
  · split
    · rename_i g hg
      exact ih.invoke _ name [] m1 hs1 hm1 ((hc1.find hg).bind hthis) fun _ h => by cases h
    · split
      · rename_i f hf
        exact Agrees.boundMethod hs1 hm1 hc1 hf hthis
      · exact Agrees.fail hm1 (by simp [RuntimeFault.internal_iff])

theorem Agreement.staticProperty_succ (ih : Agreement n) (s : Nat) (c : ClassDef) (name : Token)
    (m : Machine) (hs : Sound m) (hm : Wired m) (hc : ClassDef.Wired m.scopes c) :
    Agrees (Eval.staticProperty (n + 1) s c name) Fits m := by
  simp only [Eval.staticProperty]
  have hthis : Fits m (.classRef s c) := .classRef s hc
  split
  · rename_i g hg
    exact ih.invoke _ name [] m hs hm ((hc.find hg).bind hthis) fun _ h => by cases h
  · split
    · rename_i f hf
      exact Agrees.boundMethod hs hm hc hf hthis
    · exact Agrees.fail hm (by simp [RuntimeFault.internal_iff])

/-- `super` is found at least one scope out, above the current scope's level, and is bound to a
class there; `this` is found one scope nearer. -/
theorem Agreement.superMember_succ (ih : Agreement n) (keyword : Reference) (member : Token)
    (d : Nat) (m : Machine) (hs : Sound m) (hm : Wired m) (hc : m.scopes.Level m.current d)
    (hk : Uses.resolved.super d keyword) :
    Agrees (Eval.superMember (n + 1) keyword member) Fits m := by
  obtain ⟨hname, h, hhops, hlt⟩ := hk
  simp only [Eval.superMember, hhops]
  refine (Agrees.get hm).bind (Framed.get hs) fun a m1 hs1 hf1 hm1 (ha : a = m1) _ => ?_
  subst ha
  have hc1 := hf1.level_current hc
  refine (Agrees.ofExcept (P := fun m' v => Fits m' v ∧ ∃ k c, v = .classRef k c) hm1
    (fun f hf => hc1.getAt_safe (Nat.le_of_lt hlt) hf)
    fun v hv => ⟨hm1.values.scopes.getAt hv, hm1.supers.getAt hv hname⟩).bind
    (Framed.ofExcept hs1 fun v hv => hs1.values.scopes.getAt hv) fun v m2 hs2 hf2 hm2 hv _ => ?_
  obtain ⟨hv, k, sup, rfl⟩ := hv
  have hsup : ClassDef.Wired m2.scopes sup := by
    cases hv with
    | classRef _ h => exact h
  dsimp only
  refine (Agrees.get hm2).bind (Framed.get hs2) fun a m3 hs3 hf3 hm3 (ha : a = m3) _ => ?_
  subst ha
  have hc3 := hf3.level_current (hf2.level_current hc1)
  refine (Agrees.ofExcept (P := Fits) hm3 (fun f hf => hc3.getAt_safe (by omega) hf)
    fun v hv => hm3.values.scopes.getAt hv).bind
    (Framed.ofExcept hs3 fun v hv => hs3.values.scopes.getAt hv) fun r m4 hs4 hf4 hm4 hr _ => ?_
  have hsup4 := (hf3.trans hf4).classWired hs2.wf hsup
  split
  · rename_i g hg
    exact ih.invoke _ member [] m4 hs4 hm4 ((hsup4.find hg).bind hr) fun _ h => by cases h
  · split
    · rename_i f hf
      exact Agrees.boundMethod hs4 hm4 hsup4 hf hr
    · exact Agrees.fail hm4 (by simp [RuntimeFault.internal_iff])

/-! ## Statements -/

theorem Agreement.block_succ (ih : Agreement n) (body : List Stmt) (scope d : Nat) (m : Machine)
    (hs : Sound m) (hm : Wired m) (hch : m.scopes.Level scope d)
    (hbody : ∀ s ∈ body, Stmt.Scoped .resolved d s) :
    Agrees (execBlock (n + 1) body scope) FlowFits m := by
  unfold Agrees
  rw [exec_execBlock]
  obtain ⟨hw, hsafe, hok⟩ := ih.stmts body d { m with current := scope }
    (hs.setCurrent hch.live) (hm.of_eq rfl rfl) hch hbody
  exact ⟨hw.of_eq rfl rfl, hsafe, fun fl h => hok fl h⟩

theorem Agreement.stmts_succ (ih : Agreement n) (ss : List Stmt) (d : Nat) (m : Machine)
    (hs : Sound m) (hm : Wired m) (hc : m.scopes.Level m.current d)
    (hss : ∀ s ∈ ss, Stmt.Scoped .resolved d s) : Agrees (execStmts (n + 1) ss) FlowFits m := by
  have hb := balanced n
  cases ss with
  | nil =>
    simp only [execStmts]
    exact Agrees.pure hm trivial
  | cons s ss =>
    simp only [execStmts]
    refine (ih.stmt s d m hs hm hc (hss s List.mem_cons_self)).bind (hb.stmt s m hs)
      fun fl m1 hs1 hf1 hm1 hfl _ => ?_
    split
    · exact ih.stmts ss d m1 hs1 hm1 (hf1.level_current hc) fun s h =>
        hss s (List.mem_cons_of_mem _ h)
    · exact Agrees.pure hm1 hfl

theorem Agreement.loop_succ (ih : Agreement n) (c : Expr) (body : Stmt) (d : Nat) (m : Machine)
    (hs : Sound m) (hm : Wired m) (hc : m.scopes.Level m.current d)
    (hcond : Expr.Scoped .resolved d c) (hbody : Stmt.Scoped .resolved d body) :
    Agrees (execWhile (n + 1) c body) FlowFits m := by
  have hb := balanced n
  simp only [execWhile]
  refine (ih.expr c d m hs hm hc hcond).bind (hb.expr c m hs) fun v m1 hs1 hf1 hm1 _ _ => ?_
  have hc1 := hf1.level_current hc
  split
  · refine (ih.stmt body d m1 hs1 hm1 hc1 hbody).bind (hb.stmt body m1 hs1)
      fun fl m2 hs2 hf2 hm2 hfl _ => ?_
    split
    · exact ih.loop c body d m2 hs2 hm2 (hf2.level_current hc1) hcond hbody
    · exact Agrees.pure hm2 trivial
    · exact Agrees.pure hm2 hfl
  · exact Agrees.pure hm1 trivial

theorem Agreement.stmt_succ (ih : Agreement n) (s : Stmt) (d : Nat) (m : Machine) (hs : Sound m)
    (hm : Wired m) (hc : m.scopes.Level m.current d) (hst : Stmt.Scoped .resolved d s) :
    Agrees (execStmt (n + 1) s) FlowFits m := by
  have hb := balanced n
  cases hst with
  | @block _ body hbody =>
    simp only [execStmt]
    refine (Agrees.currentScope hm).bind (Framed.currentScope hs)
      fun p m1 hs1 hf1 hm1 (hp : p = m1.current) _ => ?_
    subst hp
    have hc1 := hf1.level_current hc
    obtain ⟨hs2, ho2⟩ := hs1.child hs1.current_live
    exact Agrees.scoped hs1 hs1.current_live
      (ih.block body _ (d + 1) _ hs2 (hm1.child hs1.wf _) (hs1.wf.level_child hc1) hbody)
      (hb.block body _ _ hs2 ((ho2.live_iff _).2 (.inr rfl)))
  | breakLoop =>
    simp only [execStmt]
    exact Agrees.pure hm trivial
  | @classDecl _ name sup methods getters statics staticGetters hn hsup hp hbody =>
    unfold execStmt
    extract_lets tail
    -- the declaration once its superclass, if it names one, is found: the members close over
    -- the scope of `super` one link out, or over the declaring scope
    have htail : ∀ o m', Sound m' → Wired m' → m'.scopes.Level m'.current d →
        (∀ x, o = some x → ClassDef.Wired m'.scopes x.2) → o.isSome = sup.isSome →
        Agrees (tail o) FlowFits m' := by
      intro o m1 hs1 hm1 hc1 ho hos
      simp only [tail]
      refine (Agrees.currentScope hm1).bind (Framed.currentScope hs1)
        fun here m2 hs2 hf2 hm2 (hh : here = m2.current) _ => ?_
      subst hh
      have hc2 := hf2.level_current hc1
      refine (Agrees.define hs2 hm2 _ (fun x hx => by cases hx; exact .nil)
        fun _ _ h => absurd h hn).bind (Framed.define hs2 fun x hx => by cases hx; constructor)
        fun _ m3 hs3 hf3 hm3 _ _ => ?_
      have hlive : m3.scopes.Live m2.current := hf3.live _ hs2.current_live
      have hc3 : m3.scopes.Level m2.current d := hf3.level hc2
      have hf13 := hf2.trans hf3
      split
      · rename_i sc c
        obtain ⟨r, rfl⟩ : ∃ r, sup = some r := Option.isSome_iff_exists.1 (hos ▸ rfl)
        refine Agrees.superScope hs3 hm3 hc3 (hf13.classWired hs1.wf (ho _ rfl))
          fun m4 hs4 hf4 hm4 hpin hch4 => ?_
        exact Agrees.declareClass hs4 hm4 hn
          (fun x hx => by cases hx; exact (hf13.trans hf4).classWired hs1.wf (ho _ rfl))
          hpin hch4 hp hbody
      · have hnone : sup = none := Option.not_isSome_iff_eq_none.1 (by simp [← hos])
        subst hnone
        simp only [pure_bind]
        refine (Agrees.pin hs3 hm3 _).bind (Framed.pin hs3 hlive) fun _ m4 hs4 hf4 hm4 _ hpin => ?_
        exact Agrees.declareClass hs4 hm4 hn (fun x hx => by cases hx) hpin (hf4.level hc3) hp hbody
    clear_value tail
    split
    · rename_i r
      refine (Agrees.lookup hs hm hc (hsup r rfl)).bind (Framed.lookup hs r)
        fun v m1 hs1 hf1 hm1 hv _ => ?_
      split
      · simp only [pure_bind]
        exact htail _ m1 hs1 hm1 (hf1.level_current hc) (fun x hx => by
          cases hx
          cases hv with
          | classRef _ h => exact h) rfl
      · exact Agrees.fail_bind hm1 (by simp [RuntimeFault.internal_iff]) _
    · simp only [pure_bind]
      exact htail none m hs hm hc (fun x hx => by cases hx) rfl
  | @expression _ e he =>
    simp only [execStmt]
    refine (ih.expr e d m hs hm hc he).bind (hb.expr e m hs) fun _ m1 _ _ hm1 _ _ => ?_
    exact Agrees.pure hm1 trivial
  | @function _ name params body hn hp hbody =>
    simp only [execStmt]
    refine (Agrees.currentScope hm).bind (Framed.currentScope hs)
      fun p m1 hs1 hf1 hm1 (hp1 : p = m1.current) _ => ?_
    subst hp1
    have hc1 := hf1.level_current hc
    refine (Agrees.pin hs1 hm1 _).bind (Framed.pin hs1 hs1.current_live)
      fun _ m2 hs2 hf2 hm2 _ hpin => ?_
    refine (Agrees.stamp hm2).bind (Framed.stamp hs2) fun k m3 hs3 hf3 hm3 _ _ => ?_
    have hfn : Fits m3 (.function k
        (.closure (some name.lexeme) params body m1.current none false)) :=
      .function k (.unbound (hf3.pinned _ hpin) hp (hf3.level (hf2.level hc1)) hbody)
    refine (Agrees.define hs3 hm3 _ (fun x hx => by cases hx; exact hfn)
      fun _ _ h => absurd h hn).bind (Framed.define hs3 fun x hx => by cases hx; exact hfn.good)
      fun _ m4 _ _ hm4 _ _ => ?_
    exact Agrees.pure hm4 trivial
  | @ifElse _ c t e hcond ht he =>
    cases e with
    | some e =>
      simp only [execStmt]
      refine (ih.expr c d m hs hm hc hcond).bind (hb.expr c m hs) fun _ m1 hs1 hf1 hm1 _ _ => ?_
      have hc1 := hf1.level_current hc
      split
      · exact ih.stmt t d m1 hs1 hm1 hc1 ht
      · exact ih.stmt e d m1 hs1 hm1 hc1 (he e rfl)
    | none =>
      simp only [execStmt]
      refine (ih.expr c d m hs hm hc hcond).bind (hb.expr c m hs) fun _ m1 hs1 hf1 hm1 _ _ => ?_
      split
      · exact ih.stmt t d m1 hs1 hm1 (hf1.level_current hc) ht
      · exact Agrees.pure hm1 trivial
  | @print _ e he =>
    simp only [execStmt]
    refine (ih.expr e d m hs hm hc he).bind (hb.expr e m hs) fun v m1 hs1 _ hm1 _ _ => ?_
    refine (Agrees.emit hm1 _).bind (Framed.emit hs1 _) fun _ m2 _ _ hm2 _ _ => ?_
    exact Agrees.pure hm2 trivial
  | @returnFrom _ keyword v hv =>
    cases v with
    | some e =>
      simp only [execStmt]
      refine (ih.expr e d m hs hm hc (hv e rfl)).bind (hb.expr e m hs)
        fun v m1 _ _ hm1 hv _ => ?_
      exact Agrees.pure hm1 hv
    | none =>
      simp only [execStmt]
      exact Agrees.pure hm .nil
  | @varDecl _ name init hn hinit =>
    cases init with
    | some e =>
      simp only [execStmt, map_eq_pure_bind, bind_assoc, pure_bind]
      refine (ih.expr e d m hs hm hc (hinit e rfl)).bind (hb.expr e m hs)
        fun v m1 hs1 hf1 hm1 hv _ => ?_
      refine (Agrees.currentScope hm1).bind (Framed.currentScope hs1)
        fun p m2 hs2 hf2 hm2 (hp : p = m2.current) _ => ?_
      subst hp
      have hv2 : Fits m2 v := Fits.frame hs1.wf hf2 hv
      refine (Agrees.define hs2 hm2 _ (fun x hx => by cases hx; exact hv2)
        fun _ _ h => absurd h hn).bind (Framed.define hs2 fun x hx => by cases hx; exact hv2.good)
        fun _ m3 _ _ hm3 _ _ => ?_
      exact Agrees.pure hm3 trivial
    | none =>
      simp only [execStmt, pure_bind]
      refine (Agrees.currentScope hm).bind (Framed.currentScope hs)
        fun p m1 hs1 _ hm1 (hp : p = m1.current) _ => ?_
      subst hp
      refine (Agrees.define hs1 hm1 _ (fun x hx => by cases hx) fun x hx => by cases hx).bind
        (Framed.define hs1 fun x hx => by cases hx) fun _ m2 _ _ hm2 _ _ => ?_
      exact Agrees.pure hm2 trivial
  | @whileLoop _ c body hcond hbody =>
    simp only [execStmt]
    exact ih.loop c body d m hs hm hc hcond hbody

/-- Out of fuel, every part of evaluation stops at once, changing nothing. -/
theorem agreement_zero : Agreement 0 where
  expr _ _ _ _ hm _ _ := by simp only [evalExpr]; exact Agrees.outOfFuel hm
  args _ _ _ _ hm _ _ := by simp only [evalArgs]; exact Agrees.outOfFuel hm
  invoke _ _ _ _ _ hm _ _ := by simp only [Eval.invoke]; exact Agrees.outOfFuel hm
  call _ _ _ _ hm _ _ := by simp only [callFunction]; exact Agrees.outOfFuel hm
  body _ _ _ _ _ _ _ _ _ hm _ _ := by simp only [runBody]; exact Agrees.outOfFuel hm
  construct _ _ _ _ hm _ _ := by simp only [Eval.construct]; exact Agrees.outOfFuel hm
  instanceProperty _ _ _ _ _ hm _ := by simp only [Eval.instanceProperty]; exact Agrees.outOfFuel hm
  staticProperty _ _ _ _ _ hm _ := by simp only [Eval.staticProperty]; exact Agrees.outOfFuel hm
  superMember _ _ _ _ _ hm _ _ := by simp only [Eval.superMember]; exact Agrees.outOfFuel hm
  stmt _ _ _ _ hm _ _ := by simp only [execStmt]; exact Agrees.outOfFuel hm
  loop _ _ _ _ _ hm _ _ _ := by simp only [execWhile]; exact Agrees.outOfFuel hm
  block _ _ _ _ _ hm _ _ := by simp only [execBlock]; exact Agrees.outOfFuel hm
  stmts _ _ _ _ hm _ _ := by simp only [execStmts]; exact Agrees.outOfFuel hm

/-- Every part of evaluation, at any fuel, agrees with resolution: run from a sound and wired
machine on resolved code inside as many frames as the level of the current scope, it leaves a
wired machine, raises no fault of the interpreter's own, and gives back what fits. -/
theorem agreement : ∀ n, Agreement n
  | 0 => agreement_zero
  | n + 1 =>
    have ih := agreement n
    { expr := ih.expr_succ
      args := ih.args_succ
      invoke := ih.invoke_succ
      call := ih.call_succ
      body := ih.body_succ
      construct := ih.construct_succ
      instanceProperty := ih.instanceProperty_succ
      staticProperty := ih.staticProperty_succ
      superMember := ih.superMember_succ
      stmt := ih.stmt_succ
      loop := ih.loop_succ
      block := ih.block_succ
      stmts := ih.stmts_succ }

/-! ## Runs of resolved programs -/

theorem Wired.initial (clock : Float) : Wired (Machine.initial clock) :=
  ⟨Machine.Holds.initial clock (.function 0 (.native "clock" 0)),
    (Scopes.entries_new : Scopes.new.SuperBound).define fun _ _ h => absurd h (by decide)⟩

/-- A top-level statement of resolved code, run at any fuel from a sound and wired machine
whose current scope is the globals, agrees: the globals lie at level `0`, and top-level code is
inside no frame. It leaves the globals current. -/
theorem Agreement.topLevel (n : Nat) {s : Stmt} (hst : Stmt.Scoped .resolved 0 s) (hs : Sound m)
    (hm : Wired m) (hcur : m.current = Scopes.globals) :
    Sound (exec (execStmt n s) m).2 ∧ (exec (execStmt n s) m).2.current = Scopes.globals ∧
      Agrees (execStmt n s) FlowFits m :=
  have hb := (balanced n).stmt s m hs
  ⟨hb.1, hb.2.1.current_eq.trans hcur,
    (agreement n).stmt s 0 m hs hm (hcur ▸ .base hs.wf.globals_live) hst⟩

/-- Running resolved top-level statements, under either policy, from a sound and wired machine
whose current scope is the globals, collects no fault of the interpreter's own and leaves a
sound and wired machine whose current scope is the globals. -/
theorem interpret_agrees (policy : Policy) :
    ∀ (ss : List Stmt) {m : Machine}, Sound m → Wired m → m.current = Scopes.globals →
      (∀ s ∈ ss, Stmt.Scoped .resolved 0 s) →
      (∀ f ∈ ((Machine.interpret policy ss).run m).1.1, ¬ f.Internal) ∧
        Sound ((Machine.interpret policy ss).run m).2 ∧
        Wired ((Machine.interpret policy ss).run m).2 ∧
        ((Machine.interpret policy ss).run m).2.current = Scopes.globals
  | [], _, hs, hm, hcur, _ => ⟨fun _ h => (by cases h), hs, hm, hcur⟩
  | s :: ss, m, hs, hm, hcur, hss => by
    obtain ⟨hs1, hcur1, hw1, hsafe1, -⟩ :=
      Agreement.topLevel Eval.fuel (hss s List.mem_cons_self) hs hm hcur
    have hrest : ∀ s ∈ ss, Stmt.Scoped .resolved 0 s :=
      fun s h => hss s (List.mem_cons_of_mem _ h)
    simp only [Machine.interpret, run_bind_exec]
    generalize exec (Eval.execStmt Eval.fuel s) m = r at hs1 hcur1 hw1 hsafe1
    obtain ⟨(f | _) | _, m'⟩ := r
    · have hf : ¬ f.Internal := hsafe1 f rfl
      cases policy with
      | abortProgram =>
        refine ⟨fun f' h => ?_, hs1, hw1, hcur1⟩
        change f' ∈ [f] at h
        exact List.mem_singleton.1 h ▸ hf
      | abortStatement =>
        obtain ⟨hfs, hs2, hw2, hcur2⟩ := interpret_agrees .abortStatement ss hs1 hw1 hcur1 hrest
        refine ⟨fun f' h => ?_, hs2, hw2, hcur2⟩
        rcases List.mem_cons.1 h with rfl | h
        · exact hf
        · exact hfs f' h
    · exact ⟨fun _ h => (by cases h), hs1, hw1, hcur1⟩
    · exact interpret_agrees policy ss hs1 hw1 hcur1 hrest

end Machine

end Lox
