import Lox.Interpreter
import Lox.Proofs.Exec
import Lox.Proofs.Closures
/-!
# Evaluation puts the machine back

Every part of evaluation, however it ends (with a value, a fault, or out of fuel), leaves the
machine as it found it in three respects: the current scope, the depth of calls, and the scopes
in use that are not pinned. Blocks and calls open scopes and release them on every way out, and
calls count themselves in and out of the depth. So between top-level statements the current
scope is the globals, no call is active, and every scope in use is pinned: only scopes that a
function or class has captured outlive the statement that made them.

`Machine.Sound` is what holds of the machine whenever a part of evaluation starts or ends: the
arena is well formed, the current scope is in use, at most `RuntimeFault.maxDepth` calls are
active, and every function the machine keeps closes over a pinned scope. `Machine.Frame` is what
a finished part of evaluation may have changed.

## Main statements

* `Lox.Machine.balanced`: every part of evaluation, at every fuel, is framed.
* `Lox.Machine.Reachable.atBoundary`: between top-level statements the current scope is the
  globals, no call is active, and the scopes in use are exactly the pinned ones.
-/

namespace Lox

namespace Machine

open Eval

/-- The function's scope is pinned in the arena; a host function has none. -/
def ScopePinned (A : Scopes) : Callable → Prop
  | .native .. => True
  | .closure _ _ _ scope _ _ => A.pinnedAt scope = true

/-- A value whose functions close over pinned scopes. -/
def Good (m : Machine) (v : Value) : Prop := Value.Fns (ScopePinned m.scopes) v

/-- What holds whenever a part of evaluation starts or ends. -/
structure Sound (m : Machine) : Prop where
  wf : m.scopes.WF
  current_live : m.scopes.Live m.current
  depth_le : m.depth ≤ RuntimeFault.maxDepth
  values : m.Holds (Good m)

/-- What a finished part of evaluation may have changed: the current scope and the depth are
back, every scope in use stays in use under the same parent, pins stay, and every scope that has
come into use is pinned. -/
structure Frame (m m' : Machine) : Prop where
  current_eq : m'.current = m.current
  depth_eq : m'.depth = m.depth
  live : ∀ s, m.scopes.Live s → m'.scopes.Live s
  parentOf_eq : ∀ s, m.scopes.Live s → m'.scopes.parentOf s = m.scopes.parentOf s
  pinned : ∀ s, m.scopes.pinnedAt s = true → m'.scopes.pinnedAt s = true
  fresh_pinned : ∀ s, m'.scopes.Live s → ¬ m.scopes.Live s → m'.scopes.pinnedAt s = true

variable {m m' m'' : Machine}

theorem Frame.refl (m : Machine) : Frame m m :=
  ⟨rfl, rfl, fun _ h => h, fun _ _ => rfl, fun _ h => h, fun _ h h' => absurd h h'⟩

theorem Frame.trans (h : Frame m m') (g : Frame m' m'') : Frame m m'' where
  current_eq := g.current_eq.trans h.current_eq
  depth_eq := g.depth_eq.trans h.depth_eq
  live s hs := g.live s (h.live s hs)
  parentOf_eq s hs := (g.parentOf_eq s (h.live s hs)).trans (h.parentOf_eq s hs)
  pinned s hs := g.pinned s (h.pinned s hs)
  fresh_pinned s hs hn := by
    by_cases hs' : m'.scopes.Live s
    · exact g.pinned s (h.fresh_pinned s hs' hn)
    · exact g.fresh_pinned s hs hs'

theorem scopePinned_mono {A B : Scopes} (h : ∀ s, A.pinnedAt s = true → B.pinnedAt s = true)
    {f : Callable} (hf : ScopePinned A f) : ScopePinned B f := by
  cases f with
  | native => trivial
  | closure _ _ _ scope _ _ => exact h scope hf

theorem scopePinned_bind {A : Scopes} (f : Callable) (r : Value) (hf : ScopePinned A f) :
    ScopePinned A (f.bind r) := by
  cases f <;> exact hf

theorem Good.mono {v : Value} (h : ∀ s, m.scopes.pinnedAt s = true → m'.scopes.pinnedAt s = true)
    (hv : Good m v) : Good m' v :=
  Value.Fns.mono (fun _ => scopePinned_mono h) hv

theorem Good.frame {v : Value} (h : Frame m m') (hv : Good m v) : Good m' v :=
  hv.mono h.pinned

/-- The arguments of a call. -/
def AllGood (m : Machine) (vs : List Value) : Prop := ∀ v ∈ vs, Good m v

/-- What a statement returns, when it returns. -/
def FlowGood (m : Machine) : Flow → Prop
  | .returned v => Good m v
  | _ => True

/-- What a call invokes. -/
def CalleeGood (m : Machine) : Callee → Prop
  | .function f => Callable.Fns (ScopePinned m.scopes) f
  | .classOf c => ClassDef.Fns (ScopePinned m.scopes) c

theorem FlowGood.frame {fl : Flow} (h : Frame m m') (hf : FlowGood m fl) : FlowGood m' fl := by
  cases fl with
  | returned v => exact Good.frame h hf
  | _ => trivial

/-! ## Framed computations -/

/-- Run from `m`, `x` ends in a sound machine that `m` frames, with a result that satisfies
`ok` there if it succeeds. -/
def Framed {α : Type} (x : Eval α) (ok : Machine → α → Prop) (m : Machine) : Prop :=
  Sound (exec x m).2 ∧ Frame m (exec x m).2 ∧ ∀ a, (exec x m).1 = .ok a → ok (exec x m).2 a

variable {α β : Type} {ok : Machine → α → Prop}

theorem Framed.pure (hm : Sound m) {a : α} (ha : ok m a) : Framed (Pure.pure a) ok m :=
  ⟨hm, .refl m, fun _ h => by cases h; exact ha⟩

theorem Framed.throw (hm : Sound m) (e : Interrupt) : Framed (throw e : Eval α) ok m :=
  ⟨hm, .refl m, fun _ h => by cases h⟩

theorem Framed.fail (hm : Sound m) (f : RuntimeFault) : Framed (Eval.fail f : Eval α) ok m :=
  Framed.throw hm _

theorem Framed.ofExcept (hm : Sound m) {r : Except RuntimeFault α} (hr : ∀ a, r = .ok a → ok m a) :
    Framed (Eval.ofExcept r) ok m := by
  cases r with
  | error f => exact Framed.fail hm f
  | ok a => exact Framed.pure hm (hr a rfl)

theorem Framed.bind {x : Eval α} {f : α → Eval β} {P : Machine → α → Prop}
    {Q : Machine → β → Prop} (hx : Framed x P m)
    (hf : ∀ a m', Sound m' → Frame m m' → P m' a → Framed (f a) Q m') :
    Framed (x >>= f) Q m := by
  obtain ⟨hs, hfr, hok⟩ := hx
  unfold Framed
  rw [exec_bind]
  rcases hxm : exec x m with ⟨_ | a, m1⟩
  · rw [hxm] at hs hfr
    exact ⟨hs, hfr, fun _ h => by cases h⟩
  · rw [hxm] at hs hfr hok
    obtain ⟨hs', hfr', hok'⟩ := hf a m1 hs hfr (hok a rfl)
    exact ⟨hs', hfr.trans hfr', hok'⟩

theorem Framed.mono {x : Eval α} {ok' : Machine → α → Prop} (hx : Framed x ok m)
    (h : ∀ m a, ok m a → ok' m a) : Framed x ok' m :=
  ⟨hx.1, hx.2.1, fun a ha => h _ a (hx.2.2 a ha)⟩

/-- A step that leaves scopes, current scope and depth alone is framed when the machine it
leaves is sound. -/
theorem Framed.of_scopes {x : Eval α} (hs : Sound (exec x m).2)
    (hsc : (exec x m).2.scopes = m.scopes) (hc : (exec x m).2.current = m.current)
    (hd : (exec x m).2.depth = m.depth) (hok : ∀ a, (exec x m).1 = .ok a → ok (exec x m).2 a) :
    Framed x ok m := by
  refine ⟨hs, ⟨hc, hd, fun s h => hsc ▸ h, fun s _ => by rw [hsc], fun s h => hsc ▸ h,
    fun s h h' => absurd (hsc ▸ h) h'⟩, hok⟩

theorem Framed.get (hm : Sound m) : Framed (get : Eval Machine) (fun m' a => a = m') m :=
  ⟨hm, .refl m, fun _ h => by cases h; rfl⟩

/-! ## Steps that change the machine -/

theorem Sound.fields_mono (hm : Sound m)
    (h : ∀ s, m.scopes.pinnedAt s = true → m'.scopes.pinnedAt s = true) :
    ∀ (i : Nat) (fs : List (String × Value)), m.fields[i]? = some fs → ∀ e ∈ fs, Good m' e.2 :=
  fun i fs hi e he => (hm.values.fields i fs hi e he).mono h

/-- Changing only what scopes hold, to good values, keeps a machine sound and framed. -/
theorem Sound.shaped {A : Scopes} (hm : Sound m) (hA : m.scopes.Shaped A)
    (hv : A.Holds (Good m)) : Sound { m with scopes := A } ∧ Frame m { m with scopes := A } := by
  have hpin : ∀ s, m.scopes.pinnedAt s = true → A.pinnedAt s = true := fun s h =>
    (hA.pinnedAt_eq s).trans h
  refine ⟨⟨hm.wf.of_shaped hA, hA.live_iff.2 hm.current_live, hm.depth_le,
    ⟨hv.mono fun _ h => h.mono hpin, hm.fields_mono hpin⟩⟩,
    ⟨rfl, rfl, fun s h => hA.live_iff.2 h, fun s _ => hA.parentOf_eq s, hpin, ?_⟩⟩
  exact fun s h h' => absurd (hA.live_iff.1 h) h'

theorem Sound.define (hm : Sound m) {s : Nat} {name : String} {v : Option Value}
    (hv : ∀ x, v = some x → Good m x) :
    Sound { m with scopes := m.scopes.define s name v } ∧
      Frame m { m with scopes := m.scopes.define s name v } :=
  hm.shaped (Scopes.shaped_define _ _ _ _) (hm.values.scopes.define hv)

theorem Sound.pin (hm : Sound m) {s : Nat} (hs : m.scopes.Live s) :
    Sound { m with scopes := m.scopes.pin s } ∧ Frame m { m with scopes := m.scopes.pin s } := by
  have hp := Scopes.pins_pin m.scopes s
  refine ⟨⟨hm.wf.pin hs, hp.live_iff.2 hm.current_live, hm.depth_le,
    ⟨hm.values.scopes.pins hp |>.mono fun _ h => h.mono hp.pinnedAt_mono,
      hm.fields_mono hp.pinnedAt_mono⟩⟩,
    ⟨rfl, rfl, fun t h => hp.live_iff.2 h, fun t _ => hp.parentOf_eq t, hp.pinnedAt_mono, ?_⟩⟩
  exact fun t h h' => absurd (hp.live_iff.1 h) h'

theorem Sound.setField (hm : Sound m) (i : Nat) (name : String) {v : Value} (hv : Good m v) :
    Sound { m with fields := m.fields.modify i (setEntry name v) } :=
  ⟨hm.wf, hm.current_live, hm.depth_le, hm.values.setField i name hv⟩

theorem Sound.newInstance (hm : Sound m) : Sound { m with fields := m.fields.push [] } :=
  ⟨hm.wf, hm.current_live, hm.depth_le, hm.values.newInstance⟩

theorem Sound.stamp (hm : Sound m) (k : Nat) : Sound { m with nextStamp := k } :=
  ⟨hm.wf, hm.current_live, hm.depth_le, ⟨hm.values.scopes, hm.values.fields⟩⟩

theorem Sound.emit (hm : Sound m) (text : String) : Sound { m with output := m.output ++ text } :=
  ⟨hm.wf, hm.current_live, hm.depth_le, ⟨hm.values.scopes, hm.values.fields⟩⟩

/-! ## Scopes opened and released -/

/-- `m'` is `m` with one more scope in use, `c`: not pinned, and the parent of no scope. -/
structure Opens (m : Machine) (c : Nat) (m' : Machine) : Prop where
  current_eq : m'.current = m.current
  depth_eq : m'.depth = m.depth
  not_live : ¬ m.scopes.Live c
  live_iff : ∀ s, m'.scopes.Live s ↔ m.scopes.Live s ∨ s = c
  parentOf_eq : ∀ s, m.scopes.Live s → m'.scopes.parentOf s = m.scopes.parentOf s
  pinnedAt_eq : ∀ s, m'.scopes.pinnedAt s = m.scopes.pinnedAt s
  childless : ∀ s, m'.scopes.Live s → m'.scopes.parentOf s ≠ some c

/-- A new scope under a scope in use. -/
theorem Sound.child (hm : Sound m) {p : Nat} (hp : m.scopes.Live p) :
    Sound { m with scopes := (m.scopes.child p).1 } ∧
      Opens m (m.scopes.child p).2 { m with scopes := (m.scopes.child p).1 } := by
  have hw := hm.wf
  have hpin : ∀ s, m.scopes.pinnedAt s = true → (m.scopes.child p).1.pinnedAt s = true :=
    fun s h => hw.pinnedAt_child.trans h
  have hnew := Scopes.not_live_child (A := m.scopes) p
  refine ⟨⟨hw.child hp, hw.live_child.2 (.inl hm.current_live), hm.depth_le,
    ⟨hm.values.scopes.child.mono fun _ h => h.mono hpin, hm.fields_mono hpin⟩⟩,
    ⟨rfl, rfl, hnew, fun s => hw.live_child, fun s hs => ?_, fun s => hw.pinnedAt_child, ?_⟩⟩
  · have hsc : s ≠ (m.scopes.child p).2 := fun e => hnew (e ▸ hs)
    rw [hw.parentOf_child, if_neg hsc]
  · intro s hs hsc
    rw [hw.parentOf_child] at hsc
    split at hsc
    · exact hnew (Option.some.inj hsc ▸ hp)
    · rename_i hne
      have hs' := (hw.live_child.1 hs).resolve_right hne
      exact hnew (hw.parent_live s _ hs' hsc)

theorem Opens.define {c : Nat} (ho : Opens m c m') (s : Nat) (name : String) (v : Option Value) :
    Opens m c { m' with scopes := m'.scopes.define s name v } := by
  have hA := Scopes.shaped_define m'.scopes s name v
  refine ⟨ho.current_eq, ho.depth_eq, ho.not_live, fun t => (hA.live_iff).trans (ho.live_iff t),
    fun t ht => (hA.parentOf_eq t).trans (ho.parentOf_eq t ht),
    fun t => (hA.pinnedAt_eq t).trans (ho.pinnedAt_eq t), fun t ht => ?_⟩
  rw [hA.parentOf_eq]
  exact ho.childless t (hA.live_iff.1 ht)

theorem Good.release {v : Value} {c : Nat} (hv : Good m v) :
    Good { m with scopes := m.scopes.release c } v :=
  hv.mono fun _ h => Scopes.pinnedAt_release.trans h

/-- A scope opened before a framed run is, after it, the parent of no scope in use unless it is
pinned: a scope in use under it was in use since it was opened, or is pinned, and then so would
it be. -/
theorem Opens.childless_of_unpinned {c : Nat} (ho : Opens m c m') (hf : Frame m' m'')
    (hs : Sound m'') (hcp : m''.scopes.pinnedAt c = false) :
    ∀ t, m''.scopes.Live t → m''.scopes.parentOf t ≠ some c := by
  intro t ht htc
  by_cases ht' : m'.scopes.Live t
  · exact ho.childless t ht' ((hf.parentOf_eq t ht').symm.trans htc)
  · have := hs.wf.parent_pinned t c (hf.fresh_pinned t ht ht') htc
    simp [hcp] at this

/-- A scope opened before a framed run and released after it leaves the machine framed. -/
theorem Opens.release {c : Nat} (hm : Sound m) (ho : Opens m c m') (hf : Frame m' m'')
    (hs : Sound m'') :
    Sound { m'' with scopes := m''.scopes.release c } ∧
      Frame m { m'' with scopes := m''.scopes.release c } := by
  have hc : m''.scopes.Live c := hf.live c ((ho.live_iff c).2 (.inr rfl))
  have hw := hs.wf
  have hchild := ho.childless_of_unpinned hf hs
  have hlive := fun t => Scopes.live_release (t := t) hc
  have hpin : ∀ s, m''.scopes.pinnedAt s = true → (m''.scopes.release c).pinnedAt s = true :=
    fun s h => Scopes.pinnedAt_release.trans h
  have hcur : m''.current = m.current := hf.current_eq.trans ho.current_eq
  have hlive_m : ∀ s, m.scopes.Live s → (m''.scopes.release c).Live s := fun s h =>
    (hlive s).2 ⟨hf.live s ((ho.live_iff s).2 (.inl h)), fun e => absurd (e ▸ h) ho.not_live⟩
  refine ⟨⟨hw.release hc hchild, hcur ▸ hlive_m _ hm.current_live, hs.depth_le,
    ⟨hs.values.scopes.release.mono fun _ h => h.mono hpin, hs.fields_mono hpin⟩⟩,
    ⟨hcur, hf.depth_eq.trans ho.depth_eq, hlive_m, fun s h => ?_, fun s h => ?_, fun s h h' => ?_⟩⟩
  · have hsc : s ≠ c := fun e => ho.not_live (e ▸ h)
    rw [Scopes.parentOf_release hsc, hf.parentOf_eq s ((ho.live_iff s).2 (.inl h)),
      ho.parentOf_eq s h]
  · exact hpin s (hf.pinned s ((ho.pinnedAt_eq s).trans h))
  · obtain ⟨hs'', hsc⟩ := (hlive s).1 h
    by_cases hs' : m'.scopes.Live s
    · rcases (ho.live_iff s).1 hs' with hm' | rfl
      · exact absurd hm' h'
      · exact hpin s (hsc rfl)
    · exact hpin s (hf.fresh_pinned s hs'' hs')

theorem Framed.currentScope (hm : Sound m) :
    Framed currentScope (fun m' s => s = m'.current) m :=
  ⟨hm, .refl m, fun _ h => by cases h; rfl⟩

theorem Framed.stamp (hm : Sound m) : Framed stamp (fun _ _ => True) m :=
  Framed.of_scopes (hm.stamp _) rfl rfl rfl fun _ _ => trivial

theorem Framed.emit (hm : Sound m) (text : String) : Framed (emit text) (fun _ _ => True) m :=
  Framed.of_scopes (hm.emit text) rfl rfl rfl fun _ _ => trivial

theorem Framed.pin (hm : Sound m) {s : Nat} (hs : m.scopes.Live s) :
    Framed (pin s) (fun m' _ => m'.scopes.pinnedAt s = true) m :=
  ⟨(hm.pin hs).1, (hm.pin hs).2, fun _ _ => Scopes.pinnedAt_pin hs⟩

theorem Framed.define (hm : Sound m) {s : Nat} {name : String} {v : Option Value}
    (hv : ∀ x, v = some x → Good m x) : Framed (define s name v) (fun _ _ => True) m :=
  ⟨(hm.define hv).1, (hm.define hv).2, fun _ _ => trivial⟩

theorem Framed.setField (hm : Sound m) (i : Nat) (name : String) {v : Value} (hv : Good m v) :
    Framed (setField i name v) (fun _ _ => True) m :=
  Framed.of_scopes (hm.setField i name hv) rfl rfl rfl fun _ _ => trivial

theorem Framed.newInstance (hm : Sound m) {c : ClassDef}
    (hc : ClassDef.Fns (ScopePinned m.scopes) c) : Framed (newInstance c) Good m :=
  Framed.of_scopes hm.newInstance rfl rfl rfl fun _ h => by cases h; exact .instanceRef _ hc

theorem Framed.field? (hm : Sound m) (i : Nat) (name : String) :
    Framed (field? i name) (fun m' o => ∀ v, o = some v → Good m' v) m :=
  ⟨hm, .refl m, fun _ h v hv => by cases h; exact hm.values.field hv⟩

theorem literal_good (l : Literal) : Good m l.toValue := by
  cases l <;> constructor

/-! ## Names -/

theorem Framed.lookup (hm : Sound m) (r : Reference) : Framed (lookup r) Good m := by
  unfold Eval.lookup
  refine (Framed.get hm).bind fun a m1 hm1 _ (ha : a = m1) => ?_
  subst ha
  split
  · exact Framed.ofExcept hm1 fun v hv => hm1.values.scopes.getAt hv
  · exact Framed.ofExcept hm1 fun v hv => hm1.values.scopes.get hv

theorem Framed.assignTo (hm : Sound m) (r : Reference) {v : Value} (hv : Good m v) :
    Framed (assignTo r v) (fun _ _ => True) m := by
  unfold Framed
  cases hr : r.hops with
  | some h =>
    rw [exec_assignTo_local m hr]
    cases hA : m.scopes.assignAt m.current h r.name v with
    | error f => exact ⟨hm, .refl m, fun _ h => by cases h⟩
    | ok A =>
      obtain ⟨hs, hf⟩ := hm.shaped (Scopes.shaped_assignAt hA) (hm.values.scopes.assignAt hv hA)
      exact ⟨hs, hf, fun _ _ => trivial⟩
  | none =>
    rw [exec_assignTo_global m hr]
    cases hA : m.scopes.assign Scopes.globals r.name v with
    | error f => exact ⟨hm, .refl m, fun _ h => by cases h⟩
    | ok A =>
      obtain ⟨hs, hf⟩ := hm.shaped (Scopes.shaped_assign hA) (hm.values.scopes.assign hv hA)
      exact ⟨hs, hf, fun _ _ => trivial⟩

/-! ## Every part of evaluation is framed -/

/-- Every part of evaluation at fuel `n`, run from a sound machine on inputs whose functions
close over pinned scopes, is framed. -/
structure Balanced (n : Nat) : Prop where
  expr : ∀ e m, Sound m → Framed (evalExpr n e) Good m
  args : ∀ es m, Sound m → Framed (evalArgs n es) AllGood m
  invoke : ∀ c paren args m, Sound m → CalleeGood m c → AllGood m args →
    Framed (Eval.invoke n c paren args) Good m
  call : ∀ f args m, Sound m → Callable.Fns (ScopePinned m.scopes) f → AllGood m args →
    Framed (callFunction n f args) Good m
  body : ∀ params body scope receiver args m, Sound m → m.scopes.pinnedAt scope = true →
    (∀ r, receiver = some r → Good m r) → AllGood m args →
    Framed (runBody n params body scope receiver args) Good m
  construct : ∀ c args m, Sound m → ClassDef.Fns (ScopePinned m.scopes) c → AllGood m args →
    Framed (Eval.construct n c args) Good m
  instanceProperty : ∀ i c name m, Sound m → ClassDef.Fns (ScopePinned m.scopes) c →
    Framed (Eval.instanceProperty n i c name) Good m
  staticProperty : ∀ s c name m, Sound m → ClassDef.Fns (ScopePinned m.scopes) c →
    Framed (Eval.staticProperty n s c name) Good m
  superMember : ∀ keyword member m, Sound m → Framed (Eval.superMember n keyword member) Good m
  stmt : ∀ s m, Sound m → Framed (execStmt n s) FlowGood m
  loop : ∀ c body m, Sound m → Framed (execWhile n c body) FlowGood m
  block : ∀ body scope m, Sound m → m.scopes.Live scope → Framed (execBlock n body scope) FlowGood m
  stmts : ∀ ss m, Sound m → Framed (execStmts n ss) FlowGood m

variable {n : Nat}

theorem Balanced.expr_succ (ih : Balanced n) (e : Expr) (m : Machine) (hm : Sound m) :
    Framed (evalExpr (n + 1) e) Good m := by
  cases e with
  | assign r v =>
    simp only [evalExpr]
    refine (ih.expr v m hm).bind fun a m1 hm1 _ ha => ?_
    refine (Framed.assignTo hm1 r ha).bind fun _ m2 hm2 hf2 _ => ?_
    exact Framed.pure hm2 (ha.frame hf2)
  | binary l op t r =>
    simp only [evalExpr]
    refine (ih.expr l m hm).bind fun a m1 hm1 _ _ => ?_
    refine (ih.expr r m1 hm1).bind fun b m2 hm2 _ _ => ?_
    exact Framed.ofExcept hm2 fun v hv => BinaryOp.apply_fns hv
  | call callee paren args =>
    simp only [evalExpr]
    refine (ih.expr callee m hm).bind fun f m1 hm1 _ hf => ?_
    refine (ih.args args m1 hm1).bind fun vs m2 hm2 hf2 hvs => ?_
    cases hf.frame hf2 with
    | function s hc => exact ih.invoke _ paren vs m2 hm2 hc hvs
    | classRef s hc => exact ih.invoke _ paren vs m2 hm2 hc hvs
    | _ => exact Framed.fail hm2 _
  | get obj name =>
    simp only [evalExpr]
    refine (ih.expr obj m hm).bind fun o m1 hm1 _ ho => ?_
    cases ho with
    | instanceRef i hc => exact ih.instanceProperty i _ name m1 hm1 hc
    | classRef s hc => exact ih.staticProperty s _ name m1 hm1 hc
    | _ => exact Framed.fail hm1 _
  | lambda keyword params body =>
    simp only [evalExpr]
    refine (Framed.currentScope hm).bind fun s m1 hm1 _ (hs : s = m1.current) => ?_
    subst hs
    refine (Framed.pin hm1 hm1.current_live).bind fun _ m2 hm2 _ hp => ?_
    refine (Framed.stamp hm2).bind fun k m3 hm3 hf3 _ => ?_
    exact Framed.pure hm3 (.function k (.closure (hf3.pinned _ hp) fun _ h => by cases h))
  | grouping e =>
    simp only [evalExpr]
    exact ih.expr e m hm
  | literal l =>
    simp only [evalExpr]
    exact Framed.pure hm (literal_good l)
  | logical l op t r =>
    simp only [evalExpr]
    refine (ih.expr l m hm).bind fun a m1 hm1 _ ha => ?_
    cases op <;> dsimp only <;> split
    all_goals first
      | exact ih.expr r m1 hm1
      | exact Framed.pure hm1 ha
  | set obj name v =>
    simp only [evalExpr]
    refine (ih.expr obj m hm).bind fun o m1 hm1 _ _ => ?_
    split
    · refine (ih.expr v m1 hm1).bind fun a m2 hm2 _ ha => ?_
      refine (Framed.setField hm2 _ name.lexeme ha).bind fun _ m3 hm3 hf3 _ => ?_
      exact Framed.pure hm3 (ha.frame hf3)
    · exact Framed.fail hm1 _
  | superMember keyword member =>
    simp only [evalExpr]
    exact ih.superMember keyword member m hm
  | conditional c q a b =>
    simp only [evalExpr]
    refine (ih.expr c m hm).bind fun v m1 hm1 _ _ => ?_
    split
    · exact ih.expr a m1 hm1
    · exact ih.expr b m1 hm1
    · exact Framed.fail hm1 _
  | this r =>
    simp only [evalExpr]
    exact Framed.lookup hm r
  | unary op t e =>
    simp only [evalExpr]
    refine (ih.expr e m hm).bind fun v m1 hm1 _ _ => ?_
    split
    · exact Framed.pure hm1 (.number _)
    · exact Framed.fail hm1 _
    · exact Framed.pure hm1 (.bool _)
  | «variable» r =>
    simp only [evalExpr]
    exact Framed.lookup hm r

theorem Balanced.args_succ (ih : Balanced n) (es : List Expr) (m : Machine) (hm : Sound m) :
    Framed (evalArgs (n + 1) es) AllGood m := by
  cases es with
  | nil =>
    simp only [evalArgs]
    exact Framed.pure hm fun v hv => by cases hv
  | cons e es =>
    simp only [evalArgs]
    refine (ih.expr e m hm).bind fun v m1 hm1 _ hv => ?_
    refine (ih.args es m1 hm1).bind fun vs m2 hm2 hf2 hvs => ?_
    refine Framed.pure hm2 fun w hw => ?_
    rcases List.mem_cons.1 hw with rfl | hw
    · exact hv.frame hf2
    · exact hvs w hw

/-- The body of a call: the function's, or the construction of an instance. -/
def runCallee [A : Allocator] (n : Nat) (args : List Value) : Callee → Eval Value
  | .function f => callFunction n f args
  | .classOf c => Eval.construct n c args

/-- A call checks the number of arguments and the depth, then runs its body one level deeper. -/
theorem exec_invoke [A : Allocator] (n : Nat) (c : Callee) (paren : Token) (args : List Value)
    (m : Machine) :
    exec (Eval.invoke (n + 1) c paren args) m =
      if args.length ≠ c.arity then (.error (.fault (.wrongArity paren c.arity args.length)), m)
      else if m.depth ≥ RuntimeFault.maxDepth then (.error (.fault (.stackOverflow paren)), m)
      else ((exec (runCallee n args c) { m with depth := m.depth + 1 }).1,
        { (exec (runCallee n args c) { m with depth := m.depth + 1 }).2 with
          depth := (exec (runCallee n args c) { m with depth := m.depth + 1 }).2.depth - 1 }) := by
  by_cases h1 : args.length = c.arity <;> by_cases h2 : m.depth ≥ RuntimeFault.maxDepth <;>
    cases c <;> simp [Eval.invoke, runCallee, h1, h2]

theorem Sound.withDepth (hm : Sound m) {d : Nat} (hd : d ≤ RuntimeFault.maxDepth) :
    Sound { m with depth := d } :=
  ⟨hm.wf, hm.current_live, hd, ⟨hm.values.scopes, hm.values.fields⟩⟩

/-- A run framed one call deeper is framed once the call has counted itself out. -/
theorem Frame.undeepen (h : Frame { m with depth := m.depth + 1 } m') :
    Frame m { m' with depth := m'.depth - 1 } :=
  ⟨h.current_eq, by simp [h.depth_eq], h.live, h.parentOf_eq, h.pinned, h.fresh_pinned⟩

theorem Balanced.callee (ih : Balanced n) (c : Callee) (args : List Value) (m : Machine)
    (hm : Sound m) (hc : CalleeGood m c) (hargs : AllGood m args) :
    Framed (runCallee n args c) Good m := by
  cases c with
  | function f => exact ih.call f args m hm hc hargs
  | classOf c => exact ih.construct c args m hm hc hargs

theorem Balanced.invoke_succ (ih : Balanced n) (c : Callee) (paren : Token) (args : List Value)
    (m : Machine) (hm : Sound m) (hc : CalleeGood m c) (hargs : AllGood m args) :
    Framed (Eval.invoke (n + 1) c paren args) Good m := by
  unfold Framed
  rw [exec_invoke]
  split
  · exact ⟨hm, .refl m, fun _ h => by cases h⟩
  split
  · exact ⟨hm, .refl m, fun _ h => by cases h⟩
  rename_i hd
  obtain ⟨hs, hf, hok⟩ := ih.callee c args { m with depth := m.depth + 1 }
    (hm.withDepth (by omega)) hc hargs
  exact ⟨hs.withDepth (by have := hs.depth_le; omega), hf.undeepen, fun v hv =>
    (hok v hv).mono fun _ h => h⟩

/-- The machine with one argument bound in the parameter scope `c`. -/
def defineArg (c : Nat) (m : Machine) (x : Token × Value) : Machine :=
  { m with scopes := m.scopes.define c x.1.lexeme (some x.2) }

/-- What a call gives back for how its body ended. -/
def returnOf : Except Interrupt Flow → Except Interrupt Value
  | .ok (.returned v) => .ok v
  | .ok _ => .ok .nil
  | .error e => .error e

end Machine

namespace Allocator

open Eval Machine

variable [A : Allocator]

/-- A call of an unbound function: a scope of parameters under the function's scope, where the
allocator puts it, the body run in it, the scope let go. -/
theorem exec_runBody_none (n : Nat) (params : List Token) (body : List Stmt) (scope : Nat)
    (args : List Value) (m : Machine) :
    exec (runBody (n + 1) params body scope none args) m =
      let c := (Allocator.child m.scopes scope).2
      let B := exec (execBlock n body c)
        ((params.zip args).foldl (defineArg c)
          { m with scopes := (Allocator.child m.scopes scope).1 })
      (returnOf B.1, { B.2 with scopes := Allocator.release B.2.scopes c }) := by
  simp only [runBody, exec_bind, Allocator.exec_childOf, exec_pure, exec_attempt,
    Allocator.exec_release, Option.getD_none]
  rw [exec_forIn _ (defineArg (Allocator.child m.scopes scope).2) (by rintro ⟨p, v⟩ m; rfl)]
  dsimp only
  generalize exec (execBlock n body _) _ = B
  obtain ⟨r, m3⟩ := B
  rcases r with e | (_ | _ | v) <;> rfl

/-- A call of a bound function: a scope of `this` under the function's scope, a scope of
parameters under it, the body run there, both scopes let go. -/
theorem exec_runBody_some (n : Nat) (params : List Token) (body : List Stmt) (scope : Nat)
    (this : Value) (args : List Value) (m : Machine) :
    exec (runBody (n + 1) params body scope (some this) args) m =
      let rs := (Allocator.child m.scopes scope).2
      let m1 : Machine :=
        { m with scopes := (Allocator.child m.scopes scope).1.define rs "this" (some this) }
      let c := (Allocator.child m1.scopes rs).2
      let B := exec (execBlock n body c)
        ((params.zip args).foldl (defineArg c) { m1 with scopes := (Allocator.child m1.scopes rs).1 })
      (returnOf B.1,
        { B.2 with scopes := Allocator.release (Allocator.release B.2.scopes c) rs }) := by
  simp only [runBody, exec_bind, Allocator.exec_childOf, exec_define, exec_pure, exec_attempt,
    Allocator.exec_release, Option.getD_some]
  rw [exec_forIn _ (defineArg _) (by rintro ⟨p, v⟩ m; rfl)]
  dsimp only
  generalize exec (execBlock n body _) _ = B
  obtain ⟨r, m3⟩ := B
  rcases r with e | (_ | _ | v) <;> rfl

end Allocator

namespace Machine

open Eval

variable {m m' m'' : Machine} {α β : Type} {ok : Machine → α → Prop} {n : Nat}

/-- A call of an unbound function in the interpreter. -/
theorem exec_runBody_none (n : Nat) (params : List Token) (body : List Stmt) (scope : Nat)
    (args : List Value) (m : Machine) :
    exec (runBody (n + 1) params body scope none args) m =
      let c := (m.scopes.child scope).2
      let B := exec (execBlock n body c)
        ((params.zip args).foldl (defineArg c) { m with scopes := (m.scopes.child scope).1 })
      (returnOf B.1, { B.2 with scopes := B.2.scopes.release c }) :=
  Allocator.exec_runBody_none n params body scope args m

/-- The machine with `this` bound in a new scope under `scope`. -/
def openReceiver (scope : Nat) (this : Value) (m : Machine) : Machine :=
  { m with scopes := (m.scopes.child scope).1.define (m.scopes.child scope).2 "this" (some this) }

/-- A call of a bound function in the interpreter. -/
theorem exec_runBody_some (n : Nat) (params : List Token) (body : List Stmt) (scope : Nat)
    (this : Value) (args : List Value) (m : Machine) :
    exec (runBody (n + 1) params body scope (some this) args) m =
      let rs := (m.scopes.child scope).2
      let m1 := openReceiver scope this m
      let c := (m1.scopes.child rs).2
      let B := exec (execBlock n body c)
        ((params.zip args).foldl (defineArg c) { m1 with scopes := (m1.scopes.child rs).1 })
      (returnOf B.1, { B.2 with scopes := (B.2.scopes.release c).release rs }) :=
  Allocator.exec_runBody_some n params body scope this args m

theorem Good.opens {v : Value} {c : Nat} (ho : Opens m c m') (hv : Good m v) : Good m' v :=
  hv.mono fun s h => (ho.pinnedAt_eq s).trans h

theorem Opens.defineArgs {c : Nat} (l : List (Token × Value)) :
    ∀ {m' : Machine}, Opens m c m' → Sound m' → (∀ x ∈ l, Good m' x.2) →
      Sound (l.foldl (defineArg c) m') ∧ Opens m c (l.foldl (defineArg c) m') := by
  induction l with
  | nil => exact fun ho hs _ => ⟨hs, ho⟩
  | cons x l ih =>
    intro m' ho hs hl
    have hx : Sound (defineArg c m' x) ∧ Frame m' (defineArg c m' x) :=
      hs.define fun y hy => by cases hy; exact hl x List.mem_cons_self
    exact ih (ho.define c x.1.lexeme (some x.2)) hx.1 fun y hy =>
      (hl y (List.mem_cons_of_mem _ hy)).frame hx.2

theorem AllGood.zip {vs : List Value} (h : AllGood m vs) (params : List Token) :
    ∀ x ∈ params.zip vs, Good m x.2 :=
  fun x hx => h x.2 (List.of_mem_zip hx).2

theorem returnOf_good {r : Except Interrupt Flow} (h : ∀ fl, r = .ok fl → FlowGood m fl) :
    ∀ v, returnOf r = .ok v → Good m v := by
  intro v hv
  rcases r with e | (_ | _ | w)
  · cases hv
  · cases hv; constructor
  · cases hv; constructor
  · cases hv; exact h _ rfl

theorem Balanced.body_succ (ih : Balanced n) (params : List Token) (body : List Stmt)
    (scope : Nat) (receiver : Option Value) (args : List Value) (m : Machine) (hm : Sound m)
    (hs : m.scopes.pinnedAt scope = true) (hr : ∀ r, receiver = some r → Good m r)
    (hargs : AllGood m args) : Framed (runBody (n + 1) params body scope receiver args) Good m := by
  unfold Framed
  have hlive := hm.wf.live_of_pinned hs
  cases receiver with
  | none =>
    rw [exec_runBody_none]
    dsimp only
    obtain ⟨hm1, ho1⟩ := hm.child hlive
    obtain ⟨hm2, ho2⟩ := ho1.defineArgs _ hm1 fun x hx => (hargs.zip params x hx).opens ho1
    obtain ⟨hm3, hf3, hok3⟩ := ih.block body _ _ hm2 ((ho2.live_iff _).2 (.inr rfl))
    obtain ⟨hm4, hf4⟩ := ho2.release hm hf3 hm3
    exact ⟨hm4, hf4, fun v hv => (returnOf_good hok3 v hv).release⟩
  | some this =>
    rw [exec_runBody_some]
    dsimp only
    -- the receiver's scope `rs` holds `this`; the call's scope opens below it
    obtain ⟨hm1, ho1⟩ := hm.child hlive
    have hr1 : Sound (openReceiver scope this m) ∧
        Frame { m with scopes := (m.scopes.child scope).1 } (openReceiver scope this m) :=
      hm1.define fun y hy => by cases hy; exact (hr this rfl).opens ho1
    have ho1' : Opens m (m.scopes.child scope).2 (openReceiver scope this m) := ho1.define _ _ _
    obtain ⟨hm2, ho2⟩ := hr1.1.child ((ho1'.live_iff _).2 (.inr rfl))
    obtain ⟨hm3, ho3⟩ := ho2.defineArgs _ hm2 fun x hx =>
      ((hargs.zip params x hx).opens ho1').opens ho2
    obtain ⟨hm4, hf4, hok4⟩ := ih.block body _ _ hm3 ((ho3.live_iff _).2 (.inr rfl))
    obtain ⟨hm5, hf5⟩ := ho3.release hr1.1 hf4 hm4
    obtain ⟨hm6, hf6⟩ := ho1'.release hm hf5 hm5
    exact ⟨hm6, hf6, fun v hv => (returnOf_good hok4 v hv).release.release⟩

theorem Balanced.call_succ (ih : Balanced n) (f : Callable) (args : List Value) (m : Machine)
    (hm : Sound m) (hf : Callable.Fns (ScopePinned m.scopes) f) (hargs : AllGood m args) :
    Framed (callFunction (n + 1) f args) Good m := by
  cases hf with
  | native name arity =>
    simp only [callFunction]
    refine (Framed.get hm).bind fun a m1 hm1 _ _ => ?_
    exact Framed.pure hm1 (.number _)
  | closure hp hr =>
    rename_i name params body scope receiver isInit
    cases receiver with
    | some this =>
      simp only [callFunction]
      split
      · refine (ih.body params body scope _ args m hm hp hr hargs).bind fun _ m1 hm1 hf1 _ => ?_
        exact Framed.pure hm1 (Good.frame hf1 (hr this rfl))
      · exact ih.body params body scope _ args m hm hp hr hargs
    | none =>
      simp only [callFunction]
      split
      · exact Framed.fail hm _
      · exact ih.body params body scope _ args m hm hp hr hargs

/-- A member found in a class whose functions close over pinned scopes, bound to a receiver
whose functions do too, closes over a pinned scope. -/
theorem member_bind_fns {A : Scopes} {c : ClassDef} {kind : MemberKind} {name : String}
    {f : Callable} {r : Value} (hc : ClassDef.Fns (ScopePinned A) c) (hf : c.find kind name = some f)
    (hr : Value.Fns (ScopePinned A) r) : Callable.Fns (ScopePinned A) (f.bind r) :=
  (hc.find hf).bind scopePinned_bind hr

theorem Frame.classFns {c : ClassDef} (h : Frame m m') (hc : ClassDef.Fns (ScopePinned m.scopes) c) :
    ClassDef.Fns (ScopePinned m'.scopes) c :=
  hc.mono fun _ => scopePinned_mono h.pinned

theorem Balanced.construct_succ (ih : Balanced n) (c : ClassDef) (args : List Value)
    (m : Machine) (hm : Sound m) (hc : ClassDef.Fns (ScopePinned m.scopes) c)
    (hargs : AllGood m args) : Framed (Eval.construct (n + 1) c args) Good m := by
  simp only [Eval.construct]
  refine (Framed.newInstance hm hc).bind fun inst m1 hm1 hf1 hinst => ?_
  split
  · rename_i init hinit
    refine (ih.call _ args m1 hm1 (member_bind_fns (hf1.classFns hc) hinit hinst)
      fun v hv => (hargs v hv).frame hf1).bind fun _ m2 hm2 hf2 _ => ?_
    exact Framed.pure hm2 (hinst.frame hf2)
  · exact Framed.pure hm1 hinst

/-- A method bound to a receiver, as a fresh function value. -/
theorem Framed.boundMethod (hm : Sound m) {c : ClassDef} {kind : MemberKind} {name : String}
    {f : Callable} {r : Value} (hc : ClassDef.Fns (ScopePinned m.scopes) c)
    (hf : c.find kind name = some f) (hr : Good m r) :
    Framed (do return Value.function (← Eval.stamp) (f.bind r)) Good m :=
  (Framed.stamp hm).bind fun k _ hm1 hf1 _ =>
    Framed.pure hm1 ((show Good m (.function k (f.bind r)) from
      .function k (member_bind_fns hc hf hr)).frame hf1)

theorem Balanced.instanceProperty_succ (ih : Balanced n) (i : Nat) (c : ClassDef) (name : Token)
    (m : Machine) (hm : Sound m) (hc : ClassDef.Fns (ScopePinned m.scopes) c) :
    Framed (Eval.instanceProperty (n + 1) i c name) Good m := by
  simp only [Eval.instanceProperty]
  refine (Framed.field? hm i name.lexeme).bind fun o m1 hm1 hf1 ho => ?_
  have hc1 := hf1.classFns hc
  have hthis : Good m1 (.instanceRef i c) := .instanceRef i hc1
  split
  · exact Framed.pure hm1 (ho _ rfl)
  · split
    · rename_i g hg
      exact ih.invoke _ name [] m1 hm1 (member_bind_fns hc1 hg hthis) fun _ h => by cases h
    · split
      · rename_i f hf
        exact Framed.boundMethod hm1 hc1 hf hthis
      · exact Framed.fail hm1 _

theorem Balanced.staticProperty_succ (ih : Balanced n) (s : Nat) (c : ClassDef) (name : Token)
    (m : Machine) (hm : Sound m) (hc : ClassDef.Fns (ScopePinned m.scopes) c) :
    Framed (Eval.staticProperty (n + 1) s c name) Good m := by
  simp only [Eval.staticProperty]
  have hthis : Good m (.classRef s c) := .classRef s hc
  split
  · rename_i g hg
    exact ih.invoke _ name [] m hm (member_bind_fns hc hg hthis) fun _ h => by cases h
  · split
    · rename_i f hf
      exact Framed.boundMethod hm hc hf hthis
    · exact Framed.fail hm _

theorem Balanced.superMember_succ (ih : Balanced n) (keyword : Reference) (member : Token)
    (m : Machine) (hm : Sound m) : Framed (Eval.superMember (n + 1) keyword member) Good m := by
  simp only [Eval.superMember]
  split
  · exact Framed.fail hm _
  · refine (Framed.get hm).bind fun a m1 hm1 _ (ha : a = m1) => ?_
    subst ha
    refine (Framed.ofExcept hm1 fun v hv => hm1.values.scopes.getAt hv).bind
      fun v m2 hm2 hf2 hv => ?_
    split
    · rename_i k sup
      have hsup : ClassDef.Fns (ScopePinned m2.scopes) sup := by
        cases hv with
        | classRef _ h => exact h
      split
      · exact Framed.fail hm2 _
      · refine (Framed.get hm2).bind fun a m3 hm3 hf3 (ha : a = m3) => ?_
        subst ha
        refine (Framed.ofExcept hm3 fun v hv => hm3.values.scopes.getAt hv).bind
          fun r m4 hm4 hf4 hr => ?_
        have hsup4 := (hf3.trans hf4).classFns hsup
        split
        · rename_i g hg
          exact ih.invoke _ member [] m4 hm4 (member_bind_fns hsup4 hg hr) fun _ h => by cases h
        · split
          · rename_i f hf
            exact Framed.boundMethod hm4 hsup4 hf hr
          · exact Framed.fail hm4 _
    · exact Framed.fail hm2 _

theorem Framed.fail_bind (hm : Sound m) (f : RuntimeFault) (k : α → Eval β)
    {ok : Machine → β → Prop} : Framed (Eval.fail f >>= k) ok m :=
  ⟨hm, .refl m, fun _ h => by simp at h⟩

theorem FlowGood.release {fl : Flow} {c : Nat} (h : FlowGood m fl) :
    FlowGood { m with scopes := m.scopes.release c } fl := by
  cases fl with
  | returned v => exact Good.release h
  | _ => trivial

/-- A run in a child scope of a scope in use, released afterwards however the run ends. -/
theorem Framed.scoped {p : Nat} {k : Nat → Eval Flow} (hm : Sound m) (hp : m.scopes.Live p)
    (hk : Framed (k (m.scopes.child p).2) FlowGood { m with scopes := (m.scopes.child p).1 }) :
    Framed (do
      let c ← childOf p
      let r ← attempt (k c)
      release c
      resume r) FlowGood m := by
  unfold Framed
  simp only [exec_bind, exec_childOf, exec_attempt, exec_release, exec_resume]
  obtain ⟨hm1, ho1⟩ := hm.child hp
  obtain ⟨hm2, hf2, hok2⟩ := hk
  obtain ⟨hm3, hf3⟩ := ho1.release hm hf2 hm2
  exact ⟨hm3, hf3, fun fl h => (hok2 fl h).release⟩

/-- A scope opened and pinned at once frames the machine it was opened from. -/
theorem Opens.frame_of_pinned {c : Nat} (ho : Opens m c m') (hf : Frame m' m'')
    (hc : m''.scopes.pinnedAt c = true) : Frame m m'' where
  current_eq := hf.current_eq.trans ho.current_eq
  depth_eq := hf.depth_eq.trans ho.depth_eq
  live s hs := hf.live s ((ho.live_iff s).2 (.inl hs))
  parentOf_eq s hs := (hf.parentOf_eq s ((ho.live_iff s).2 (.inl hs))).trans (ho.parentOf_eq s hs)
  pinned s hs := hf.pinned s ((ho.pinnedAt_eq s).trans hs)
  fresh_pinned s hs hn := by
    by_cases hs' : m'.scopes.Live s
    · rcases (ho.live_iff s).1 hs' with h | rfl
      · exact absurd h hn
      · exact hc
    · exact hf.fresh_pinned s hs hs'

/-- The scope of `super` in a class declaration: opened below the declaring scope, holding
the superclass, and pinned. -/
theorem Framed.superScope {p : Nat} {v : Value} {k : Nat → Eval Flow} (hm : Sound m)
    (hp : m.scopes.Live p) (hv : Good m v)
    (hk : ∀ m', Sound m' → Frame m m' → m'.scopes.pinnedAt (m.scopes.child p).2 = true →
      Framed (k (m.scopes.child p).2) FlowGood m') :
    Framed (do
      let sc ← childOf p
      Eval.define sc "super" (some v)
      let scope ← Pure.pure sc
      Eval.pin scope
      k scope) FlowGood m := by
  unfold Framed
  simp only [exec_bind, exec_childOf, exec_define, exec_pure, exec_pin]
  obtain ⟨hm1, ho1⟩ := hm.child hp
  have hd : Sound { m with scopes := (m.scopes.child p).1.define (m.scopes.child p).2 "super" (some v) } ∧
      Frame { m with scopes := (m.scopes.child p).1 }
        { m with scopes := (m.scopes.child p).1.define (m.scopes.child p).2 "super" (some v) } :=
    hm1.define fun x hx => by cases hx; exact hv.opens ho1
  have hc := hd.2.live _ ((ho1.live_iff _).2 (.inr rfl))
  obtain ⟨hm3, hf3⟩ := hd.1.pin hc
  have hfr := ho1.frame_of_pinned (hd.2.trans hf3) (Scopes.pinnedAt_pin hc)
  obtain ⟨hm4, hf4, hok4⟩ := hk _ hm3 hfr (Scopes.pinnedAt_pin hc)
  exact ⟨hm4, hfr.trans hf4, hok4⟩

/-- A class declared with members closed over a pinned scope, and a superclass whose functions
close over pinned scopes, closes over pinned scopes. -/
theorem classDef_fns {A : Scopes} {name : String} {sup : Option ClassDef} {scope : Nat}
    {ms gs ss sgs : List FunDecl} (hsup : ∀ c, sup = some c → ClassDef.Fns (ScopePinned A) c)
    (hscope : A.pinnedAt scope = true) :
    ClassDef.Fns (ScopePinned A) (.mk name sup (memberTable scope true ms)
      (memberTable scope false gs) (memberTable scope false ss) (memberTable scope false sgs)) := by
  refine .mk hsup fun kind => ?_
  cases kind <;> exact memberTable_fns fun _ _ => hscope

/-- The last step of a class declaration: the class, closed over `scope`, becomes the value of
its name. -/
theorem Framed.declareClass (hm : Sound m) {here scope : Nat} {name : String}
    {sup : Option ClassDef} {ms gs ss sgs : List FunDecl}
    (hsup : ∀ c, sup = some c → ClassDef.Fns (ScopePinned m.scopes) c)
    (hscope : m.scopes.pinnedAt scope = true) :
    Framed (do
      let s ← Eval.stamp
      Eval.define here name (some (.classRef s (.mk name sup (memberTable scope true ms)
        (memberTable scope false gs) (memberTable scope false ss) (memberTable scope false sgs))))
      Pure.pure Flow.normal) FlowGood m := by
  refine (Framed.stamp hm).bind fun k m1 hm1 hf1 _ => ?_
  have hc : ClassDef.Fns (ScopePinned m1.scopes) (.mk name sup (memberTable scope true ms)
      (memberTable scope false gs) (memberTable scope false ss) (memberTable scope false sgs)) :=
    classDef_fns (fun c hc => hf1.classFns (hsup c hc)) (hf1.pinned _ hscope)
  refine (Framed.define hm1 fun x hx => by cases hx; exact .classRef k hc).bind
    fun _ m2 hm2 _ _ => ?_
  exact Framed.pure hm2 trivial

/-- A block runs its statements with its scope as the current one, and restores the current
scope however they end. -/
theorem exec_execBlock [A : Allocator] (n : Nat) (body : List Stmt) (scope : Nat) (m : Machine) :
    exec (execBlock (n + 1) body scope) m =
      ((exec (execStmts n body) { m with current := scope }).1,
        { (exec (execStmts n body) { m with current := scope }).2 with current := m.current }) := by
  simp only [execBlock, exec_bind, exec_currentScope, exec_setCurrent, exec_attempt, exec_resume]

theorem Sound.setCurrent (hm : Sound m) {c : Nat} (hc : m.scopes.Live c) :
    Sound { m with current := c } :=
  ⟨hm.wf, hc, hm.depth_le, ⟨hm.values.scopes, hm.values.fields⟩⟩

/-- A run framed from another current scope is framed once the current scope is restored. -/
theorem Frame.restore {c : Nat} (h : Frame { m with current := c } m') :
    Frame m { m' with current := m.current } :=
  ⟨rfl, h.depth_eq, h.live, h.parentOf_eq, h.pinned, h.fresh_pinned⟩

theorem Balanced.block_succ (ih : Balanced n) (body : List Stmt) (scope : Nat) (m : Machine)
    (hm : Sound m) (hs : m.scopes.Live scope) : Framed (execBlock (n + 1) body scope) FlowGood m := by
  unfold Framed
  rw [exec_execBlock]
  obtain ⟨hm1, hf1, hok1⟩ := ih.stmts body _ (hm.setCurrent hs)
  have hf := hf1.restore
  exact ⟨hm1.setCurrent (hf.live _ hm.current_live), hf, fun fl h => hok1 fl h⟩

theorem Balanced.stmts_succ (ih : Balanced n) (ss : List Stmt) (m : Machine) (hm : Sound m) :
    Framed (execStmts (n + 1) ss) FlowGood m := by
  cases ss with
  | nil =>
    simp only [execStmts]
    exact Framed.pure hm trivial
  | cons s ss =>
    simp only [execStmts]
    refine (ih.stmt s m hm).bind fun fl m1 hm1 _ hfl => ?_
    split
    · exact ih.stmts ss m1 hm1
    · exact Framed.pure hm1 hfl

theorem Balanced.loop_succ (ih : Balanced n) (c : Expr) (body : Stmt) (m : Machine)
    (hm : Sound m) : Framed (execWhile (n + 1) c body) FlowGood m := by
  simp only [execWhile]
  refine (ih.expr c m hm).bind fun v m1 hm1 _ _ => ?_
  split
  · refine (ih.stmt body m1 hm1).bind fun fl m2 hm2 _ hfl => ?_
    split
    · exact ih.loop c body m2 hm2
    · exact Framed.pure hm2 trivial
    · exact Framed.pure hm2 hfl
  · exact Framed.pure hm1 trivial

theorem Balanced.stmt_succ (ih : Balanced n) (s : Stmt) (m : Machine) (hm : Sound m) :
    Framed (execStmt (n + 1) s) FlowGood m := by
  cases s with
  | block body =>
    simp only [execStmt]
    refine (Framed.currentScope hm).bind fun p m1 hm1 _ (hp : p = m1.current) => ?_
    subst hp
    obtain ⟨hm2, ho2⟩ := hm1.child hm1.current_live
    exact Framed.scoped hm1 hm1.current_live
      (ih.block body _ _ hm2 ((ho2.live_iff _).2 (.inr rfl)))
  | breakLoop keyword =>
    simp only [execStmt]
    exact Framed.pure hm trivial
  | classDecl name sup methods getters statics staticGetters =>
    unfold execStmt
    extract_lets tail
    -- the declaration once its superclass, if it names one, is found
    have htail : ∀ o m', Sound m' → (∀ x, o = some x → ClassDef.Fns (ScopePinned m'.scopes) x.2) →
        Framed (tail o) FlowGood m' := by
      intro o m1 hm1 ho
      simp only [tail]
      refine (Framed.currentScope hm1).bind fun here m2 hm2 hf2 (hh : here = m2.current) => ?_
      subst hh
      refine (Framed.define hm2 fun x hx => by cases hx; constructor).bind
        fun _ m3 hm3 hf3 _ => ?_
      have hlive : m3.scopes.Live m2.current := hf3.live _ hm2.current_live
      have hf13 := hf2.trans hf3
      split
      · rename_i sc c
        refine Framed.superScope hm3 hlive (.classRef sc (hf13.classFns (ho _ rfl)))
          fun m4 hm4 hf4 hpin => ?_
        exact Framed.declareClass hm4 (fun x hx => by
          cases hx
          exact (hf13.trans hf4).classFns (ho _ rfl)) hpin
      · simp only [pure_bind]
        refine (Framed.pin hm3 hlive).bind fun _ m4 hm4 _ hpin => ?_
        exact Framed.declareClass hm4 (fun x hx => by cases hx) hpin
    clear_value tail
    split
    · rename_i r
      refine (Framed.lookup hm r).bind fun v m1 hm1 _ hv => ?_
      split
      · simp only [pure_bind]
        exact htail _ m1 hm1 fun x hx => by
          cases hx
          cases hv with
          | classRef _ hc => exact hc
      · exact Framed.fail_bind hm1 _ _
    · simp only [pure_bind]
      exact htail none m hm fun x hx => by cases hx
  | expression e =>
    simp only [execStmt]
    refine (ih.expr e m hm).bind fun _ m1 hm1 _ _ => ?_
    exact Framed.pure hm1 trivial
  | function d =>
    cases d with
    | mk name params body =>
    simp only [execStmt]
    refine (Framed.currentScope hm).bind fun p m1 hm1 _ (hp : p = m1.current) => ?_
    subst hp
    refine (Framed.pin hm1 hm1.current_live).bind fun _ m2 hm2 _ hpin => ?_
    refine (Framed.stamp hm2).bind fun k m3 hm3 hf3 _ => ?_
    refine (Framed.define hm3 fun x hx => by
      cases hx
      exact .function k (.closure (hf3.pinned _ hpin) fun _ h => by cases h)).bind
      fun _ m4 hm4 _ _ => ?_
    exact Framed.pure hm4 trivial
  | ifElse c t e =>
    cases e with
    | some e =>
      simp only [execStmt]
      refine (ih.expr c m hm).bind fun _ m1 hm1 _ _ => ?_
      split
      · exact ih.stmt t m1 hm1
      · exact ih.stmt e m1 hm1
    | none =>
      simp only [execStmt]
      refine (ih.expr c m hm).bind fun _ m1 hm1 _ _ => ?_
      split
      · exact ih.stmt t m1 hm1
      · exact Framed.pure hm1 trivial
  | print e =>
    simp only [execStmt]
    refine (ih.expr e m hm).bind fun v m1 hm1 _ _ => ?_
    refine (Framed.emit hm1 _).bind fun _ m2 hm2 _ _ => ?_
    exact Framed.pure hm2 trivial
  | returnFrom keyword v =>
    cases v with
    | some e =>
      simp only [execStmt]
      refine (ih.expr e m hm).bind fun v m1 hm1 _ hv => ?_
      exact Framed.pure hm1 hv
    | none =>
      simp only [execStmt]
      exact Framed.pure hm .nil
  | varDecl name init =>
    cases init with
    | some e =>
      simp only [execStmt, map_eq_pure_bind, bind_assoc, pure_bind]
      refine (ih.expr e m hm).bind fun v m1 hm1 _ hv => ?_
      refine (Framed.currentScope hm1).bind fun p m2 hm2 hf2 (hp : p = m2.current) => ?_
      subst hp
      refine (Framed.define hm2 fun x hx => by cases hx; exact hv.frame hf2).bind
        fun _ m3 hm3 _ _ => ?_
      exact Framed.pure hm3 trivial
    | none =>
      simp only [execStmt, pure_bind]
      refine (Framed.currentScope hm).bind fun p m1 hm1 _ (hp : p = m1.current) => ?_
      subst hp
      refine (Framed.define hm1 fun x hx => by cases hx).bind fun _ m2 hm2 _ _ => ?_
      exact Framed.pure hm2 trivial
  | whileLoop c body =>
    simp only [execStmt]
    exact ih.loop c body m hm

/-- Out of fuel, every part of evaluation stops at once, changing nothing. -/
theorem balanced_zero : Balanced 0 where
  expr _ _ hm := by simp only [evalExpr]; exact Framed.throw hm _
  args _ _ hm := by simp only [evalArgs]; exact Framed.throw hm _
  invoke _ _ _ _ hm _ _ := by simp only [Eval.invoke]; exact Framed.throw hm _
  call _ _ _ hm _ _ := by simp only [callFunction]; exact Framed.throw hm _
  body _ _ _ _ _ _ hm _ _ _ := by simp only [runBody]; exact Framed.throw hm _
  construct _ _ _ hm _ _ := by simp only [Eval.construct]; exact Framed.throw hm _
  instanceProperty _ _ _ _ hm _ := by simp only [Eval.instanceProperty]; exact Framed.throw hm _
  staticProperty _ _ _ _ hm _ := by simp only [Eval.staticProperty]; exact Framed.throw hm _
  superMember _ _ _ hm := by simp only [Eval.superMember]; exact Framed.throw hm _
  stmt _ _ hm := by simp only [execStmt]; exact Framed.throw hm _
  loop _ _ _ hm := by simp only [execWhile]; exact Framed.throw hm _
  block _ _ _ hm _ := by simp only [execBlock]; exact Framed.throw hm _
  stmts _ _ hm := by simp only [execStmts]; exact Framed.throw hm _

/-- Every part of evaluation, at any fuel, run from a sound machine on inputs whose functions
close over pinned scopes, ends in a sound machine with the current scope and the depth of
calls it started with, every scope in use before still in use under the same parent, and every
new scope in use pinned; what it gives back closes over pinned scopes. -/
theorem balanced : ∀ n, Balanced n
  | 0 => balanced_zero
  | n + 1 =>
    have ih := balanced n
    { expr := ih.expr_succ
      args := ih.args_succ
      invoke := ih.invoke_succ
      call := ih.call_succ
      body := ih.body_succ
      construct := ih.construct_succ
      instanceProperty := ih.instanceProperty_succ
      staticProperty := ih.staticProperty_succ
      superMember := ih.superMember_succ
      stmt := ih.stmt_succ
      loop := ih.loop_succ
      block := ih.block_succ
      stmts := ih.stmts_succ }

end Machine

end Lox
