import Lox.Proofs.Boundary
import Lox.Proofs.Scoping
/-!
# Scope levels and the functions that fit them

Resolution records how many frames out each use of a name is found, and evaluation walks that
many parent links from the current scope before it looks. `Scopes.Level A s d` says that scope
`s` lies exactly `d` parent links below the globals, through scopes in use: code inside `d`
resolver frames runs with its current scope at level `d`, one scope for each frame. A walk of
`h ≤ d` links from there ends in the scope at level `d - h` (`Level.ancestorFrom`), and as the
globals have no parent, that is the only level of that scope (`Level.unique`): the walk reaches
the scope that stands for the frame `h` out, never one of a deeper or shallower frame. Looking
a name up or assigning it there fails, if it does, only as a fault of the program
(`Level.getAt_safe`, `Level.assignAt_safe`), never as one of the interpreter's own
(`RuntimeFault.Internal`). The same holds of the globals, whose lookups walk out to the end.

A function fits an arena when the scopes a call of it opens, on top of its scope's level, are
as many as resolution counted around its body: one, for the parameters, when it is unbound,
and two, for `this` and then the parameters, when it is bound. A member of a class fits once
it is bound (`Callable.Member`). `Value.Wired A v` says that every function inside `v` fits
`A`, and that an initializer is never unbound. The scope of a function is pinned, and the
scopes below pinned scopes outlast whatever evaluation does (`KeepsPinned`), so what fits keeps
fitting.
-/

namespace Lox

/-- The faults of the interpreter itself, reported as such and not as the program's. -/
def RuntimeFault.Internal (f : RuntimeFault) : Prop :=
  ∃ message advice, f.toDiagnostic = .system message advice

theorem RuntimeFault.internal_iff (f : RuntimeFault) :
    f.Internal ↔ (∃ hops, f = .scopeChainTooShort hops) ∨ (∃ id, f = .missingScope id) ∨
      f = .unresolvedSuper ∨ f = .unboundInitializer := by
  cases f <;> simp [Internal, RuntimeFault.toDiagnostic]

namespace Scopes

variable {A B : Scopes} {s p c d : Nat}

/-- Scope `s` lies `d` parent links below the globals, through scopes in use. -/
inductive Level (A : Scopes) : Nat → Nat → Prop
  | base : A.Live globals → Level A globals 0
  | step {s p d : Nat} : A.Live s → A.parentOf s = some p → Level A p d → Level A s (d + 1)

theorem Level.live (h : A.Level s d) : A.Live s := by
  cases h with
  | base hs => exact hs
  | step hs _ _ => exact hs

theorem Level.mono (hl : ∀ t, A.Live t → B.Live t)
    (hp : ∀ t, A.Live t → B.parentOf t = A.parentOf t) (h : A.Level s d) : B.Level s d := by
  induction h with
  | base hs => exact .base (hl _ hs)
  | step hs hsp _ ih => exact .step (hl _ hs) ((hp _ hs).trans hsp) ih

/-- With the globals at the root, a scope lies at one level only. -/
theorem Level.unique (hroot : A.parentOf globals = none) {d' : Nat} (h : A.Level s d)
    (h' : A.Level s d') : d = d' := by
  induction h generalizing d' with
  | base _ =>
    cases h' with
    | base _ => rfl
    | step _ hp _ => simp [hroot] at hp
  | step _ hp _ ih =>
    cases h' with
    | base _ => simp [hroot] at hp
    | step _ hp' hq' =>
      rw [hp] at hp'
      cases hp'
      rw [ih hq']

/-- A new scope under a scope at level `d` lies at level `d + 1`. -/
theorem WF.level_child (hA : A.WF) (h : A.Level p d) :
    (A.child p).1.Level (A.child p).2 (d + 1) := by
  have hnew := not_live_child (A := A) p
  refine .step (hA.live_child.2 (.inr rfl)) (by rw [hA.parentOf_child, if_pos rfl]) ?_
  refine h.mono (fun t ht => hA.live_child.2 (.inl ht)) fun t ht => ?_
  rw [hA.parentOf_child, if_neg fun (e : t = (A.child p).2) => hnew (e ▸ ht)]

/-- Every pinned scope of `A` stays pinned in `B`, in use if it was, under the same parent. -/
structure KeepsPinned (A B : Scopes) : Prop where
  pinned : ∀ t, A.pinnedAt t = true → B.pinnedAt t = true
  live : ∀ t, A.pinnedAt t = true → A.Live t → B.Live t
  parentOf_eq : ∀ t, A.pinnedAt t = true → B.parentOf t = A.parentOf t

theorem KeepsPinned.trans {C : Scopes} (h : KeepsPinned A B) (g : KeepsPinned B C) :
    KeepsPinned A C :=
  ⟨fun t ht => g.pinned t (h.pinned t ht), fun t ht hl => g.live t (h.pinned t ht) (h.live t ht hl),
    fun t ht => (g.parentOf_eq t (h.pinned t ht)).trans (h.parentOf_eq t ht)⟩

/-- The scopes below a pinned scope are pinned all the way, so its level lasts as long as pins
do. -/
theorem KeepsPinned.level (hA : A.WF) (hk : KeepsPinned A B) (hs : A.pinnedAt s = true)
    (h : A.Level s d) : B.Level s d := by
  induction h with
  | base hl => exact .base (hk.live _ hs hl)
  | step hl hp _ ih =>
    exact .step (hk.live _ hs hl) ((hk.parentOf_eq _ hs).trans hp)
      (ih (hA.parent_pinned _ _ hs hp))

theorem Shaped.keepsPinned (h : Shaped A B) : KeepsPinned A B :=
  ⟨fun t ht => (h.pinnedAt_eq t).trans ht, fun _ _ hl => h.live_iff.2 hl,
    fun t _ => h.parentOf_eq t⟩

theorem Pins.keepsPinned (h : Pins A B) : KeepsPinned A B :=
  ⟨h.pinnedAt_mono, fun _ _ hl => h.live_iff.2 hl, fun t _ => h.parentOf_eq t⟩

theorem WF.keepsPinned_child (hA : A.WF) : KeepsPinned A (A.child p).1 := by
  refine ⟨fun t ht => hA.pinnedAt_child.trans ht, fun _ _ hl => hA.live_child.2 (.inl hl),
    fun t ht => ?_⟩
  have hne : t ≠ (A.child p).2 := fun e => not_live_child (A := A) p (e ▸ hA.live_of_pinned ht)
  rw [hA.parentOf_child, if_neg hne]

theorem keepsPinned_release (hc : A.Live c) : KeepsPinned A (A.release c) := by
  refine ⟨fun t ht => pinnedAt_release.trans ht,
    fun t ht hl => (live_release hc).2 ⟨hl, fun e => e ▸ ht⟩, fun t ht => ?_⟩
  by_cases htc : t = c
  · subst htc
    rw [release_of_pinnedAt ht]
  · exact parentOf_release htc

theorem Live.getElem? (h : A.Live s) : ∃ sc, A.slots[s]? = some sc :=
  Option.isSome_iff_exists.1 (by simpa using h.1)

/-- Walking `h ≤ d` links out from a scope at level `d` reaches the scope at level `d - h`. -/
theorem Level.ancestorFrom (total : Nat) : ∀ {s d h : Nat}, A.Level s d → h ≤ d →
    ∃ t, A.ancestorFrom total h s = .ok t ∧ A.Level t (d - h)
  | s, d, 0, hc, _ => ⟨s, rfl, by simpa using hc⟩
  | s, _, h + 1, hc, hh => by
    cases hc with
    | base _ => omega
    | @step _ _ d hs hp hc =>
      obtain ⟨sc, hsc⟩ := Live.getElem? hs
      rw [parentOf_of_getElem? hsc] at hp
      obtain ⟨t, ht, hlt⟩ := Level.ancestorFrom total (h := h) hc (by omega)
      refine ⟨t, by simp [Scopes.ancestorFrom, hsc, hp, ht], ?_⟩
      rwa [Nat.add_sub_add_right]

/-- Looking a name up at most `d` links out from a scope at level `d` fails only as the
program's fault. -/
theorem Level.getAt_safe {h : Nat} (hc : A.Level s d) (hh : h ≤ d) {name : Token}
    {f : RuntimeFault} (he : A.getAt s h name = .error f) : ¬ f.Internal := by
  obtain ⟨t, ht, hlt⟩ := hc.ancestorFrom h hh
  obtain ⟨sc, hsc⟩ := Live.getElem? hlt.live
  simp only [getAt, ancestor, ht, bind, Except.bind, hsc] at he
  split at he
  · rename_i x _
    cases x with
    | none =>
      cases he
      simp [RuntimeFault.internal_iff]
    | some v => cases he
  · cases he
    simp [RuntimeFault.internal_iff]

/-- Assigning a name at most `d` links out from a scope at level `d` fails only as the
program's fault. -/
theorem Level.assignAt_safe {h : Nat} (hc : A.Level s d) (hh : h ≤ d) {name : Token} {v : Value}
    {f : RuntimeFault} (he : A.assignAt s h name v = .error f) : ¬ f.Internal := by
  obtain ⟨t, ht, hlt⟩ := hc.ancestorFrom h hh
  obtain ⟨sc, hsc⟩ := Live.getElem? hlt.live
  simp only [assignAt, ancestor, ht, bind, Except.bind, hsc] at he
  split at he
  · cases he
  · cases he
    simp [RuntimeFault.internal_iff]

/-- Looking a name up along the parents of a scope in use fails only as the program's fault. -/
theorem WF.getFrom_safe (hA : A.WF) {name : Token} {f : RuntimeFault} :
    ∀ {fuel s}, A.Live s → A.getFrom name fuel s = .error f → ¬ f.Internal
  | 0, _, _, he => by
    simp only [getFrom, Except.error.injEq] at he
    subst he
    simp [RuntimeFault.internal_iff]
  | fuel + 1, s, hs, he => by
    obtain ⟨sc, hsc⟩ := Live.getElem? hs
    simp only [getFrom, hsc] at he
    split at he
    · rename_i x _
      cases x with
      | none =>
        cases he
        simp [RuntimeFault.internal_iff]
      | some v => cases he
    · split at he
      · rename_i q hq
        exact WF.getFrom_safe hA (hA.parent_live s q hs (by rw [parentOf_of_getElem? hsc, hq])) he
      · cases he
        simp [RuntimeFault.internal_iff]

/-- Assigning a name along the parents of a scope in use fails only as the program's fault. -/
theorem WF.assignFrom_safe (hA : A.WF) {name : Token} {v : Value} {f : RuntimeFault} :
    ∀ {fuel s}, A.Live s → A.assignFrom name v fuel s = .error f → ¬ f.Internal
  | 0, _, _, he => by
    simp only [assignFrom, Except.error.injEq] at he
    subst he
    simp [RuntimeFault.internal_iff]
  | fuel + 1, s, hs, he => by
    obtain ⟨sc, hsc⟩ := Live.getElem? hs
    simp only [assignFrom, hsc] at he
    split at he
    · cases he
    · split at he
      · rename_i q hq
        exact WF.assignFrom_safe hA (hA.parent_live s q hs (by rw [parentOf_of_getElem? hsc, hq])) he
      · cases he
        simp [RuntimeFault.internal_iff]

/-- Every scope binds `super`, if at all, to a class. -/
def SuperBound (A : Scopes) : Prop :=
  A.Entries fun name v => name = "super" → ∃ k c, v = .classRef k c

end Scopes

/-- A member of a class fits once bound: it is unbound, its scope is pinned and lies at level
`d`, and its body lies within `d + 2` frames, those of `this` and of the parameters. -/
def Callable.Member (A : Scopes) : Callable → Prop
  | .native .. => True
  | .closure _ params body scope receiver _ =>
    receiver = none ∧ A.pinnedAt scope = true ∧ Params params ∧
      ∃ d, A.Level scope d ∧ ∀ s ∈ body, Stmt.Scoped .resolved (d + 2) s

mutual

/-- Every function inside a value fits the arena `A`. -/
inductive Value.Wired (A : Scopes) : Value → Prop
  | nil : Value.Wired A .nil
  | bool (b : Bool) : Value.Wired A (.bool b)
  | number (x : Float) : Value.Wired A (.number x)
  | string (s : String) : Value.Wired A (.string s)
  | function {f : Callable} (stamp : Nat) : Callable.Wired A f → Value.Wired A (.function stamp f)
  | classRef {c : ClassDef} (stamp : Nat) : ClassDef.Wired A c → Value.Wired A (.classRef stamp c)
  | instanceRef {c : ClassDef} (id : Nat) : ClassDef.Wired A c →
      Value.Wired A (.instanceRef id c)

/-- A function that a call may run as it is: unbound, no initializer, with its body one frame
inside its scope's level; or a member bound to a receiver that fits. -/
inductive Callable.Wired (A : Scopes) : Callable → Prop
  | native (name : String) (arity : Nat) : Callable.Wired A (.native name arity)
  | unbound {name params body scope d} : A.pinnedAt scope = true → Params params →
      A.Level scope d → (∀ s ∈ body, Stmt.Scoped .resolved (d + 1) s) →
      Callable.Wired A (.closure name params body scope none false)
  | bound {name params body scope this isInit} :
      Callable.Member A (.closure name params body scope none isInit) → Value.Wired A this →
      Callable.Wired A (.closure name params body scope (some this) isInit)

/-- Every member of a class and of its superclasses fits once bound. -/
inductive ClassDef.Wired (A : Scopes) : ClassDef → Prop
  | mk {name superclass methods getters statics staticGetters} :
      (∀ s, superclass = some s → ClassDef.Wired A s) →
      (∀ kind, ∀ e ∈ (ClassDef.mk name superclass methods getters statics staticGetters).table kind,
        Callable.Member A e.2) →
      ClassDef.Wired A (.mk name superclass methods getters statics staticGetters)

end

variable {A B : Scopes}

theorem Callable.Member.keep (hA : A.WF) (hk : A.KeepsPinned B) {f : Callable}
    (h : f.Member A) : f.Member B := by
  cases f with
  | native => trivial
  | closure _ _ _ _ _ _ =>
    obtain ⟨hr, hs, hp, d, hc, hb⟩ := h
    exact ⟨hr, hk.pinned _ hs, hp, d, hk.level hA hs hc, hb⟩

mutual

/-- What fits an arena fits every arena that keeps its pinned scopes. -/
theorem Value.Wired.keep (hA : A.WF) (hk : A.KeepsPinned B) {v : Value} :
    Value.Wired A v → Value.Wired B v
  | .nil => .nil
  | .bool b => .bool b
  | .number x => .number x
  | .string s => .string s
  | .function s h => .function s (Callable.Wired.keep hA hk h)
  | .classRef s h => .classRef s (ClassDef.Wired.keep hA hk h)
  | .instanceRef i h => .instanceRef i (ClassDef.Wired.keep hA hk h)

theorem Callable.Wired.keep (hA : A.WF) (hk : A.KeepsPinned B) {f : Callable} :
    Callable.Wired A f → Callable.Wired B f
  | .native name n => .native name n
  | .unbound hs hp hc hb => .unbound (hk.pinned _ hs) hp (hk.level hA hs hc) hb
  | .bound hm hr => .bound (hm.keep hA hk) (Value.Wired.keep hA hk hr)

theorem ClassDef.Wired.keep (hA : A.WF) (hk : A.KeepsPinned B) {c : ClassDef} :
    ClassDef.Wired A c → ClassDef.Wired B c
  | .mk hs hm => .mk (fun s h => ClassDef.Wired.keep hA hk (hs s h))
      fun kind e he => (hm kind e he).keep hA hk

end

/-- A member closes over a pinned scope, and holds no receiver. -/
theorem Callable.Member.fns {f : Callable} (h : f.Member A) :
    Callable.Fns (Machine.ScopePinned A) f := by
  cases f with
  | native name n => exact .native name n
  | closure _ _ _ _ receiver _ =>
    obtain ⟨rfl, hs, -⟩ := h
    exact .closure hs fun _ h => by cases h

mutual

/-- The functions inside a value that fits close over pinned scopes. -/
theorem Value.Wired.fns {v : Value} : Value.Wired A v → Value.Fns (Machine.ScopePinned A) v
  | .nil => .nil
  | .bool b => .bool b
  | .number x => .number x
  | .string s => .string s
  | .function s h => .function s (Callable.Wired.fns h)
  | .classRef s h => .classRef s (ClassDef.Wired.fns h)
  | .instanceRef i h => .instanceRef i (ClassDef.Wired.fns h)

theorem Callable.Wired.fns {f : Callable} :
    Callable.Wired A f → Callable.Fns (Machine.ScopePinned A) f
  | .native name n => .native name n
  | .unbound hs _ _ _ => .closure hs fun _ h => by cases h
  | .bound hm hr => .closure hm.2.1 fun _ h => by cases h; exact Value.Wired.fns hr

theorem ClassDef.Wired.fns {c : ClassDef} :
    ClassDef.Wired A c → ClassDef.Fns (Machine.ScopePinned A) c
  | .mk hs hm => .mk (fun s h => ClassDef.Wired.fns (hs s h)) fun kind e he => (hm kind e he).fns

end

/-- A member bound to a receiver that fits is a function that fits. -/
theorem Callable.Member.bind {f : Callable} {r : Value} (hf : f.Member A) (hr : Value.Wired A r) :
    Callable.Wired A (f.bind r) := by
  cases f with
  | native name n => exact .native name n
  | closure _ _ _ _ receiver _ =>
    have hnone : receiver = none := hf.1
    subst hnone
    exact .bound hf hr

theorem ClassDef.Wired.superclass {name : String} {s : ClassDef} {ms gs ss sgs}
    (h : ClassDef.Wired A (.mk name (some s) ms gs ss sgs)) : ClassDef.Wired A s := by
  cases h with
  | mk hsup _ => exact hsup s rfl

theorem ClassDef.Wired.table {c : ClassDef} (h : ClassDef.Wired A c) (kind : MemberKind) :
    ∀ e ∈ c.table kind, Callable.Member A e.2 := by
  cases h with
  | mk _ hm => exact hm kind

/-- A member found along the superclass chain of a class that fits fits once bound. -/
theorem ClassDef.Wired.find {kind : MemberKind} {member : String} :
    ∀ {c : ClassDef} {f : Callable}, ClassDef.Wired A c → c.find kind member = some f →
      Callable.Member A f
  | .mk name sup ms gs ss sgs, f, h, hf => by
    unfold ClassDef.find at hf
    split at hf
    · rename_i g hg
      cases hf
      exact h.table kind _ (Scopes.mem_of_lookup hg)
    · split at hf
      · exact ClassDef.Wired.find h.superclass hf
      · cases hf

end Lox
