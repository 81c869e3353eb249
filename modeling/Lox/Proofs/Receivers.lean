import Lox.Proofs.Anchors
import Lox.Proofs.Construction
/-!
# Receivers

A method read from a receiver comes back bound to it, and a call of a bound function opens a
scope that binds `this` to the receiver, just outside the scope of its parameters. A member of a
class with a superclass closes over a scope that binds `super` to that superclass. No program
declares or assigns `this` or `super`, so these bindings never change while the scopes are in
use, and a function made inside a call closes over scopes that reach them.

`Scopes.Hosts A s a` says that from scope `s`, `this` is bound `a.hops` scopes out, and `super`
to a class one scope further when `a.super`. A function value is tethered (`Callable.Tethered`)
when its body's `this` and `super` are anchored where its scope hosts them; a member of a class
is tethered once bound (`Callable.MemberOf`). `Receiving n` says that every part of evaluation
at fuel `n`, run on anchored code from a scope that hosts its anchor, keeps what every scope in
use binds to `this` and `super`, and leaves every function the machine keeps tethered;
`receiving` proves it at every fuel.
-/

namespace Lox

/-! ## What scopes bind to `this` and `super` -/

namespace Scopes

variable {A B : Scopes} {s t j : Nat} {x : String} {v : Value}

/-- What scope `s` binds to `x`, when the scope is in the arena: `some none` for a name declared
without a value. -/
def binding (A : Scopes) (s : Nat) (x : String) : Option (Option Value) :=
  A.slots[s]?.bind fun sc => sc.values.lookup x

/-- The scope `j` links out from `s` binds `x` to `v`. -/
def BindsAt (A : Scopes) (s j : Nat) (x : String) (v : Value) : Prop :=
  ∃ t, A.ancestor s j = .ok t ∧ A.binding t x = some (some v)

/-- From scope `s`, `this` is bound `a.hops` scopes out, and, when `a.super`, `super` is bound
to a class one scope further out. Outside any class nothing is asked. -/
def Hosts (A : Scopes) (s : Nat) : Option Anchor → Prop
  | none => True
  | some a => (∃ r, A.BindsAt s a.hops "this" r) ∧
      (a.super = true → ∃ k c, A.BindsAt s (a.hops + 1) "super" (.classRef k c))

/-- Every scope in use in `A` binds `this` and `super` in `B` as it does in `A`. -/
def KeepsKeywords (A B : Scopes) : Prop :=
  ∀ s, A.Live s → ∀ x, ¬ Bindable x → B.binding s x = A.binding s x

theorem KeepsKeywords.refl (A : Scopes) : KeepsKeywords A A := fun _ _ _ _ => rfl

theorem KeepsKeywords.trans {C : Scopes} (h : KeepsKeywords A B) (g : KeepsKeywords B C)
    (hl : ∀ s, A.Live s → B.Live s) : KeepsKeywords A C :=
  fun s hs x hx => (g s (hl s hs) x hx).trans (h s hs x hx)

/-- Looking a name up where `BindsAt` says it is bound finds its value. -/
theorem BindsAt.getAt (h : A.BindsAt s j x v) {name : Token} (hx : name.lexeme = x) :
    A.getAt s j name = .ok v := by
  obtain ⟨t, ht, hb⟩ := h
  obtain ⟨sc, hsc, hl⟩ := Option.bind_eq_some_iff.1 hb
  unfold Scopes.getAt
  rw [ht]
  simp only [bind, Except.bind]
  rw [hsc]
  simp only [hx, hl, readSlot]

/-- Bindings of other names in a scope whose values change as `values` says. -/
theorem binding_setValues {sc : Scope} (hs : A.slots[s]? = some sc)
    (values : List (String × Option Value)) (t : Nat) (x : String) :
    binding { A with slots := A.slots.setIfInBounds s { sc with values := values } } t x =
      if t = s then values.lookup x else A.binding t x := by
  have hlt := (Array.getElem?_eq_some_iff.1 hs).1
  by_cases hts : t = s
  · subst hts
    simp [binding, hlt]
  · simp [binding, hts, Ne.symm hts]

/-- `B` differs from `A` at most in what its scopes bind to `name`. -/
def SameBut (A B : Scopes) (name : String) : Prop :=
  ∀ t x, x ≠ name → B.binding t x = A.binding t x

theorem sameBut_setValues {sc : Scope} (hs : A.slots[s]? = some sc) {name : String}
    {l : List (String × Option Value)} (w : Option Value) :
    SameBut A { A with slots := A.slots.setIfInBounds s { sc with values := setEntry name w l } }
      name ∨ l ≠ sc.values := by
  by_cases hl : l = sc.values
  · subst hl
    refine .inl fun t x hx => ?_
    rw [binding_setValues hs]
    split
    · rename_i hts
      subst hts
      rw [lookup_setEntry, if_neg hx]
      simp [binding, hs]
    · rfl
  · exact .inr hl

theorem sameBut_define (A : Scopes) (s : Nat) (name : String) (w : Option Value) :
    SameBut A (A.define s name w) name := by
  unfold define
  split
  · rename_i sc hs
    exact (sameBut_setValues hs w).resolve_right (fun h => h rfl)
  · exact fun _ _ _ => rfl

theorem sameBut_assignFrom {name : Token} {w : Value} :
    ∀ {fuel id}, A.assignFrom name w fuel id = .ok B → SameBut A B name.lexeme
  | 0, _, h => by simp [assignFrom] at h
  | fuel + 1, id, h => by
    unfold assignFrom at h
    split at h
    · cases h
    · rename_i sc hs
      split at h
      · cases h
        exact (sameBut_setValues hs (some w)).resolve_right (fun h => h rfl)
      · split at h
        · exact sameBut_assignFrom h
        · cases h

theorem sameBut_assignAt {id hops : Nat} {name : Token} {w : Value}
    (h : A.assignAt id hops name w = .ok B) : SameBut A B name.lexeme := by
  unfold assignAt at h
  cases hA : A.ancestor id hops with
  | error e => simp [hA] at h; cases h
  | ok target =>
    simp only [hA, bind, Except.bind] at h
    split at h
    · cases h
    · rename_i sc hs
      split at h
      · cases h
        exact (sameBut_setValues hs (some w)).resolve_right (fun h => h rfl)
      · cases h

/-- Declaring or assigning a bindable name keeps every binding of `this` and `super`. -/
theorem SameBut.keepsKeywords {name : String} (h : SameBut A B name) (hn : Bindable name) :
    KeepsKeywords A B :=
  fun t _ x hx => h t x fun e => hx (e ▸ hn)

theorem binding_eq_of_values (h : B.slots[s]?.map Scope.values = A.slots[s]?.map Scope.values)
    (x : String) : B.binding s x = A.binding s x := by
  unfold binding
  cases hA : A.slots[s]? <;> cases hB : B.slots[s]? <;> simp_all

theorem Pins.binding_eq (h : Pins A B) (s : Nat) (x : String) : B.binding s x = A.binding s x :=
  binding_eq_of_values (h.values_eq s) x

/-- A new scope leaves what every scope in use binds. -/
theorem WF.binding_child (hA : A.WF) {p : Nat} (hs : A.Live s) (x : String) :
    (A.child p).1.binding s x = A.binding s x := by
  have hne : s ≠ (A.child p).2 := fun e => not_live_child (A := A) p (e ▸ hs)
  simp only [binding, hA.getElem?_child, if_neg hne]

/-- Releasing a scope leaves what every other scope, and every pinned scope, binds. -/
theorem binding_release {c : Nat} (h : s ≠ c ∨ A.pinnedAt c = true) (x : String) :
    (A.release c).binding s x = A.binding s x := by
  rcases h with hsc | hc
  · unfold release
    split
    · split
      · rfl
      · simp [binding, Ne.symm hsc]
    · rfl
  · rw [release_of_pinnedAt hc]

/-! ## Walks that stay where nothing changes -/

/-- A walk along parent links through scopes that satisfy `Q`, a set closed under parents whose
scopes stay in the arena under the same parents, ends in the same scope in `B` as in `A`. -/
theorem ancestorFrom_of_parents {Q : Nat → Prop} (hQ : ∀ s p, Q s → A.parentOf s = some p → Q p)
    (hlive : ∀ s, Q s → B.Live s) (hpar : ∀ s, Q s → B.parentOf s = A.parentOf s)
    (total : Nat) : ∀ {j s t : Nat}, Q s → A.ancestorFrom total j s = .ok t →
      B.ancestorFrom total j s = .ok t ∧ Q t
  | 0, s, t, hs, h => by
    cases h
    exact ⟨rfl, hs⟩
  | j + 1, s, t, hs, h => by
    unfold ancestorFrom at h
    split at h
    · cases h
    · rename_i sc hsc
      split at h
      · rename_i p hp
        have hAp : A.parentOf s = some p := by rw [parentOf_of_getElem? hsc, hp]
        obtain ⟨sc', hsc'⟩ := Live.getElem? (hlive s hs)
        have hBp : sc'.parent = some p := by rw [← parentOf_of_getElem? hsc', hpar s hs, hAp]
        obtain ⟨h1, h2⟩ := ancestorFrom_of_parents hQ hlive hpar total (hQ s p hs hAp) h
        refine ⟨?_, h2⟩
        simp only [ancestorFrom, hsc', hBp]
        exact h1
      · cases h

theorem BindsAt.of_parents {Q : Nat → Prop} (hQ : ∀ s p, Q s → A.parentOf s = some p → Q p)
    (hlive : ∀ s, Q s → B.Live s) (hpar : ∀ s, Q s → B.parentOf s = A.parentOf s)
    (hb : ∀ s, Q s → ∀ x, ¬ Bindable x → B.binding s x = A.binding s x) (hx : ¬ Bindable x)
    (hs : Q s) (h : A.BindsAt s j x v) : B.BindsAt s j x v := by
  obtain ⟨t, ht, hv⟩ := h
  obtain ⟨ht', hQt⟩ := ancestorFrom_of_parents hQ hlive hpar j hs ht
  exact ⟨t, ht', (hb t hQt x hx).trans hv⟩

theorem Hosts.of_parents {Q : Nat → Prop} (hQ : ∀ s p, Q s → A.parentOf s = some p → Q p)
    (hlive : ∀ s, Q s → B.Live s) (hpar : ∀ s, Q s → B.parentOf s = A.parentOf s)
    (hb : ∀ s, Q s → ∀ x, ¬ Bindable x → B.binding s x = A.binding s x) (hs : Q s) :
    ∀ {a : Option Anchor}, A.Hosts s a → B.Hosts s a
  | none, _ => trivial
  | some _, ⟨⟨r, hr⟩, hsup⟩ =>
    ⟨⟨r, hr.of_parents hQ hlive hpar hb not_bindable_this hs⟩, fun h => by
      obtain ⟨k, c, hc⟩ := hsup h
      exact ⟨k, c, hc.of_parents hQ hlive hpar hb not_bindable_super hs⟩⟩

/-- `B` keeps the pinned scopes of `A`: pinned, in use, under the same parents, and binding
`this` and `super` as they do in `A`. -/
structure Steady (A B : Scopes) : Prop where
  keeps : A.KeepsPinned B
  keywords : ∀ s, A.pinnedAt s = true → ∀ x, ¬ Bindable x → B.binding s x = A.binding s x

theorem Steady.trans {C : Scopes} (h : Steady A B) (g : Steady B C) : Steady A C :=
  ⟨h.keeps.trans g.keeps, fun s hs x hx =>
    (g.keywords s (h.keeps.pinned s hs) x hx).trans (h.keywords s hs x hx)⟩

/-- What a pinned scope hosts, it hosts in every arena that keeps it steady. -/
theorem Steady.hosts (hA : A.WF) (h : Steady A B) (hs : A.pinnedAt s = true)
    {a : Option Anchor} (ha : A.Hosts s a) : B.Hosts s a :=
  Hosts.of_parents (Q := fun t => A.pinnedAt t = true) (fun t p ht hp => hA.parent_pinned t p ht hp)
    (fun t ht => h.keeps.live t ht (hA.live_of_pinned ht)) (fun t ht => h.keeps.parentOf_eq t ht)
    h.keywords hs ha

theorem Steady.bindsAt (hA : A.WF) (h : Steady A B) (hs : A.pinnedAt s = true) (hx : ¬ Bindable x)
    (hb : A.BindsAt s j x v) : B.BindsAt s j x v :=
  hb.of_parents (Q := fun t => A.pinnedAt t = true) (fun t p ht hp => hA.parent_pinned t p ht hp)
    (fun t ht => h.keeps.live t ht (hA.live_of_pinned ht)) (fun t ht => h.keeps.parentOf_eq t ht)
    h.keywords hx hs

theorem WF.steady_child (hA : A.WF) (p : Nat) : Steady A (A.child p).1 :=
  ⟨hA.keepsPinned_child, fun _ hs x _ => hA.binding_child (hA.live_of_pinned hs) x⟩

theorem steady_release {c : Nat} (hc : A.Live c) : Steady A (A.release c) := by
  refine ⟨keepsPinned_release hc, fun s hs x _ => binding_release ?_ x⟩
  by_cases hsc : s = c
  · exact .inr (hsc ▸ hs)
  · exact .inl hsc

theorem Pins.steady (h : Pins A B) : Steady A B :=
  ⟨h.keepsPinned, fun s _ x _ => h.binding_eq s x⟩

theorem Shaped.steady (h : Shaped A B) (hk : KeepsKeywords A B) (hA : A.WF) : Steady A B :=
  ⟨h.keepsPinned, fun s hs x hx => hk s (hA.live_of_pinned hs) x hx⟩

/-- Defining a name in one scope leaves what every other scope binds. -/
theorem binding_define_ne {c : Nat} {name : String} {w : Option Value} (htc : t ≠ c) (x : String) :
    (A.define c name w).binding t x = A.binding t x := by
  unfold define
  split
  · simp [binding, Ne.symm htc]
  · rfl

theorem Shaped.trans {C : Scopes} (h : Shaped A B) (g : Shaped B C) : Shaped A C :=
  ⟨g.free_eq.trans h.free_eq, g.size_eq.trans h.size_eq, fun t => (g.parentOf_eq t).trans
    (h.parentOf_eq t), fun t => (g.pinnedAt_eq t).trans (h.pinnedAt_eq t)⟩

/-- A walk that arrives ends at the same scope whatever distance its fault would name. -/
theorem ancestorFrom_total {total total' : Nat} :
    ∀ {k s t : Nat}, A.ancestorFrom total k s = .ok t → A.ancestorFrom total' k s = .ok t
  | 0, _, _, h => h
  | k + 1, s, t, h => by
    unfold ancestorFrom at h ⊢
    cases hsc : A.slots[s]? with
    | none => simp only [hsc] at h; cases h
    | some sc =>
      cases hp : sc.parent with
      | none => simp only [hsc, hp] at h; cases h
      | some p =>
        simp only [hsc, hp] at h ⊢
        exact ancestorFrom_total h

/-- Under a scope that binds `x` `j` scopes out, `x` is bound `j + 1` scopes out. -/
theorem BindsAt.parent {c p : Nat} (hc : A.parentOf c = some p) (h : A.BindsAt p j x v) :
    A.BindsAt c (j + 1) x v := by
  obtain ⟨t, ht, hb⟩ := h
  unfold parentOf at hc
  split at hc
  · rename_i sc hsc
    refine ⟨t, ?_, hb⟩
    simp only [ancestor, ancestorFrom, hsc, hc]
    exact ancestorFrom_total ht
  · cases hc

/-- A scope under a scope that hosts an anchor hosts it one scope further out. -/
theorem Hosts.parent {c p : Nat} (hc : A.parentOf c = some p) :
    ∀ {a : Option Anchor}, A.Hosts p a → A.Hosts c (a.map Anchor.out)
  | none, _ => trivial
  | some _, ⟨⟨r, hr⟩, hsup⟩ => ⟨⟨r, hr.parent hc⟩, fun h => by
      obtain ⟨k, c', hk⟩ := hsup h
      exact ⟨k, c', hk.parent hc⟩⟩

/-- What a scope in use hosts, it hosts in an arena that keeps every scope in use, under the
same parent, binding `this` and `super` alike. -/
theorem Hosts.keep (hA : A.WF) (hl : ∀ t, A.Live t → B.Live t)
    (hp : ∀ t, A.Live t → B.parentOf t = A.parentOf t) (hk : A.KeepsKeywords B) (hs : A.Live s)
    {a : Option Anchor} (h : A.Hosts s a) : B.Hosts s a :=
  Hosts.of_parents (Q := A.Live) (fun t q ht hq => hA.parent_live t q ht hq) hl hp hk hs h

/-- The slot a new scope takes is not pinned. -/
theorem WF.pinnedAt_new (hA : A.WF) (p : Nat) : (A.child p).1.pinnedAt (A.child p).2 = false := by
  rw [hA.pinnedAt_child]
  cases h : A.pinnedAt (A.child p).2
  · rfl
  · exact absurd (hA.live_of_pinned h) (not_live_child p)

/-- Defining a name in a scope that is not pinned keeps every pinned scope as it was. -/
theorem steady_define_unpinned {c : Nat} (hc : A.pinnedAt c = false) (name : String)
    (w : Option Value) : Steady A (A.define c name w) := by
  refine ⟨(shaped_define _ _ _ _).keepsPinned, fun s hs x _ => binding_define_ne ?_ x⟩
  rintro rfl
  simp [hc] at hs

/-- A name defined in a scope is bound there to what it was defined with. -/
theorem binding_define_self {c : Nat} {sc : Scope} (hc : A.slots[c]? = some sc) (name : String)
    (w : Option Value) : (A.define c name w).binding c name = some w := by
  simp only [define, hc]
  rw [binding_setValues hc, if_pos rfl, lookup_setEntry, if_pos rfl]

end Scopes

/-! ## Functions tethered to the scopes of `this` and `super` -/

open Scopes

/-- A member of a class whose superclass is `sup`, before it is bound: it holds no receiver, it
closes over a pinned scope that binds `super` to the superclass, if there is one, and its body
finds `this` and `super` at the anchor of a member. -/
def Callable.MemberOf (A : Scopes) (sup : Option ClassDef) : Callable → Prop
  | .native .. => True
  | .closure _ params body scope receiver _ =>
    receiver = none ∧ A.pinnedAt scope = true ∧ Binders params ∧
      (∀ s ∈ body, Stmt.Anchored .resolved (some (.member sup.isSome)) s) ∧
      ∀ c, sup = some c → ∃ k, A.BindsAt scope 0 "super" (.classRef k c)

mutual

/-- Every function inside a value is tethered to the arena `A`. -/
inductive Value.Tethered (A : Scopes) : Value → Prop
  | nil : Value.Tethered A .nil
  | bool (b : Bool) : Value.Tethered A (.bool b)
  | number (x : Float) : Value.Tethered A (.number x)
  | string (s : String) : Value.Tethered A (.string s)
  | function {f : Callable} (stamp : Nat) : Callable.Tethered A f →
      Value.Tethered A (.function stamp f)
  | classRef {c : ClassDef} (stamp : Nat) : ClassDef.Tethered A c →
      Value.Tethered A (.classRef stamp c)
  | instanceRef {c : ClassDef} (id : Nat) : ClassDef.Tethered A c →
      Value.Tethered A (.instanceRef id c)

/-- A function whose body finds `this` and `super` where its calls will host them: an unbound
function closes over a pinned scope that hosts the anchor its body was written at, one scope
further in; a bound one is a member bound to a tethered receiver. -/
inductive Callable.Tethered (A : Scopes) : Callable → Prop
  | native (name : String) (arity : Nat) : Callable.Tethered A (.native name arity)
  | free {name params body scope isInit} {a : Option Anchor} : A.pinnedAt scope = true →
      Binders params → (∀ s ∈ body, Stmt.Anchored .resolved (a.map Anchor.out) s) →
      A.Hosts scope a → Callable.Tethered A (.closure name params body scope none isInit)
  | bound {name params body scope this isInit} {sup : Option ClassDef} :
      Callable.MemberOf A sup (.closure name params body scope none isInit) →
      Value.Tethered A this → Callable.Tethered A (.closure name params body scope (some this) isInit)

/-- Every member of a class is a member of a class with its superclass, and its superclasses are
tethered too. -/
inductive ClassDef.Tethered (A : Scopes) : ClassDef → Prop
  | mk {name superclass methods getters statics staticGetters} :
      (∀ s, superclass = some s → ClassDef.Tethered A s) →
      (∀ kind, ∀ e ∈ (ClassDef.mk name superclass methods getters statics staticGetters).table kind,
        Callable.MemberOf A superclass e.2) →
      ClassDef.Tethered A (.mk name superclass methods getters statics staticGetters)

end

variable {A B : Scopes}

theorem Callable.MemberOf.keep (hA : A.WF) (h : A.Steady B) {sup : Option ClassDef}
    {f : Callable} (hf : f.MemberOf A sup) : f.MemberOf B sup := by
  cases f with
  | native => trivial
  | closure _ _ _ _ _ _ =>
    obtain ⟨hr, hs, hp, hb, hsup⟩ := hf
    exact ⟨hr, h.keeps.pinned _ hs, hp, hb, fun c hc =>
      (hsup c hc).imp fun _ hk => h.bindsAt hA hs not_bindable_super hk⟩

mutual

/-- What is tethered to an arena is tethered to every arena that keeps it steady. -/
theorem Value.Tethered.keep (hA : A.WF) (h : A.Steady B) {v : Value} :
    Value.Tethered A v → Value.Tethered B v
  | .nil => .nil
  | .bool b => .bool b
  | .number x => .number x
  | .string s => .string s
  | .function s hf => .function s (Callable.Tethered.keep hA h hf)
  | .classRef s hc => .classRef s (ClassDef.Tethered.keep hA h hc)
  | .instanceRef i hc => .instanceRef i (ClassDef.Tethered.keep hA h hc)

theorem Callable.Tethered.keep (hA : A.WF) (h : A.Steady B) {f : Callable} :
    Callable.Tethered A f → Callable.Tethered B f
  | .native name n => .native name n
  | .free hs hp hb ha => .free (h.keeps.pinned _ hs) hp hb (h.hosts hA hs ha)
  | .bound hm hr => .bound (hm.keep hA h) (Value.Tethered.keep hA h hr)

theorem ClassDef.Tethered.keep (hA : A.WF) (h : A.Steady B) {c : ClassDef} :
    ClassDef.Tethered A c → ClassDef.Tethered B c
  | .mk hs hm => .mk (fun s e => ClassDef.Tethered.keep hA h (hs s e))
      fun kind e he => (hm kind e he).keep hA h

end

/-- A member closes over a pinned scope, and holds no receiver. -/
theorem Callable.MemberOf.fns {sup : Option ClassDef} {f : Callable} (h : f.MemberOf A sup) :
    Callable.Fns (Machine.ScopePinned A) f := by
  cases f with
  | native name n => exact .native name n
  | closure _ _ _ _ receiver _ =>
    obtain ⟨rfl, hs, -⟩ := h
    exact .closure hs fun _ h => by cases h

mutual

/-- The functions inside a tethered value close over pinned scopes. -/
theorem Value.Tethered.fns {v : Value} : Value.Tethered A v → Value.Fns (Machine.ScopePinned A) v
  | .nil => .nil
  | .bool b => .bool b
  | .number x => .number x
  | .string s => .string s
  | .function s h => .function s (Callable.Tethered.fns h)
  | .classRef s h => .classRef s (ClassDef.Tethered.fns h)
  | .instanceRef i h => .instanceRef i (ClassDef.Tethered.fns h)

theorem Callable.Tethered.fns {f : Callable} :
    Callable.Tethered A f → Callable.Fns (Machine.ScopePinned A) f
  | .native name n => .native name n
  | .free hs _ _ _ => .closure hs fun _ h => by cases h
  | .bound hm hr => .closure hm.2.1 fun _ h => by cases h; exact Value.Tethered.fns hr

theorem ClassDef.Tethered.fns {c : ClassDef} :
    ClassDef.Tethered A c → ClassDef.Fns (Machine.ScopePinned A) c
  | .mk hs hm => .mk (fun s h => ClassDef.Tethered.fns (hs s h)) fun kind e he => (hm kind e he).fns

end

/-- A member bound to a tethered receiver is tethered. -/
theorem Callable.MemberOf.bind {sup : Option ClassDef} {f : Callable} {r : Value}
    (hf : f.MemberOf A sup) (hr : Value.Tethered A r) : Callable.Tethered A (f.bind r) := by
  cases f with
  | native name n => exact .native name n
  | closure _ _ _ _ receiver _ =>
    have hnone : receiver = none := hf.1
    subst hnone
    exact .bound hf hr

theorem ClassDef.Tethered.superclass {name : String} {s : ClassDef} {ms gs ss sgs}
    (h : ClassDef.Tethered A (.mk name (some s) ms gs ss sgs)) : ClassDef.Tethered A s := by
  cases h with
  | mk hsup _ => exact hsup s rfl

theorem ClassDef.Tethered.table {name : String} {sup : Option ClassDef} {ms gs ss sgs}
    (h : ClassDef.Tethered A (.mk name sup ms gs ss sgs)) (kind : MemberKind) :
    ∀ e ∈ (ClassDef.mk name sup ms gs ss sgs).table kind, Callable.MemberOf A sup e.2 := by
  cases h with
  | mk _ hm => exact hm kind

/-- A member found along the chain of a tethered class is a member of some class. -/
theorem ClassDef.Tethered.find {kind : MemberKind} {member : String} :
    ∀ {c : ClassDef} {f : Callable}, ClassDef.Tethered A c → c.find kind member = some f →
      ∃ sup, Callable.MemberOf A sup f
  | .mk name sup ms gs ss sgs, f, h, hf => by
    unfold ClassDef.find at hf
    split at hf
    · rename_i g hg
      cases hf
      exact ⟨_, h.table kind _ (Scopes.mem_of_lookup hg)⟩
    · split at hf
      · exact ClassDef.Tethered.find h.superclass hf
      · cases hf

/-- A member found along the chain of a tethered class, bound to a tethered receiver. -/
theorem ClassDef.Tethered.bind {c : ClassDef} {kind : MemberKind} {member : String} {f : Callable}
    {r : Value} (hc : ClassDef.Tethered A c) (hf : c.find kind member = some f)
    (hr : Value.Tethered A r) : Callable.Tethered A (f.bind r) := by
  obtain ⟨_, hm⟩ := hc.find hf
  exact hm.bind hr

theorem Value.IsData.tethered {v : Value} (h : v.IsData) : Value.Tethered A v := by
  cases v with
  | nil => exact .nil
  | bool b => exact .bool b
  | number x => exact .number x
  | string s => exact .string s
  | function | classRef | instanceRef => exact False.elim h

/-! ## Runs that keep functions tethered -/

namespace Machine

open Eval

variable {α β : Type} {m m' : Machine} {ok : Machine → α → Prop}

/-- Every value the machine keeps, in its scopes and in the fields of its instances, is
tethered to its arena. -/
def Tethered (m : Machine) : Prop := m.Holds (Value.Tethered m.scopes)

/-- A value tethered to the machine's arena. -/
def Tied (m : Machine) (v : Value) : Prop := Value.Tethered m.scopes v

/-- Arguments tethered to the machine's arena. -/
def AllTied (m : Machine) (vs : List Value) : Prop := ∀ v ∈ vs, Tied m v

/-- A statement's outcome whose returned value, if any, is tethered. -/
def FlowTied (m : Machine) : Flow → Prop
  | .returned v => Tied m v
  | _ => True

/-- What a call invokes, tethered to the machine's arena. -/
def CalleeTethered (m : Machine) : Callee → Prop
  | .function f => Callable.Tethered m.scopes f
  | .classOf c => ClassDef.Tethered m.scopes c

/-- Run from `m`, `x` keeps what every scope in use binds to `this` and `super`, leaves every
value the machine keeps tethered, and gives back, if it succeeds, what `ok` asks of the machine
it leaves. -/
def Tethers (x : Eval α) (ok : Machine → α → Prop) (m : Machine) : Prop :=
  m.scopes.KeepsKeywords (exec x m).2.scopes ∧ Tethered (exec x m).2 ∧
    ∀ a, (exec x m).1 = .ok a → ok (exec x m).2 a

/-! A finished part of evaluation keeps what is tethered tethered. -/

theorem Frame.steady (hA : m.scopes.WF) (hf : Frame m m')
    (hk : m.scopes.KeepsKeywords m'.scopes) : m.scopes.Steady m'.scopes :=
  ⟨hf.keepsPinned hA, fun s hs x hx => hk s (hA.live_of_pinned hs) x hx⟩

theorem Tied.frame (hA : m.scopes.WF) (hf : Frame m m') (hk : m.scopes.KeepsKeywords m'.scopes)
    {v : Value} (hv : Tied m v) : Tied m' v :=
  Value.Tethered.keep hA (hf.steady hA hk) hv

theorem AllTied.frame (hA : m.scopes.WF) (hf : Frame m m')
    (hk : m.scopes.KeepsKeywords m'.scopes) {vs : List Value} (h : AllTied m vs) :
    AllTied m' vs :=
  fun v hv => (h v hv).frame hA hf hk

theorem FlowTied.frame (hA : m.scopes.WF) (hf : Frame m m') (hk : m.scopes.KeepsKeywords m'.scopes)
    {fl : Flow} (h : FlowTied m fl) : FlowTied m' fl := by
  cases fl with
  | returned v => exact Tied.frame hA hf hk h
  | _ => trivial

/-- A scope in use hosts what it hosted after a finished part of evaluation. -/
theorem Hosts.frame (hA : m.scopes.WF) (hf : Frame m m') (hk : m.scopes.KeepsKeywords m'.scopes)
    {s : Nat} (hs : m.scopes.Live s) {a : Option Anchor} (h : m.scopes.Hosts s a) :
    m'.scopes.Hosts s a :=
  Hosts.of_parents (Q := m.scopes.Live) (fun t p ht hp => hA.parent_live t p ht hp) hf.live
    hf.parentOf_eq hk hs h

theorem Hosts.frame_current (hm : Sound m) (hf : Frame m m')
    (hk : m.scopes.KeepsKeywords m'.scopes) {a : Option Anchor} (h : m.scopes.Hosts m.current a) :
    m'.scopes.Hosts m'.current a :=
  hf.current_eq ▸ Hosts.frame hm.wf hf hk hm.current_live h

theorem Tethered.keep (hA : m.scopes.WF) (h : m.scopes.Steady m'.scopes)
    (hv : m'.Holds (Value.Tethered m.scopes)) : Tethered m' :=
  ⟨hv.scopes.mono fun _ hx => hx.keep hA h, fun i fs hi e he => (hv.fields i fs hi e he).keep hA h⟩

theorem Tethered.of_eq (hm : Tethered m) (hs : m'.scopes = m.scopes) (hf : m'.fields = m.fields) :
    Tethered m' :=
  ⟨hs ▸ hm.scopes, hf ▸ hs ▸ hm.fields⟩

theorem Tied.good {v : Value} (hv : Tied m v) : Good m v := Value.Tethered.fns hv

theorem AllTied.good {vs : List Value} (h : AllTied m vs) : AllGood m vs :=
  fun v hv => (h v hv).good

theorem CalleeTethered.good {c : Callee} (h : CalleeTethered m c) : CalleeGood m c := by
  cases c with
  | function f => exact Callable.Tethered.fns h
  | classOf c => exact ClassDef.Tethered.fns h

/-! ## Steps that keep functions tethered -/

theorem Tethers.pure (hm : Tethered m) {a : α} (ha : ok m a) : Tethers (Pure.pure a) ok m :=
  ⟨.refl _, hm, fun _ h => by cases h; exact ha⟩

theorem Tethers.throw (hm : Tethered m) (e : Interrupt) : Tethers (throw e : Eval α) ok m :=
  ⟨.refl _, hm, fun _ h => by cases h⟩

theorem Tethers.fail (hm : Tethered m) (f : RuntimeFault) : Tethers (Eval.fail f : Eval α) ok m :=
  Tethers.throw hm _

theorem Tethers.ofExcept (hm : Tethered m) {r : Except RuntimeFault α}
    (hr : ∀ a, r = .ok a → ok m a) : Tethers (Eval.ofExcept r) ok m := by
  cases r with
  | error f => exact Tethers.fail hm f
  | ok a => exact Tethers.pure hm (hr a rfl)

/-- What `f` needs of `x`'s result and machine holds when `x` succeeds: the machine is sound and
framed by `m`, as `Framed` says, keeps the bindings of `this` and `super`, and is tethered. -/
theorem Tethers.bind {x : Eval α} {f : α → Eval β} {P Q : Machine → α → Prop}
    {R : Machine → β → Prop} (hx : Tethers x P m) (hfx : Framed x Q m)
    (hf : ∀ a m', Sound m' → Frame m m' → m.scopes.KeepsKeywords m'.scopes → Tethered m' →
      P m' a → Q m' a → Tethers (f a) R m') :
    Tethers (x >>= f) R m := by
  obtain ⟨hk, ht, hok⟩ := hx
  obtain ⟨hs', hfr, hq⟩ := hfx
  unfold Tethers
  rw [exec_bind]
  rcases hxm : exec x m with ⟨e | a, m1⟩
  · rw [hxm] at hk ht
    dsimp only
    exact ⟨hk, ht, fun _ h => by cases h⟩
  · rw [hxm] at hk ht hs' hfr hok hq
    obtain ⟨hk2, ht2, hok2⟩ := hf a m1 hs' hfr hk ht (hok a rfl) (hq a rfl)
    exact ⟨hk.trans hk2 hfr.live, ht2, hok2⟩

theorem Tethers.mono {x : Eval α} {ok' : Machine → α → Prop} (hx : Tethers x ok m)
    (h : ∀ m a, ok m a → ok' m a) : Tethers x ok' m :=
  ⟨hx.1, hx.2.1, fun a ha => h _ a (hx.2.2 a ha)⟩

/-- A step that changes neither scopes nor fields. -/
theorem Tethers.of_eq {x : Eval α} (hm : Tethered m) (hs : (exec x m).2.scopes = m.scopes)
    (hf : (exec x m).2.fields = m.fields) (hok : ∀ a, (exec x m).1 = .ok a → ok (exec x m).2 a) :
    Tethers x ok m :=
  ⟨hs ▸ .refl _, hm.of_eq hs hf, hok⟩

theorem Tethers.get (hm : Tethered m) : Tethers (get : Eval Machine) (fun m' a => a = m') m :=
  ⟨.refl _, hm, fun _ h => by cases h; rfl⟩

theorem Tethers.currentScope (hm : Tethered m) :
    Tethers currentScope (fun m' s => s = m'.current) m :=
  ⟨.refl _, hm, fun _ h => by cases h; rfl⟩

theorem Tethers.stamp (hm : Tethered m) : Tethers stamp (fun _ _ => True) m :=
  Tethers.of_eq hm rfl rfl fun _ _ => trivial

theorem Tethers.emit (hm : Tethered m) (text : String) : Tethers (emit text) (fun _ _ => True) m :=
  Tethers.of_eq hm rfl rfl fun _ _ => trivial

theorem Tethers.field? (hm : Tethered m) (i : Nat) (name : String) :
    Tethers (field? i name) (fun m' o => ∀ v, o = some v → Tied m' v) m :=
  ⟨.refl _, hm, fun _ h v hv => by cases h; exact Machine.Holds.field hm hv⟩

theorem Tethers.pin (hA : m.scopes.WF) (hm : Tethered m) (s : Nat) :
    Tethers (pin s) (fun _ _ => True) m := by
  have hp := pins_pin m.scopes s
  exact ⟨fun t _ x _ => hp.binding_eq t x,
    Tethered.keep hA hp.steady ⟨hm.scopes.pins hp, hm.fields⟩, fun _ _ => trivial⟩

/-- Declaring a bindable name, with a tethered value if any. -/
theorem Tethers.define (hA : m.scopes.WF) (hm : Tethered m) (s : Nat) {name : String}
    (hn : Bindable name) {v : Option Value} (hv : ∀ x, v = some x → Tied m x) :
    Tethers (define s name v) (fun _ _ => True) m := by
  have hk := (sameBut_define m.scopes s name v).keepsKeywords hn
  exact ⟨hk, Tethered.keep hA ((shaped_define _ _ _ _).steady hk hA)
    ⟨hm.scopes.define hv, hm.fields⟩, fun _ _ => trivial⟩

theorem Tethers.setField (hm : Tethered m) (i : Nat) (name : String) {v : Value} (hv : Tied m v) :
    Tethers (setField i name v) (fun _ _ => True) m :=
  ⟨.refl _, Machine.Holds.setField hm i name hv, fun _ _ => trivial⟩

theorem Tethers.newInstance (hm : Tethered m) {c : ClassDef} (hc : ClassDef.Tethered m.scopes c) :
    Tethers (newInstance c) Tied m :=
  ⟨.refl _, Machine.Holds.newInstance hm, fun _ h => by cases h; exact .instanceRef _ hc⟩

theorem ofExcept_ok {r : Except RuntimeFault α} {a : α} (h : (exec (ofExcept r) m).1 = .ok a) :
    r = .ok a := by
  cases r with
  | error f => cases h
  | ok b => cases h; rfl

/-- A name looked up gives a value the scopes hold, and changes nothing. -/
theorem Tethers.lookup (hm : Tethered m) (r : Reference) : Tethers (lookup r) Tied m := by
  refine ⟨by rw [exec_lookup_snd]; exact .refl _, by rw [exec_lookup_snd]; exact hm,
    fun v hv => ?_⟩
  rw [exec_lookup_snd]
  unfold Eval.lookup at hv
  simp only [exec_bind, exec_get] at hv
  split at hv
  · exact hm.scopes.getAt (ofExcept_ok hv)
  · exact hm.scopes.get (ofExcept_ok hv)

/-- Assigning a tethered value to a bindable name. -/
theorem Tethers.assignTo (hA : m.scopes.WF) (hm : Tethered m) (r : Reference)
    (hn : Bindable r.name.lexeme) {v : Value} (hv : Tied m v) :
    Tethers (assignTo r v) (fun _ _ => True) m := by
  unfold Tethers
  cases hh : r.hops with
  | some h =>
    rw [exec_assignTo_local m hh]
    cases hB : m.scopes.assignAt m.current h r.name v with
    | error f => exact ⟨.refl _, hm, fun _ h => by cases h⟩
    | ok B =>
      have hk := (sameBut_assignAt hB).keepsKeywords hn
      exact ⟨hk, Tethered.keep hA ((shaped_assignAt hB).steady hk hA)
        ⟨hm.scopes.assignAt hv hB, hm.fields⟩, fun _ _ => trivial⟩
  | none =>
    rw [exec_assignTo_global m hh]
    cases hB : m.scopes.assign Scopes.globals r.name v with
    | error f => exact ⟨.refl _, hm, fun _ h => by cases h⟩
    | ok B =>
      have hk := (sameBut_assignFrom hB).keepsKeywords hn
      exact ⟨hk, Tethered.keep hA ((shaped_assign hB).steady hk hA)
        ⟨hm.scopes.assign hv hB, hm.fields⟩, fun _ _ => trivial⟩

theorem Tethers.fail_bind (hm : Tethered m) (f : RuntimeFault) (k : α → Eval β)
    {ok : Machine → β → Prop} : Tethers (Eval.fail f >>= k) ok m :=
  ⟨.refl _, hm, fun _ h => by simp at h⟩

/-! ## Scopes that blocks and calls open -/

theorem literal_tied (l : Literal) : Tied m l.toValue := by
  cases l <;> constructor

/-- A new scope under a scope in use keeps what every scope in use binds, and hosts, one scope
further out, what its parent hosts. -/
theorem opened (hm : Sound m) (ht : Tethered m) {p : Nat} (hp : m.scopes.Live p)
    {a : Option Anchor} (hh : m.scopes.Hosts p a) :
    m.scopes.KeepsKeywords (m.scopes.child p).1 ∧
      Tethered { m with scopes := (m.scopes.child p).1 } ∧
      (m.scopes.child p).1.Hosts (m.scopes.child p).2 (a.map Anchor.out) := by
  have hk : m.scopes.KeepsKeywords (m.scopes.child p).1 := fun s hs x _ => hm.wf.binding_child hs x
  refine ⟨hk, Tethered.keep hm.wf (hm.wf.steady_child p) ⟨ht.scopes.child, ht.fields⟩, ?_⟩
  have hpar : (m.scopes.child p).1.parentOf (m.scopes.child p).2 = some p := by
    rw [hm.wf.parentOf_child, if_pos rfl]
  refine Hosts.parent hpar (Hosts.keep hm.wf (fun t h => hm.wf.live_child.2 (.inl h))
    (fun t h => ?_) hk hp hh)
  have hne : t ≠ (m.scopes.child p).2 := fun e => not_live_child (A := m.scopes) p (e ▸ h)
  rw [hm.wf.parentOf_child, if_neg hne]

/-- Binding the arguments of a call to bindable names: every value stays tethered, the arena
keeps its shape, and no scope changes what it binds to `this` or `super`. -/
theorem defineArgs_tethered {c : Nat} (l : List (Token × Value))
    (hl : ∀ x ∈ l, Bindable x.1.lexeme) :
    ∀ {M : Machine}, M.scopes.WF → Tethered M → (∀ x ∈ l, Tied M x.2) →
      Tethered (l.foldl (defineArg c) M) ∧ M.scopes.Shaped (l.foldl (defineArg c) M).scopes ∧
        ∀ t x, ¬ Bindable x → (l.foldl (defineArg c) M).scopes.binding t x = M.scopes.binding t x := by
  induction l with
  | nil => exact fun _ ht _ => ⟨ht, .refl _, fun _ _ _ => rfl⟩
  | cons y l ih =>
    intro M hA ht hy
    have hsh : M.scopes.Shaped (defineArg c M y).scopes := shaped_define _ _ _ _
    have hk : ∀ t x, ¬ Bindable x → (defineArg c M y).scopes.binding t x = M.scopes.binding t x :=
      fun t x hx => sameBut_define _ _ _ _ t x fun e => hx (e ▸ hl y List.mem_cons_self)
    have hst := hsh.steady (fun t _ x hx => hk t x hx) hA
    have ht1 : Tethered (defineArg c M y) := Tethered.keep hA hst
      ⟨ht.scopes.define fun x hx => by cases hx; exact hy y List.mem_cons_self, ht.fields⟩
    obtain ⟨h1, h2, h3⟩ := ih (fun x hx => hl x (List.mem_cons_of_mem _ hx)) (hA.of_shaped hsh) ht1
      fun x hx => (hy x (List.mem_cons_of_mem _ hx)).keep hA hst
    exact ⟨h1, hsh.trans h2, fun t x hx => (h3 t x hx).trans (hk t x hx)⟩

/-- A scope opened before a run and released after it: every scope in use before keeps what it
binds to `this` and `super`, and every value stays tethered. -/
theorem Tethers.released {c : Nat} {m'' : Machine} (ho : Opens m c m')
    (hk' : m.scopes.KeepsKeywords m'.scopes) (hf : Frame m' m'') (hs : Sound m'')
    (hk'' : m'.scopes.KeepsKeywords m''.scopes) (ht : Tethered m'') :
    m.scopes.KeepsKeywords (m''.scopes.release c) ∧
      Tethered { m'' with scopes := m''.scopes.release c } ∧
      m''.scopes.Steady (m''.scopes.release c) := by
  have hc : m''.scopes.Live c := hf.live c ((ho.live_iff c).2 (.inr rfl))
  have hst := steady_release hc
  refine ⟨fun s hs' x hx => ?_, Tethered.keep hs.wf hst ⟨ht.scopes.release, ht.fields⟩, hst⟩
  have hsc : s ≠ c := fun e => ho.not_live (e ▸ hs')
  rw [binding_release (.inl hsc), hk'' s ((ho.live_iff s).2 (.inl hs')) x hx, hk' s hs' x hx]

theorem returnOf_tied {r : Except Interrupt Flow} (h : ∀ fl, r = .ok fl → FlowTied m fl) :
    ∀ v, returnOf r = .ok v → Tied m v := by
  intro v hv
  rcases r with e | (_ | _ | w)
  · cases hv
  · cases hv; constructor
  · cases hv; constructor
  · cases hv; exact h _ rfl

/-- Every part of evaluation at fuel `n`, run from a sound machine whose values are tethered, on
code anchored where the current scope hosts its anchor and on tethered inputs, keeps what every
scope in use binds to `this` and `super` and leaves every value tethered. -/
structure Receiving (n : Nat) : Prop where
  expr : ∀ a e m, Sound m → Tethered m → m.scopes.Hosts m.current a →
    Expr.Anchored .resolved a e → Tethers (evalExpr n e) Tied m
  args : ∀ a es m, Sound m → Tethered m → m.scopes.Hosts m.current a →
    (∀ e ∈ es, Expr.Anchored .resolved a e) → Tethers (evalArgs n es) AllTied m
  invoke : ∀ c paren args m, Sound m → Tethered m → CalleeTethered m c → AllTied m args →
    Tethers (Eval.invoke n c paren args) Tied m
  call : ∀ f args m, Sound m → Tethered m → Callable.Tethered m.scopes f → AllTied m args →
    Tethers (callFunction n f args) Tied m
  body : ∀ name params body scope receiver isInit args m, Sound m → Tethered m →
    Callable.Tethered m.scopes (.closure name params body scope receiver isInit) →
    AllTied m args → Tethers (runBody n params body scope receiver args) Tied m
  construct : ∀ c args m, Sound m → Tethered m → ClassDef.Tethered m.scopes c → AllTied m args →
    Tethers (Eval.construct n c args) Tied m
  instanceProperty : ∀ i c name m, Sound m → Tethered m → ClassDef.Tethered m.scopes c →
    Tethers (Eval.instanceProperty n i c name) Tied m
  staticProperty : ∀ s c name m, Sound m → Tethered m → ClassDef.Tethered m.scopes c →
    Tethers (Eval.staticProperty n s c name) Tied m
  superMember : ∀ keyword member m, Sound m → Tethered m →
    Tethers (Eval.superMember n keyword member) Tied m
  stmt : ∀ a s m, Sound m → Tethered m → m.scopes.Hosts m.current a →
    Stmt.Anchored .resolved a s → Tethers (execStmt n s) FlowTied m
  loop : ∀ a c body m, Sound m → Tethered m → m.scopes.Hosts m.current a →
    Expr.Anchored .resolved a c → Stmt.Anchored .resolved a body →
    Tethers (execWhile n c body) FlowTied m
  block : ∀ a body scope m, Sound m → Tethered m → m.scopes.Live scope → m.scopes.Hosts scope a →
    (∀ s ∈ body, Stmt.Anchored .resolved a s) → Tethers (execBlock n body scope) FlowTied m
  stmts : ∀ a ss m, Sound m → Tethered m → m.scopes.Hosts m.current a →
    (∀ s ∈ ss, Stmt.Anchored .resolved a s) → Tethers (execStmts n ss) FlowTied m

variable {n : Nat}

theorem Receiving.expr_succ (ih : Receiving n) (a : Option Anchor) (e : Expr) (m : Machine)
    (hm : Sound m) (ht : Tethered m) (hh : m.scopes.Hosts m.current a)
    (he : Expr.Anchored .resolved a e) : Tethers (evalExpr (n + 1) e) Tied m := by
  have hb := balanced n
  cases he with
  | assign hn hv =>
    rename_i r v
    simp only [evalExpr]
    refine (ih.expr a v m hm ht hh hv).bind (hb.expr v m hm)
      fun x m1 hm1 _ _ ht1 hx _ => ?_
    refine (Tethers.assignTo hm1.wf ht1 r hn hx).bind (Framed.assignTo hm1 r hx.good)
      fun _ m2 _ hf2 hk2 ht2 _ _ => ?_
    exact Tethers.pure ht2 (hx.frame hm1.wf hf2 hk2)
  | binary hl hr =>
    rename_i l op t r
    simp only [evalExpr]
    refine (ih.expr a l m hm ht hh hl).bind (hb.expr l m hm) fun x m1 hm1 hf1 hk1 ht1 _ _ => ?_
    refine (ih.expr a r m1 hm1 ht1 (Hosts.frame_current hm hf1 hk1 hh) hr).bind (hb.expr r m1 hm1)
      fun y m2 _ _ _ ht2 _ _ => ?_
    exact Tethers.ofExcept ht2 fun v hv => (BinaryOp.apply_data hv).tethered
  | call hc ha =>
    rename_i callee paren args
    simp only [evalExpr]
    refine (ih.expr a callee m hm ht hh hc).bind (hb.expr callee m hm)
      fun f m1 hm1 hf1 hk1 ht1 hf _ => ?_
    refine (ih.args a args m1 hm1 ht1 (Hosts.frame_current hm hf1 hk1 hh) ha).bind
      (hb.args args m1 hm1) fun vs m2 hm2 hf2 hk2 ht2 hvs _ => ?_
    cases hf.frame hm1.wf hf2 hk2 with
    | function s hc => exact ih.invoke _ paren vs m2 hm2 ht2 hc hvs
    | classRef s hc => exact ih.invoke _ paren vs m2 hm2 ht2 hc hvs
    | _ => exact Tethers.fail ht2 _
  | get ho =>
    rename_i obj name
    simp only [evalExpr]
    refine (ih.expr a obj m hm ht hh ho).bind (hb.expr obj m hm) fun o m1 hm1 _ _ ht1 ho _ => ?_
    cases ho with
    | instanceRef i hc => exact ih.instanceProperty i _ name m1 hm1 ht1 hc
    | classRef s hc => exact ih.staticProperty s _ name m1 hm1 ht1 hc
    | _ => exact Tethers.fail ht1 _
  | lambda hp hbody =>
    rename_i keyword params body
    simp only [evalExpr]
    refine (Tethers.currentScope ht).bind (Framed.currentScope hm)
      fun s m1 hm1 hf1 hk1 ht1 (hs : s = m1.current) _ => ?_
    subst hs
    have hh1 := Hosts.frame_current hm hf1 hk1 hh
    refine (Tethers.pin hm1.wf ht1 _).bind (Framed.pin hm1 hm1.current_live)
      fun _ m2 hm2 hf2 hk2 ht2 _ hp2 => ?_
    have hh2 := Hosts.frame hm1.wf hf2 hk2 hm1.current_live hh1
    refine (Tethers.stamp ht2).bind (Framed.stamp hm2) fun k m3 _ hf3 hk3 ht3 _ _ => ?_
    exact Tethers.pure ht3 (.function k (.free (hf3.pinned _ hp2) hp hbody
      (Hosts.frame hm2.wf hf3 hk3 (hm2.wf.live_of_pinned hp2) hh2)))
  | grouping he =>
    simp only [evalExpr]
    exact ih.expr a _ m hm ht hh he
  | literal =>
    simp only [evalExpr]
    exact Tethers.pure ht (literal_tied _)
  | logical hl hr =>
    rename_i l op t r
    simp only [evalExpr]
    refine (ih.expr a l m hm ht hh hl).bind (hb.expr l m hm) fun x m1 hm1 hf1 hk1 ht1 hx _ => ?_
    have hh1 := Hosts.frame_current hm hf1 hk1 hh
    cases op <;> dsimp only <;> split
    all_goals first
      | exact ih.expr a r m1 hm1 ht1 hh1 hr
      | exact Tethers.pure ht1 hx
  | set ho hv =>
    rename_i obj name v
    simp only [evalExpr]
    refine (ih.expr a obj m hm ht hh ho).bind (hb.expr obj m hm) fun o m1 hm1 hf1 hk1 ht1 _ _ => ?_
    split
    · refine (ih.expr a v m1 hm1 ht1 (Hosts.frame_current hm hf1 hk1 hh) hv).bind (hb.expr v m1 hm1)
        fun x m2 hm2 _ _ ht2 hx _ => ?_
      refine (Tethers.setField ht2 _ name.lexeme hx).bind (Framed.setField hm2 _ name.lexeme hx.good)
        fun _ m3 _ hf3 hk3 ht3 _ _ => ?_
      exact Tethers.pure ht3 (hx.frame hm2.wf hf3 hk3)
    · exact Tethers.fail ht1 _
  | superMember _ =>
    simp only [evalExpr]
    exact ih.superMember _ _ m hm ht
  | conditional hc hx hy =>
    rename_i c q x y
    simp only [evalExpr]
    refine (ih.expr a c m hm ht hh hc).bind (hb.expr c m hm) fun v m1 hm1 hf1 hk1 ht1 _ _ => ?_
    have hh1 := Hosts.frame_current hm hf1 hk1 hh
    split
    · exact ih.expr a x m1 hm1 ht1 hh1 hx
    · exact ih.expr a y m1 hm1 ht1 hh1 hy
    · exact Tethers.fail ht1 _
  | this _ =>
    simp only [evalExpr]
    exact Tethers.lookup ht _
  | unary he =>
    rename_i op t e
    simp only [evalExpr]
    refine (ih.expr a e m hm ht hh he).bind (hb.expr e m hm) fun v m1 _ _ _ ht1 _ _ => ?_
    split
    · exact Tethers.pure ht1 (.number _)
    · exact Tethers.fail ht1 _
    · exact Tethers.pure ht1 (.bool _)
  | «variable» =>
    simp only [evalExpr]
    exact Tethers.lookup ht _

theorem Receiving.args_succ (ih : Receiving n) (a : Option Anchor) (es : List Expr) (m : Machine)
    (hm : Sound m) (ht : Tethered m) (hh : m.scopes.Hosts m.current a)
    (hes : ∀ e ∈ es, Expr.Anchored .resolved a e) : Tethers (evalArgs (n + 1) es) AllTied m := by
  cases es with
  | nil =>
    simp only [evalArgs]
    exact Tethers.pure ht fun v hv => by cases hv
  | cons e es =>
    simp only [evalArgs]
    refine (ih.expr a e m hm ht hh (hes e List.mem_cons_self)).bind ((balanced n).expr e m hm)
      fun v m1 hm1 hf1 hk1 ht1 hv _ => ?_
    refine (ih.args a es m1 hm1 ht1 (Hosts.frame_current hm hf1 hk1 hh)
      fun x hx => hes x (List.mem_cons_of_mem _ hx)).bind ((balanced n).args es m1 hm1)
      fun vs m2 _ hf2 hk2 ht2 hvs _ => ?_
    refine Tethers.pure ht2 fun w hw => ?_
    rcases List.mem_cons.1 hw with rfl | hw
    · exact hv.frame hm1.wf hf2 hk2
    · exact hvs w hw

theorem steady_openReceiver (hA : m.scopes.WF) (scope : Nat) (this : Value) :
    m.scopes.Steady (openReceiver scope this m).scopes :=
  (hA.steady_child scope).trans (steady_define_unpinned (hA.pinnedAt_new scope) _ _)

/-- The scope of `this` that a call of a bound member opens, under the member's scope: it binds
`this` to the receiver, and its parent binds `super` when the member's class has a
superclass. -/
theorem openReceiver_hosts (hm : Sound m) (ht : Tethered m) {scope : Nat}
    (hs : m.scopes.pinnedAt scope = true) {sup : Option ClassDef}
    (hsup : ∀ c, sup = some c → ∃ k, m.scopes.BindsAt scope 0 "super" (.classRef k c))
    {this : Value} (hthis : Tied m this) :
    m.scopes.KeepsKeywords (openReceiver scope this m).scopes ∧
      Tethered (openReceiver scope this m) ∧
      (openReceiver scope this m).scopes.Hosts (m.scopes.child scope).2 (some ⟨0, sup.isSome⟩) := by
  have hA := hm.wf
  have hst := steady_openReceiver hA scope this
  obtain ⟨sc, hsc⟩ := Live.getElem? (hA.live_child.2 (.inr rfl) :
    (m.scopes.child scope).1.Live (m.scopes.child scope).2)
  refine ⟨fun t ht' x _ => ?_, Tethered.keep hA hst
    ⟨ht.scopes.child.define fun y hy => by cases hy; exact hthis, ht.fields⟩,
    ⟨this, _, rfl, binding_define_self hsc _ _⟩, fun hb => ?_⟩
  · have htr : t ≠ (m.scopes.child scope).2 := fun e => not_live_child (A := m.scopes) scope (e ▸ ht')
    show ((m.scopes.child scope).1.define _ "this" (some this)).binding t x = _
    rw [binding_define_ne htr, hA.binding_child ht']
  · obtain ⟨c, hc⟩ := Option.isSome_iff_exists.1 hb
    obtain ⟨k, hk⟩ := hsup c hc
    have hpar : (openReceiver scope this m).scopes.parentOf (m.scopes.child scope).2 =
        some scope := by
      rw [openReceiver, (shaped_define _ _ _ _).parentOf_eq, hA.parentOf_child, if_pos rfl]
    exact ⟨k, c, (hst.bindsAt hA hs not_bindable_super hk).parent hpar⟩

/-- A call's scope of parameters, opened under a scope in use that hosts `a`, with the arguments
bound in it: the machine is sound and tethered, every scope in use before keeps what it binds
to `this` and `super`, and the new scope hosts `a` one scope further out. -/
theorem params_entry {M : Machine} (hm : Sound M) (ht : Tethered M) {p : Nat}
    (hp : M.scopes.Live p) {a : Option Anchor} (hh : M.scopes.Hosts p a) {params : List Token}
    (hps : Binders params) {args : List Value} (hargs : AllTied M args) :
    Sound ((params.zip args).foldl (defineArg (M.scopes.child p).2)
        { M with scopes := (M.scopes.child p).1 }) ∧
      Opens M (M.scopes.child p).2 ((params.zip args).foldl (defineArg (M.scopes.child p).2)
        { M with scopes := (M.scopes.child p).1 }) ∧
      Tethered ((params.zip args).foldl (defineArg (M.scopes.child p).2)
        { M with scopes := (M.scopes.child p).1 }) ∧
      M.scopes.KeepsKeywords ((params.zip args).foldl (defineArg (M.scopes.child p).2)
        { M with scopes := (M.scopes.child p).1 }).scopes ∧
      ((params.zip args).foldl (defineArg (M.scopes.child p).2)
        { M with scopes := (M.scopes.child p).1 }).scopes.Hosts (M.scopes.child p).2
        (a.map Anchor.out) := by
  obtain ⟨hm1, ho1⟩ := hm.child hp
  obtain ⟨hk1, ht1, hh1⟩ := opened hm ht hp hh
  obtain ⟨hm2, ho2⟩ := ho1.defineArgs _ hm1 fun x hx => (hargs.good.zip params x hx).opens ho1
  -- binding the arguments touches only bindable names, so `this` and `super` stay
  obtain ⟨ht2, hsh2, hk2⟩ := defineArgs_tethered (c := (M.scopes.child p).2) (params.zip args)
    (fun x hx => hps x.1 (List.of_mem_zip hx).1) hm1.wf ht1
    fun x hx => Value.Tethered.keep hm.wf (hm.wf.steady_child p) (hargs x.2 (List.of_mem_zip hx).2)
  refine ⟨hm2, ho2, ht2,
    hk1.trans (fun t _ x hx => hk2 t x hx) fun t h => hm.wf.live_child.2 (.inl h), ?_⟩
  exact Hosts.keep hm1.wf (fun t h => hsh2.live_iff.2 h) (fun t _ => hsh2.parentOf_eq t)
    (fun t _ x hx => hk2 t x hx) (hm.wf.live_child.2 (.inr rfl)) hh1

/-- A call's scope of parameters, opened under a scope in use that hosts `a`, with the arguments
bound in it and the body run there, then released: what every scope in use binds to `this` and
`super` stays, every value stays tethered, and so does what the body returns. -/
theorem Receiving.params (ih : Receiving n) {M : Machine} (hm : Sound M) (ht : Tethered M)
    {p : Nat} (hp : M.scopes.Live p) {a : Option Anchor} (hh : M.scopes.Hosts p a)
    {params : List Token} (hps : Binders params) {body : List Stmt}
    (hbody : ∀ s ∈ body, Stmt.Anchored .resolved (a.map Anchor.out) s) {args : List Value}
    (hargs : AllTied M args) :
    let c := (M.scopes.child p).2
    let B := exec (execBlock n body c)
      ((params.zip args).foldl (defineArg c) { M with scopes := (M.scopes.child p).1 })
    Sound { B.2 with scopes := B.2.scopes.release c } ∧
      Frame M { B.2 with scopes := B.2.scopes.release c } ∧
      M.scopes.KeepsKeywords (B.2.scopes.release c) ∧
      Tethered { B.2 with scopes := B.2.scopes.release c } ∧
      ∀ v, returnOf B.1 = .ok v → Tied { B.2 with scopes := B.2.scopes.release c } v := by
  intro c B
  obtain ⟨hm2, ho2, ht2, hk12, hh2⟩ := params_entry hm ht hp hh hps hargs
  have hc2 := (ho2.live_iff c).2 (.inr rfl)
  obtain ⟨hk3, ht3, hok3⟩ := ih.block _ body c _ hm2 ht2 hc2 hh2 hbody
  obtain ⟨hm3, hf3, -⟩ := (balanced n).block body c _ hm2 hc2
  obtain ⟨hm4, hf4⟩ := ho2.release hm hf3 hm3
  obtain ⟨hk4, ht4, hst4⟩ := Tethers.released ho2 hk12 hf3 hm3 hk3 ht3
  exact ⟨hm4, hf4, hk4, ht4, fun v hv => Value.Tethered.keep hm3.wf hst4 (returnOf_tied hok3 v hv)⟩

theorem Receiving.body_succ (ih : Receiving n) (name : Option String) (params : List Token)
    (body : List Stmt) (scope : Nat) (receiver : Option Value) (isInit : Bool) (args : List Value)
    (m : Machine) (hm : Sound m) (ht : Tethered m)
    (hf : Callable.Tethered m.scopes (.closure name params body scope receiver isInit))
    (hargs : AllTied m args) : Tethers (runBody (n + 1) params body scope receiver args) Tied m := by
  unfold Tethers
  cases hf with
  | free hs hps hbody hh =>
    rw [exec_runBody_none]
    exact (ih.params hm ht (hm.wf.live_of_pinned hs) hh hps hbody hargs).2.2
  | bound hmem hthis =>
    rename_i this sup
    obtain ⟨-, hs, hps, hbody, hsup⟩ := hmem
    rw [exec_runBody_some]
    dsimp only
    -- the scope of `this` opens under the member's scope, the call's scope under it
    obtain ⟨hm1, ho1⟩ := hm.child (hm.wf.live_of_pinned hs)
    have hr1 : Sound (openReceiver scope this m) :=
      (hm1.define fun y hy => by cases hy; exact Good.opens ho1 (Value.Tethered.fns hthis)).1
    have ho1' : Opens m (m.scopes.child scope).2 (openReceiver scope this m) := ho1.define _ _ _
    obtain ⟨hk1, ht1, hh1⟩ := openReceiver_hosts hm ht hs hsup hthis
    obtain ⟨hm2, hf2, hk2, ht2, hok2⟩ := ih.params hr1 ht1 ((ho1'.live_iff _).2 (.inr rfl)) hh1
      hps (a := some ⟨0, sup.isSome⟩) hbody
      fun v hv => Value.Tethered.keep hm.wf (steady_openReceiver hm.wf scope this) (hargs v hv)
    obtain ⟨hk3, ht3, hst3⟩ := Tethers.released ho1' hk1 hf2 hm2 hk2 ht2
    exact ⟨hk3, ht3, fun v hv => Value.Tethered.keep hm2.wf hst3 (hok2 v hv)⟩

theorem Receiving.call_succ (ih : Receiving n) (f : Callable) (args : List Value) (m : Machine)
    (hm : Sound m) (ht : Tethered m) (hf : Callable.Tethered m.scopes f) (hargs : AllTied m args) :
    Tethers (callFunction (n + 1) f args) Tied m := by
  cases f with
  | native name arity =>
    simp only [callFunction]
    refine (Tethers.get ht).bind (Framed.get hm) fun _ m1 _ _ _ ht1 _ _ => ?_
    exact Tethers.pure ht1 (.number _)
  | closure name params body scope receiver isInit =>
    have hbody := ih.body name params body scope receiver isInit args m hm ht hf hargs
    cases receiver with
    | some this =>
      have hthis : Tied m this := by cases hf with | bound _ h => exact h
      simp only [callFunction]
      split
      · refine hbody.bind ((balanced n).body params body scope _ args m hm ?_
          (fun r hr => by cases hr; exact hthis.good) hargs.good)
          fun _ m1 _ hf1 hk1 ht1 _ _ => ?_
        · cases hf with | bound hmem _ => exact hmem.2.1
        · exact Tethers.pure ht1 (hthis.frame hm.wf hf1 hk1)
      · exact hbody
    | none =>
      simp only [callFunction]
      split
      · exact Tethers.fail ht _
      · exact hbody

theorem Receiving.callee (ih : Receiving n) (c : Callee) (args : List Value) (m : Machine)
    (hm : Sound m) (ht : Tethered m) (hc : CalleeTethered m c) (hargs : AllTied m args) :
    Tethers (runCallee n args c) Tied m := by
  cases c with
  | function f => exact ih.call f args m hm ht hc hargs
  | classOf c => exact ih.construct c args m hm ht hc hargs

theorem Receiving.invoke_succ (ih : Receiving n) (c : Callee) (paren : Token) (args : List Value)
    (m : Machine) (hm : Sound m) (ht : Tethered m) (hc : CalleeTethered m c)
    (hargs : AllTied m args) : Tethers (Eval.invoke (n + 1) c paren args) Tied m := by
  unfold Tethers
  rw [exec_invoke]
  split
  · exact ⟨.refl _, ht, fun _ h => by cases h⟩
  split
  · exact ⟨.refl _, ht, fun _ h => by cases h⟩
  -- the callee runs one call deeper; depth is no part of what is tethered
  rename_i hd
  obtain ⟨hk, ht1, hok⟩ := ih.callee c args { m with depth := m.depth + 1 }
    (hm.withDepth (by omega)) (ht.of_eq rfl rfl) hc hargs
  exact ⟨hk, ht1.of_eq rfl rfl, hok⟩

theorem Receiving.construct_succ (ih : Receiving n) (c : ClassDef) (args : List Value)
    (m : Machine) (hm : Sound m) (ht : Tethered m) (hc : ClassDef.Tethered m.scopes c)
    (hargs : AllTied m args) : Tethers (Eval.construct (n + 1) c args) Tied m := by
  simp only [Eval.construct]
  refine (Tethers.newInstance ht hc).bind (Framed.newInstance hm (ClassDef.Tethered.fns hc))
    fun inst m1 hm1 hf1 hk1 ht1 hinst _ => ?_
  have hc1 := ClassDef.Tethered.keep hm.wf (hf1.steady hm.wf hk1) hc
  have hargs1 := hargs.frame hm.wf hf1 hk1
  split
  · rename_i init hinit
    refine (ih.call _ args m1 hm1 ht1 (hc1.bind hinit hinst) hargs1).bind
      ((balanced n).call _ args m1 hm1 (Callable.Tethered.fns (hc1.bind hinit hinst)) hargs1.good)
      fun _ m2 _ hf2 hk2 ht2 _ _ => ?_
    exact Tethers.pure ht2 (hinst.frame hm1.wf hf2 hk2)
  · exact Tethers.pure ht1 hinst

/-- A method bound to a tethered receiver, as a fresh function value. -/
theorem Tethers.boundMethod (hm : Sound m) (ht : Tethered m) {c : ClassDef} {kind : MemberKind}
    {name : String} {f : Callable} {r : Value} (hc : ClassDef.Tethered m.scopes c)
    (hf : c.find kind name = some f) (hr : Tied m r) :
    Tethers (do return Value.function (← Eval.stamp) (f.bind r)) Tied m :=
  (Tethers.stamp ht).bind (Framed.stamp hm) fun k _ _ hf1 hk1 ht1 _ _ =>
    Tethers.pure ht1 (Tied.frame hm.wf hf1 hk1 (.function k (hc.bind hf hr)))

theorem Receiving.instanceProperty_succ (ih : Receiving n) (i : Nat) (c : ClassDef) (name : Token)
    (m : Machine) (hm : Sound m) (ht : Tethered m) (hc : ClassDef.Tethered m.scopes c) :
    Tethers (Eval.instanceProperty (n + 1) i c name) Tied m := by
  simp only [Eval.instanceProperty]
  refine (Tethers.field? ht i name.lexeme).bind (Framed.field? hm i name.lexeme)
    fun o m1 hm1 hf1 hk1 ht1 ho _ => ?_
  have hc1 := ClassDef.Tethered.keep hm.wf (hf1.steady hm.wf hk1) hc
  have hthis : Tied m1 (.instanceRef i c) := .instanceRef i hc1
  split
  · exact Tethers.pure ht1 (ho _ rfl)
  · split
    · rename_i g hg
      exact ih.invoke _ name [] m1 hm1 ht1 (hc1.bind hg hthis) fun _ h => by cases h
    · split
      · exact Tethers.boundMethod hm1 ht1 hc1 ‹_› hthis
      · exact Tethers.fail ht1 _

theorem Receiving.staticProperty_succ (ih : Receiving n) (s : Nat) (c : ClassDef) (name : Token)
    (m : Machine) (hm : Sound m) (ht : Tethered m) (hc : ClassDef.Tethered m.scopes c) :
    Tethers (Eval.staticProperty (n + 1) s c name) Tied m := by
  simp only [Eval.staticProperty]
  have hthis : Tied m (.classRef s c) := .classRef s hc
  split
  · rename_i g hg
    exact ih.invoke _ name [] m hm ht (hc.bind hg hthis) fun _ h => by cases h
  · split
    · exact Tethers.boundMethod hm ht hc ‹_› hthis
    · exact Tethers.fail ht _

theorem Receiving.superMember_succ (ih : Receiving n) (keyword : Reference) (member : Token)
    (m : Machine) (hm : Sound m) (ht : Tethered m) :
    Tethers (Eval.superMember (n + 1) keyword member) Tied m := by
  simp only [Eval.superMember]
  split
  · exact Tethers.fail ht _
  · refine (Tethers.get ht).bind (Framed.get hm) fun a m1 hm1 _ _ ht1 (ha : a = m1) _ => ?_
    subst ha
    refine (show Tethers _ Tied _ from Tethers.ofExcept ht1 fun v hv => ht1.scopes.getAt hv).bind
      (Framed.ofExcept hm1 fun v hv => hm1.values.scopes.getAt hv)
      fun v m2 hm2 _ _ ht2 hv _ => ?_
    split
    · rename_i k sup _
      have hsup : ClassDef.Tethered m2.scopes sup := by
        cases hv with
        | classRef _ h => exact h
      split
      · exact Tethers.fail ht2 _
      · refine (Tethers.get ht2).bind (Framed.get hm2) fun a m3 hm3 hf3 hk3 ht3 (ha : a = m3) _ => ?_
        subst ha
        have hsup3 := ClassDef.Tethered.keep hm2.wf (hf3.steady hm2.wf hk3) hsup
        refine (show Tethers _ Tied _ from Tethers.ofExcept ht3 fun v hv => ht3.scopes.getAt hv).bind
          (Framed.ofExcept hm3 fun v hv => hm3.values.scopes.getAt hv)
          fun r m4 hm4 hf4 hk4 ht4 hr _ => ?_
        have hsup4 := ClassDef.Tethered.keep hm3.wf (hf4.steady hm3.wf hk4) hsup3
        split
        · rename_i g hg
          exact ih.invoke _ member [] m4 hm4 ht4 (hsup4.bind hg hr) fun _ h => by cases h
        · split
          · exact Tethers.boundMethod hm4 ht4 hsup4 ‹_› hr
          · exact Tethers.fail ht4 _
    · exact Tethers.fail ht2 _

/-! ## Statements -/

theorem FlowTied.steady (hA : m.scopes.WF) (h : m.scopes.Steady m'.scopes) {fl : Flow}
    (hfl : FlowTied m fl) : FlowTied m' fl := by
  cases fl with
  | returned v => exact Value.Tethered.keep hA h hfl
  | _ => trivial

/-- A run in a new scope under a scope in use that hosts `a`, released afterwards however the
run ends; the run starts where the new scope hosts `a` one scope further out. -/
theorem Tethers.scoped {p : Nat} {k : Nat → Eval Flow} (hm : Sound m) (ht : Tethered m)
    (hp : m.scopes.Live p) {a : Option Anchor} (hh : m.scopes.Hosts p a)
    (hk : Tethered { m with scopes := (m.scopes.child p).1 } →
      (m.scopes.child p).1.Hosts (m.scopes.child p).2 (a.map Anchor.out) →
      Tethers (k (m.scopes.child p).2) FlowTied { m with scopes := (m.scopes.child p).1 })
    (hkf : Framed (k (m.scopes.child p).2) FlowGood { m with scopes := (m.scopes.child p).1 }) :
    Tethers (do
      let c ← childOf p
      let r ← attempt (k c)
      release c
      resume r) FlowTied m := by
  unfold Tethers
  simp only [exec_bind, exec_childOf, exec_attempt, exec_release, exec_resume]
  obtain ⟨-, ho1⟩ := hm.child hp
  obtain ⟨hk1, ht1, hh1⟩ := opened hm ht hp hh
  obtain ⟨hm2, hf2, -⟩ := hkf
  obtain ⟨hk2, ht2, hok2⟩ := hk ht1 hh1
  obtain ⟨hk3, ht3, hst3⟩ := Tethers.released ho1 hk1 hf2 hm2 hk2 ht2
  exact ⟨hk3, ht3, fun fl h => FlowTied.steady hm2.wf hst3 (hok2 fl h)⟩

/-- The scope of `super` in a class declaration: opened under the declaring scope, binding
`super` to the superclass, and pinned. -/
theorem Tethers.superScope {p : Nat} {v : Value} {k : Nat → Eval Flow} (hm : Sound m)
    (ht : Tethered m) (hp : m.scopes.Live p) (hv : Tied m v)
    (hk : ∀ m', Sound m' → Frame m m' → m.scopes.KeepsKeywords m'.scopes → Tethered m' →
      m'.scopes.pinnedAt (m.scopes.child p).2 = true →
      m'.scopes.BindsAt (m.scopes.child p).2 0 "super" v →
      Tethers (k (m.scopes.child p).2) FlowTied m') :
    Tethers (do
      let sc ← childOf p
      Eval.define sc "super" (some v)
      let scope ← Pure.pure sc
      Eval.pin scope
      k scope) FlowTied m := by
  unfold Tethers
  simp only [exec_bind, exec_childOf, exec_define, exec_pure, exec_pin]
  have hA := hm.wf
  obtain ⟨hm1, ho1⟩ := hm.child hp
  have hd : Sound { m with scopes := (m.scopes.child p).1.define (m.scopes.child p).2 "super" (some v) } ∧
      Frame { m with scopes := (m.scopes.child p).1 }
        { m with scopes := (m.scopes.child p).1.define (m.scopes.child p).2 "super" (some v) } :=
    hm1.define fun x hx => by cases hx; exact Good.opens ho1 (Value.Tethered.fns hv)
  have hc := hd.2.live _ ((ho1.live_iff _).2 (.inr rfl))
  obtain ⟨hm3, hf3⟩ := hd.1.pin hc
  have hfr := ho1.frame_of_pinned (hd.2.trans hf3) (Scopes.pinnedAt_pin hc)
  have hpins := pins_pin ((m.scopes.child p).1.define (m.scopes.child p).2 "super" (some v))
    (m.scopes.child p).2
  -- the new scope was not in use, so every scope in use keeps what it binds
  have hk3 : m.scopes.KeepsKeywords
      (((m.scopes.child p).1.define (m.scopes.child p).2 "super" (some v)).pin (m.scopes.child p).2) := by
    intro t htl x _
    have htc : t ≠ (m.scopes.child p).2 := fun e => not_live_child (A := m.scopes) p (e ▸ htl)
    rw [hpins.binding_eq, binding_define_ne htc, hA.binding_child htl]
  have hst := ((hA.steady_child p).trans (steady_define_unpinned (hA.pinnedAt_new p) _ _)).trans
    (hpins.steady (A := (m.scopes.child p).1.define (m.scopes.child p).2 "super" (some v)))
  obtain ⟨sc, hsc⟩ := Live.getElem? (hA.live_child.2 (.inr rfl) :
    (m.scopes.child p).1.Live (m.scopes.child p).2)
  obtain ⟨hk4, ht4, hok4⟩ := hk _ hm3 hfr hk3
    (Tethered.keep hA hst ⟨(ht.scopes.child.define fun x hx => by cases hx; exact hv).pins hpins,
      ht.fields⟩)
    (Scopes.pinnedAt_pin hc) ⟨_, rfl, (hpins.binding_eq _ _).trans (binding_define_self hsc _ _)⟩
  exact ⟨hk3.trans hk4 hfr.live, ht4, hok4⟩

/-- A class declared with its members closed over a pinned scope that binds `super` to the
superclass, if any, their parameters bindable and their bodies anchored at the anchor of a
member, is tethered. -/
theorem classDef_tethered {A : Scopes} {name : String} {sup : Option ClassDef} {scope : Nat}
    {ms gs ss sgs : List FunDecl}
    (hsup : ∀ c, sup = some c → ClassDef.Tethered A c ∧
      ∃ k, A.BindsAt scope 0 "super" (.classRef k c))
    (hscope : A.pinnedAt scope = true) (hparams : ∀ f ∈ ms ++ gs ++ ss ++ sgs, Binders f.params)
    (hbodies : ∀ f ∈ ms ++ gs ++ ss ++ sgs, ∀ s ∈ f.body,
      Stmt.Anchored .resolved (some (.member sup.isSome)) s) :
    ClassDef.Tethered A (.mk name sup (memberTable scope true ms) (memberTable scope false gs)
      (memberTable scope false ss) (memberTable scope false sgs)) := by
  have hdecl : ∀ (init : Bool) (ds : List FunDecl), (∀ d ∈ ds, d ∈ ms ++ gs ++ ss ++ sgs) →
      ∀ e ∈ memberTable scope init ds, Callable.MemberOf A sup e.2 := fun init ds hds =>
    memberTable_all _ fun d hd => ⟨rfl, hscope, hparams d (hds d hd), hbodies d (hds d hd),
      fun c hc => (hsup c hc).2⟩
  refine .mk (fun c hc => (hsup c hc).1) fun kind => ?_
  cases kind <;> exact hdecl _ _ fun d hd => by simp [hd]

/-- The last step of a class declaration: the class becomes the value of its name. -/
theorem Tethers.declareClass (hm : Sound m) (ht : Tethered m) {here scope : Nat} {name : String}
    (hname : Bindable name) {sup : Option ClassDef} {ms gs ss sgs : List FunDecl}
    (hsup : ∀ c, sup = some c → ClassDef.Tethered m.scopes c ∧
      ∃ k, m.scopes.BindsAt scope 0 "super" (.classRef k c))
    (hscope : m.scopes.pinnedAt scope = true)
    (hparams : ∀ f ∈ ms ++ gs ++ ss ++ sgs, Binders f.params)
    (hbodies : ∀ f ∈ ms ++ gs ++ ss ++ sgs, ∀ s ∈ f.body,
      Stmt.Anchored .resolved (some (.member sup.isSome)) s) :
    Tethers (do
      let s ← Eval.stamp
      Eval.define here name (some (.classRef s (.mk name sup (memberTable scope true ms)
        (memberTable scope false gs) (memberTable scope false ss) (memberTable scope false sgs))))
      Pure.pure Flow.normal) FlowTied m := by
  refine (Tethers.stamp ht).bind (Framed.stamp hm) fun k m1 hm1 hf1 hk1 ht1 _ _ => ?_
  have hst := hf1.steady hm.wf hk1
  have hc : ClassDef.Tethered m1.scopes (.mk name sup (memberTable scope true ms)
      (memberTable scope false gs) (memberTable scope false ss) (memberTable scope false sgs)) :=
    classDef_tethered (fun c hc => ⟨ClassDef.Tethered.keep hm.wf hst (hsup c hc).1,
      (hsup c hc).2.imp fun _ h => hst.bindsAt hm.wf hscope not_bindable_super h⟩)
    (hst.keeps.pinned _ hscope) hparams hbodies
  refine (Tethers.define hm1.wf ht1 here hname fun x hx => by cases hx; exact .classRef k hc).bind
    (Framed.define hm1 fun x hx => by cases hx; exact Value.Tethered.fns (.classRef k hc))
    fun _ m2 _ _ _ ht2 _ _ => ?_
  exact Tethers.pure ht2 trivial

theorem Receiving.block_succ (ih : Receiving n) (a : Option Anchor) (body : List Stmt)
    (scope : Nat) (m : Machine) (hm : Sound m) (ht : Tethered m) (hs : m.scopes.Live scope)
    (hh : m.scopes.Hosts scope a) (hbody : ∀ s ∈ body, Stmt.Anchored .resolved a s) :
    Tethers (execBlock (n + 1) body scope) FlowTied m := by
  unfold Tethers
  rw [exec_execBlock]
  obtain ⟨hk1, ht1, hok1⟩ := ih.stmts a body _ (hm.setCurrent hs) (ht.of_eq rfl rfl) hh hbody
  exact ⟨hk1, ht1.of_eq rfl rfl, fun fl h => hok1 fl h⟩

theorem Receiving.stmts_succ (ih : Receiving n) (a : Option Anchor) (ss : List Stmt) (m : Machine)
    (hm : Sound m) (ht : Tethered m) (hh : m.scopes.Hosts m.current a)
    (hss : ∀ s ∈ ss, Stmt.Anchored .resolved a s) :
    Tethers (execStmts (n + 1) ss) FlowTied m := by
  cases ss with
  | nil =>
    simp only [execStmts]
    exact Tethers.pure ht trivial
  | cons s ss =>
    simp only [execStmts]
    refine (ih.stmt a s m hm ht hh (hss s List.mem_cons_self)).bind ((balanced n).stmt s m hm)
      fun fl m1 hm1 hf1 hk1 ht1 hfl _ => ?_
    split
    · exact ih.stmts a ss m1 hm1 ht1 (Hosts.frame_current hm hf1 hk1 hh)
        fun x hx => hss x (List.mem_cons_of_mem _ hx)
    · exact Tethers.pure ht1 hfl

theorem Receiving.loop_succ (ih : Receiving n) (a : Option Anchor) (c : Expr) (body : Stmt)
    (m : Machine) (hm : Sound m) (ht : Tethered m) (hh : m.scopes.Hosts m.current a)
    (hc : Expr.Anchored .resolved a c) (hbody : Stmt.Anchored .resolved a body) :
    Tethers (execWhile (n + 1) c body) FlowTied m := by
  simp only [execWhile]
  refine (ih.expr a c m hm ht hh hc).bind ((balanced n).expr c m hm)
    fun v m1 hm1 hf1 hk1 ht1 _ _ => ?_
  have hh1 := Hosts.frame_current hm hf1 hk1 hh
  split
  · refine (ih.stmt a body m1 hm1 ht1 hh1 hbody).bind ((balanced n).stmt body m1 hm1)
      fun fl m2 hm2 hf2 hk2 ht2 hfl _ => ?_
    split
    · exact ih.loop a c body m2 hm2 ht2 (Hosts.frame_current hm1 hf2 hk2 hh1) hc hbody
    · exact Tethers.pure ht2 trivial
    · exact Tethers.pure ht2 hfl
  · exact Tethers.pure ht1 trivial

theorem Receiving.stmt_succ (ih : Receiving n) (a : Option Anchor) (s : Stmt) (m : Machine)
    (hm : Sound m) (ht : Tethered m) (hh : m.scopes.Hosts m.current a)
    (hs : Stmt.Anchored .resolved a s) : Tethers (execStmt (n + 1) s) FlowTied m := by
  have hb := balanced n
  cases hs with
  | block hbody =>
    rename_i body
    simp only [execStmt]
    refine (Tethers.currentScope ht).bind (Framed.currentScope hm)
      fun p m1 hm1 hf1 hk1 ht1 (hp : p = m1.current) _ => ?_
    subst hp
    obtain ⟨hm2, ho2⟩ := hm1.child hm1.current_live
    have hc2 := (ho2.live_iff _).2 (.inr rfl)
    exact Tethers.scoped hm1 ht1 hm1.current_live (Hosts.frame_current hm hf1 hk1 hh)
      (fun ht2 hh2 => ih.block _ body _ _ hm2 ht2 hc2 hh2 hbody) (hb.block body _ _ hm2 hc2)
  | breakLoop =>
    simp only [execStmt]
    exact Tethers.pure ht trivial
  | classDecl hname hparams hbodies =>
    rename_i name sup methods getters statics staticGetters
    unfold execStmt
    extract_lets tail
    -- the declaration once its superclass, if it names one, is found
    have htail : ∀ o m', Sound m' → Tethered m' →
        (∀ x, o = some x → ClassDef.Tethered m'.scopes x.2) →
        (∀ f ∈ methods ++ getters ++ statics ++ staticGetters, ∀ s ∈ f.body,
          Stmt.Anchored .resolved (some (.member (o.map (·.2)).isSome)) s) →
        Tethers (tail o) FlowTied m' := by
      intro o m1 hm1 ht1 ho hbodies'
      simp only [tail]
      refine (Tethers.currentScope ht1).bind (Framed.currentScope hm1)
        fun here m2 hm2 hf2 hk2 ht2 (hh : here = m2.current) _ => ?_
      subst hh
      refine (Tethers.define hm2.wf ht2 _ hname fun x hx => by cases hx; constructor).bind
        (Framed.define hm2 fun x hx => by cases hx; constructor) fun _ m3 hm3 hf3 hk3 ht3 _ _ => ?_
      have hlive : m3.scopes.Live m2.current := hf3.live _ hm2.current_live
      have ho3 : ∀ x, o = some x → ClassDef.Tethered m3.scopes x.2 := fun x hx =>
        ClassDef.Tethered.keep hm2.wf (hf3.steady hm2.wf hk3)
          (ClassDef.Tethered.keep hm1.wf (hf2.steady hm1.wf hk2) (ho x hx))
      split
      · rename_i sc c
        refine Tethers.superScope hm3 ht3 hlive (.classRef sc (ho3 _ rfl))
          fun m4 hm4 hf4 hk4 ht4 hpin hsup => ?_
        exact Tethers.declareClass hm4 ht4 hname (fun x hx => by
          cases hx
          exact ⟨ClassDef.Tethered.keep hm3.wf (hf4.steady hm3.wf hk4) (ho3 _ rfl), sc, hsup⟩)
          hpin hparams hbodies'
      · simp only [pure_bind]
        refine (Tethers.pin hm3.wf ht3 _).bind (Framed.pin hm3 hlive)
          fun _ m4 hm4 _ _ ht4 _ hpin => ?_
        exact Tethers.declareClass hm4 ht4 hname (fun x hx => by cases hx) hpin hparams hbodies'
    clear_value tail
    cases sup with
    | some r =>
      simp only
      refine (Tethers.lookup ht r).bind (Framed.lookup hm r) fun v m1 hm1 _ _ ht1 hv _ => ?_
      split
      · simp only [pure_bind]
        exact htail _ m1 hm1 ht1 (fun x hx => by
          cases hx
          cases hv with
          | classRef _ hc => exact hc) hbodies
      · exact Tethers.fail_bind ht1 _ _
    | none =>
      simp only [pure_bind]
      exact htail none m hm ht (fun x hx => by cases hx) hbodies
  | expression he =>
    rename_i e
    simp only [execStmt]
    refine (ih.expr a e m hm ht hh he).bind (hb.expr e m hm) fun _ m1 _ _ _ ht1 _ _ => ?_
    exact Tethers.pure ht1 trivial
  | function hname hps hbody =>
    rename_i name params body
    simp only [execStmt]
    refine (Tethers.currentScope ht).bind (Framed.currentScope hm)
      fun p m1 hm1 hf1 hk1 ht1 (hp : p = m1.current) _ => ?_
    subst hp
    have hh1 := Hosts.frame_current hm hf1 hk1 hh
    refine (Tethers.pin hm1.wf ht1 _).bind (Framed.pin hm1 hm1.current_live)
      fun _ m2 hm2 hf2 hk2 ht2 _ hpin => ?_
    have hh2 := Hosts.frame hm1.wf hf2 hk2 hm1.current_live hh1
    refine (Tethers.stamp ht2).bind (Framed.stamp hm2) fun k m3 hm3 hf3 hk3 ht3 _ _ => ?_
    have hf : Callable.Tethered m3.scopes
        (.closure (some name.lexeme) params body m1.current none false) :=
      .free (hf3.pinned _ hpin) hps hbody
        (Hosts.frame hm2.wf hf3 hk3 (hm2.wf.live_of_pinned hpin) hh2)
    refine (Tethers.define hm3.wf ht3 _ hname fun x hx => by cases hx; exact .function k hf).bind
      (Framed.define hm3 fun x hx => by cases hx; exact Value.Tethered.fns (.function k hf))
      fun _ m4 _ _ _ ht4 _ _ => ?_
    exact Tethers.pure ht4 trivial
  | ifElse hc ht' he =>
    rename_i c t e
    cases e with
    | some e =>
      simp only [execStmt]
      refine (ih.expr a c m hm ht hh hc).bind (hb.expr c m hm) fun _ m1 hm1 hf1 hk1 ht1 _ _ => ?_
      have hh1 := Hosts.frame_current hm hf1 hk1 hh
      split
      · exact ih.stmt a t m1 hm1 ht1 hh1 ht'
      · exact ih.stmt a e m1 hm1 ht1 hh1 (he e rfl)
    | none =>
      simp only [execStmt]
      refine (ih.expr a c m hm ht hh hc).bind (hb.expr c m hm) fun _ m1 hm1 hf1 hk1 ht1 _ _ => ?_
      split
      · exact ih.stmt a t m1 hm1 ht1 (Hosts.frame_current hm hf1 hk1 hh) ht'
      · exact Tethers.pure ht1 trivial
  | print he =>
    rename_i e
    simp only [execStmt]
    refine (ih.expr a e m hm ht hh he).bind (hb.expr e m hm) fun v m1 hm1 _ _ ht1 _ _ => ?_
    refine (Tethers.emit ht1 _).bind (Framed.emit hm1 _) fun _ m2 _ _ _ ht2 _ _ => ?_
    exact Tethers.pure ht2 trivial
  | returnFrom he =>
    rename_i keyword v
    cases v with
    | some e =>
      simp only [execStmt]
      refine (ih.expr a e m hm ht hh (he e rfl)).bind (hb.expr e m hm)
        fun v m1 _ _ _ ht1 hv _ => ?_
      exact Tethers.pure ht1 hv
    | none =>
      simp only [execStmt]
      exact Tethers.pure ht .nil
  | varDecl hname he =>
    rename_i name init
    cases init with
    | some e =>
      simp only [execStmt, map_eq_pure_bind, bind_assoc, pure_bind]
      refine (ih.expr a e m hm ht hh (he e rfl)).bind (hb.expr e m hm)
        fun v m1 hm1 _ _ ht1 hv _ => ?_
      refine (Tethers.currentScope ht1).bind (Framed.currentScope hm1)
        fun p m2 hm2 hf2 hk2 ht2 (hp : p = m2.current) _ => ?_
      subst hp
      refine (Tethers.define hm2.wf ht2 _ hname fun x hx => by
        cases hx; exact hv.frame hm1.wf hf2 hk2).bind
        (Framed.define hm2 fun x hx => by cases hx; exact (hv.frame hm1.wf hf2 hk2).good)
        fun _ m3 _ _ _ ht3 _ _ => ?_
      exact Tethers.pure ht3 trivial
    | none =>
      simp only [execStmt, pure_bind]
      refine (Tethers.currentScope ht).bind (Framed.currentScope hm)
        fun p m1 hm1 _ _ ht1 (hp : p = m1.current) _ => ?_
      subst hp
      refine (Tethers.define hm1.wf ht1 _ hname fun x hx => by cases hx).bind
        (Framed.define hm1 fun x hx => by cases hx) fun _ m2 _ _ _ ht2 _ _ => ?_
      exact Tethers.pure ht2 trivial
  | whileLoop hc hbody =>
    rename_i c body
    simp only [execStmt]
    exact ih.loop a c body m hm ht hh hc hbody

/-- Out of fuel, every part of evaluation stops at once, changing nothing. -/
theorem receiving_zero : Receiving 0 where
  expr _ _ _ _ ht _ _ := by simp only [evalExpr]; exact Tethers.throw ht _
  args _ _ _ _ ht _ _ := by simp only [evalArgs]; exact Tethers.throw ht _
  invoke _ _ _ _ _ ht _ _ := by simp only [Eval.invoke]; exact Tethers.throw ht _
  call _ _ _ _ ht _ _ := by simp only [callFunction]; exact Tethers.throw ht _
  body _ _ _ _ _ _ _ _ _ ht _ _ := by simp only [runBody]; exact Tethers.throw ht _
  construct _ _ _ _ ht _ _ := by simp only [Eval.construct]; exact Tethers.throw ht _
  instanceProperty _ _ _ _ _ ht _ := by simp only [Eval.instanceProperty]; exact Tethers.throw ht _
  staticProperty _ _ _ _ _ ht _ := by simp only [Eval.staticProperty]; exact Tethers.throw ht _
  superMember _ _ _ _ ht := by simp only [Eval.superMember]; exact Tethers.throw ht _
  stmt _ _ _ _ ht _ _ := by simp only [execStmt]; exact Tethers.throw ht _
  loop _ _ _ _ _ ht _ _ _ := by simp only [execWhile]; exact Tethers.throw ht _
  block _ _ _ _ _ ht _ _ _ := by simp only [execBlock]; exact Tethers.throw ht _
  stmts _ _ _ _ ht _ _ := by simp only [execStmts]; exact Tethers.throw ht _

/-- Every part of evaluation, at any fuel, run from a sound machine whose values are tethered, on
anchored code from a scope that hosts its anchor, keeps what every scope in use binds to `this`
and `super`, leaves every value the machine keeps tethered, and gives back tethered values. -/
theorem receiving : ∀ n, Receiving n
  | 0 => receiving_zero
  | n + 1 =>
    have ih := receiving n
    { expr := ih.expr_succ
      args := ih.args_succ
      invoke := ih.invoke_succ
      call := ih.call_succ
      body := ih.body_succ
      construct := ih.construct_succ
      instanceProperty := ih.instanceProperty_succ
      staticProperty := ih.staticProperty_succ
      superMember := ih.superMember_succ
      stmt := ih.stmt_succ
      loop := ih.loop_succ
      block := ih.block_succ
      stmts := ih.stmts_succ }

end Machine

end Lox
