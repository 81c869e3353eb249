import Lox.Proofs.Arena
/-!
# Disciplined use of the scope arena

A client of the arena issues requests: open a scope under a parent, declare, read and assign
names, pin and release scopes, and ask for the count of scopes in use or the names of one. The
client is disciplined when every request names a scope in use, and a scope it releases is pinned
or the parent of no scope in use, as blocks and calls do. `Scopes.Reachable` collects the arenas
such a client reaches from a fresh one.

The lineage of a scope is the list of scopes from it out along parents. Scopes in use form a
tree under the globals (`Scopes.Rooted`): every lineage of a scope in use is made of scopes in
use, has no repetition and ends at the globals. A new scope is a fresh leaf, and a released one
is a leaf, so each request keeps the tree.

## Main statements

* `Scopes.Reachable.dependable`: every reachable arena is `Dependable`. Its free list holds
  each unused slot once, so the count of slots in use is exact; lookups, assignments and pins
  walk lineages and end before their fuel does; pins are closed along lineages and never lost,
  and a pinned scope is never reused, emptied or freed; a new scope takes a slot not in use
  and leaves every scope in use as it was.
-/

namespace Lox

namespace Scopes

/-! ## Requests -/

/-- A request to the arena. -/
inductive Request where
  | child (parent : Nat)
  | define (scope : Nat) (name : String) (value : Option Value)
  | get (scope : Nat) (name : Token)
  | getAt (scope hops : Nat) (name : Token)
  | assign (scope : Nat) (name : Token) (value : Value)
  | assignAt (scope hops : Nat) (name : Token) (value : Value)
  | pin (scope : Nat)
  | release (scope : Nat)
  | len
  | names (scope : Nat)

/-- The arena after a request. Reads leave it as it is, and so does a failed assignment. -/
def perform (A : Scopes) : Request → Scopes
  | .child p => (A.child p).1
  | .define s name v => A.define s name v
  | .assign s name v =>
    match A.assign s name v with
    | .ok B => B
    | .error _ => A
  | .assignAt s hops name v =>
    match A.assignAt s hops name v with
    | .ok B => B
    | .error _ => A
  | .pin s => A.pin s
  | .release s => A.release s
  | .get _ _ | .getAt _ _ _ | .len | .names _ => A

@[simp] theorem perform_child (A : Scopes) (p : Nat) : A.perform (.child p) = (A.child p).1 := rfl

@[simp] theorem perform_define (A : Scopes) (s : Nat) (name : String) (v : Option Value) :
    A.perform (.define s name v) = A.define s name v := rfl

@[simp] theorem perform_pin (A : Scopes) (s : Nat) : A.perform (.pin s) = A.pin s := rfl

@[simp] theorem perform_release (A : Scopes) (s : Nat) : A.perform (.release s) = A.release s :=
  rfl

/-- The scope `s` is the parent of no scope in use. -/
def Childless (A : Scopes) (s : Nat) : Prop := ∀ t, A.Live t → A.parentOf t ≠ some s

/-- The discipline of a client: a request names scopes in use, and a released scope is pinned
or the parent of no scope in use. -/
def Request.Allowed (A : Scopes) : Request → Prop
  | .child p => A.Live p
  | .define s _ _ | .get s _ | .getAt s _ _ | .assign s _ _ | .assignAt s _ _ _ | .pin s
  | .names s => A.Live s
  | .release s => A.Live s ∧ (A.pinnedAt s = true ∨ A.Childless s)
  | .len => True

/-- The arenas a disciplined client reaches from a fresh one. -/
inductive Reachable : Scopes → Prop
  | new : Reachable new
  | step {A : Scopes} {r : Request} : Reachable A → r.Allowed A → Reachable (A.perform r)

/-- The number of slots in use. -/
def liveCount (A : Scopes) : Nat := (List.range A.slots.size).countP fun s => !A.free.contains s

variable {A B : Scopes} {s t p : Nat} {l l' : List Nat}

/-! ## Lineages -/

/-- `l` is the lineage of `s`: the scopes from `s` out along parents, up to one with none. -/
inductive Lineage (A : Scopes) : Nat → List Nat → Prop
  | last {s : Nat} : A.parentOf s = none → Lineage A s [s]
  | cons {s p : Nat} {l : List Nat} : A.parentOf s = some p → Lineage A p l →
      Lineage A s (s :: l)

theorem Lineage.eq_cons (h : A.Lineage s l) : ∃ l', l = s :: l' := by
  cases h with
  | last _ => exact ⟨[], rfl⟩
  | cons _ _ => exact ⟨_, rfl⟩

theorem Lineage.unique (h : A.Lineage s l) (h' : A.Lineage s l') : l = l' := by
  induction h generalizing l' with
  | last hp =>
    cases h' with
    | last _ => rfl
    | cons hq _ => simp [hp] at hq
  | cons hp _ ih =>
    cases h' with
    | last hq => simp [hp] at hq
    | cons hq hl' =>
      rw [hp, Option.some.injEq] at hq
      subst hq
      rw [ih hl']

/-- A lineage depends only on the parents of the scopes on it. -/
theorem Lineage.congr (h : A.Lineage s l) (hp : ∀ t ∈ l, B.parentOf t = A.parentOf t) :
    B.Lineage s l := by
  induction h with
  | last hs => exact .last ((hp _ List.mem_cons_self).trans hs)
  | cons hs _ ih =>
    exact .cons ((hp _ List.mem_cons_self).trans hs)
      (ih fun t ht => hp t (List.mem_cons_of_mem _ ht))

/-- Every scope on a lineage but its first is the parent of one on it. -/
theorem Lineage.exists_parent (h : A.Lineage s l) (ht : t ∈ l) (hts : t ≠ s) :
    ∃ u ∈ l, A.parentOf u = some t := by
  induction h with
  | last _ => exact absurd (List.mem_singleton.1 ht) hts
  | @cons s q l hq hl ih =>
    rcases List.mem_cons.1 ht with rfl | ht
    · exact absurd rfl hts
    · by_cases htq : t = q
      · exact ⟨s, List.mem_cons_self, htq ▸ hq⟩
      · obtain ⟨u, hu, hut⟩ := ih ht htq
        exact ⟨u, List.mem_cons_of_mem _ hu, hut⟩

/-- The scopes above a pinned scope are pinned. -/
theorem Lineage.pinned (hA : A.WF) (h : A.Lineage s l) (hs : A.pinnedAt s = true) :
    ∀ t ∈ l, A.pinnedAt t = true := by
  induction h with
  | last _ =>
    intro t ht
    rwa [List.mem_singleton.1 ht]
  | cons hq _ ih =>
    intro t ht
    rcases List.mem_cons.1 ht with rfl | ht
    · exact hs
    · exact ih (hA.parent_pinned _ _ hs hq) t ht

/-- A lineage without repetition inside the arena is no longer than the arena. -/
theorem length_le_of_nodup (hnd : l.Nodup) (hlt : ∀ t ∈ l, t < A.slots.size) :
    l.length ≤ A.slots.size := by
  simpa using hnd.length_le_of_subset fun t ht => List.mem_range.2 (hlt t ht)

/-! ## Walks along a lineage end by themselves -/

theorem Lineage.getFrom_fuel {name : Token} (h : A.Lineage s l) :
    ∀ {fuel}, l.length ≤ fuel → A.getFrom name fuel s = A.getFrom name l.length s := by
  induction h with
  | @last s hp =>
    intro fuel hf
    obtain ⟨f, rfl⟩ : ∃ f, fuel = f + 1 := ⟨fuel - 1, by simp at hf; omega⟩
    cases hs : A.slots[s]? with
    | none => simp [getFrom, hs]
    | some sc =>
      have hpar : sc.parent = none := by simpa [parentOf, hs] using hp
      simp [getFrom, hs, hpar]
  | @cons s q l hq _ ih =>
    intro fuel hf
    obtain ⟨f, rfl⟩ : ∃ f, fuel = f + 1 := ⟨fuel - 1, by simp at hf; omega⟩
    obtain ⟨sc, hs⟩ : ∃ sc, A.slots[s]? = some sc := by
      cases hs : A.slots[s]? with
      | none => simp [parentOf, hs] at hq
      | some sc => exact ⟨sc, rfl⟩
    have hpar : sc.parent = some q := by simpa [parentOf, hs] using hq
    have hf' : l.length ≤ f := by simp at hf; omega
    simp only [getFrom, hs, hpar, List.length_cons, ih hf']

theorem Lineage.assignFrom_fuel {name : Token} {v : Value} (h : A.Lineage s l) :
    ∀ {fuel}, l.length ≤ fuel → A.assignFrom name v fuel s = A.assignFrom name v l.length s := by
  induction h with
  | @last s hp =>
    intro fuel hf
    obtain ⟨f, rfl⟩ : ∃ f, fuel = f + 1 := ⟨fuel - 1, by simp at hf; omega⟩
    cases hs : A.slots[s]? with
    | none => simp [assignFrom, hs]
    | some sc =>
      have hpar : sc.parent = none := by simpa [parentOf, hs] using hp
      simp [assignFrom, hs, hpar]
  | @cons s q l hq _ ih =>
    intro fuel hf
    obtain ⟨f, rfl⟩ : ∃ f, fuel = f + 1 := ⟨fuel - 1, by simp at hf; omega⟩
    obtain ⟨sc, hs⟩ : ∃ sc, A.slots[s]? = some sc := by
      cases hs : A.slots[s]? with
      | none => simp [parentOf, hs] at hq
      | some sc => exact ⟨sc, rfl⟩
    have hpar : sc.parent = some q := by simpa [parentOf, hs] using hq
    have hf' : l.length ≤ f := by simp at hf; omega
    simp only [assignFrom, hs, hpar, List.length_cons, ih hf']

theorem pinFrom_none (slots : Array Scope) (fuel : Nat) : pinFrom slots fuel none = slots := by
  cases fuel <;> rfl

/-- Pinning walks the lineage, in an arena whose pins may differ but whose parents do not. -/
theorem Lineage.pinFrom_fuel (h : A.Lineage s l) :
    ∀ {B : Scopes}, (∀ t, B.parentOf t = A.parentOf t) → ∀ {fuel}, l.length ≤ fuel →
      pinFrom B.slots fuel (some s) = pinFrom B.slots l.length (some s) := by
  induction h with
  | @last s hp =>
    intro B hB fuel hf
    obtain ⟨f, rfl⟩ : ∃ f, fuel = f + 1 := ⟨fuel - 1, by simp at hf; omega⟩
    cases hs : B.slots[s]? with
    | none => simp [pinFrom, hs]
    | some sc =>
      have hpar : sc.parent = none := by simpa [parentOf, hs] using (hB s).trans hp
      simp only [pinFrom_succ_some hs, hpar, pinFrom_none, List.length_singleton]
  | @cons s q l hq _ ih =>
    intro B hB fuel hf
    obtain ⟨f, rfl⟩ : ∃ f, fuel = f + 1 := ⟨fuel - 1, by simp at hf; omega⟩
    obtain ⟨sc, hs⟩ : ∃ sc, B.slots[s]? = some sc := by
      cases hs : B.slots[s]? with
      | none => simpa [parentOf, hs] using (hB s).trans hq
      | some sc => exact ⟨sc, rfl⟩
    have hpar : sc.parent = some q := by simpa [parentOf, hs] using (hB s).trans hq
    have hf' : l.length ≤ f := by simp at hf; omega
    have hB' : ∀ t, (B.setPinned s sc).parentOf t = A.parentOf t :=
      fun t => ((pins_setPinned hs).parentOf_eq t).trans (hB t)
    simp only [pinFrom_succ_some hs, hpar, List.length_cons, ih hB' hf']

/-! ## The tree of scopes in use -/

/-- A well-formed arena whose scopes in use form a tree under the globals: each has a lineage
of scopes in use, without repetition, that ends at the globals. -/
structure Rooted (A : Scopes) : Prop where
  wf : A.WF
  lineage : ∀ s, A.Live s → ∃ l, A.Lineage s l ∧ l.Nodup ∧ (∀ t ∈ l, A.Live t) ∧
    l.getLast? = some globals

theorem rooted_new : new.Rooted := by
  refine ⟨new_wf, fun s hs => ⟨[s], .last ?_, List.nodup_cons.2 ⟨List.not_mem_nil, List.nodup_nil⟩, ?_, ?_⟩⟩
  all_goals
    have hs0 : s = globals := by simpa [Live, new, globals] using hs.1
    subst hs0
  · rfl
  · simpa using hs
  · rfl

/-- Requests that change neither which scopes are in use nor their parents keep the tree. -/
theorem Rooted.of_parents (h : A.Rooted) (hB : B.WF) (hl : ∀ t, B.Live t ↔ A.Live t)
    (hp : ∀ t, B.parentOf t = A.parentOf t) : B.Rooted := by
  refine ⟨hB, fun s hs => ?_⟩
  obtain ⟨l, hls, hnd, hlive, hlast⟩ := h.lineage s ((hl s).1 hs)
  exact ⟨l, hls.congr fun t _ => hp t, hnd, fun t ht => (hl t).2 (hlive t ht), hlast⟩

/-- A new scope is a fresh leaf under a scope in use. -/
theorem Rooted.child (h : A.Rooted) (hp : A.Live p) : (A.child p).1.Rooted := by
  have hA := h.wf
  have hfresh := not_live_child (A := A) p
  -- the parents of the scopes in use stay as they were
  have hold : ∀ t, A.Live t → (A.child p).1.parentOf t = A.parentOf t := fun t ht => by
    rw [hA.parentOf_child, if_neg fun (e : t = (A.child p).2) => hfresh (e ▸ ht)]
  refine ⟨hA.child hp, fun s hs => ?_⟩
  rcases hA.live_child.1 hs with hs | rfl
  · obtain ⟨l, hls, hnd, hlive, hlast⟩ := h.lineage s hs
    exact ⟨l, hls.congr fun t ht => hold t (hlive t ht), hnd,
      fun t ht => hA.live_child.2 (.inl (hlive t ht)), hlast⟩
  · obtain ⟨l, hlp, hnd, hlive, hlast⟩ := h.lineage p hp
    obtain ⟨l', rfl⟩ := hlp.eq_cons
    refine ⟨_ :: p :: l', .cons (by rw [hA.parentOf_child, if_pos rfl])
      (hlp.congr fun t ht => hold t (hlive t ht)), ?_, ?_, by simpa using hlast⟩
    · exact List.nodup_cons.2 ⟨fun hm => hfresh (hlive _ hm), hnd⟩
    · intro t ht
      rcases List.mem_cons.1 ht with rfl | ht
      · exact hA.live_child.2 (.inr rfl)
      · exact hA.live_child.2 (.inl (hlive t ht))

/-- A released scope that is not pinned is a leaf, so no lineage of a scope in use passes it. -/
theorem Rooted.release (h : A.Rooted) (hs : A.Live s)
    (hc : A.pinnedAt s = true ∨ A.Childless s) : (A.release s).Rooted := by
  have hA := h.wf
  cases hpin : A.pinnedAt s
  · have hc : A.Childless s := hc.resolve_left (by simp [hpin])
    refine ⟨hA.release hs fun _ => hc, fun t ht => ?_⟩
    obtain ⟨ht, hts⟩ := (live_release hs).1 ht
    have hts : t ≠ s := fun e => by simp [e, hpin] at hts
    obtain ⟨l, hlt, hnd, hlive, hlast⟩ := h.lineage t ht
    -- `s` is on no lineage of a scope in use: it would be the parent of the scope before it
    have hsl : s ∉ l := fun hm => by
      obtain ⟨u, hu, hus⟩ := hlt.exists_parent hm (Ne.symm hts)
      exact hc u (hlive u hu) hus
    have hne : ∀ u ∈ l, u ≠ s := fun u hu e => hsl (e ▸ hu)
    refine ⟨l, hlt.congr fun u hu => parentOf_release (hne u hu), hnd, fun u hu => ?_, hlast⟩
    exact (live_release hs).2 ⟨hlive u hu, fun e => absurd e (hne u hu)⟩
  · rwa [release_of_pinnedAt hpin]

theorem Rooted.of_shaped (h : A.Rooted) (hAB : Shaped A B) : B.Rooted :=
  h.of_parents (h.wf.of_shaped hAB) (fun _ => hAB.live_iff) hAB.parentOf_eq

theorem Rooted.pin (h : A.Rooted) (hs : A.Live s) : (A.pin s).Rooted :=
  h.of_parents (h.wf.pin hs) (fun _ => (pins_pin A s).live_iff) (pins_pin A s).parentOf_eq

theorem shaped_perform_assign {s : Nat} {name : Token} {v : Value} :
    Shaped A (A.perform (.assign s name v)) := by
  simp only [perform]
  split
  · exact shaped_assign ‹_›
  · exact .refl A

theorem shaped_perform_assignAt {s hops : Nat} {name : Token} {v : Value} :
    Shaped A (A.perform (.assignAt s hops name v)) := by
  simp only [perform]
  split
  · exact shaped_assignAt ‹_›
  · exact .refl A

/-- Every allowed request keeps the tree. -/
theorem Rooted.perform (h : A.Rooted) {r : Request} (hr : r.Allowed A) : (A.perform r).Rooted := by
  cases r with
  | child p => exact h.child hr
  | define s name v => exact h.of_shaped (shaped_define A s name v)
  | assign s name v => exact h.of_shaped shaped_perform_assign
  | assignAt s hops name v => exact h.of_shaped shaped_perform_assignAt
  | pin s => exact h.pin hr
  | release s => exact h.release hr.1 hr.2
  | get _ _ | getAt _ _ _ | len | names _ => exact h

theorem Reachable.rooted (h : A.Reachable) : A.Rooted := by
  induction h with
  | new => exact rooted_new
  | step _ hr ih => exact ih.perform hr

/-! ## Counting slots in use -/

/-- The free list holds each unused slot once, so the slots in use are the rest. -/
theorem WF.size_eq (h : A.WF) : A.slots.size = A.liveCount + A.free.length := by
  have hperm : A.free.Perm ((List.range A.slots.size).filter fun s => A.free.contains s) := by
    refine (List.perm_ext_iff_of_nodup h.free_nodup (List.nodup_range.filter _)).2 fun s => ?_
    simp only [List.mem_filter, List.mem_range, List.contains_iff_mem]
    exact ⟨fun hs => ⟨h.free_lt s hs, hs⟩, fun hs => hs.2⟩
  rw [hperm.length_eq, ← List.countP_eq_length_filter, liveCount]
  have := List.length_eq_countP_add_countP (fun s => A.free.contains s)
    (l := List.range A.slots.size)
  simp at this ⊢
  omega

theorem WF.len_eq_liveCount (h : A.WF) : A.len = A.liveCount.toUInt64 := by
  have hsize := h.size_eq
  unfold len
  rw [show A.liveCount = A.slots.size - A.free.length by omega]
  exact (UInt64.ofNat_sub (by omega)).symm

/-! ## What requests leave of pinned scopes -/

/-- The scope `s` declares `name`, with a value or without one. -/
def Declares (A : Scopes) (s : Nat) (name : String) : Prop :=
  ∃ sc, A.slots[s]? = some sc ∧ (sc.values.lookup name).isSome

/-- Setting a name in one scope keeps every name every scope declares. -/
theorem declares_setEntry {sc : Scope} {k n : String} {v : Option Value}
    (hsc : A.slots[t]? = some sc) (hd : A.Declares s n) :
    Declares ⟨A.slots.setIfInBounds t { sc with values := setEntry k v sc.values }, A.free⟩ s n := by
  obtain ⟨sc', hs, hn⟩ := hd
  by_cases hts : t = s
  · subst hts
    rw [hsc, Option.some.injEq] at hs
    subst hs
    have hlt := (Array.getElem?_eq_some_iff.1 hsc).1
    refine ⟨{ sc with values := setEntry k v sc.values }, by simp [hlt], ?_⟩
    simp only [lookup_setEntry]
    split <;> simp_all
  · exact ⟨sc', by simp [hts, hs], hn⟩

theorem declares_define {k n : String} {v : Option Value} (hd : A.Declares s n) :
    (A.define t k v).Declares s n := by
  unfold define
  split
  · exact declares_setEntry ‹_› hd
  · exact hd

theorem declares_assignFrom {name : Token} {v : Value} {n : String} (hd : A.Declares s n) :
    ∀ {fuel id}, A.assignFrom name v fuel id = .ok B → B.Declares s n
  | 0, _, hB => by simp [assignFrom] at hB
  | fuel + 1, id, hB => by
    unfold assignFrom at hB
    split at hB
    · cases hB
    · rename_i sc hs
      split at hB
      · cases hB
        exact declares_setEntry hs hd
      · split at hB
        · exact declares_assignFrom hd hB
        · cases hB

theorem declares_assignAt {id hops : Nat} {name : Token} {v : Value} {n : String}
    (hd : A.Declares s n) (hB : A.assignAt id hops name v = .ok B) : B.Declares s n := by
  unfold assignAt at hB
  cases hA : A.ancestor id hops with
  | error e => simp [hA] at hB; cases hB
  | ok target =>
    simp only [hA, bind, Except.bind] at hB
    split at hB
    · cases hB
    · rename_i sc hs
      split at hB
      · cases hB
        exact declares_setEntry hs hd
      · cases hB

theorem declares_perform {r : Request} {n : String} (hd : A.Declares s n)
    (hr : ∀ p, r = .child p → (A.child p).1.slots[s]? = A.slots[s]?)
    (hrel : ∀ t, r = .release t → (A.release t).slots[s]? = A.slots[s]?) :
    (A.perform r).Declares s n := by
  cases r with
  | child p =>
    obtain ⟨sc, hs, hn⟩ := hd
    exact ⟨sc, (hr p rfl).trans hs, hn⟩
  | define t k v => exact declares_define hd
  | assign t name v =>
    simp only [perform]
    split
    · exact declares_assignFrom hd ‹_›
    · exact hd
  | assignAt t hops name v =>
    simp only [perform]
    split
    · exact declares_assignAt hd ‹_›
    · exact hd
  | pin t =>
    obtain ⟨sc, hs, hn⟩ := hd
    have hval := (pins_pin A t).values_eq s
    rw [hs] at hval
    obtain ⟨sc', hs', hv⟩ := Option.map_eq_some_iff.1 hval
    exact ⟨sc', hs', by rw [hv]; exact hn⟩
  | release t =>
    obtain ⟨sc, hs, hn⟩ := hd
    exact ⟨sc, (hrel t rfl).trans hs, hn⟩
  | get _ _ | getAt _ _ _ | len | names _ => exact hd

/-- `B` keeps the scope `s` of `A`: pinned, in use, under the same parent, and declaring every
name it declared. -/
structure KeepsScope (A B : Scopes) (s : Nat) : Prop where
  pinned : B.pinnedAt s = true
  live : B.Live s
  parentOf_eq : B.parentOf s = A.parentOf s
  declares : ∀ n, A.Declares s n → B.Declares s n

/-- A new scope leaves every scope in use as it was. -/
theorem WF.getElem?_child_of_live (h : A.WF) (ht : A.Live t) :
    (A.child p).1.slots[t]? = A.slots[t]? := by
  rw [h.getElem?_child, if_neg fun (e : t = (A.child p).2) => not_live_child (A := A) p (e ▸ ht)]

/-- Releasing a scope leaves every pinned scope as it was. -/
theorem getElem?_release_of_pinned (hs : A.pinnedAt s = true) :
    (A.release t).slots[s]? = A.slots[s]? := by
  unfold release
  split
  · split
    · rfl
    · rename_i sc ht hpin
      have hts : t ≠ s := fun e => by
        subst e
        simp [pinnedAt_of_getElem? ht, hpin] at hs
      simp [hts]
  · rfl

/-- Every allowed request keeps every pinned scope: it is never reused, emptied or freed. -/
theorem Rooted.keepsScope (h : A.Rooted) {r : Request} (hr : r.Allowed A)
    (hs : A.pinnedAt s = true) : KeepsScope A (A.perform r) s := by
  have hA := h.wf
  have hsl := hA.live_of_pinned hs
  have hB := h.perform hr
  refine ⟨?_, ?_, ?_, fun n hd => declares_perform hd
    (fun p _ => hA.getElem?_child_of_live hsl) (fun t _ => getElem?_release_of_pinned hs)⟩
  · cases r with
    | child p => exact hA.pinnedAt_child.trans hs
    | define t k v => exact ((shaped_define A t k v).pinnedAt_eq s).trans hs
    | assign t name v => exact (shaped_perform_assign.pinnedAt_eq s).trans hs
    | assignAt t hops name v => exact (shaped_perform_assignAt.pinnedAt_eq s).trans hs
    | pin t => exact (pins_pin A t).pinnedAt_mono s hs
    | release t => exact pinnedAt_release.trans hs
    | get _ _ | getAt _ _ _ | len | names _ => exact hs
  · cases r with
    | child p => exact hA.live_child.2 (.inl hsl)
    | define t k v => exact (shaped_define A t k v).live_iff.2 hsl
    | assign t name v => exact shaped_perform_assign.live_iff.2 hsl
    | assignAt t hops name v => exact shaped_perform_assignAt.live_iff.2 hsl
    | pin t => exact (pins_pin A t).live_iff.2 hsl
    | release t => exact (live_release hr.1).2 ⟨hsl, fun e => e ▸ hs⟩
    | get _ _ | getAt _ _ _ | len | names _ => exact hsl
  · cases r with
    | child p => simp only [perform_child, parentOf, hA.getElem?_child_of_live hsl]
    | define t k v => exact (shaped_define A t k v).parentOf_eq s
    | assign t name v => exact shaped_perform_assign.parentOf_eq s
    | assignAt t hops name v => exact shaped_perform_assignAt.parentOf_eq s
    | pin t => exact (pins_pin A t).parentOf_eq s
    | release t => simp only [perform_release, parentOf, getElem?_release_of_pinned hs]
    | get _ _ | getAt _ _ _ | len | names _ => rfl

/-! ## What a disciplined client may rely on -/

/-- What holds of every arena a disciplined client reaches. -/
structure Dependable (A : Scopes) : Prop where
  /-- The free list holds each unused slot once, so the count of slots in use is exact and
  never falls below zero. -/
  free_nodup : A.free.Nodup
  free_lt : ∀ s ∈ A.free, s < A.slots.size
  len_eq : A.free.length ≤ A.slots.size ∧ A.len = A.liveCount.toUInt64
  /-- The lineage of a scope in use is made of scopes in use, has no repetition and ends at the
  globals. -/
  lineage : ∀ s, A.Live s → ∃ l, A.Lineage s l ∧ l.Nodup ∧ (∀ t ∈ l, A.Live t) ∧
    l.getLast? = some globals ∧ l.length ≤ A.slots.size
  /-- Lookups, assignments and pins end before their fuel does: any fuel that covers the
  lineage gives their answer. -/
  walks_end : ∀ s l, A.Live s → A.Lineage s l → ∀ fuel, l.length ≤ fuel →
    ∀ (name : Token) (v : Value), A.getFrom name fuel s = A.get s name ∧
      A.assignFrom name v fuel s = A.assign s name v ∧
      pinFrom A.slots fuel (some s) = (A.pin s).slots
  /-- Pins are closed along lineages, the globals are pinned, and no pinned slot is free. -/
  globals_pinned : A.pinnedAt globals = true
  lineage_pinned : ∀ s l, A.pinnedAt s = true → A.Lineage s l → ∀ t ∈ l, A.pinnedAt t = true
  free_unpinned : ∀ s ∈ A.free, A.pinnedAt s = false
  /-- No allowed request reuses, empties or frees a pinned scope. -/
  keeps_pinned : ∀ r : Request, r.Allowed A → ∀ s, A.pinnedAt s = true →
    KeepsScope A (A.perform r) s
  /-- A new scope takes a slot not in use, starts empty under its parent, and leaves every
  scope in use as it was. -/
  child_fresh : ∀ p, A.Live p → ¬ A.Live (A.child p).2 ∧
    (A.child p).1.slots[(A.child p).2]? = some { Scope.empty with parent := some p } ∧
    ∀ t, A.Live t → (A.child p).1.slots[t]? = A.slots[t]?

theorem Rooted.toDependable (h : A.Rooted) : A.Dependable where
  free_nodup := h.wf.free_nodup
  free_lt := h.wf.free_lt
  len_eq := ⟨by have := h.wf.size_eq; omega, h.wf.len_eq_liveCount⟩
  lineage s hs := by
    obtain ⟨l, hl, hnd, hlive, hlast⟩ := h.lineage s hs
    exact ⟨l, hl, hnd, hlive, hlast, length_le_of_nodup hnd fun t ht => (hlive t ht).1⟩
  walks_end s l hs hl fuel hf name v := by
    -- `get`, `assign` and `pin` start with fuel for the whole arena, which covers the lineage
    obtain ⟨l', hl', hnd, hlive, -⟩ := h.lineage s hs
    have hsize : l.length ≤ A.slots.size + 1 := by
      rw [hl.unique hl']
      have := length_le_of_nodup hnd fun t ht => (hlive t ht).1
      omega
    refine ⟨?_, ?_, ?_⟩
    · rw [get, hl.getFrom_fuel hf, hl.getFrom_fuel hsize]
    · rw [assign, hl.assignFrom_fuel hf, hl.assignFrom_fuel hsize]
    · rw [Scopes.pin, hl.pinFrom_fuel (fun _ => rfl) hf, hl.pinFrom_fuel (fun _ => rfl) hsize]
  globals_pinned := h.wf.globals_pinned
  lineage_pinned _ _ hs hl := hl.pinned h.wf hs
  free_unpinned := h.wf.free_unpinned
  keeps_pinned _ hr _ hs := h.keepsScope hr hs
  child_fresh p _ := ⟨not_live_child p, by rw [h.wf.getElem?_child, if_pos rfl],
    fun _ ht => h.wf.getElem?_child_of_live ht⟩

/-- Every arena a disciplined client reaches is dependable. -/
theorem Reachable.dependable (h : A.Reachable) : A.Dependable :=
  h.rooted.toDependable

instance (A : Scopes) (s : Nat) : Decidable (A.Live s) :=
  inferInstanceAs (Decidable (s < A.slots.size ∧ s ∉ A.free))

/-- Open a scope, release it, and open another: the second takes the first one's slot. -/
def reuse : Scopes := ((new.perform (.child 0)).perform (.release 1)).perform (.child 0)

example : reuse.slots.size = 2 ∧ reuse.free = [] ∧ reuse.liveCount = 2 := by decide

theorem reachable_reuse : reuse.Reachable := by
  refine .step (.step (.step .new (show Live _ 0 by decide)) ⟨by decide, .inr fun t ht => ?_⟩)
    (show Live _ 0 by decide)
  have ht : t < 2 := ht.1
  rcases t with _ | _ | t
  · decide
  · decide
  · omega

theorem dependable_reuse : reuse.Reachable ∧ reuse.Dependable :=
  ⟨reachable_reuse, Reachable.dependable reachable_reuse⟩

end Scopes

end Lox
