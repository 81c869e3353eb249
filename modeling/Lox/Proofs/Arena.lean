import Lox.Scopes
/-!
# Well-formed scope arenas

The arena hands out slots for scopes and takes them back. A slot is live when it lies inside
the arena and is not on the free list. The arena is well formed when the free list holds each
slot once and only unpinned ones, the globals are pinned, and parents are closed: the parent of
a live scope is live, and the parent of a pinned scope is pinned.

Every arena operation keeps this, under the conditions the interpreter meets: a new scope goes
under a live parent, a pinned scope goes up a chain of live scopes, and a released scope is live
and, unless pinned, the parent of no live scope.

## Main statements

* `Lox.Scopes.WF.child`, `Lox.Scopes.WF.pin`, `Lox.Scopes.WF.release`: the operations that
  change the shape of the arena keep it well formed.
* `Lox.Scopes.Shaped`: defining and assigning names changes only what scopes hold.
-/

namespace Lox

namespace Scopes

/-- A slot in use: inside the arena and not on the free list. -/
def Live (A : Scopes) (s : Nat) : Prop := s < A.slots.size ∧ s ∉ A.free

/-- Whether the scope in slot `s` is pinned; no slot outside the arena is. -/
def pinnedAt (A : Scopes) (s : Nat) : Bool :=
  match A.slots[s]? with
  | some sc => sc.pinned
  | none => false

/-- The parent of the scope in slot `s`. -/
def parentOf (A : Scopes) (s : Nat) : Option Nat :=
  match A.slots[s]? with
  | some sc => sc.parent
  | none => none

theorem pinnedAt_of_getElem? {A : Scopes} {s : Nat} {sc : Scope} (h : A.slots[s]? = some sc) :
    A.pinnedAt s = sc.pinned := by
  simp [pinnedAt, h]

theorem parentOf_of_getElem? {A : Scopes} {s : Nat} {sc : Scope} (h : A.slots[s]? = some sc) :
    A.parentOf s = sc.parent := by
  simp [parentOf, h]

theorem lt_size_of_pinnedAt {A : Scopes} {s : Nat} (h : A.pinnedAt s = true) :
    s < A.slots.size := by
  unfold pinnedAt at h
  split at h
  · rename_i sc hs
    exact (Array.getElem?_eq_some_iff.1 hs).1
  · cases h

/-- The conditions under which the arena's bookkeeping is right. -/
structure WF (A : Scopes) : Prop where
  free_nodup : A.free.Nodup
  free_lt : ∀ s ∈ A.free, s < A.slots.size
  free_unpinned : ∀ s ∈ A.free, A.pinnedAt s = false
  globals_pinned : A.pinnedAt globals = true
  parent_live : ∀ s p, A.Live s → A.parentOf s = some p → A.Live p
  parent_pinned : ∀ s p, A.pinnedAt s = true → A.parentOf s = some p → A.pinnedAt p = true

variable {A : Scopes} {s t p c : Nat}

/-- A pinned slot is never on the free list. -/
theorem WF.live_of_pinned (h : A.WF) (hs : A.pinnedAt s = true) : A.Live s :=
  ⟨lt_size_of_pinnedAt hs, fun hf => by simp [h.free_unpinned s hf] at hs⟩

theorem WF.globals_live (h : A.WF) : A.Live globals := h.live_of_pinned h.globals_pinned

theorem new_wf : WF new := by
  refine ⟨.nil, by simp [new], by simp [new], rfl, ?_, ?_⟩
  · intro s p _ hp
    cases s <;> simp [parentOf, new, Scope.empty] at hp
  · intro s p _ hp
    cases s <;> simp [parentOf, new, Scope.empty] at hp

/-! ## What scopes hold -/

theorem lookup_setEntry {β : Type} (k k' : String) (v : β) (l : List (String × β)) :
    (setEntry k v l).lookup k' = if k' = k then some v else l.lookup k' := by
  induction l with
  | nil =>
    by_cases h : k' = k
    · simp [setEntry, h]
    · simp [setEntry, List.lookup_cons, beq_false_of_ne h, h]
  | cons hd tl ih =>
    obtain ⟨k0, v0⟩ := hd
    unfold setEntry
    by_cases h0 : k0 = k
    · subst h0
      by_cases h : k' = k0
      · simp [h]
      · simp [List.lookup_cons, beq_false_of_ne h, h]
    · rw [if_neg h0]
      by_cases h : k' = k0
      · subst h
        simp [h0]
      · simp only [List.lookup_cons, beq_false_of_ne h, ih]

theorem mem_setEntry {β : Type} {k : String} {v : β} {l : List (String × β)} {e : String × β}
    (h : e ∈ setEntry k v l) : e = (k, v) ∨ e ∈ l := by
  induction l with
  | nil => simpa [setEntry] using h
  | cons hd tl ih =>
    unfold setEntry at h
    split at h
    · rcases List.mem_cons.1 h with rfl | h
      · exact .inl rfl
      · exact .inr (List.mem_cons_of_mem _ h)
    · rcases List.mem_cons.1 h with rfl | h
      · exact .inr List.mem_cons_self
      · exact (ih h).imp_right (List.mem_cons_of_mem _)

/-- `B` differs from `A` only in what its scopes hold. -/
structure Shaped (A B : Scopes) : Prop where
  free_eq : B.free = A.free
  size_eq : B.slots.size = A.slots.size
  parentOf_eq : ∀ s, B.parentOf s = A.parentOf s
  pinnedAt_eq : ∀ s, B.pinnedAt s = A.pinnedAt s

theorem Shaped.refl (A : Scopes) : Shaped A A := ⟨rfl, rfl, fun _ => rfl, fun _ => rfl⟩

theorem Shaped.live_iff {B : Scopes} (h : Shaped A B) : B.Live s ↔ A.Live s := by
  simp [Live, h.free_eq, h.size_eq]

theorem WF.of_shaped {B : Scopes} (hA : A.WF) (h : Shaped A B) : B.WF where
  free_nodup := h.free_eq ▸ hA.free_nodup
  free_lt s hs := h.size_eq ▸ hA.free_lt s (h.free_eq ▸ hs)
  free_unpinned s hs := (h.pinnedAt_eq s).trans (hA.free_unpinned s (h.free_eq ▸ hs))
  globals_pinned := (h.pinnedAt_eq _).trans hA.globals_pinned
  parent_live s p hs hp :=
    h.live_iff.2 (hA.parent_live s p (h.live_iff.1 hs) ((h.parentOf_eq s).symm.trans hp))
  parent_pinned s p hs hp := (h.pinnedAt_eq p).trans
    (hA.parent_pinned s p ((h.pinnedAt_eq s).symm.trans hs) ((h.parentOf_eq s).symm.trans hp))

/-- Changing what one scope holds keeps the shape. -/
theorem shaped_setValues {sc : Scope} (hs : A.slots[s]? = some sc)
    (values : List (String × Option Value)) :
    Shaped A { A with slots := A.slots.setIfInBounds s { sc with values := values } } := by
  refine ⟨rfl, by simp, fun t => ?_, fun t => ?_⟩ <;>
  · by_cases hts : s = t
    · subst hts
      obtain ⟨hlt, rfl⟩ := Array.getElem?_eq_some_iff.1 hs
      simp [parentOf, pinnedAt, hlt]
    · simp [parentOf, pinnedAt, hts]

theorem shaped_define (A : Scopes) (s : Nat) (name : String) (v : Option Value) :
    Shaped A (A.define s name v) := by
  unfold define
  split
  · exact shaped_setValues ‹_› _
  · exact .refl A

theorem shaped_assignFrom {B : Scopes} {name : Token} {v : Value} :
    ∀ {fuel id}, A.assignFrom name v fuel id = .ok B → Shaped A B
  | 0, _, h => by simp [assignFrom] at h
  | fuel + 1, id, h => by
    unfold assignFrom at h
    split at h
    · cases h
    · rename_i sc hs
      split at h
      · cases h
        exact shaped_setValues hs _
      · split at h
        · exact shaped_assignFrom h
        · cases h

theorem shaped_assign {B : Scopes} {id : Nat} {name : Token} {v : Value}
    (h : A.assign id name v = .ok B) : Shaped A B :=
  shaped_assignFrom h

theorem shaped_assignAt {B : Scopes} {id hops : Nat} {name : Token} {v : Value}
    (h : A.assignAt id hops name v = .ok B) : Shaped A B := by
  unfold assignAt at h
  cases hA : A.ancestor id hops with
  | error e => simp [hA] at h; cases h
  | ok target =>
    simp only [hA, bind, Except.bind] at h
    split at h
    · cases h
    · rename_i sc hs
      split at h
      · cases h
        exact shaped_setValues hs _
      · cases h

/-! ## New scopes -/

theorem WF.getElem?_child (h : A.WF) :
    (A.child p).1.slots[t]? =
      if t = (A.child p).2 then some { Scope.empty with parent := some p } else A.slots[t]? := by
  unfold child
  split
  · rename_i id rest hfree
    have hlt : id < A.slots.size := h.free_lt id (by simp [hfree])
    by_cases hid : t = id
    · subst hid; simp [hlt]
    · simp [hid, Ne.symm hid]
  · by_cases hid : t = A.slots.size
    · subst hid; simp
    · simp [hid, Array.getElem?_push]

/-- The slot a new scope takes was not in use. -/
theorem not_live_child (p : Nat) : ¬ A.Live (A.child p).2 := by
  unfold child
  split
  · rename_i id rest hfree
    exact fun hl => hl.2 (by simp [hfree])
  · exact fun hl => Nat.lt_irrefl _ hl.1

theorem WF.live_child (h : A.WF) : (A.child p).1.Live s ↔ A.Live s ∨ s = (A.child p).2 := by
  unfold child
  split
  · rename_i id rest hfree
    have hnd := hfree ▸ h.free_nodup
    have hlt : id < A.slots.size := h.free_lt id (by simp [hfree])
    simp only [Live, hfree, Array.size_setIfInBounds, List.mem_cons, not_or]
    by_cases hs : s = id
    · subst hs; simp [hlt, (List.nodup_cons.1 hnd).1]
    · simp [hs]
  · rename_i hfree
    simp only [Live, hfree, Array.size_push, List.not_mem_nil, not_false_eq_true, and_true]
    omega

theorem WF.parentOf_child (h : A.WF) :
    (A.child p).1.parentOf t = if t = (A.child p).2 then some p else A.parentOf t := by
  by_cases ht : t = (A.child p).2
  · simp [parentOf, h.getElem?_child, ht, Scope.empty]
  · simp [parentOf, h.getElem?_child, ht]

/-- A new scope is not pinned, and no other scope changes its pin. -/
theorem WF.pinnedAt_child (h : A.WF) : (A.child p).1.pinnedAt t = A.pinnedAt t := by
  by_cases ht : t = (A.child p).2
  · have hold : A.pinnedAt t = false := by
      unfold child at ht
      split at ht
      · rename_i id rest hfree
        exact ht ▸ h.free_unpinned id (by simp [hfree])
      · simp [pinnedAt, ht]
    simp [pinnedAt, h.getElem?_child, ht, Scope.empty] at hold ⊢
    exact hold
  · simp [pinnedAt, h.getElem?_child, ht]

theorem WF.child (h : A.WF) (hp : A.Live p) : (A.child p).1.WF where
  free_nodup := by
    unfold Scopes.child
    split
    · rename_i id rest hfree
      exact (List.nodup_cons.1 (hfree ▸ h.free_nodup)).2
    · exact .nil
  free_lt s hs := by
    unfold Scopes.child at hs ⊢
    split at hs
    · rename_i id rest hfree
      simpa using h.free_lt s (by simp [hfree, hs])
    · simp at hs
  free_unpinned s hs := by
    rw [h.pinnedAt_child]
    unfold Scopes.child at hs
    split at hs
    · rename_i id rest hfree
      exact h.free_unpinned s (by simp [hfree, hs])
    · simp at hs
  globals_pinned := h.pinnedAt_child.trans h.globals_pinned
  parent_live s q hs hq := by
    rw [h.parentOf_child] at hq
    split at hq
    · cases hq
      exact h.live_child.2 (.inl hp)
    · rename_i hne
      have hs' := (h.live_child.1 hs).resolve_right hne
      exact h.live_child.2 (.inl (h.parent_live s q hs' hq))
  parent_pinned s q hs hq := by
    rw [h.pinnedAt_child] at hs ⊢
    rw [h.parentOf_child] at hq
    split at hq
    · rename_i hsc
      exact absurd (h.live_of_pinned hs) (hsc ▸ not_live_child p)
    · exact h.parent_pinned s q hs hq

/-! ## Released scopes -/

theorem release_of_pinnedAt (hs : A.pinnedAt s = true) : A.release s = A := by
  unfold release
  unfold pinnedAt at hs
  split <;> simp_all

theorem release_of_not_pinnedAt (hlt : s < A.slots.size) (hs : A.pinnedAt s = false) :
    A.release s = ⟨A.slots.setIfInBounds s Scope.empty, s :: A.free⟩ := by
  unfold release
  unfold pinnedAt at hs
  split <;> simp_all

/-- Releasing never changes a pin: a released scope that was not pinned is emptied. -/
theorem pinnedAt_release : (A.release s).pinnedAt t = A.pinnedAt t := by
  cases hs : A.pinnedAt s
  · by_cases hlt : s < A.slots.size
    · rw [release_of_not_pinnedAt hlt hs]
      by_cases hts : s = t
      · subst hts; simp [pinnedAt, hlt, Scope.empty] at hs ⊢; exact hs
      · simp [pinnedAt, hts]
    · unfold release
      simp [Array.getElem?_eq_none (Nat.le_of_not_lt hlt)]
  · rw [release_of_pinnedAt hs]

theorem parentOf_release (hts : t ≠ s) : (A.release s).parentOf t = A.parentOf t := by
  unfold release
  split
  · split
    · rfl
    · simp [parentOf, Ne.symm hts]
  · rfl

theorem live_release (hs : A.Live s) :
    (A.release s).Live t ↔ A.Live t ∧ (t = s → A.pinnedAt s = true) := by
  cases hp : A.pinnedAt s
  · rw [release_of_not_pinnedAt hs.1 hp]
    simp only [Live, Array.size_setIfInBounds, List.mem_cons, not_or]
    constructor
    · rintro ⟨hlt, hne, hf⟩
      exact ⟨⟨hlt, hf⟩, fun h => absurd h hne⟩
    · rintro ⟨⟨hlt, hf⟩, hne⟩
      exact ⟨hlt, fun h' => by simpa using hne h', hf⟩
  · rw [release_of_pinnedAt hp]
    simp

/-- A live scope may be released when it is pinned or the parent of no live scope. -/
theorem WF.release (h : A.WF) (hs : A.Live s)
    (hc : A.pinnedAt s = false → ∀ t, A.Live t → A.parentOf t ≠ some s) : (A.release s).WF := by
  cases hp : A.pinnedAt s
  · have hc := hc hp
    rw [release_of_not_pinnedAt hs.1 hp]
    have hpin : ∀ t, (⟨A.slots.setIfInBounds s Scope.empty, s :: A.free⟩ : Scopes).pinnedAt t =
        A.pinnedAt t := fun t => by
      rw [← release_of_not_pinnedAt hs.1 hp]; exact pinnedAt_release
    have hpar : ∀ t, t ≠ s → (⟨A.slots.setIfInBounds s Scope.empty, s :: A.free⟩ :
        Scopes).parentOf t = A.parentOf t := fun t hts => by
      rw [← release_of_not_pinnedAt hs.1 hp]; exact parentOf_release hts
    have hlive : ∀ t, (⟨A.slots.setIfInBounds s Scope.empty, s :: A.free⟩ : Scopes).Live t ↔
        A.Live t ∧ (t = s → A.pinnedAt s = true) := fun t => by
      rw [← release_of_not_pinnedAt hs.1 hp]; exact live_release hs
    refine ⟨List.nodup_cons.2 ⟨hs.2, h.free_nodup⟩, ?_, ?_, ?_, ?_, ?_⟩
    · intro t ht
      rcases List.mem_cons.1 ht with rfl | ht
      · simpa using hs.1
      · simpa using h.free_lt t ht
    · intro t ht
      rw [hpin]
      rcases List.mem_cons.1 ht with rfl | ht
      · exact hp
      · exact h.free_unpinned t ht
    · exact (hpin _).trans h.globals_pinned
    · intro t q ht hq
      obtain ⟨ht, hts⟩ := (hlive t).1 ht
      have hts : t ≠ s := fun e => by simp [e, hp] at hts
      rw [hpar t hts] at hq
      refine (hlive q).2 ⟨h.parent_live t q ht hq, fun e => ?_⟩
      exact absurd (e ▸ hq) (hc t ht)
    · intro t q ht hq
      rw [hpin] at ht ⊢
      have hts : t ≠ s := fun e => by simp [e, hp] at ht
      exact h.parent_pinned t q ht ((hpar t hts).symm.trans hq)
  · rwa [release_of_pinnedAt hp]

/-! ## Pinned scopes -/

/-- `B` is `A` with perhaps more scopes pinned and nothing else changed. -/
structure Pins (A B : Scopes) : Prop where
  free_eq : B.free = A.free
  size_eq : B.slots.size = A.slots.size
  values_eq : ∀ t : Nat, B.slots[t]?.map Scope.values = A.slots[t]?.map Scope.values
  parentOf_eq : ∀ t, B.parentOf t = A.parentOf t
  pinnedAt_mono : ∀ t, A.pinnedAt t = true → B.pinnedAt t = true

theorem Pins.refl (A : Scopes) : Pins A A := ⟨rfl, rfl, fun _ => rfl, fun _ => rfl, fun _ h => h⟩

theorem Pins.trans {B C : Scopes} (h : Pins A B) (g : Pins B C) : Pins A C :=
  ⟨g.free_eq.trans h.free_eq, g.size_eq.trans h.size_eq, fun t => (g.values_eq t).trans
    (h.values_eq t), fun t => (g.parentOf_eq t).trans (h.parentOf_eq t),
    fun t ht => g.pinnedAt_mono t (h.pinnedAt_mono t ht)⟩

theorem Pins.live_iff {B : Scopes} (h : Pins A B) : B.Live s ↔ A.Live s := by
  simp [Live, h.free_eq, h.size_eq]

/-- The arena with the scope in slot `c` pinned. -/
def setPinned (A : Scopes) (c : Nat) (sc : Scope) : Scopes :=
  { A with slots := A.slots.setIfInBounds c { sc with pinned := true } }

theorem pinnedAt_setPinned {sc : Scope} (hc : A.slots[c]? = some sc) :
    (A.setPinned c sc).pinnedAt t = (t == c || A.pinnedAt t) := by
  have hlt := (Array.getElem?_eq_some_iff.1 hc).1
  by_cases htc : c = t
  · subst htc; simp [setPinned, pinnedAt, hlt]
  · simp [setPinned, pinnedAt, htc, Ne.symm htc]

theorem pins_setPinned {sc : Scope} (hc : A.slots[c]? = some sc) : Pins A (A.setPinned c sc) := by
  obtain ⟨hlt, rfl⟩ := Array.getElem?_eq_some_iff.1 hc
  refine ⟨rfl, by simp [setPinned], fun t => ?_, fun t => ?_, fun t ht => ?_⟩
  · by_cases htc : c = t
    · subst htc; simp [setPinned, hlt]
    · simp [setPinned, htc]
  · by_cases htc : c = t
    · subst htc; simp [setPinned, parentOf, hlt]
    · simp [setPinned, parentOf, htc]
  · simp [pinnedAt_setPinned hc, ht]

theorem pinFrom_succ_some {fuel c : Nat} {sc : Scope} (hc : A.slots[c]? = some sc) :
    pinFrom A.slots (fuel + 1) (some c) =
      if sc.pinned then A.slots else pinFrom (A.setPinned c sc).slots fuel sc.parent := by
  simp [pinFrom, hc, setPinned]

theorem pins_pinFrom : ∀ (fuel : Nat) (A : Scopes) (cur : Option Nat),
    Pins A { A with slots := pinFrom A.slots fuel cur }
  | 0, A, _ => by simpa [pinFrom] using Pins.refl A
  | _ + 1, A, none => by simpa [pinFrom] using Pins.refl A
  | fuel + 1, A, some c => by
    cases hc : A.slots[c]? with
    | none => simpa [pinFrom, hc] using Pins.refl A
    | some sc =>
      rw [pinFrom_succ_some hc]
      split
      · exact Pins.refl A
      · exact (pins_setPinned hc).trans (pins_pinFrom fuel (A.setPinned c sc) sc.parent)

theorem pins_pin (A : Scopes) (s : Nat) : Pins A (A.pin s) :=
  pins_pinFrom _ A (some s)

/-- The walk of `pin` from `cur`: every pinned scope has a pinned parent, except that the scope
pinned last may have `cur` as its parent. Each step pins one more scope, so the walk ends
before its fuel does, with the pins closed under parents and still off the free list. -/
theorem pinFrom_closed : ∀ (fuel : Nat) (B : Scopes) (cur : Option Nat),
    (∀ s q, B.Live s → B.parentOf s = some q → B.Live q) →
    (∀ c, cur = some c → B.Live c) →
    B.slots.countP (fun sc => !sc.pinned) < fuel →
    (∀ t ∈ B.free, B.pinnedAt t = false) →
    (∀ t q, B.pinnedAt t = true → B.parentOf t = some q → B.pinnedAt q = true ∨ cur = some q) →
    let C : Scopes := { B with slots := pinFrom B.slots fuel cur }
    (∀ t ∈ C.free, C.pinnedAt t = false) ∧
      ∀ t q, C.pinnedAt t = true → C.parentOf t = some q → C.pinnedAt q = true
  | 0, _, _, _, _, hcount, _, _ => absurd hcount (Nat.not_lt_zero _)
  | _ + 1, B, none, _, _, _, hfree, hclosed => by
    intro C
    have hCB : C = B := rfl
    rw [hCB]
    exact ⟨hfree, fun t q ht hq => by simpa using hclosed t q ht hq⟩
  | fuel + 1, B, some c, hlive, hcur, hcount, hfree, hclosed => by
    have hc := hcur c rfl
    obtain ⟨sc, hsc⟩ := Option.isSome_iff_exists.1 (by simpa using hc.1 : B.slots[c]?.isSome)
    intro C
    have hC : C.slots = _ := pinFrom_succ_some hsc
    by_cases hpin : sc.pinned
    · simp only [hpin, if_true] at hC
      have hCB : C = B := by cases B; simp_all [C]
      rw [hCB]
      refine ⟨hfree, fun t q ht hq => ?_⟩
      rcases hclosed t q ht hq with hq' | hq'
      · exact hq'
      · cases hq'
        rwa [pinnedAt_of_getElem? hsc]
    · simp only [hpin, if_false, Bool.false_eq_true] at hC
      have hpins := pins_setPinned hsc
      have hCB : C = ⟨pinFrom (B.setPinned c sc).slots fuel sc.parent, (B.setPinned c sc).free⟩ := by
        cases B; simp_all [C, setPinned]
      rw [hCB]
      have hlt := (Array.getElem?_eq_some_iff.1 hsc).1
      apply pinFrom_closed fuel (B.setPinned c sc) sc.parent
      · intro s q hs hq
        rw [hpins.parentOf_eq] at hq
        exact hpins.live_iff.2 (hlive s q (hpins.live_iff.1 hs) hq)
      · intro q hq
        exact hpins.live_iff.2 (hlive c q hc (by rw [parentOf_of_getElem? hsc, hq]))
      · have hget : B.slots[c] = sc := (Array.getElem?_eq_some_iff.1 hsc).2
        have hpos : 0 < B.slots.countP (fun sc => !sc.pinned) :=
          Array.countP_pos_iff.2 ⟨sc, Array.mem_of_getElem? hsc, by simpa using hpin⟩
        simp only [setPinned, Array.setIfInBounds, hlt, dite_true]
        rw [Array.countP_set hlt, hget]
        simp only [hpin, Bool.not_false, Bool.not_true, Bool.false_eq_true, if_false, if_true]
        omega
      · intro t ht
        rw [pinnedAt_setPinned hsc]
        have htc : t ≠ c := fun e => hc.2 (e ▸ ht)
        simpa [htc] using hfree t ht
      · intro t q ht hq
        rw [pinnedAt_setPinned hsc] at ht ⊢
        rw [hpins.parentOf_eq] at hq
        by_cases htc : t = c
        · subst htc
          rw [parentOf_of_getElem? hsc] at hq
          exact .inr hq
        · simp [htc] at ht
          rcases hclosed t q ht hq with hq' | hq'
          · exact .inl (by simp [hq'])
          · cases hq'
            exact .inl (by simp)

theorem WF.pin (h : A.WF) (hs : A.Live s) : (A.pin s).WF := by
  have hpins := pins_pin A s
  obtain ⟨hfree, hclosed⟩ := pinFrom_closed (A.slots.size + 1) A (some s) h.parent_live
    (fun c hc => by cases hc; exact hs) (Nat.lt_succ_of_le Array.countP_le_size)
    h.free_unpinned (fun t q ht hq => .inl (h.parent_pinned t q ht hq))
  refine ⟨hpins.free_eq ▸ h.free_nodup, fun t ht => ?_, hfree, ?_, ?_, hclosed⟩
  · rw [hpins.size_eq]; exact h.free_lt t (hpins.free_eq ▸ ht)
  · exact hpins.pinnedAt_mono _ h.globals_pinned
  · intro t q ht hq
    rw [hpins.parentOf_eq] at hq
    exact hpins.live_iff.2 (h.parent_live t q (hpins.live_iff.1 ht) hq)

/-- Pinning a live scope pins it. -/
theorem pinnedAt_pin (hs : A.Live s) : (A.pin s).pinnedAt s = true := by
  obtain ⟨sc, hsc⟩ := Option.isSome_iff_exists.1 (by simpa using hs.1 : A.slots[s]?.isSome)
  have hstep : pinFrom A.slots (A.slots.size + 1) (some s) = _ := pinFrom_succ_some hsc
  by_cases hpin : sc.pinned
  · simp only [hpin, if_true] at hstep
    simp only [Scopes.pin, hstep]
    rw [← hpin]; exact pinnedAt_of_getElem? hsc
  · simp only [hpin, if_false, Bool.false_eq_true] at hstep
    have hmono := (pins_pinFrom A.slots.size (A.setPinned s sc) sc.parent).pinnedAt_mono s
      (by simp [pinnedAt_setPinned hsc])
    simpa [Scopes.pin, hstep, setPinned] using hmono

/-! ## The values scopes hold -/

theorem mem_of_lookup {β : Type} {l : List (String × β)} {k : String} {b : β}
    (h : l.lookup k = some b) : (k, b) ∈ l := by
  obtain ⟨l₁, l₂, rfl, -⟩ := List.lookup_eq_some_iff.1 h
  simp

/-- Every value held by a scope of the arena satisfies `E` at its name. -/
def Entries (E : String → Value → Prop) (A : Scopes) : Prop :=
  ∀ (s : Nat) (sc : Scope), A.slots[s]? = some sc →
    ∀ e ∈ sc.values, ∀ v : Value, e.2 = some v → E e.1 v

/-- Every value held by a scope of the arena satisfies `P`. -/
def Holds (P : Value → Prop) (A : Scopes) : Prop :=
  ∀ (s : Nat) (sc : Scope), A.slots[s]? = some sc →
    ∀ e ∈ sc.values, ∀ v : Value, e.2 = some v → P v

variable {P Q : Value → Prop} {E : String → Value → Prop}

theorem Holds.mono (h : A.Holds P) (hPQ : ∀ v, P v → Q v) : A.Holds Q :=
  fun s sc hs e he v hv => hPQ v (h s sc hs e he v hv)

/-- A fresh arena holds no value. -/
theorem entries_new : new.Entries E := by
  intro s sc hsc e he
  cases s <;> simp [new] at hsc
  subst hsc
  simp [Scope.empty] at he

theorem holds_new : new.Holds P :=
  entries_new (E := fun _ => P)

theorem Entries.setValues {sc : Scope} {values : List (String × Option Value)} (h : A.Entries E)
    (hv : ∀ e ∈ values, ∀ v, e.2 = some v → E e.1 v) :
    Entries E { A with slots := A.slots.setIfInBounds s { sc with values := values } } := by
  intro t sc' ht e he v hev
  rw [Array.getElem?_setIfInBounds] at ht
  split at ht
  · split at ht
    · cases ht; exact hv e he v hev
    · cases ht
  · exact h t sc' ht e he v hev

theorem Entries.define {name : String} {v : Option Value} (h : A.Entries E)
    (hv : ∀ x, v = some x → E name x) : (A.define s name v).Entries E := by
  unfold Scopes.define
  split
  · rename_i sc hs
    refine h.setValues fun e he x hx => ?_
    rcases mem_setEntry he with rfl | he
    · exact hv x hx
    · exact h s sc hs e he x hx
  · exact h

theorem Entries.assignFrom {B : Scopes} {name : Token} {v : Value} (h : A.Entries E)
    (hv : E name.lexeme v) : ∀ {fuel id}, A.assignFrom name v fuel id = .ok B → B.Entries E
  | 0, _, hB => by simp [Scopes.assignFrom] at hB
  | fuel + 1, id, hB => by
    unfold Scopes.assignFrom at hB
    split at hB
    · cases hB
    · rename_i sc hs
      split at hB
      · cases hB
        refine h.setValues fun e he x hx => ?_
        rcases mem_setEntry he with rfl | he
        · cases hx; exact hv
        · exact h id sc hs e he x hx
      · split at hB
        · exact Entries.assignFrom h hv hB
        · cases hB

theorem Entries.assignAt {B : Scopes} {id hops : Nat} {name : Token} {v : Value}
    (h : A.Entries E) (hv : E name.lexeme v) (hB : A.assignAt id hops name v = .ok B) :
    B.Entries E := by
  unfold Scopes.assignAt at hB
  cases hA : A.ancestor id hops with
  | error e => simp [hA] at hB; cases hB
  | ok target =>
    simp only [hA, bind, Except.bind] at hB
    split at hB
    · cases hB
    · rename_i sc hs
      split at hB
      · cases hB
        refine h.setValues fun e he x hx => ?_
        rcases mem_setEntry he with rfl | he
        · cases hx; exact hv
        · exact h target sc hs e he x hx
      · cases hB

theorem Entries.child (h : A.Entries E) : (A.child p).1.Entries E := by
  intro t sc ht e he v hv
  unfold Scopes.child at ht
  split at ht
  · -- the new scope takes the slot freed last
    rw [Array.getElem?_setIfInBounds] at ht
    split at ht
    · split at ht
      · cases ht; simp [Scope.empty] at he
      · cases ht
    · exact h t sc ht e he v hv
  · rw [Array.getElem?_push] at ht
    split at ht
    · cases ht; simp [Scope.empty] at he
    · exact h t sc ht e he v hv

theorem Entries.release (h : A.Entries E) : (A.release s).Entries E := by
  unfold Scopes.release
  split
  · split
    · exact h
    · intro t sc ht e he v hv
      rw [Array.getElem?_setIfInBounds] at ht
      split at ht
      · split at ht
        · cases ht; simp [Scope.empty] at he
        · cases ht
      · exact h t sc ht e he v hv
  · exact h

theorem of_readSlot {name : Token} {x : Option Value} {v : Value}
    (hx : ∀ y, x = some y → P y) (h : Scopes.readSlot name x = .ok v) : P v := by
  cases x with
  | none => cases h
  | some y =>
    simp only [Scopes.readSlot, Except.ok.injEq] at h
    exact h ▸ hx y rfl

/-- A value found by name is held under that name. -/
theorem Entries.getFrom (h : A.Entries E) {name : Token} {v : Value} :
    ∀ {fuel id}, A.getFrom name fuel id = .ok v → E name.lexeme v
  | 0, _, hv => by simp [Scopes.getFrom] at hv
  | fuel + 1, id, hv => by
    unfold Scopes.getFrom at hv
    split at hv
    · cases hv
    · rename_i sc hs
      split at hv
      · rename_i x hx
        exact of_readSlot (fun y hy => h id sc hs _ (mem_of_lookup hx) y hy) hv
      · split at hv
        · exact Entries.getFrom h hv
        · cases hv

theorem Entries.getAt (h : A.Entries E) {id hops : Nat} {name : Token} {v : Value}
    (hv : A.getAt id hops name = .ok v) : E name.lexeme v := by
  unfold Scopes.getAt at hv
  cases hA : A.ancestor id hops with
  | error e => simp [hA] at hv; cases hv
  | ok target =>
    simp only [hA, bind, Except.bind] at hv
    split at hv
    · cases hv
    · rename_i sc hs
      split at hv
      · rename_i x hx
        exact of_readSlot (fun y hy => h target sc hs _ (mem_of_lookup hx) y hy) hv
      · cases hv

theorem Entries.pins {B : Scopes} (hAB : Pins A B) (h : A.Entries E) : B.Entries E := by
  intro t sc ht e he v hv
  have hval := hAB.values_eq t
  rw [ht] at hval
  obtain ⟨sc', hsc', hvals⟩ := Option.map_eq_some_iff.1 hval.symm
  exact h t sc' hsc' e (hvals ▸ he) v hv

/-! What every value satisfies is what every entry satisfies whatever its name. -/

theorem Holds.setValues {sc : Scope} {values : List (String × Option Value)} (h : A.Holds P)
    (hv : ∀ e ∈ values, ∀ v, e.2 = some v → P v) :
    Holds P { A with slots := A.slots.setIfInBounds s { sc with values := values } } :=
  Entries.setValues (E := fun _ => P) h hv

theorem Holds.define {name : String} {v : Option Value} (h : A.Holds P)
    (hv : ∀ x, v = some x → P x) : (A.define s name v).Holds P :=
  Entries.define (E := fun _ => P) h hv

theorem Holds.assign {B : Scopes} {id : Nat} {name : Token} {v : Value} (h : A.Holds P)
    (hv : P v) (hB : A.assign id name v = .ok B) : B.Holds P :=
  Entries.assignFrom (E := fun _ => P) h hv hB

theorem Holds.assignAt {B : Scopes} {id hops : Nat} {name : Token} {v : Value} (h : A.Holds P)
    (hv : P v) (hB : A.assignAt id hops name v = .ok B) : B.Holds P :=
  Entries.assignAt (E := fun _ => P) h hv hB

theorem Holds.child (h : A.Holds P) : (A.child p).1.Holds P :=
  Entries.child (E := fun _ => P) h

theorem Holds.release (h : A.Holds P) : (A.release s).Holds P :=
  Entries.release (E := fun _ => P) h

theorem Holds.get (h : A.Holds P) {id : Nat} {name : Token} {v : Value}
    (hv : A.get id name = .ok v) : P v :=
  Entries.getFrom (E := fun _ => P) h hv

theorem Holds.getAt (h : A.Holds P) {id hops : Nat} {name : Token} {v : Value}
    (hv : A.getAt id hops name = .ok v) : P v :=
  Entries.getAt (E := fun _ => P) h hv

theorem Holds.pins {B : Scopes} (hAB : Pins A B) (h : A.Holds P) : B.Holds P :=
  Entries.pins (E := fun _ => P) hAB h

end Scopes

end Lox
