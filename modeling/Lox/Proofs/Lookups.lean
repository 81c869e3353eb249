import Lox.Proofs.Discipline
/-!
# Resolved and dynamic lookups agree

A name can be looked up two ways from a scope `s`: by walking out along parents to the first
scope that declares it (`get`, `assign`), or by going a given number of links out and looking
only there (`getAt`, `assignAt`), the number resolution recorded. In an arena whose scopes in
use form a tree under the globals (`Scopes.Rooted`), both walks follow the lineage of `s`, so
they agree whenever the number is the distance to the first scope on the lineage that declares
the name. Where no scope on the lineage declares it, both fail as the program's fault, and the
counted walk fails as the interpreter's own fault only once it goes past the globals.

Reads return no arena and a failed assignment returns none, so a failing request leaves the
arena as it was; a successful assignment rewrites one entry of one scope and never adds a name.

## Main statements

* `Scopes.resolved_lookup_agrees`: the two walks agree, fail alike, and assign alike.
-/

namespace Lox

namespace Scopes

variable {A B : Scopes} {s t h total fuel : Nat} {l : List Nat} {n : String} {x : Token}
  {v : Value} {y : Option Value}

/-! ## Entries -/

/-- The entry of `n` in scope `t`: `some none` for a name declared without a value. -/
def entry (A : Scopes) (t : Nat) (n : String) : Option (Option Value) :=
  (A.slots[t]?).bind fun sc => sc.values.lookup n

theorem entry_of_getElem? {sc : Scope} (h : A.slots[t]? = some sc) :
    A.entry t n = sc.values.lookup n := by
  simp [entry, h]

theorem getElem?_of_lt (ht : t < A.slots.size) : ∃ sc, A.slots[t]? = some sc :=
  ⟨A.slots[t], by simp [ht]⟩

/-- A scope with an entry lies in the arena. -/
theorem getElem?_of_entry (hy : A.entry t n = some y) :
    ∃ sc, A.slots[t]? = some sc ∧ sc.values.lookup n = some y := by
  cases hs : A.slots[t]? with
  | none => simp [entry, hs] at hy
  | some sc => exact ⟨sc, rfl, by rwa [entry_of_getElem? hs] at hy⟩

/-- The arena with `v` written over the entry of `n` in scope `t`. -/
def write (A : Scopes) (t : Nat) (n : String) (v : Value) : Scopes :=
  match A.slots[t]? with
  | some sc => { A with slots := A.slots.setIfInBounds t { sc with values := setEntry n (some v) sc.values } }
  | none => A

theorem write_of_getElem? {sc : Scope} (h : A.slots[t]? = some sc) :
    A.write t n v =
      { A with slots := A.slots.setIfInBounds t { sc with values := setEntry n (some v) sc.values } } := by
  simp [write, h]

theorem shaped_write (A : Scopes) (t : Nat) (n : String) (v : Value) : Shaped A (A.write t n v) := by
  unfold write
  split
  · exact shaped_setValues ‹_› _
  · exact .refl A

/-- Writing into a scope that holds `n` changes the entry of `n` there and nothing else. -/
theorem entry_write (ht : (A.entry t n).isSome) (u : Nat) (m : String) :
    (A.write t n v).entry u m = if u = t ∧ m = n then some (some v) else A.entry u m := by
  obtain ⟨y, hy⟩ := Option.isSome_iff_exists.1 ht
  obtain ⟨sc, hsc, -⟩ := getElem?_of_entry hy
  have hlt := (Array.getElem?_eq_some_iff.1 hsc).1
  rw [write_of_getElem? hsc]
  by_cases hut : u = t
  · subst hut
    simp only [entry, Array.getElem?_setIfInBounds_self_of_lt hlt, Option.bind_some,
      lookup_setEntry, true_and, hsc]
  · simp [entry, Array.getElem?_setIfInBounds_ne (Ne.symm hut), hut]

/-- Writing over a declared name declares no new one. -/
theorem entry_write_isSome (ht : (A.entry t n).isSome) (u : Nat) (m : String) :
    ((A.write t n v).entry u m).isSome = (A.entry u m).isSome := by
  rw [entry_write ht]
  split
  · next h => obtain ⟨rfl, rfl⟩ := h; simp [ht]
  · rfl

/-- The first scope on the lineage `l` that declares `n` is `t`, `h` links out, and its entry
is `y`. -/
def FirstDeclares (A : Scopes) (l : List Nat) (n : String) (h t : Nat) (y : Option Value) :
    Prop :=
  l[h]? = some t ∧ A.entry t n = some y ∧ ∀ u ∈ l.take h, A.entry u n = none

/-- No scope on the lineage `l` declares `n`. -/
def Undeclared (A : Scopes) (l : List Nat) (n : String) : Prop := ∀ u ∈ l, A.entry u n = none

theorem FirstDeclares.succ (hf : A.FirstDeclares (s :: l) n (h + 1) t y) :
    A.entry s n = none ∧ A.FirstDeclares l n h t y :=
  ⟨hf.2.2 s (by simp), hf.1, hf.2.1, fun u hu => hf.2.2 u (by simp [hu])⟩

theorem FirstDeclares.zero (hf : A.FirstDeclares (s :: l) n 0 t y) : t = s ∧ A.entry s n = some y := by
  obtain ⟨ht, hy, -⟩ := hf
  cases ht
  exact ⟨rfl, hy⟩

/-- A scope on a lineage with a parent lies in the arena. -/
theorem getElem?_of_parentOf {p : Nat} (hp : A.parentOf s = some p) :
    ∃ sc, A.slots[s]? = some sc ∧ sc.parent = some p := by
  unfold parentOf at hp
  split at hp
  · exact ⟨_, ‹_›, hp⟩
  · cases hp

/-! ## Going a number of links out -/

/-- Going `h` links out from `s` reaches the scope `h` places along its lineage. -/
theorem Lineage.ancestorFrom (hl : A.Lineage s l) :
    ∀ {h t}, l[h]? = some t → A.ancestorFrom total h s = .ok t := by
  induction hl with
  | last _ =>
    intro h t ht
    cases h with
    | zero => cases ht; rfl
    | succ h => simp at ht
  | cons hq _ ih =>
    intro h t ht
    cases h with
    | zero => cases ht; rfl
    | succ h =>
      obtain ⟨sc, hsc, hpar⟩ := getElem?_of_parentOf hq
      simp only [Scopes.ancestorFrom, hsc, hpar]
      exact ih (by simpa using ht)

/-- Going past the end of a lineage of scopes in the arena is the interpreter's own fault. -/
theorem Lineage.ancestorFrom_past (hl : A.Lineage s l) (hin : ∀ u ∈ l, u < A.slots.size) :
    ∀ {h}, l.length ≤ h → A.ancestorFrom total h s = .error (.scopeChainTooShort total) := by
  induction hl with
  | @last s hp =>
    intro h hh
    obtain ⟨k, rfl⟩ : ∃ k, h = k + 1 := ⟨h - 1, by simp at hh; omega⟩
    obtain ⟨sc, hsc⟩ := getElem?_of_lt (hin s (by simp))
    have hpar : sc.parent = none := by rw [← parentOf_of_getElem? hsc]; exact hp
    simp [Scopes.ancestorFrom, hsc, hpar]
  | cons hq _ ih =>
    intro h hh
    obtain ⟨k, rfl⟩ : ∃ k, h = k + 1 := ⟨h - 1, by simp at hh; omega⟩
    obtain ⟨sc, hsc, hpar⟩ := getElem?_of_parentOf hq
    simp only [Scopes.ancestorFrom, hsc, hpar]
    exact ih (fun u hu => hin u (List.mem_cons_of_mem _ hu)) (by simp at hh; omega)

/-- Looking `n` up in the scope `h` links out reads its entry there. -/
theorem getAt_of_ancestor (hh : A.ancestor s h = .ok t) (hy : A.entry t x.lexeme = some y) :
    A.getAt s h x = readSlot x y := by
  obtain ⟨sc, hsc, hy⟩ := getElem?_of_entry hy
  simp [getAt, hh, bind, Except.bind, hsc, hy]

theorem assignAt_of_ancestor (hh : A.ancestor s h = .ok t) (hy : A.entry t x.lexeme = some y) :
    A.assignAt s h x v = .ok (A.write t x.lexeme v) := by
  obtain ⟨sc, hsc, hy⟩ := getElem?_of_entry hy
  simp [assignAt, hh, bind, Except.bind, hsc, hy, write_of_getElem? hsc]

theorem getAt_of_ancestor_none (hh : A.ancestor s h = .ok t) (ht : t < A.slots.size)
    (hy : A.entry t x.lexeme = none) : A.getAt s h x = .error (.undefinedVariable x) := by
  obtain ⟨sc, hsc⟩ := getElem?_of_lt ht
  rw [entry_of_getElem? hsc] at hy
  simp [getAt, hh, bind, Except.bind, hsc, hy]

theorem assignAt_of_ancestor_none (hh : A.ancestor s h = .ok t) (ht : t < A.slots.size)
    (hy : A.entry t x.lexeme = none) : A.assignAt s h x v = .error (.undefinedVariable x) := by
  obtain ⟨sc, hsc⟩ := getElem?_of_lt ht
  rw [entry_of_getElem? hsc] at hy
  simp [assignAt, hh, bind, Except.bind, hsc, hy]

/-- A successful counted assignment writes over an entry that was there. -/
theorem assignAt_eq_ok (hB : A.assignAt s h x v = .ok B) :
    ∃ t, (A.entry t x.lexeme).isSome ∧ B = A.write t x.lexeme v := by
  unfold assignAt at hB
  cases hA : A.ancestor s h with
  | error e => simp [hA] at hB; cases hB
  | ok target =>
    simp only [hA, bind, Except.bind] at hB
    split at hB
    · cases hB
    · rename_i sc hs
      split at hB
      · rename_i hx
        cases hB
        exact ⟨target, by simp [entry_of_getElem? hs, hx], (write_of_getElem? hs).symm⟩
      · cases hB

/-- A successful assignment by walking out writes over an entry that was there. -/
theorem assignFrom_eq_ok : ∀ {fuel s}, A.assignFrom x v fuel s = .ok B →
    ∃ t, (A.entry t x.lexeme).isSome ∧ B = A.write t x.lexeme v
  | 0, _, hB => by simp [assignFrom] at hB
  | fuel + 1, s, hB => by
    unfold assignFrom at hB
    split at hB
    · cases hB
    · rename_i sc hs
      split at hB
      · rename_i hx
        cases hB
        exact ⟨s, by simp [entry_of_getElem? hs, hx], (write_of_getElem? hs).symm⟩
      · split at hB
        · exact assignFrom_eq_ok hB
        · cases hB

/-! ## Walking out to the first declaration -/

/-- The walk out from `s` stops at the first scope of its lineage that declares the name. -/
theorem Lineage.getFrom_first (hl : A.Lineage s l) :
    ∀ {fuel h t}, l.length ≤ fuel → A.FirstDeclares l x.lexeme h t y →
      A.getFrom x fuel s = readSlot x y := by
  induction hl with
  | @last s hp =>
    intro fuel h t hf hd
    obtain ⟨f, rfl⟩ : ∃ f, fuel = f + 1 := ⟨fuel - 1, by simp at hf; omega⟩
    cases h with
    | succ h => simp [FirstDeclares] at hd
    | zero =>
      obtain ⟨rfl, hy⟩ := hd.zero
      obtain ⟨sc, hsc, hy⟩ := getElem?_of_entry hy
      simp [getFrom, hsc, hy]
  | @cons s q l hq _ ih =>
    intro fuel h t hf hd
    obtain ⟨f, rfl⟩ : ∃ f, fuel = f + 1 := ⟨fuel - 1, by simp at hf; omega⟩
    obtain ⟨sc, hsc, hpar⟩ := getElem?_of_parentOf hq
    cases h with
    | zero =>
      obtain ⟨rfl, hy⟩ := hd.zero
      rw [entry_of_getElem? hsc] at hy
      simp [getFrom, hsc, hy]
    | succ h =>
      obtain ⟨hnone, hd⟩ := hd.succ
      rw [entry_of_getElem? hsc] at hnone
      simp only [getFrom, hsc, hnone, hpar]
      exact ih (by simp at hf; omega) hd

theorem Lineage.assignFrom_first (hl : A.Lineage s l) :
    ∀ {fuel h t}, l.length ≤ fuel → A.FirstDeclares l x.lexeme h t y →
      A.assignFrom x v fuel s = .ok (A.write t x.lexeme v) := by
  induction hl with
  | @last s hp =>
    intro fuel h t hf hd
    obtain ⟨f, rfl⟩ : ∃ f, fuel = f + 1 := ⟨fuel - 1, by simp at hf; omega⟩
    cases h with
    | succ h => simp [FirstDeclares] at hd
    | zero =>
      obtain ⟨rfl, hy⟩ := hd.zero
      obtain ⟨sc, hsc, hy⟩ := getElem?_of_entry hy
      simp [assignFrom, hsc, hy, write_of_getElem? hsc]
  | @cons s q l hq _ ih =>
    intro fuel h t hf hd
    obtain ⟨f, rfl⟩ : ∃ f, fuel = f + 1 := ⟨fuel - 1, by simp at hf; omega⟩
    obtain ⟨sc, hsc, hpar⟩ := getElem?_of_parentOf hq
    cases h with
    | zero =>
      obtain ⟨rfl, hy⟩ := hd.zero
      rw [entry_of_getElem? hsc] at hy
      simp [assignFrom, hsc, hy, write_of_getElem? hsc]
    | succ h =>
      obtain ⟨hnone, hd⟩ := hd.succ
      rw [entry_of_getElem? hsc] at hnone
      simp only [assignFrom, hsc, hnone, hpar]
      exact ih (by simp at hf; omega) hd

/-- When no scope of a lineage in the arena declares the name, the walk out fails as the
program's fault, whatever its fuel. -/
theorem Lineage.getFrom_undeclared (hl : A.Lineage s l) (hin : ∀ u ∈ l, u < A.slots.size)
    (hu : A.Undeclared l x.lexeme) : ∀ {fuel}, A.getFrom x fuel s = .error (.undefinedVariable x) := by
  induction hl with
  | @last s hp =>
    intro fuel
    cases fuel with
    | zero => rfl
    | succ f =>
      obtain ⟨sc, hsc⟩ := getElem?_of_lt (hin s (by simp))
      have hpar : sc.parent = none := by rw [← parentOf_of_getElem? hsc]; exact hp
      have hnone := hu s (by simp)
      rw [entry_of_getElem? hsc] at hnone
      simp [getFrom, hsc, hnone, hpar]
  | @cons s q l hq _ ih =>
    intro fuel
    cases fuel with
    | zero => rfl
    | succ f =>
      obtain ⟨sc, hsc, hpar⟩ := getElem?_of_parentOf hq
      have hnone := hu s (by simp)
      rw [entry_of_getElem? hsc] at hnone
      simp only [getFrom, hsc, hnone, hpar]
      exact ih (fun u hu' => hin u (List.mem_cons_of_mem _ hu')) fun u hu' =>
        hu u (List.mem_cons_of_mem _ hu')

theorem Lineage.assignFrom_undeclared (hl : A.Lineage s l) (hin : ∀ u ∈ l, u < A.slots.size)
    (hu : A.Undeclared l x.lexeme) :
    ∀ {fuel}, A.assignFrom x v fuel s = .error (.undefinedVariable x) := by
  induction hl with
  | @last s hp =>
    intro fuel
    cases fuel with
    | zero => rfl
    | succ f =>
      obtain ⟨sc, hsc⟩ := getElem?_of_lt (hin s (by simp))
      have hpar : sc.parent = none := by rw [← parentOf_of_getElem? hsc]; exact hp
      have hnone := hu s (by simp)
      rw [entry_of_getElem? hsc] at hnone
      simp [assignFrom, hsc, hnone, hpar]
  | @cons s q l hq _ ih =>
    intro fuel
    cases fuel with
    | zero => rfl
    | succ f =>
      obtain ⟨sc, hsc, hpar⟩ := getElem?_of_parentOf hq
      have hnone := hu s (by simp)
      rw [entry_of_getElem? hsc] at hnone
      simp only [assignFrom, hsc, hnone, hpar]
      exact ih (fun u hu' => hin u (List.mem_cons_of_mem _ hu')) fun u hu' =>
        hu u (List.mem_cons_of_mem _ hu')

/-! ## Both walks in a rooted arena -/

/-- The lineage of a scope in use in a rooted arena lies in the arena and is no longer than it. -/
theorem Rooted.lineage_in (hA : A.Rooted) (hs : A.Live s) (hl : A.Lineage s l) :
    (∀ u ∈ l, u < A.slots.size) ∧ l.length ≤ A.slots.size := by
  obtain ⟨l', hl', hnd, hlive, -⟩ := hA.lineage s hs
  rw [hl.unique hl']
  exact ⟨fun u hu => (hlive u hu).1, length_le_of_nodup hnd fun u hu => (hlive u hu).1⟩

/-- Both walks reach the first declaration: they read its entry, and assign by writing over it. -/
theorem Rooted.lookups_first (hA : A.Rooted) (hs : A.Live s) (hl : A.Lineage s l)
    (hd : A.FirstDeclares l x.lexeme h t y) :
    A.getAt s h x = readSlot x y ∧ A.get s x = readSlot x y ∧
      A.assignAt s h x v = .ok (A.write t x.lexeme v) ∧ A.assign s x v = .ok (A.write t x.lexeme v) := by
  have hfuel : l.length ≤ A.slots.size + 1 := by have := (hA.lineage_in hs hl).2; omega
  have hanc : A.ancestor s h = .ok t := hl.ancestorFrom hd.1
  exact ⟨getAt_of_ancestor hanc hd.2.1, hl.getFrom_first hfuel hd,
    assignAt_of_ancestor hanc hd.2.1, hl.assignFrom_first hfuel hd⟩

/-- With no declaration on the lineage, both walks fail as the program's fault, except that
the counted walk past the globals fails as the interpreter's own. -/
theorem Rooted.lookups_undeclared (hA : A.Rooted) (hs : A.Live s) (hl : A.Lineage s l)
    (hu : A.Undeclared l x.lexeme) :
    A.get s x = .error (.undefinedVariable x) ∧ A.assign s x v = .error (.undefinedVariable x) ∧
      ∀ h, if h < l.length then
          A.getAt s h x = .error (.undefinedVariable x) ∧
            A.assignAt s h x v = .error (.undefinedVariable x)
        else
          A.getAt s h x = .error (.scopeChainTooShort h) ∧
            A.assignAt s h x v = .error (.scopeChainTooShort h) := by
  have hin := (hA.lineage_in hs hl).1
  refine ⟨hl.getFrom_undeclared hin hu, hl.assignFrom_undeclared hin hu, fun h => ?_⟩
  split
  · next hh =>
    obtain ⟨t, ht⟩ : ∃ t, l[h]? = some t := ⟨l[h], by simp [hh]⟩
    have hanc : A.ancestor s h = .ok t := hl.ancestorFrom ht
    have htl : t ∈ l := List.mem_of_getElem? ht
    exact ⟨getAt_of_ancestor_none hanc (hin t htl) (hu t htl),
      assignAt_of_ancestor_none hanc (hin t htl) (hu t htl)⟩
  · next hh =>
    have hanc : A.ancestor s h = .error (.scopeChainTooShort h) :=
      hl.ancestorFrom_past hin (by omega)
    simp [getAt, assignAt, hanc, bind, Except.bind]

/-- What looking the name `x` up from `s`, whose lineage is `l`, does, by walking out and by
counting links, and what assigning it `v` does. -/
structure LookupsAgree (A : Scopes) (s : Nat) (l : List Nat) (x : Token) (v : Value) : Prop where
  /-- When the first scope on the lineage that declares `x` is `t`, `h` links out, both walks
  read its entry (its value, or the fault of a name without one), and both assignments write
  `v` over that one entry, leaving every other entry, parent and pin as it was. -/
  first : ∀ h t y, A.FirstDeclares l x.lexeme h t y →
    A.getAt s h x = readSlot x y ∧ A.get s x = readSlot x y ∧
      A.assignAt s h x v = A.assign s x v ∧
      ∃ B, A.assign s x v = .ok B ∧ Shaped A B ∧
        ∀ u m, B.entry u m = if u = t ∧ m = x.lexeme then some (some v) else A.entry u m
  /-- When no scope on the lineage declares `x`, both walks fail with the fault of an undefined
  name, except that the counted walk past the globals fails as the interpreter's own fault. -/
  undeclared : A.Undeclared l x.lexeme →
    A.get s x = .error (.undefinedVariable x) ∧ A.assign s x v = .error (.undefinedVariable x) ∧
      ∀ h, if h < l.length then
          A.getAt s h x = .error (.undefinedVariable x) ∧
            A.assignAt s h x v = .error (.undefinedVariable x)
        else
          A.getAt s h x = .error (.scopeChainTooShort h) ∧
            A.assignAt s h x v = .error (.scopeChainTooShort h)
  /-- A failed assignment leaves the arena as it was. -/
  failed_keeps : ∀ h f, (A.assign s x v = .error f → A.perform (.assign s x v) = A) ∧
    (A.assignAt s h x v = .error f → A.perform (.assignAt s h x v) = A)
  /-- No assignment declares a name. -/
  declares_same : ∀ h B, (A.assign s x v = .ok B ∨ A.assignAt s h x v = .ok B) →
    ∀ u m, (B.entry u m).isSome = (A.entry u m).isSome

/-- In a rooted arena, looking a name up from a scope in use by walking out to the first scope
that declares it agrees with looking it up the number of links out that the first declaration
lies, in what both read and in how both assign; where no scope out from `s` declares it, both
fail as the program's fault until the counted walk goes past the globals. -/
theorem resolved_lookup_agrees (hA : A.Rooted) (hs : A.Live s) (hl : A.Lineage s l) (x : Token)
    (v : Value) : A.LookupsAgree s l x v where
  first h t y hd := by
    obtain ⟨hgetAt, hget, hassignAt, hassign⟩ := hA.lookups_first (v := v) hs hl hd
    have ht : (A.entry t x.lexeme).isSome := by simp [hd.2.1]
    exact ⟨hgetAt, hget, hassignAt.trans hassign.symm, _, hassign, shaped_write A t _ v,
      entry_write ht⟩
  undeclared := hA.lookups_undeclared hs hl
  failed_keeps _ _ := ⟨fun he => by simp [perform, he], fun he => by simp [perform, he]⟩
  declares_same h B hB := by
    -- an assignment that succeeds, either way, writes where the name is declared
    obtain ⟨t, ht, rfl⟩ : ∃ t, (A.entry t x.lexeme).isSome ∧ B = A.write t x.lexeme v := by
      rcases hB with hB | hB
      · exact assignFrom_eq_ok hB
      · exact assignAt_eq_ok hB
    exact entry_write_isSome ht

/-- A global `a` with a value, and under the globals a scope declaring `b` without one. -/
def nested : Scopes :=
  ((new.perform (.child globals)).perform (.define globals "a" (some (.number 1)))).perform
    (.define 1 "b" none)

theorem reachable_nested : nested.Reachable :=
  .step (.step (.step .new (show Live _ 0 by decide)) (show Live _ 0 by decide))
    (show Live _ 1 by decide)

theorem lineage_nested : nested.Lineage 1 [1, 0] :=
  .cons (p := 0) (by decide) (.last (by decide))

/-- From the inner scope, `a` lies one link out and both walks find it there. -/
theorem lookups_agree_nested :
    nested.Rooted ∧ nested.Live 1 ∧ nested.Lineage 1 [1, 0] ∧
      nested.LookupsAgree 1 [1, 0] ⟨.identifier, "a", none, 1, 1⟩ (.number 2) :=
  ⟨reachable_nested.rooted, by decide, lineage_nested,
    resolved_lookup_agrees reachable_nested.rooted (by decide) lineage_nested _ _⟩

end Scopes

end Lox
