import Lox.Proofs.Boundary
import Lox.Proofs.Renaming
import Lox.Proofs.Receivers
/-!
# Machines that mirror each other

`Machine.Mirror φ m r` says that the machine `r` is `m` with every scope in use moved to the
slot `φ` gives it: the arena of `r` embeds the scopes in use of `m` (`Scopes.Embeds`), the
fields of instances and the current scope are renamed by `φ`, and the rest is the same.
Renamings that agree on the scopes in use give the same mirror, since every value a sound
machine keeps closes over pinned scopes, and pinned scopes are in use.

`Mirrors x y R φ m r` says that `x` run from `m` and `y` run from `r`, machines that mirror each
other by `φ`, end in machines that mirror each other by a renaming that agrees with `φ` on
every scope in use at the start, and both fail alike or give results that `R` relates at that
renaming. It composes along binds, and every primitive step of evaluation mirrors itself. A
scope opened on both sides is mirrored by redirecting the renaming to the slot the right side
opens; a scope released on the left only is out of use, and the mirror stays.

## Main statements

* `Lox.Machine.Mirrors.bind`: runs that mirror each other compose.
* `Lox.Machine.Mirrors.scoped`: a block's scope, opened on both sides and released on the left.
* `Lox.Machine.Opens.release_safe`: the scope a block or a call releases is pinned, or it is in
  use and no scope in use or pinned lies under it.
-/

namespace Lox

namespace Machine

open Eval Scopes

variable {α β γ δ : Type} {φ ψ : Nat → Nat} {m m' r r' : Machine}

/-- The fields of instances with their values renamed. -/
def renameFields (φ : Nat → Nat) (fields : Array (List (String × Value))) :
    Array (List (String × Value)) :=
  fields.map (List.map (Prod.map id (Value.rename φ)))

/-- `r` is `m` with every scope in use moved to the slot `φ` gives it: its arena embeds the
scopes in use of `m` by `φ`, and the rest of the two machines agree up to the renaming. The
globals have no parent and keep their slot, and `m` is sound. -/
structure Mirror (φ : Nat → Nat) (m r : Machine) : Prop where
  sound : Sound m
  root : m.scopes.parentOf Scopes.globals = none
  globals : φ Scopes.globals = Scopes.globals
  scopes : m.scopes.Embeds φ r.scopes
  fields : r.fields = renameFields φ m.fields
  current : r.current = φ m.current
  depth : r.depth = m.depth
  nextStamp : r.nextStamp = m.nextStamp
  output : r.output = m.output
  clock : r.clock = m.clock

/-! ## Renamings that agree on the scopes in use -/

/-- A function over a pinned scope closes over a scope in use, where renamings that agree on
the scopes in use agree. -/
theorem scopeIn_of_pinned (hm : Sound m) (hψ : ∀ s, m.scopes.Live s → ψ s = φ s) (f : Callable)
    (hf : ScopePinned m.scopes f) : Callable.ScopeIn (fun s => ψ s = φ s) f := by
  cases f with
  | native => trivial
  | closure _ _ _ scope _ _ => exact hψ scope (hm.wf.live_of_pinned hf)

/-- A value whose functions close over pinned scopes is renamed alike by renamings that agree
on the scopes in use. -/
theorem Good.rename_eq (hm : Sound m) {v : Value} (hv : Good m v)
    (hψ : ∀ s, m.scopes.Live s → ψ s = φ s) : v.rename ψ = v.rename φ :=
  Value.rename_congr (Value.Fns.mono (scopeIn_of_pinned hm hψ) hv)

theorem callableRename_eq (hm : Sound m) {f : Callable}
    (hf : Callable.Fns (ScopePinned m.scopes) f) (hψ : ∀ s, m.scopes.Live s → ψ s = φ s) :
    f.rename ψ = f.rename φ :=
  Callable.rename_congr (Callable.Fns.mono (scopeIn_of_pinned hm hψ) hf)

theorem classRename_eq (hm : Sound m) {c : ClassDef}
    (hc : ClassDef.Fns (ScopePinned m.scopes) c) (hψ : ∀ s, m.scopes.Live s → ψ s = φ s) :
    c.rename ψ = c.rename φ :=
  ClassDef.rename_congr (ClassDef.Fns.mono (scopeIn_of_pinned hm hψ) hc)

theorem AllGood.map_rename_eq (hm : Sound m) {vs : List Value} (hvs : AllGood m vs)
    (hψ : ∀ s, m.scopes.Live s → ψ s = φ s) : vs.map (Value.rename ψ) = vs.map (Value.rename φ) :=
  List.map_congr_left fun v hv => (hvs v hv).rename_eq hm hψ

theorem Sound.holds_rename_eq (hm : Sound m) (hψ : ∀ s, m.scopes.Live s → ψ s = φ s) :
    m.scopes.Holds fun v => v.rename ψ = v.rename φ :=
  hm.values.scopes.mono fun _ hv => hv.rename_eq hm hψ

theorem Sound.renameFields_eq (hm : Sound m) (hψ : ∀ s, m.scopes.Live s → ψ s = φ s) :
    renameFields ψ m.fields = renameFields φ m.fields := by
  refine Array.map_congr_left fun fs hfs => List.map_congr_left fun e he => ?_
  obtain ⟨i, hi, rfl⟩ := Array.getElem_of_mem hfs
  obtain ⟨k, v⟩ := e
  simp only [Prod.map, id]
  rw [(hm.values.fields i _ (Array.getElem?_eq_some_iff.2 ⟨hi, rfl⟩) _ he).rename_eq hm hψ]

/-- A mirror holds by any renaming that agrees on the scopes in use. -/
theorem Mirror.congr (h : Mirror φ m r) (hψ : ∀ s, m.scopes.Live s → ψ s = φ s) :
    Mirror ψ m r where
  sound := h.sound
  root := h.root
  globals := (hψ _ h.sound.wf.globals_live).trans h.globals
  scopes := h.scopes.congr h.sound.wf hψ (h.sound.holds_rename_eq hψ)
  fields := h.fields.trans (h.sound.renameFields_eq hψ).symm
  current := h.current.trans (hψ _ h.sound.current_live).symm
  depth := h.depth
  nextStamp := h.nextStamp
  output := h.output
  clock := h.clock

/-! ## Runs that mirror each other -/

/-- Run from machines that mirror each other by `φ`, `x` and `y` end in machines that mirror
each other by a renaming that agrees with `φ` on every scope in use at the start, and both
fail alike, or give results that `R` relates at that renaming. -/
def Mirrors (x : Eval α) (y : Eval β) (R : (Nat → Nat) → α → β → Prop) (φ : Nat → Nat)
    (m r : Machine) : Prop :=
  ∃ ψ, (∀ s, m.scopes.Live s → ψ s = φ s) ∧ Mirror ψ (exec x m).2 (exec y r).2 ∧
    ExceptRel (R ψ) (exec x m).1 (exec y r).1

/-- Results of which the second is the first renamed. -/
def Renames (rename : (Nat → Nat) → α → α) (ψ : Nat → Nat) (a b : α) : Prop :=
  b = rename ψ a

/-- Results that are the same. -/
def Same (_ : Nat → Nat) (a b : α) : Prop := a = b

theorem Mirrors.bind {x : Eval α} {y : Eval β} {f : α → Eval γ} {g : β → Eval δ}
    {P : Machine → α → Prop} {R : (Nat → Nat) → α → β → Prop} {S : (Nat → Nat) → γ → δ → Prop}
    (hx : Mirrors x y R φ m r) (hfx : Framed x P m)
    (hk : ∀ a b m' r' ψ, (∀ s, m.scopes.Live s → ψ s = φ s) → Frame m m' → P m' a →
      Mirror ψ m' r' → R ψ a b → Mirrors (f a) (g b) S ψ m' r') :
    Mirrors (x >>= f) (y >>= g) S φ m r := by
  obtain ⟨ψ, hψ, hmir, hrel⟩ := hx
  obtain ⟨-, hfr, hok⟩ := hfx
  unfold Mirrors
  simp only [exec_bind]
  generalize exec x m = X at *
  generalize exec y r = Y at *
  obtain ⟨ea, m1⟩ := X
  obtain ⟨eb, r1⟩ := Y
  cases ea with
  | error e =>
    cases eb with
    | error e' => exact ⟨ψ, hψ, hmir, hrel⟩
    | ok b => exact hrel.elim
  | ok a =>
    cases eb with
    | error e' => exact hrel.elim
    | ok b =>
      obtain ⟨ψ', hψ', hmir', hrel'⟩ := hk a b m1 r1 ψ hψ hfr (hok a rfl) hmir hrel
      exact ⟨ψ', fun s hs => (hψ' s (hfr.live s hs)).trans (hψ s hs), hmir', hrel'⟩

theorem Mirrors.pure (h : Mirror φ m r) {a : α} {b : β} {R : (Nat → Nat) → α → β → Prop}
    (hab : R φ a b) : Mirrors (Pure.pure a) (Pure.pure b) R φ m r :=
  ⟨φ, fun _ _ => rfl, h, hab⟩

theorem Mirrors.throw (h : Mirror φ m r) (e : Interrupt) {R : (Nat → Nat) → α → β → Prop} :
    Mirrors (throw e) (throw e) R φ m r :=
  ⟨φ, fun _ _ => rfl, h, rfl⟩

theorem Mirrors.fail (h : Mirror φ m r) (f : RuntimeFault) {R : (Nat → Nat) → α → β → Prop} :
    Mirrors (Eval.fail f) (Eval.fail f) R φ m r :=
  Mirrors.throw h _

theorem Mirrors.ofExcept (h : Mirror φ m r) {x : Except RuntimeFault α}
    {y : Except RuntimeFault β} {R : (Nat → Nat) → α → β → Prop} (hxy : ExceptRel (R φ) x y) :
    Mirrors (Eval.ofExcept x) (Eval.ofExcept y) R φ m r := by
  cases x <;> cases y
  · cases hxy; exact Mirrors.fail h _
  · exact hxy.elim
  · exact hxy.elim
  · exact Mirrors.pure h hxy

/-- A value the left run keeps is renamed alike by every later renaming. -/
theorem Good.renames (hm : Sound m) {v : Value} (hv : Good m v)
    (hψ : ∀ s, m.scopes.Live s → ψ s = φ s) : Renames Value.rename ψ v (v.rename φ) :=
  (hv.rename_eq hm hψ).symm

theorem Mirrors.bind_renames {rn : (Nat → Nat) → α → α} {x y : Eval α} {f : α → Eval γ}
    {g : α → Eval δ} {P : Machine → α → Prop} {S : (Nat → Nat) → γ → δ → Prop}
    (hx : Mirrors x y (Renames rn) φ m r) (hfx : Framed x P m)
    (hk : ∀ a m' r' ψ, (∀ s, m.scopes.Live s → ψ s = φ s) → Frame m m' → P m' a →
      Mirror ψ m' r' → Mirrors (f a) (g (rn ψ a)) S ψ m' r') :
    Mirrors (x >>= f) (y >>= g) S φ m r :=
  hx.bind hfx fun a _ m' r' ψ hψ hf ha h' hb => hb ▸ hk a m' r' ψ hψ hf ha h'

theorem Mirrors.bind_same {x y : Eval α} {f : α → Eval γ} {g : α → Eval δ}
    {P : Machine → α → Prop} {S : (Nat → Nat) → γ → δ → Prop}
    (hx : Mirrors x y Same φ m r) (hfx : Framed x P m)
    (hk : ∀ a m' r' ψ, (∀ s, m.scopes.Live s → ψ s = φ s) → Frame m m' → P m' a →
      Mirror ψ m' r' → Mirrors (f a) (g a) S ψ m' r') :
    Mirrors (x >>= f) (y >>= g) S φ m r :=
  hx.bind hfx fun a _ m' r' ψ hψ hf ha h' hb => hb ▸ hk a m' r' ψ hψ hf ha h'

/-- Reading the machine changes neither: what follows reads the machines themselves. -/
theorem Mirrors.get_bind {f : Machine → Eval γ} {g : Machine → Eval δ}
    {S : (Nat → Nat) → γ → δ → Prop} (hk : Mirrors (f m) (g r) S φ m r) :
    Mirrors (get >>= f) (get >>= g) S φ m r := by
  unfold Mirrors at hk ⊢
  simp only [exec_bind, exec_get]
  exact hk

/-- A renaming that agrees with `ψ1` on the scopes in use after a framed run agrees with what
`ψ1` agrees with before it. -/
theorem agree_trans {m1 : Machine} {ψ1 : Nat → Nat} (hf : Frame m m1)
    (hψ1 : ∀ s, m.scopes.Live s → ψ1 s = φ s) (hψ : ∀ s, m1.scopes.Live s → ψ s = ψ1 s) :
    ∀ s, m.scopes.Live s → ψ s = φ s :=
  fun s hs => (hψ s (hf.live s hs)).trans (hψ1 s hs)

/-! ## Steps that change the machines -/

theorem renameFields_push (fields : Array (List (String × Value))) :
    renameFields φ (fields.push []) = (renameFields φ fields).push [] := by
  simp [renameFields, Array.map_push]

theorem renameFields_modify (fields : Array (List (String × Value))) (i : Nat) (name : String)
    (v : Value) : renameFields φ (fields.modify i (setEntry name v)) =
      (renameFields φ fields).modify i (setEntry name (v.rename φ)) := by
  refine Array.ext_getElem? fun j => ?_
  simp only [renameFields, Array.getElem?_map, Array.getElem?_modify]
  split
  · cases fields[j]? with
    | none => rfl
    | some fs => simp [setEntry_map_entries]
  · rfl

/-- The fields of an instance, renamed. -/
theorem renameFields_lookup (fields : Array (List (String × Value))) (i : Nat) (name : String) :
    ((renameFields φ fields)[i]?.getD []).lookup name =
      ((fields[i]?.getD []).lookup name).map (Value.rename φ) := by
  simp only [renameFields, Array.getElem?_map]
  cases fields[i]? with
  | none => rfl
  | some fs => exact lookup_map_entries _ fs name

/-- Machines that differ from a mirrored pair only in their arenas, sound and framed on the
left, mirror each other when the arenas embed. -/
theorem Mirror.scopes_eq (h : Mirror φ m r) {A B : Scopes} (hs : Sound { m with scopes := A })
    (hf : Frame m { m with scopes := A }) (hAB : A.Embeds φ B) :
    Mirror φ { m with scopes := A } { r with scopes := B } :=
  { h with
    sound := hs
    root := (hf.parentOf_eq _ h.sound.wf.globals_live).trans h.root
    scopes := hAB }

theorem Mirror.fields_eq (h : Mirror φ m r) {F : Array (List (String × Value))}
    (hs : Sound { m with fields := F }) :
    Mirror φ { m with fields := F } { r with fields := renameFields φ F } :=
  { h with sound := hs, fields := rfl }

theorem Mirror.stamp (h : Mirror φ m r) :
    Mirror φ { m with nextStamp := m.nextStamp + 1 } { r with nextStamp := r.nextStamp + 1 } :=
  { h with sound := h.sound.stamp _, nextStamp := by simp [h.nextStamp] }

theorem Mirror.emit (h : Mirror φ m r) (text : String) :
    Mirror φ { m with output := m.output ++ text } { r with output := r.output ++ text } :=
  { h with sound := h.sound.emit text, output := by simp [h.output] }

theorem Mirror.setCurrent (h : Mirror φ m r) {c : Nat} (hc : m.scopes.Live c) :
    Mirror φ { m with current := c } { r with current := φ c } :=
  { h with sound := h.sound.setCurrent hc, current := rfl }

theorem Mirror.withDepth (h : Mirror φ m r) {d : Nat} (hd : d ≤ RuntimeFault.maxDepth) :
    Mirror φ { m with depth := d } { r with depth := d } :=
  { h with sound := h.sound.withDepth hd, depth := rfl }

theorem Mirrors.currentScope (h : Mirror φ m r) :
    Mirrors currentScope currentScope (fun ψ a b => b = ψ a) φ m r :=
  ⟨φ, fun _ _ => rfl, h, h.current⟩

/-- Reading the current scope changes neither machine: what follows runs from the same
machines, on the current scope and on its renamed slot. -/
theorem Mirrors.currentScope_bind {f : Nat → Eval γ} {g : Nat → Eval δ}
    {S : (Nat → Nat) → γ → δ → Prop} (h : Mirror φ m r)
    (hk : Mirrors (f m.current) (g (φ m.current)) S φ m r) :
    Mirrors (Eval.currentScope >>= f) (Eval.currentScope >>= g) S φ m r := by
  unfold Mirrors at hk ⊢
  simp only [exec_bind, exec_currentScope, h.current]
  exact hk

theorem Mirrors.stamp (h : Mirror φ m r) : Mirrors stamp stamp Same φ m r :=
  ⟨φ, fun _ _ => rfl, h.stamp, h.nextStamp.symm⟩

theorem Mirrors.emit (h : Mirror φ m r) (text : String) :
    Mirrors (emit text) (emit text) Same φ m r :=
  ⟨φ, fun _ _ => rfl, h.emit text, rfl⟩

theorem Mirror.pin (h : Mirror φ m r) {s : Nat} (hs : m.scopes.Live s) :
    Mirror φ { m with scopes := m.scopes.pin s } { r with scopes := r.scopes.pin (φ s) } :=
  h.scopes_eq (h.sound.pin hs).1 (h.sound.pin hs).2 (h.scopes.pin s _)

theorem Mirrors.pin (h : Mirror φ m r) {s : Nat} (hs : m.scopes.Live s) :
    Mirrors (pin s) (pin (φ s)) Same φ m r :=
  ⟨φ, fun _ _ => rfl, h.pin hs, rfl⟩

theorem Mirrors.fail_bind (h : Mirror φ m r) (f : RuntimeFault) (k : α → Eval γ)
    (k' : β → Eval δ) {S : (Nat → Nat) → γ → δ → Prop} :
    Mirrors (Eval.fail f >>= k) (Eval.fail f >>= k') S φ m r := by
  unfold Mirrors
  simp only [exec_bind, exec_fail]
  exact ⟨φ, fun _ _ => rfl, h, rfl⟩

theorem Mirror.define (h : Mirror φ m r) {s : Nat} (hs : m.scopes.Live s) (name : String)
    {v : Option Value} (hv : ∀ x, v = some x → Good m x) :
    Mirror φ { m with scopes := m.scopes.define s name v }
      { r with scopes := r.scopes.define (φ s) name (v.map (Value.rename φ)) } :=
  h.scopes_eq (h.sound.define hv).1 (h.sound.define hv).2 (h.scopes.define hs name v)

theorem Mirrors.define (h : Mirror φ m r) {s : Nat} (hs : m.scopes.Live s) (name : String)
    {v : Option Value} (hv : ∀ x, v = some x → Good m x) :
    Mirrors (define s name v) (define (φ s) name (v.map (Value.rename φ))) Same φ m r :=
  ⟨φ, fun _ _ => rfl, h.define hs name hv, rfl⟩

theorem Mirrors.setField (h : Mirror φ m r) (i : Nat) (name : String) {v : Value}
    (hv : Good m v) : Mirrors (setField i name v) (setField i name (v.rename φ)) Same φ m r := by
  refine ⟨φ, fun _ _ => rfl, ?_, rfl⟩
  have := h.fields_eq (h.sound.setField i name hv)
  simp only [exec_setField, h.fields, ← renameFields_modify]
  exact this

theorem Mirrors.newInstance (h : Mirror φ m r) (c : ClassDef) :
    Mirrors (newInstance c) (newInstance (c.rename φ)) (Renames Value.rename) φ m r := by
  refine ⟨φ, fun _ _ => rfl, ?_, ?_⟩
  · have := h.fields_eq h.sound.newInstance
    simp only [exec_newInstance, h.fields, ← renameFields_push]
    exact this
  · simp [Renames, h.fields, renameFields]

theorem Mirrors.field? (h : Mirror φ m r) (i : Nat) (name : String) :
    Mirrors (field? i name) (field? i name) (Renames fun ψ => Option.map (Value.rename ψ)) φ m r :=
  ⟨φ, fun _ _ => rfl, h, by simp [Renames, h.fields, renameFields_lookup]⟩

theorem Mirror.getAt (h : Mirror φ m r) (hops : Nat) (name : Token) :
    r.scopes.getAt r.current hops name =
      (m.scopes.getAt m.current hops name).map (Value.rename φ) := by
  rw [h.current]
  exact h.scopes.getAt h.sound.wf h.sound.current_live hops name

theorem Mirror.getGlobal (h : Mirror φ m r) (name : Token) :
    r.scopes.get Scopes.globals name = (m.scopes.get Scopes.globals name).map (Value.rename φ) := by
  unfold Scopes.get
  have := h.scopes.getFrom_root h.sound.wf.globals_live h.root name m.scopes.slots.size
    r.scopes.slots.size
  rwa [h.globals] at this

theorem Mirrors.lookup (h : Mirror φ m r) (ref : Reference) :
    Mirrors (lookup ref) (lookup ref) (Renames Value.rename) φ m r := by
  unfold Eval.lookup
  refine ⟨φ, fun _ _ => rfl, ?_, ?_⟩
  · simp only [exec_bind, exec_get]
    split <;> simpa only [exec_ofExcept_snd] using h
  · simp only [exec_bind, exec_get]
    split
    · rw [h.getAt]
      cases m.scopes.getAt m.current _ ref.name <;> rfl
    · rw [h.getGlobal]
      cases m.scopes.get Scopes.globals ref.name <;> rfl

/-- A member bound to a receiver, as a fresh function value, on both sides. -/
theorem Mirrors.boundMethod (h : Mirror φ m r) {f : Callable} {v : Value}
    (hf : Callable.Fns (ScopePinned m.scopes) (f.bind v)) :
    Mirrors (do return Value.function (← Eval.stamp) (f.bind v))
      (do return Value.function (← Eval.stamp) ((f.rename φ).bind (v.rename φ)))
      (Renames Value.rename) φ m r :=
  (Mirrors.stamp h).bind_same (Framed.stamp h.sound) fun k _ _ ψ hψ _ _ h1 =>
    Mirrors.pure h1 (by simp only [Renames, Value.rename, Callable.bind_rename,
      callableRename_eq h.sound hf hψ])


/-- How an assignment that gives the arena `x` leaves the machine `m`. -/
def assignResult (m : Machine) : Except RuntimeFault Scopes → Except Interrupt Unit × Machine
  | .ok A => (.ok (), { m with scopes := A })
  | .error f => (.error (.fault f), m)

/-- An assignment on both sides fails alike on both, or changes both arenas to arenas that
embed. -/
theorem Mirror.assigned (h : Mirror φ m r) {x y : Except RuntimeFault Scopes}
    (hxy : ExceptRel (Scopes.Embeds φ) x y)
    (hx : ∀ A, x = .ok A → Sound { m with scopes := A } ∧ Frame m { m with scopes := A }) :
    ∃ ψ, (∀ s, m.scopes.Live s → ψ s = φ s) ∧
      Mirror ψ (assignResult m x).2 (assignResult r y).2 ∧
      ExceptRel (Same ψ) (assignResult m x).1 (assignResult r y).1 := by
  cases x with
  | error f =>
    cases y with
    | error f' => cases hxy; exact ⟨φ, fun _ _ => rfl, h, rfl⟩
    | ok B => exact hxy.elim
  | ok A =>
    cases y with
    | error f' => exact hxy.elim
    | ok B =>
      obtain ⟨hs, hf⟩ := hx A rfl
      exact ⟨φ, fun _ _ => rfl, h.scopes_eq hs hf hxy, rfl⟩

theorem Mirrors.assignTo (h : Mirror φ m r) (ref : Reference) {v : Value} (hv : Good m v) :
    Mirrors (assignTo ref v) (assignTo ref (v.rename φ)) Same φ m r := by
  unfold Mirrors
  cases hr : ref.hops with
  | some k =>
    rw [exec_assignTo_local m hr, exec_assignTo_local r hr]
    have hAB := h.scopes.assignAt h.sound.wf h.sound.current_live k ref.name v
    rw [← h.current] at hAB
    exact h.assigned hAB fun A hA => h.sound.shaped (Scopes.shaped_assignAt hA)
      (h.sound.values.scopes.assignAt hv hA)
  | none =>
    rw [exec_assignTo_global m hr, exec_assignTo_global r hr]
    have hAB := h.scopes.assignFrom_root h.sound.wf.globals_live h.root ref.name v
      m.scopes.slots.size r.scopes.slots.size
    rw [h.globals] at hAB
    exact h.assigned hAB fun A hA => h.sound.shaped (Scopes.shaped_assign hA)
      (h.sound.values.scopes.assign hv hA)

theorem Mirror.globalNames (h : Mirror φ m r) : r.globalNames = m.globalNames := by
  unfold Machine.globalNames
  have := h.scopes.names h.sound.wf.globals_live
  rwa [h.globals] at this

theorem Mirror.clearOutput (h : Mirror φ m r) :
    Mirror φ { m with output := "" } { r with output := "" } :=
  { h with
    sound := ⟨h.sound.wf, h.sound.current_live, h.sound.depth_le,
      ⟨h.sound.values.scopes, h.sound.values.fields⟩⟩
    output := rfl }

/-! ## Scopes opened and released -/

@[simp] theorem fresh_child (A : Scopes) (p : Nat) :
    @Allocator.child Allocator.fresh A p = A.pushChild p :=
  rfl

@[simp] theorem fresh_release (A : Scopes) (c : Nat) :
    @Allocator.release Allocator.fresh A c = A :=
  rfl

/-- A new scope under a scope in use, and one under its renamed slot in a slot of the right
arena's own: the renaming redirected to that slot mirrors the machines with the new scopes. -/
theorem Mirror.child (h : Mirror φ m r) {p : Nat} (hp : m.scopes.Live p) :
    Mirror (redirect φ (m.scopes.child p).2 r.scopes.slots.size)
      { m with scopes := (m.scopes.child p).1 } { r with scopes := (r.scopes.pushChild (φ p)).1 } := by
  have hold : ∀ t, m.scopes.Live t → redirect φ (m.scopes.child p).2 r.scopes.slots.size t = φ t :=
    fun t ht => redirect_of_ne fun e => Scopes.not_live_child p (e ▸ ht)
  obtain ⟨hs, ho⟩ := h.sound.child hp
  exact {
    sound := hs
    root := (ho.parentOf_eq _ h.sound.wf.globals_live).trans h.root
    globals := (hold _ h.sound.wf.globals_live).trans h.globals
    scopes := h.scopes.child h.sound.wf hp (redirect_self _ _) hold (h.sound.holds_rename_eq hold)
    fields := h.fields.trans (h.sound.renameFields_eq hold).symm
    current := h.current.trans (hold _ h.sound.current_live).symm
    depth := h.depth
    nextStamp := h.nextStamp
    output := h.output
    clock := h.clock }

/-- The renaming redirected to the slot of a new scope agrees with the old one at every scope in
use. -/
theorem redirect_child_eq (p n : Nat) {t : Nat} (ht : m.scopes.Live t) :
    redirect φ (m.scopes.child p).2 n t = φ t :=
  redirect_of_ne fun e => Scopes.not_live_child p (e ▸ ht)

/-- Releasing a scope in use on the left, and nothing on the right, keeps the mirror. -/
theorem Mirror.release (h : Mirror φ m r) {c : Nat} (hc : m.scopes.Live c)
    (hs : Sound { m with scopes := m.scopes.release c }) :
    Mirror φ { m with scopes := m.scopes.release c } r :=
  { h with
    sound := hs
    root := by
      by_cases hg : Scopes.globals = c
      · subst hg
        rw [Scopes.release_of_pinnedAt h.sound.wf.globals_pinned]
        exact h.root
      · rw [Scopes.parentOf_release hg]
        exact h.root
    scopes := h.scopes.release hc }

/-- Arguments bound in a scope in use on the left and in its renamed slot on the right. -/
theorem Mirror.defineArgs {c : Nat} (l : List (Token × Value)) :
    ∀ {m r : Machine}, Mirror φ m r → m.scopes.Live c → (∀ x ∈ l, Good m x.2) →
      Mirror φ (l.foldl (defineArg c) m)
        ((l.map (Prod.map id (Value.rename φ))).foldl (defineArg (φ c)) r) := by
  induction l with
  | nil => exact fun h _ _ => h
  | cons x l ih =>
    intro m r h hc hl
    have hx : ∀ y, some x.2 = some y → Good m y := fun y hy =>
      Option.some.inj hy ▸ hl x List.mem_cons_self
    have hf : Frame m { m with scopes := m.scopes.define c x.1.lexeme (some x.2) } :=
      (h.sound.define hx).2
    exact ih (h.define hc x.1.lexeme hx) (hf.live c hc) fun y hy =>
      (hl y (List.mem_cons_of_mem _ hy)).frame hf

/-- Releasing on the left a scope opened since `m` keeps the mirror, and frames `m`. -/
theorem Mirror.close {c : Nat} {m1 M R : Machine} (hm : Sound m) (ho : Opens m c m1)
    (hf : Frame m1 M) (h : Mirror ψ M R) :
    Mirror ψ { M with scopes := M.scopes.release c } R ∧
      Frame m { M with scopes := M.scopes.release c } := by
  obtain ⟨hs, hfr⟩ := ho.release hm hf h.sound
  exact ⟨h.release (hf.live c ((ho.live_iff c).2 (.inr rfl))) hs, hfr⟩

/-- A run in a new scope under a scope in use, released afterwards however the run ends, and
the same run under the reference allocator. -/
theorem Mirrors.scoped {p : Nat} {R : (Nat → Nat) → α → β → Prop} {P : Machine → α → Prop}
    {k : Nat → Eval α} {k' : Nat → Eval β} (h : Mirror φ m r) (hp : m.scopes.Live p)
    (hk : Mirrors (k (m.scopes.child p).2) (k' r.scopes.slots.size) R
      (redirect φ (m.scopes.child p).2 r.scopes.slots.size)
      { m with scopes := (m.scopes.child p).1 } { r with scopes := (r.scopes.pushChild (φ p)).1 })
    (hfk : Framed (k (m.scopes.child p).2) P { m with scopes := (m.scopes.child p).1 }) :
    Mirrors (do
        let c ← childOf p
        let res ← attempt (k c)
        release c
        resume res)
      (do
        let c ← childOf (A := .fresh) (φ p)
        let res ← attempt (k' c)
        release (A := .fresh) c
        resume res) R φ m r := by
  unfold Mirrors
  simp only [exec_bind, exec_childOf, exec_attempt, exec_release, exec_resume,
    Allocator.exec_childOf (A := .fresh), Allocator.exec_release (A := .fresh), fresh_child,
    fresh_release, Scopes.pushChild_snd]
  obtain ⟨ψ, hψ, hmir, hrel⟩ := hk
  obtain ⟨hs2, hf2, -⟩ := hfk
  obtain ⟨-, ho1⟩ := h.sound.child hp
  obtain ⟨hs3, -⟩ := ho1.release h.sound hf2 hs2
  have hc := hf2.live _ ((ho1.live_iff _).2 (.inr rfl))
  refine ⟨ψ, fun t ht => ?_, hmir.release hc hs3, hrel⟩
  rw [hψ t ((ho1.live_iff t).2 (.inl ht))]
  exact redirect_child_eq p _ ht

/-- The scope of `super` in a class declaration on both sides: opened below the declaring
scope, holding the superclass, and pinned. -/
theorem Mirrors.superScope (h : Mirror φ m r) {p p' : Nat} (hp : m.scopes.Live p)
    (hp' : p' = φ p) {v v' : Value} (hv : Good m v) (hv' : v' = v.rename φ)
    {k k' : Nat → Eval Flow}
    (hk : ∀ ψ m' r', (∀ s, m.scopes.Live s → ψ s = φ s) →
      ψ (m.scopes.child p).2 = r.scopes.slots.size → Frame m m' →
      m'.scopes.pinnedAt (m.scopes.child p).2 = true → Mirror ψ m' r' →
      Mirrors (k (m.scopes.child p).2) (k' r.scopes.slots.size) (Renames Flow.rename) ψ m' r') :
    Mirrors (do
        let sc ← childOf p
        Eval.define sc "super" (some v)
        let scope ← Pure.pure sc
        Eval.pin scope
        k scope)
      (do
        let sc ← childOf (A := .fresh) p'
        Eval.define sc "super" (some v')
        let scope ← Pure.pure sc
        Eval.pin scope
        k' scope) (Renames Flow.rename) φ m r := by
  subst hp' hv'
  unfold Mirrors
  simp only [exec_bind, exec_childOf, exec_define, exec_pure, exec_pin,
    Allocator.exec_childOf (A := .fresh), fresh_child, Scopes.pushChild_snd]
  have hold : ∀ t, m.scopes.Live t →
      redirect φ (m.scopes.child p).2 r.scopes.slots.size t = φ t :=
    fun t ht => redirect_child_eq p _ ht
  obtain ⟨hm1, ho1⟩ := h.sound.child hp
  have hc1 := (ho1.live_iff (m.scopes.child p).2).2 (.inr rfl)
  have hsuper : ∀ x, some v = some x → Good { m with scopes := (m.scopes.child p).1 } x :=
    fun x hx => Option.some.inj hx ▸ hv.opens ho1
  have h2 := (h.child hp).define hc1 "super" hsuper
  rw [redirect_self, Option.map_some, hv.rename_eq h.sound hold] at h2
  obtain ⟨hm2, hf2⟩ := hm1.define hsuper
  have hc2 := hf2.live _ hc1
  have h3 := h2.pin hc2
  rw [redirect_self] at h3
  obtain ⟨-, hf3⟩ := hm2.pin hc2
  have hpin := Scopes.pinnedAt_pin (s := (m.scopes.child p).2) hc2
  have hfr := ho1.frame_of_pinned (hf2.trans hf3) hpin
  obtain ⟨ψ, hψ, hmir, hrel⟩ := hk _ _ _ hold (redirect_self _ _) hfr hpin h3
  exact ⟨ψ, fun t ht => (hψ t (hfr.live t ht)).trans (hold t ht), hmir, hrel⟩

/-- A scope that a walk from a pinned scope along parents reaches is pinned. -/
theorem pinned_of_ancestorFrom {A : Scopes} (hA : A.WF) (total : Nat) {k s t : Nat}
    (hs : A.pinnedAt s = true) (h : A.ancestorFrom total k s = .ok t) : A.pinnedAt t = true :=
  (Scopes.ancestorFrom_of_parents hA.parent_pinned (fun _ hs => hA.live_of_pinned hs)
    (fun _ _ => rfl) total hs h).2

/-- The scope a block or a call releases, opened from `m` and released after a framed run, is
pinned, and then releasing it does nothing; or it is in use, no scope in use lies under it,
it is none of the scopes in use when it was opened (the current scope, and those the enclosing
blocks and calls keep), and no pinned scope, such as one a function closes over, has it on its
chain of parents. -/
theorem Opens.release_safe {c : Nat} {m1 m2 : Machine} (ho : Opens m c m1) (hf : Frame m1 m2)
    (hs : Sound m2) :
    m2.scopes.pinnedAt c = true ∨
      (m2.scopes.Live c ∧ (∀ t, m2.scopes.Live t → m2.scopes.parentOf t ≠ some c) ∧
        (∀ t, m.scopes.Live t → t ≠ c) ∧
        ∀ t k, m2.scopes.pinnedAt t = true → m2.scopes.ancestor t k ≠ .ok c) := by
  cases hcp : m2.scopes.pinnedAt c
  · refine .inr ⟨hf.live c ((ho.live_iff c).2 (.inr rfl)), ho.childless_of_unpinned hf hs hcp,
      fun t ht e => ho.not_live (e ▸ ht), fun t k ht hk => ?_⟩
    have := pinned_of_ancestorFrom hs.wf k ht hk
    simp [hcp] at this
  · exact .inl rfl

end Machine

end Lox
