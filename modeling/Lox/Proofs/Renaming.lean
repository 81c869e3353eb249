import Lox.Interpreter
import Lox.Proofs.Chains
/-!
# Renaming the slots of scopes

A value refers to scopes only through the functions inside it: a closure names the slot of the
scope it closes over. `Value.rename φ v` is `v` with each such slot `s` read as `φ s`. Nothing a
program can observe of a value sees the slot: its kind, truth, text and equality, the result of
every operator, and the members a class finds are those of its renaming.

`Scopes.Embeds φ A B` says that the arena `B` holds each scope in use in `A`, the scope in slot
`s` in slot `φ s`, with what it holds and its parent renamed by `φ`, and that no two scopes in
use share a slot of `B`. Walking, reading, assigning and declaring names in `A` and at the
renamed slots in `B` then go alike, and pinning and releasing keep the embedding. A new scope
in `A` may take a slot that was freed and `B` a slot of its own: the embedding then sends the
one to the other, and is unchanged at every slot in use.

## Main statements

* `Lox.BinaryOp.apply_rename`, `Lox.ClassDef.find_rename`: operators and member lookup do not
  see slots.
* `Lox.Value.rename_congr`: a value's renaming depends only on the slots its functions close
  over.
* `Lox.Scopes.Embeds.getAt`, `Lox.Scopes.Embeds.assignAt`, `Lox.Scopes.Embeds.child`: the
  operations of the arena commute with the embedding.
-/

namespace Lox

mutual

/-- The value with the slot of every scope a function inside it closes over renamed by `φ`. -/
@[simp] def Value.rename (φ : Nat → Nat) : Value → Value
  | .nil => .nil
  | .bool b => .bool b
  | .number x => .number x
  | .string s => .string s
  | .function stamp f => .function stamp (f.rename φ)
  | .classRef stamp c => .classRef stamp (c.rename φ)
  | .instanceRef id c => .instanceRef id (c.rename φ)

@[simp] def Callable.rename (φ : Nat → Nat) : Callable → Callable
  | .native name arity => .native name arity
  | .closure name params body scope receiver init =>
    .closure name params body (φ scope) (Value.renameOption φ receiver) init

def Value.renameOption (φ : Nat → Nat) : Option Value → Option Value
  | none => none
  | some v => some (v.rename φ)

@[simp] def ClassDef.rename (φ : Nat → Nat) : ClassDef → ClassDef
  | .mk name superclass methods getters statics staticGetters =>
    .mk name (ClassDef.renameOption φ superclass) (Callable.renameTable φ methods)
      (Callable.renameTable φ getters) (Callable.renameTable φ statics)
      (Callable.renameTable φ staticGetters)

def ClassDef.renameOption (φ : Nat → Nat) : Option ClassDef → Option ClassDef
  | none => none
  | some c => some (c.rename φ)

def Callable.renameTable (φ : Nat → Nat) : List (String × Callable) → List (String × Callable)
  | [] => []
  | (k, f) :: rest => (k, f.rename φ) :: Callable.renameTable φ rest

end

variable {φ ψ : Nat → Nat}

@[simp] theorem Value.renameOption_eq (o : Option Value) :
    Value.renameOption φ o = o.map (Value.rename φ) := by
  cases o <;> rfl

@[simp] theorem ClassDef.renameOption_eq (o : Option ClassDef) :
    ClassDef.renameOption φ o = o.map (ClassDef.rename φ) := by
  cases o <;> rfl

@[simp] theorem Callable.renameTable_eq (t : List (String × Callable)) :
    Callable.renameTable φ t = t.map (Prod.map id (Callable.rename φ)) := by
  induction t with
  | nil => rfl
  | cons e t ih => obtain ⟨k, f⟩ := e; simp [Callable.renameTable, ih]

/-- What a function returns when it ends: its value renamed. -/
def Flow.rename (φ : Nat → Nat) : Flow → Flow
  | .returned v => .returned (v.rename φ)
  | fl => fl

@[simp] theorem Flow.rename_normal : Flow.normal.rename φ = .normal := rfl

@[simp] theorem Flow.rename_breakLoop : Flow.breakLoop.rename φ = .breakLoop := rfl

@[simp] theorem Flow.rename_returned (v : Value) :
    (Flow.returned v).rename φ = .returned (v.rename φ) := rfl

/-! ## What renaming keeps -/

@[simp] theorem Value.kind_rename (v : Value) : (v.rename φ).kind = v.kind := by
  cases v <;> rfl

@[simp] theorem Value.truthy_rename (v : Value) : (v.rename φ).truthy = v.truthy := by
  cases v <;> rfl

@[simp] theorem Callable.arity_rename (f : Callable) : (f.rename φ).arity = f.arity := by
  cases f <;> rfl

@[simp] theorem Callable.display_rename (f : Callable) : (f.rename φ).display = f.display := by
  cases f with
  | native => rfl
  | closure name => cases name <;> rfl

@[simp] theorem ClassDef.name_rename (c : ClassDef) : (c.rename φ).name = c.name := by
  cases c; rfl

@[simp] theorem Value.display_rename (v : Value) : (v.rename φ).display = v.display := by
  cases v <;> simp [Value.display]

/-- Renamings by different maps are still equal exactly where the values are: equality looks at
identity stamps, never at slots. -/
theorem Value.equals_rename (a b : Value) : (a.rename φ).equals (b.rename ψ) = a.equals b := by
  cases a <;> cases b <;> rfl

@[simp] theorem Literal.toValue_rename (l : Literal) : l.toValue.rename φ = l.toValue := by
  cases l <;> rfl

@[simp] theorem Callable.bind_rename (f : Callable) (r : Value) :
    (f.rename φ).bind (r.rename φ) = (f.bind r).rename φ := by
  cases f <;> rfl

theorem ClassDef.table_rename (kind : MemberKind) (c : ClassDef) :
    (c.rename φ).table kind = (c.table kind).map (Prod.map id (Callable.rename φ)) := by
  cases c; cases kind <;> simp [ClassDef.table]

/-- Looking a name up in a table whose entries are changed is looking it up and changing what
is found. -/
theorem lookup_map_entries {β γ : Type} (g : β → γ) (l : List (String × β)) (k : String) :
    (l.map (Prod.map id g)).lookup k = (l.lookup k).map g := by
  induction l with
  | nil => rfl
  | cons e l ih =>
    obtain ⟨k', b⟩ := e
    by_cases hk : k = k'
    · subst hk; simp
    · simp [List.lookup_cons, beq_false_of_ne hk, ih]

theorem setEntry_map_entries {β γ : Type} (g : β → γ) (k : String) (v : β)
    (l : List (String × β)) :
    (setEntry k v l).map (Prod.map id g) = setEntry k (g v) (l.map (Prod.map id g)) := by
  induction l with
  | nil => rfl
  | cons e l ih =>
    obtain ⟨k', b⟩ := e
    unfold setEntry
    by_cases hk : k' = k <;> simp [hk, ih]

/-- A member found in the renamed class is the renamed member. -/
theorem ClassDef.find_rename (kind : MemberKind) (member : String) :
    ∀ c : ClassDef, (c.rename φ).find kind member = (c.find kind member).map (Callable.rename φ)
  | .mk name sup ms gs ss sgs => by
    have htable := ClassDef.table_rename (φ := φ) kind (.mk name sup ms gs ss sgs)
    simp only [ClassDef.rename] at htable ⊢
    unfold ClassDef.find
    rw [htable, lookup_map_entries]
    cases ((ClassDef.mk name sup ms gs ss sgs).table kind).lookup member with
    | some f => rfl
    | none =>
      cases sup with
      | none => rfl
      | some s => exact ClassDef.find_rename kind member s

@[simp] theorem ClassDef.arity_rename (c : ClassDef) : (c.rename φ).arity = c.arity := by
  unfold ClassDef.arity
  rw [ClassDef.find_rename]
  cases c.find .method "init" <;> simp

/-- The members of a class declaration close over one scope: renamed, they close over its
renamed slot. -/
theorem memberTable_rename (scope : Nat) (init : Bool) (decls : List FunDecl) :
    (Eval.memberTable scope init decls).map (Prod.map id (Callable.rename φ)) =
      Eval.memberTable (φ scope) init decls := by
  unfold Eval.memberTable
  suffices ∀ t : List (String × Callable), (decls.foldl (fun table d =>
      setEntry d.name.lexeme (.closure (some d.name.lexeme) d.params d.body scope none
        (init && d.name.lexeme = "init")) table) t).map (Prod.map id (Callable.rename φ)) =
      decls.foldl (fun table d => setEntry d.name.lexeme (.closure (some d.name.lexeme) d.params
        d.body (φ scope) none (init && d.name.lexeme = "init")) table)
        (t.map (Prod.map id (Callable.rename φ))) from this []
  induction decls with
  | nil => intro t; rfl
  | cons d decls ih =>
    intro t
    simp only [List.foldl_cons]
    rw [ih, setEntry_map_entries]
    rfl

/-! ## Operators do not see slots -/

section Operators

variable {t : Token}

theorem numbersOf_rename (a b : Value) : numbersOf t (a.rename φ) (b.rename ψ) = numbersOf t a b := by
  cases a <;> cases b <;> rfl

theorem integersOf_rename (a b : Value) :
    integersOf t (a.rename φ) (b.rename ψ) = integersOf t a b := by
  simp only [integersOf, numbersOf_rename]

/-- An operator gives the same on renamed operands, whatever the two renamings. -/
theorem BinaryOp.apply_rename (op : BinaryOp) (a b : Value) :
    op.apply t (a.rename φ) (b.rename ψ) = op.apply t a b := by
  cases op <;> simp only [BinaryOp.apply, numbersOf_rename, integersOf_rename, Value.equals_rename]
  cases a <;> cases b <;> simp [Value.display, Value.kind]

end Operators

/-! ## Renamings that agree on the scopes of a value -/

/-- The function closes over a scope whose slot satisfies `S`, or over none. -/
def Callable.ScopeIn (S : Nat → Prop) : Callable → Prop
  | .native .. => True
  | .closure _ _ _ scope _ _ => S scope

mutual

/-- Two renamings that agree on the slots the functions inside a value close over rename it
alike. -/
theorem Value.rename_congr : ∀ {v : Value},
    Value.Fns (Callable.ScopeIn fun s => φ s = ψ s) v → v.rename φ = v.rename ψ
  | _, .nil => rfl
  | _, .bool _ => rfl
  | _, .number _ => rfl
  | _, .string _ => rfl
  | _, .function _ h => by rw [Value.rename, Value.rename, Callable.rename_congr h]
  | _, .classRef _ h => by rw [Value.rename, Value.rename, ClassDef.rename_congr h]
  | _, .instanceRef _ h => by rw [Value.rename, Value.rename, ClassDef.rename_congr h]

theorem Callable.rename_congr : ∀ {f : Callable},
    Callable.Fns (Callable.ScopeIn fun s => φ s = ψ s) f → f.rename φ = f.rename ψ
  | _, .native _ _ => rfl
  | .closure _ _ _ _ receiver _, .closure hs hr => by
    have hrec : ∀ r, receiver = some r → r.rename φ = r.rename ψ :=
      fun r h => Value.rename_congr (hr r h)
    cases receiver with
    | none => simp only [Callable.rename, Value.renameOption_eq, Option.map_none]; rw [hs]
    | some r =>
      simp only [Callable.rename, Value.renameOption_eq, Option.map_some]
      rw [hs, hrec r rfl]

theorem ClassDef.rename_congr : ∀ {c : ClassDef},
    ClassDef.Fns (Callable.ScopeIn fun s => φ s = ψ s) c → c.rename φ = c.rename ψ
  | .mk name sup ms gs ss sgs, .mk hs hm => by
    have hsup : ∀ c, sup = some c → c.rename φ = c.rename ψ :=
      fun c h => ClassDef.rename_congr (hs c h)
    have hmem : ∀ kind, ∀ e ∈ (ClassDef.mk name sup ms gs ss sgs).table kind,
        e.2.rename φ = e.2.rename ψ :=
      fun kind e he => Callable.rename_congr (hm kind e he)
    have htable : ∀ kind l, l = (ClassDef.mk name sup ms gs ss sgs).table kind →
        l.map (Prod.map id (Callable.rename φ)) = l.map (Prod.map id (Callable.rename ψ)) := by
      rintro kind l rfl
      exact List.map_congr_left fun e he => by simp only [Prod.map, id, hmem kind e he]
    have hsup' : sup.map (ClassDef.rename φ) = sup.map (ClassDef.rename ψ) := by
      cases sup with
      | none => rfl
      | some c => simp only [Option.map_some, hsup c rfl]
    simp only [ClassDef.rename, ClassDef.renameOption_eq, Callable.renameTable_eq, hsup']
    rw [htable .method ms rfl, htable .getter gs rfl, htable .static ss rfl,
      htable .staticGetter sgs rfl]

end

/-! ## Outcomes that agree -/

/-- Two outcomes that agree: both succeed, with results related by `R`, or both fail alike. -/
def ExceptRel {ε α β : Type} (R : α → β → Prop) : Except ε α → Except ε β → Prop
  | .ok a, .ok b => R a b
  | .error e, .error e' => e = e'
  | _, _ => False

@[simp] theorem exceptRel_ok {ε α β : Type} {R : α → β → Prop} (a : α) (b : β) :
    ExceptRel R (Except.ok a : Except ε α) (.ok b) ↔ R a b := Iff.rfl

theorem exceptRel_map {ε α β : Type} (g : α → β) (x : Except ε α) :
    ExceptRel (fun a b => b = g a) x (x.map g) := by
  cases x <;> rfl

/-! ## Arenas embedded in others -/

namespace Scopes

/-- What a scope holds, with its values renamed. -/
def renameValues (φ : Nat → Nat) (values : List (String × Option Value)) :
    List (String × Option Value) :=
  values.map (Prod.map id (Option.map (Value.rename φ)))

/-- What the scope in slot `s` holds. -/
def valuesOf (A : Scopes) (s : Nat) : Option (List (String × Option Value)) :=
  A.slots[s]?.map Scope.values

/-- `B` holds each scope in use in `A`: the scope in slot `s` is in slot `φ s` of `B`, with its
values renamed by `φ` and its parent's slot renamed by `φ`, and no two scopes in use share a
slot of `B`. Whether a scope is pinned is left out. -/
structure Embeds (φ : Nat → Nat) (A B : Scopes) : Prop where
  injective : ∀ s t, A.Live s → A.Live t → φ s = φ t → s = t
  valuesOf_eq : ∀ s, A.Live s → B.valuesOf (φ s) = (A.valuesOf s).map (renameValues φ)
  parentOf_eq : ∀ s, A.Live s → B.parentOf (φ s) = (A.parentOf s).map φ

variable {A B : Scopes} {s t p c : Nat}

theorem valuesOf_of_getElem? {sc : Scope} (h : A.slots[s]? = some sc) :
    A.valuesOf s = some sc.values := by
  simp [valuesOf, h]

/-- The scope in slot `φ s` of `B`, for a scope in use in slot `s` of `A`. -/
theorem Embeds.getElem? (h : Embeds φ A B) (hs : A.Live s) {sc : Scope}
    (hsc : A.slots[s]? = some sc) :
    ∃ sc', B.slots[φ s]? = some sc' ∧ sc'.values = renameValues φ sc.values ∧
      sc'.parent = sc.parent.map φ := by
  have hv := h.valuesOf_eq s hs
  have hp := h.parentOf_eq s hs
  rw [valuesOf_of_getElem? hsc] at hv
  rw [parentOf_of_getElem? hsc] at hp
  cases hsc' : B.slots[φ s]? with
  | none => simp [valuesOf, hsc'] at hv
  | some sc' =>
    rw [valuesOf_of_getElem? hsc'] at hv
    rw [parentOf_of_getElem? hsc'] at hp
    exact ⟨sc', rfl, by simpa using hv, hp⟩

theorem Embeds.lt_size (h : Embeds φ A B) (hs : A.Live s) : φ s < B.slots.size := by
  obtain ⟨sc, hsc⟩ := Live.getElem? hs
  obtain ⟨sc', hsc', -⟩ := h.getElem? hs hsc
  exact (Array.getElem?_eq_some_iff.1 hsc').1

/-- Renamings that agree on the scopes in use, and on every value the arena holds, embed it
alike. -/
theorem Embeds.congr (hA : A.WF) (h : Embeds φ A B) (hφ : ∀ s, A.Live s → ψ s = φ s)
    (hv : A.Holds fun v => v.rename ψ = v.rename φ) : Embeds ψ A B where
  injective s t hs ht hst := h.injective s t hs ht (by rw [← hφ s hs, ← hφ t ht, hst])
  valuesOf_eq s hs := by
    obtain ⟨sc, hsc⟩ := Live.getElem? hs
    rw [hφ s hs, h.valuesOf_eq s hs, valuesOf_of_getElem? hsc]
    simp only [Option.map_some, renameValues, Option.some.injEq]
    refine List.map_congr_left fun e he => ?_
    obtain ⟨k, x⟩ := e
    cases x with
    | none => rfl
    | some v => simp [hv s sc hsc _ he v rfl]
  parentOf_eq s hs := by
    rw [hφ s hs, h.parentOf_eq s hs]
    cases hp : A.parentOf s with
    | none => rfl
    | some q => simp [hφ q (hA.parent_live s q hs hp)]

/-! ### Walking and reading -/

/-- A walk from a scope in use ends in a scope in use. -/
theorem WF.live_ancestorFrom (hA : A.WF) (total : Nat) :
    ∀ {k id : Nat}, A.Live id → A.ancestorFrom total k id = .ok t → A.Live t
  | 0, id, hid, h => by cases h; exact hid
  | k + 1, id, hid, h => by
    obtain ⟨sc, hsc⟩ := Live.getElem? hid
    simp only [Scopes.ancestorFrom, hsc] at h
    split at h
    · rename_i q hq
      exact WF.live_ancestorFrom hA total (hA.parent_live id q hid
        (by rw [parentOf_of_getElem? hsc, hq])) h
    · cases h

theorem Embeds.ancestorFrom (hA : A.WF) (h : Embeds φ A B) (total : Nat) :
    ∀ {k id : Nat}, A.Live id →
      B.ancestorFrom total k (φ id) = (A.ancestorFrom total k id).map φ
  | 0, _, _ => rfl
  | k + 1, id, hid => by
    obtain ⟨sc, hsc⟩ := Live.getElem? hid
    obtain ⟨sc', hsc', -, hpar⟩ := h.getElem? hid hsc
    simp only [Scopes.ancestorFrom, hsc, hsc', hpar]
    cases hq : sc.parent with
    | none => rfl
    | some q =>
      have hql : A.Live q := hA.parent_live id q hid (by rw [parentOf_of_getElem? hsc, hq])
      exact Embeds.ancestorFrom hA h total hql

theorem readSlot_rename (name : Token) (o : Option Value) :
    readSlot name (o.map (Value.rename φ)) = (readSlot name o).map (Value.rename φ) := by
  cases o <;> rfl

theorem Embeds.getAt (hA : A.WF) (h : Embeds φ A B) (hs : A.Live s) (hops : Nat)
    (name : Token) : B.getAt (φ s) hops name = (A.getAt s hops name).map (Value.rename φ) := by
  unfold Scopes.getAt Scopes.ancestor
  rw [h.ancestorFrom hA hops hs]
  cases ht : A.ancestorFrom hops hops s with
  | error f => rfl
  | ok t =>
    obtain ⟨sc, hsc⟩ := Live.getElem? (hA.live_ancestorFrom hops hs ht)
    obtain ⟨sc', hsc', hv, -⟩ := h.getElem? (hA.live_ancestorFrom hops hs ht) hsc
    simp only [Except.map, bind, Except.bind, hsc, hsc', hv, renameValues, lookup_map_entries]
    cases sc.values.lookup name.lexeme with
    | none => rfl
    | some x => exact readSlot_rename name x

/-- A walk that starts at a scope with no parent looks only there, whatever its fuel. -/
theorem Embeds.getFrom_root (h : Embeds φ A B) (hs : A.Live s) (hroot : A.parentOf s = none)
    (name : Token) (fuel fuel' : Nat) :
    B.getFrom name (fuel' + 1) (φ s) = (A.getFrom name (fuel + 1) s).map (Value.rename φ) := by
  obtain ⟨sc, hsc⟩ := Live.getElem? hs
  obtain ⟨sc', hsc', hv, hpar⟩ := h.getElem? hs hsc
  have hnone : sc.parent = none := by rwa [parentOf_of_getElem? hsc] at hroot
  simp only [getFrom, hsc, hsc', hv, hpar, hnone, Option.map_none, Except.map, renameValues,
    lookup_map_entries]
  cases sc.values.lookup name.lexeme with
  | none => rfl
  | some x => exact readSlot_rename name x

/-! ### Declaring and assigning -/

/-- Changing what a scope in use holds, and what its slot in `B` holds to the renaming, keeps
the embedding. -/
theorem Embeds.setValues (h : Embeds φ A B) (hs : A.Live s) {sc sc' : Scope}
    (hsc : A.slots[s]? = some sc) (hsc' : B.slots[φ s]? = some sc')
    (values : List (String × Option Value)) :
    Embeds φ { A with slots := A.slots.setIfInBounds s { sc with values := values } }
      { B with slots := B.slots.setIfInBounds (φ s) { sc' with values := renameValues φ values } } := by
  have hA := shaped_setValues hsc values
  have hB := shaped_setValues hsc' (renameValues φ values)
  have hlt := (Array.getElem?_eq_some_iff.1 hsc).1
  have hlt' := (Array.getElem?_eq_some_iff.1 hsc').1
  refine ⟨fun t u ht hu => h.injective t u (hA.live_iff.1 ht) (hA.live_iff.1 hu),
    fun t ht => ?_, fun t ht => ?_⟩
  · by_cases hts : t = s
    · subst hts
      simp [valuesOf, hlt, hlt']
    · have hne : φ t ≠ φ s := fun e => hts (h.injective t s (hA.live_iff.1 ht) hs e)
      have := h.valuesOf_eq t (hA.live_iff.1 ht)
      simpa [valuesOf, Array.getElem?_setIfInBounds, Ne.symm hts, Ne.symm hne] using this
  · rw [hA.parentOf_eq, hB.parentOf_eq]
    exact h.parentOf_eq t (hA.live_iff.1 ht)

theorem Embeds.define (h : Embeds φ A B) (hs : A.Live s) (name : String) (v : Option Value) :
    Embeds φ (A.define s name v) (B.define (φ s) name (v.map (Value.rename φ))) := by
  obtain ⟨sc, hsc⟩ := Live.getElem? hs
  obtain ⟨sc', hsc', hv, -⟩ := h.getElem? hs hsc
  have hset := h.setValues hs hsc hsc' (setEntry name v sc.values)
  simp only [renameValues, setEntry_map_entries] at hset
  simp only [Scopes.define, hsc, hsc', hv, renameValues]
  exact hset

/-- Assigning at a scope in use, `hops` links out, and at its renamed slot in `B`: both fail
alike, or both succeed and keep the embedding. -/
theorem Embeds.assignAt (hA : A.WF) (h : Embeds φ A B) (hs : A.Live s) (hops : Nat)
    (name : Token) (v : Value) :
    ExceptRel (Embeds φ) (A.assignAt s hops name v) (B.assignAt (φ s) hops name (v.rename φ)) := by
  unfold Scopes.assignAt Scopes.ancestor
  rw [h.ancestorFrom hA hops hs]
  cases ht : A.ancestorFrom hops hops s with
  | error f => rfl
  | ok t =>
    have htl := hA.live_ancestorFrom hops hs ht
    obtain ⟨sc, hsc⟩ := Live.getElem? htl
    obtain ⟨sc', hsc', hv, -⟩ := h.getElem? htl hsc
    have hset := h.setValues htl hsc hsc' (setEntry name.lexeme (some v) sc.values)
    simp only [renameValues, setEntry_map_entries] at hset
    simp only [Except.map, bind, Except.bind, hsc, hsc', hv, renameValues, lookup_map_entries]
    cases sc.values.lookup name.lexeme with
    | none => rfl
    | some x => exact hset

/-- Assigning along the parents from a scope with no parent looks only there. -/
theorem Embeds.assignFrom_root (h : Embeds φ A B) (hs : A.Live s) (hroot : A.parentOf s = none)
    (name : Token) (v : Value) (fuel fuel' : Nat) :
    ExceptRel (Embeds φ) (A.assignFrom name v (fuel + 1) s)
      (B.assignFrom name (v.rename φ) (fuel' + 1) (φ s)) := by
  obtain ⟨sc, hsc⟩ := Live.getElem? hs
  obtain ⟨sc', hsc', hv, hpar⟩ := h.getElem? hs hsc
  have hnone : sc.parent = none := by rwa [parentOf_of_getElem? hsc] at hroot
  have hset := h.setValues hs hsc hsc' (setEntry name.lexeme (some v) sc.values)
  simp only [renameValues, setEntry_map_entries] at hset
  simp only [hpar, hnone, Option.map_none] at hset
  simp only [assignFrom, hsc, hsc', hv, hpar, hnone, Option.map_none, renameValues,
    lookup_map_entries]
  cases sc.values.lookup name.lexeme with
  | none => rfl
  | some x => exact hset

/-! ### Opening, releasing and pinning -/

/-- `φ` with slot `c` sent to `n`. -/
def redirect (φ : Nat → Nat) (c n : Nat) : Nat → Nat := fun t => if t = c then n else φ t

@[simp] theorem redirect_self (c n : Nat) : redirect φ c n c = n := if_pos rfl

theorem redirect_of_ne {c n t : Nat} (h : t ≠ c) : redirect φ c n t = φ t := if_neg h

@[simp] theorem pushChild_snd (p : Nat) : (B.pushChild p).2 = B.slots.size := rfl

theorem getElem?_pushChild {p t : Nat} :
    (B.pushChild p).1.slots[t]? =
      if t = B.slots.size then some { Scope.empty with parent := some p } else B.slots[t]? := by
  simp only [pushChild, Array.getElem?_push]

/-- A new scope under a scope in use, and one under its renamed slot in a slot of `B`'s own:
an embedding that sends the first to the second, and agrees with `φ` at every scope in use and
on every value the arena holds, embeds the arenas with the new scopes. -/
theorem Embeds.child (hA : A.WF) (h : Embeds φ A B) (hp : A.Live p)
    (hc : ψ (A.child p).2 = B.slots.size) (hold : ∀ t, A.Live t → ψ t = φ t)
    (hv : A.Holds fun v => v.rename ψ = v.rename φ) :
    Embeds ψ (A.child p).1 (B.pushChild (φ p)).1 := by
  have hnew := not_live_child (A := A) p
  have h' := h.congr hA hold hv
  have hne : ∀ t, A.Live t → t ≠ (A.child p).2 := fun t ht e => hnew (e ▸ ht)
  have hfar : ∀ t, A.Live t → ψ t ≠ B.slots.size := fun t ht => Nat.ne_of_lt (h'.lt_size ht)
  refine ⟨fun t u ht hu htu => ?_, fun t ht => ?_, fun t ht => ?_⟩
  · rcases hA.live_child.1 ht with ht | rfl <;> rcases hA.live_child.1 hu with hu | rfl
    · exact h'.injective t u ht hu htu
    · exact absurd (htu.trans hc) (hfar t ht)
    · exact absurd (htu.symm.trans hc) (hfar u hu)
    · rfl
  · rcases hA.live_child.1 ht with ht | rfl
    · simp only [valuesOf, getElem?_pushChild, if_neg (hfar t ht), hA.getElem?_child,
        if_neg (hne t ht)]
      exact h'.valuesOf_eq t ht
    · simp [valuesOf, getElem?_pushChild, hA.getElem?_child, hc, Scope.empty, renameValues]
  · rcases hA.live_child.1 ht with ht | rfl
    · simp only [parentOf, getElem?_pushChild, if_neg (hfar t ht), hA.getElem?_child,
        if_neg (hne t ht)]
      exact h'.parentOf_eq t ht
    · simp [parentOf, getElem?_pushChild, hA.getElem?_child, hc, Scope.empty, hold p hp]

/-- Releasing a scope in use keeps the embedding: a scope that stays in use keeps its slot. -/
theorem Embeds.release (h : Embeds φ A B) (hc : A.Live c) : Embeds φ (A.release c) B := by
  cases hpin : A.pinnedAt c
  · have hlive := fun t => live_release (t := t) hc
    rw [release_of_not_pinnedAt hc.1 hpin] at hlive ⊢
    have hne : ∀ t, (⟨A.slots.setIfInBounds c Scope.empty, c :: A.free⟩ : Scopes).Live t →
        t ≠ c := fun t ht e => by simp [(hlive t).1 ht |>.2 e] at hpin
    refine ⟨fun t u ht hu => h.injective t u ((hlive t).1 ht).1 ((hlive u).1 hu).1,
      fun t ht => ?_, fun t ht => ?_⟩
    · have := h.valuesOf_eq t ((hlive t).1 ht).1
      simpa [valuesOf, Array.getElem?_setIfInBounds, Ne.symm (hne t ht)] using this
    · have := h.parentOf_eq t ((hlive t).1 ht).1
      simpa [parentOf, Array.getElem?_setIfInBounds, Ne.symm (hne t ht)] using this
  · rwa [release_of_pinnedAt hpin]

theorem Embeds.pins {A' B' : Scopes} (h : Embeds φ A B) (hA : Pins A A') (hB : Pins B B') :
    Embeds φ A' B' where
  injective s t hs ht := h.injective s t (hA.live_iff.1 hs) (hA.live_iff.1 ht)
  valuesOf_eq s hs := by
    simp only [valuesOf, hA.values_eq, hB.values_eq]
    exact h.valuesOf_eq s (hA.live_iff.1 hs)
  parentOf_eq s hs := by
    rw [hA.parentOf_eq, hB.parentOf_eq]
    exact h.parentOf_eq s (hA.live_iff.1 hs)

theorem Embeds.pin (h : Embeds φ A B) (s t : Nat) : Embeds φ (A.pin s) (B.pin t) :=
  h.pins (pins_pin A s) (pins_pin B t)

/-- A scope in use and its renamed slot declare the same names. -/
theorem Embeds.names (h : Embeds φ A B) (hs : A.Live s) : B.names (φ s) = A.names s := by
  obtain ⟨sc, hsc⟩ := Live.getElem? hs
  obtain ⟨sc', hsc', hv, -⟩ := h.getElem? hs hsc
  simp [Scopes.names, hsc, hsc', hv, renameValues, Function.comp_def]

end Scopes

end Lox
