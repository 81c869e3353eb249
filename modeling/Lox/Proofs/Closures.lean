import Lox.Eval
import Lox.Proofs.Arena
/-!
# Functions inside values

A value may hold functions: a function value is one, a bound method holds its receiver, and a
class holds its members and its superclass. `Value.Fns P v` says that every function inside `v`
satisfies `P`; `Machine.Holds` says the same of every value a machine keeps, in its scopes and in
the fields of its instances.

Evaluation builds functions by binding members to receivers and by closing declarations over a
scope. The lemmas below carry `Value.Fns` through both, and through member lookup, so that a
property of functions that binding keeps holds of every function a program can reach.
-/

namespace Lox

mutual

/-- Every function inside a value satisfies `P`. -/
inductive Value.Fns (P : Callable → Prop) : Value → Prop
  | nil : Value.Fns P .nil
  | bool (b : Bool) : Value.Fns P (.bool b)
  | number (x : Float) : Value.Fns P (.number x)
  | string (s : String) : Value.Fns P (.string s)
  | function {f : Callable} (stamp : Nat) : Callable.Fns P f → Value.Fns P (.function stamp f)
  | classRef {c : ClassDef} (stamp : Nat) : ClassDef.Fns P c → Value.Fns P (.classRef stamp c)
  | instanceRef {c : ClassDef} (id : Nat) : ClassDef.Fns P c → Value.Fns P (.instanceRef id c)

/-- A function satisfies `P`, and so do the functions inside its receiver. -/
inductive Callable.Fns (P : Callable → Prop) : Callable → Prop
  | native (name : String) (arity : Nat) : Callable.Fns P (.native name arity)
  | closure {name params body scope receiver isInit} :
      P (.closure name params body scope receiver isInit) →
      (∀ r, receiver = some r → Value.Fns P r) →
      Callable.Fns P (.closure name params body scope receiver isInit)

/-- Every member of a class and of its superclasses satisfies `P`. -/
inductive ClassDef.Fns (P : Callable → Prop) : ClassDef → Prop
  | mk {name superclass methods getters statics staticGetters} :
      (∀ s, superclass = some s → ClassDef.Fns P s) →
      (∀ kind, ∀ e ∈ (ClassDef.mk name superclass methods getters statics staticGetters).table kind,
        Callable.Fns P e.2) →
      ClassDef.Fns P (.mk name superclass methods getters statics staticGetters)

end

variable {P Q : Callable → Prop}

mutual

theorem Value.Fns.mono (hPQ : ∀ f, P f → Q f) {v : Value} : Value.Fns P v → Value.Fns Q v
  | .nil => .nil
  | .bool b => .bool b
  | .number x => .number x
  | .string s => .string s
  | .function s h => .function s (Callable.Fns.mono hPQ h)
  | .classRef s h => .classRef s (ClassDef.Fns.mono hPQ h)
  | .instanceRef i h => .instanceRef i (ClassDef.Fns.mono hPQ h)

theorem Callable.Fns.mono (hPQ : ∀ f, P f → Q f) {f : Callable} : Callable.Fns P f → Callable.Fns Q f
  | .native name n => .native name n
  | .closure hp hr => .closure (hPQ _ hp) fun r h => Value.Fns.mono hPQ (hr r h)

theorem ClassDef.Fns.mono (hPQ : ∀ f, P f → Q f) {c : ClassDef} : ClassDef.Fns P c → ClassDef.Fns Q c
  | .mk hs hm => .mk (fun s h => ClassDef.Fns.mono hPQ (hs s h))
      fun k e he => Callable.Fns.mono hPQ (hm k e he)

end

theorem ClassDef.Fns.superclass {name : String} {s : ClassDef} {ms gs ss sgs}
    (h : ClassDef.Fns P (.mk name (some s) ms gs ss sgs)) : ClassDef.Fns P s := by
  cases h with
  | mk hsup _ => exact hsup s rfl

theorem ClassDef.Fns.table {c : ClassDef} (h : ClassDef.Fns P c) (kind : MemberKind) :
    ∀ e ∈ c.table kind, Callable.Fns P e.2 := by
  cases h with
  | mk _ hm => exact hm kind

/-- A member found along the superclass chain satisfies what every member does. -/
theorem ClassDef.Fns.find {kind : MemberKind} {member : String} :
    ∀ {c : ClassDef} {f : Callable}, ClassDef.Fns P c → c.find kind member = some f →
      Callable.Fns P f
  | .mk name sup ms gs ss sgs, f, h, hf => by
    unfold ClassDef.find at hf
    split at hf
    · rename_i g hg
      cases hf
      exact h.table kind _ (Scopes.mem_of_lookup hg)
    · split at hf
      · exact ClassDef.Fns.find h.superclass hf
      · cases hf

/-- Binding keeps a property of functions that binding keeps, given the receiver has it. -/
theorem Callable.Fns.bind (hP : ∀ f r, P f → P (f.bind r)) {f : Callable} {r : Value}
    (hf : Callable.Fns P f) (hr : Value.Fns P r) : Callable.Fns P (f.bind r) := by
  cases hf with
  | native name n => exact .native name n
  | closure hp _ => exact .closure (hP _ r hp) fun r' h => by cases h; exact hr

/-- The members a class declaration makes are its declarations closed over one scope: what
holds of each such closure holds of every member. -/
theorem memberTable_all (Q : Callable → Prop) {scope : Nat} {init : Bool} {decls : List FunDecl}
    (h : ∀ d ∈ decls, Q (.closure (some d.name.lexeme) d.params d.body scope none
      (init && d.name.lexeme = "init"))) :
    ∀ e ∈ Eval.memberTable scope init decls, Q e.2 := by
  unfold Eval.memberTable
  suffices ∀ (ds : List FunDecl) (table : List (String × Callable)), (∀ d ∈ ds, Q (.closure
      (some d.name.lexeme) d.params d.body scope none (init && d.name.lexeme = "init"))) →
      (∀ e ∈ table, Q e.2) → ∀ e ∈ ds.foldl (fun table d =>
        setEntry d.name.lexeme (.closure (some d.name.lexeme) d.params d.body scope none
          (init && d.name.lexeme = "init")) table) table, Q e.2 from
    this decls [] h (by simp)
  intro ds
  induction ds with
  | nil => intro table _ ht; exact ht
  | cons d ds ih =>
    intro table hds ht
    refine ih _ (fun d' hd' => hds d' (List.mem_cons_of_mem _ hd')) fun e he => ?_
    rcases Scopes.mem_setEntry he with rfl | he
    · exact hds d List.mem_cons_self
    · exact ht e he

theorem memberTable_fns {scope : Nat} {init : Bool} {decls : List FunDecl}
    (h : ∀ d ∈ decls, P (.closure (some d.name.lexeme) d.params d.body scope none
      (init && d.name.lexeme = "init"))) :
    ∀ e ∈ Eval.memberTable scope init decls, Callable.Fns P e.2 :=
  memberTable_all _ fun d hd => .closure (h d hd) fun _ h => by cases h

/-- Plain data: a value with no function, class or instance in it. -/
def Value.IsData : Value → Prop
  | .nil | .bool _ | .number _ | .string _ => True
  | .function .. | .classRef .. | .instanceRef .. => False

/-- An operator gives plain data: a number, a string or a boolean. -/
theorem BinaryOp.apply_data {op : BinaryOp} {t : Token} {a b v : Value}
    (h : op.apply t a b = .ok v) : v.IsData := by
  cases op <;> simp only [BinaryOp.apply, bind, Except.bind] at h <;> (repeat' split at h) <;>
    cases h <;> trivial

theorem Value.IsData.fns {v : Value} (h : v.IsData) : Value.Fns P v := by
  cases v with
  | nil => exact .nil
  | bool b => exact .bool b
  | number x => exact .number x
  | string s => exact .string s
  | function | classRef | instanceRef => exact False.elim h

theorem BinaryOp.apply_fns {op : BinaryOp} {t : Token} {a b v : Value}
    (h : op.apply t a b = .ok v) : Value.Fns P v :=
  (BinaryOp.apply_data h).fns

/-- Every value a machine keeps, in its scopes and in the fields of its instances,
satisfies `P`. -/
structure Machine.Holds (P : Value → Prop) (m : Machine) : Prop where
  scopes : m.scopes.Holds P
  fields : ∀ (i : Nat) (fs : List (String × Value)), m.fields[i]? = some fs → ∀ e ∈ fs, P e.2

/-- A fresh machine keeps only the native function `clock`. -/
theorem Machine.Holds.initial {P : Value → Prop} (clock : Float)
    (hclock : P (.function 0 (.native "clock" 0))) : (Machine.initial clock).Holds P :=
  ⟨Scopes.holds_new.define fun x hx => by cases hx; exact hclock,
    fun i fs h => by simp [Machine.initial] at h⟩

theorem Machine.Holds.field {P : Value → Prop} {m : Machine} (h : m.Holds P) {i : Nat}
    {name : String} {v : Value} (hv : (m.fields[i]?.getD []).lookup name = some v) : P v := by
  cases hi : m.fields[i]? with
  | none => simp [hi] at hv
  | some fs =>
    simp only [hi, Option.getD_some] at hv
    exact h.fields i fs hi _ (Scopes.mem_of_lookup hv)

theorem Machine.Holds.setField {P : Value → Prop} {m : Machine} (h : m.Holds P) (i : Nat)
    (name : String) {v : Value} (hv : P v) :
    Machine.Holds P { m with fields := m.fields.modify i (setEntry name v) } := by
  refine ⟨h.scopes, fun j fs hj e he => ?_⟩
  simp only [Array.getElem?_modify] at hj
  split at hj
  · obtain ⟨fs', hfs', rfl⟩ := Option.map_eq_some_iff.1 hj
    rcases Scopes.mem_setEntry he with rfl | he
    · exact hv
    · exact h.fields j fs' hfs' e he
  · exact h.fields j fs hj e he

theorem Machine.Holds.newInstance {P : Value → Prop} {m : Machine} (h : m.Holds P) :
    Machine.Holds P { m with fields := m.fields.push [] } := by
  refine ⟨h.scopes, fun j fs hj e he => ?_⟩
  rw [Array.getElem?_push] at hj
  split at hj
  · cases hj; simp at he
  · exact h.fields j fs hj e he

end Lox
