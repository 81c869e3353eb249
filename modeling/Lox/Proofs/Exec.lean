import Lox.Machine.Basic
/-!
# Running evaluation from a machine

`Eval.exec x m` is how `x` ends when run from the machine `m`: its outcome and the machine it
leaves. The equations below give it for every primitive step of evaluation, so that proofs
about the evaluator rewrite a step's run and never unfold the monad.
-/

namespace Lox

namespace Eval

/-- The outcome of `x` run from `m`, and the machine it leaves. -/
def exec {α : Type} (x : Eval α) (m : Machine) : Except Interrupt α × Machine := x.run.run m

variable {α β : Type} (m : Machine)

@[simp] theorem exec_pure (a : α) : exec (pure a) m = (.ok a, m) := rfl

@[simp] theorem exec_bind (x : Eval α) (f : α → Eval β) :
    exec (x >>= f) m = match exec x m with
      | (.ok a, m') => exec (f a) m'
      | (.error e, m') => (.error e, m') := by
  unfold exec
  rcases h : x.run.run m with ⟨_ | a, m'⟩
  · simp [ExceptT.run_bind, h]; rfl
  · simp [ExceptT.run_bind, h]; rfl

@[simp] theorem exec_throw (e : Interrupt) : exec (throw e : Eval α) m = (.error e, m) := rfl

@[simp] theorem exec_get : exec (get : Eval Machine) m = (.ok m, m) := rfl

@[simp] theorem exec_set (m' : Machine) : exec (set m' : Eval Unit) m = (.ok (), m') := rfl

@[simp] theorem exec_modify (f : Machine → Machine) :
    exec (modify f : Eval Unit) m = (.ok (), f m) := rfl

@[simp] theorem exec_modifyGet (f : Machine → α × Machine) :
    exec (modifyGet f : Eval α) m = (.ok (f m).1, (f m).2) := rfl

@[simp] theorem exec_attempt (x : Eval α) :
    exec (attempt x) m = (.ok (exec x m).1, (exec x m).2) := rfl

@[simp] theorem exec_resume (r : Except Interrupt α) : exec (resume r) m = (r, m) := by
  cases r <;> rfl

@[simp] theorem exec_fail (f : RuntimeFault) : exec (fail f : Eval α) m = (.error (.fault f), m) :=
  rfl

@[simp] theorem exec_ofExcept_ok (a : α) : exec (ofExcept (.ok a)) m = (.ok a, m) := rfl

@[simp] theorem exec_ofExcept_error (f : RuntimeFault) :
    exec (ofExcept (.error f) : Eval α) m = (.error (.fault f), m) := rfl

@[simp] theorem exec_ofExcept_snd (r : Except RuntimeFault α) : (exec (ofExcept r) m).2 = m := by
  cases r <;> rfl

@[simp] theorem exec_stamp :
    exec stamp m = (.ok m.nextStamp, { m with nextStamp := m.nextStamp + 1 }) := rfl

@[simp] theorem exec_currentScope : exec currentScope m = (.ok m.current, m) := rfl

@[simp] theorem exec_setCurrent (id : Nat) :
    exec (setCurrent id) m = (.ok (), { m with current := id }) := rfl

@[simp] theorem exec_childOf (p : Nat) :
    exec (childOf p) m = (.ok (m.scopes.child p).2, { m with scopes := (m.scopes.child p).1 }) :=
  rfl

@[simp] theorem exec_release (id : Nat) :
    exec (release id) m = (.ok (), { m with scopes := m.scopes.release id }) := rfl

@[simp] theorem exec_pin (id : Nat) :
    exec (pin id) m = (.ok (), { m with scopes := m.scopes.pin id }) := rfl

@[simp] theorem exec_define (id : Nat) (name : String) (v : Option Value) :
    exec (define id name v) m = (.ok (), { m with scopes := m.scopes.define id name v }) := rfl

@[simp] theorem exec_emit (text : String) :
    exec (emit text) m = (.ok (), { m with output := m.output ++ text }) := rfl

/-- Looking a name up changes nothing. -/
@[simp] theorem exec_lookup_snd (r : Reference) : (exec (lookup r) m).2 = m := by
  unfold lookup
  simp only [exec_bind, exec_get]
  split <;> exact exec_ofExcept_snd _ _

/-- Assigning to a resolved name fails, changing nothing, or changes the arena as `assignAt`
does. -/
theorem exec_assignTo_local {r : Reference} {h : Nat} (hr : r.hops = some h) (v : Value) :
    exec (assignTo r v) m = match m.scopes.assignAt m.current h r.name v with
      | .ok A => (.ok (), { m with scopes := A })
      | .error f => (.error (.fault f), m) := by
  unfold assignTo
  simp only [exec_bind, exec_get, hr]
  cases m.scopes.assignAt m.current h r.name v <;> rfl

/-- Assigning to a global fails, changing nothing, or changes the arena as `assign` does. -/
theorem exec_assignTo_global {r : Reference} (hr : r.hops = none) (v : Value) :
    exec (assignTo r v) m = match m.scopes.assign Scopes.globals r.name v with
      | .ok A => (.ok (), { m with scopes := A })
      | .error f => (.error (.fault f), m) := by
  unfold assignTo
  simp only [exec_bind, exec_get, hr]
  cases m.scopes.assign Scopes.globals r.name v <;> rfl

@[simp] theorem exec_newInstance (c : ClassDef) :
    exec (newInstance c) m = (.ok (.instanceRef m.fields.size c), { m with fields := m.fields.push [] }) :=
  rfl

@[simp] theorem exec_field? (id : Nat) (name : String) :
    exec (field? id name) m = (.ok ((m.fields[id]?.getD []).lookup name), m) := rfl

@[simp] theorem exec_setField (id : Nat) (name : String) (v : Value) :
    exec (setField id name v) m =
      (.ok (), { m with fields := m.fields.modify id (setEntry name v) }) := rfl

/-- A loop whose every round yields runs its rounds one after another. -/
theorem exec_forIn {γ : Type} (f : γ → PUnit → Eval (ForInStep PUnit)) (g : Machine → γ → Machine)
    (hf : ∀ x m, exec (f x PUnit.unit) m = (.ok (.yield PUnit.unit), g m x)) :
    ∀ (l : List γ) (m : Machine), exec (forIn l PUnit.unit f) m = (.ok PUnit.unit, l.foldl g m)
  | [], m => rfl
  | x :: l, m => by
    simp only [List.forIn_cons, exec_bind, hf, List.foldl_cons]
    exact exec_forIn f g hf l (g m x)

end Eval

namespace Allocator

open Eval

variable [A : Allocator] (m : Machine)

/-- A new scope where the allocator puts it. -/
theorem exec_childOf (p : Nat) :
    exec (Eval.childOf p) m =
      (.ok (Allocator.child m.scopes p).2, { m with scopes := (Allocator.child m.scopes p).1 }) :=
  rfl

/-- A scope let go as the allocator does. -/
theorem exec_release (c : Nat) :
    exec (Eval.release c) m = (.ok (), { m with scopes := Allocator.release m.scopes c }) := rfl

end Allocator

end Lox
