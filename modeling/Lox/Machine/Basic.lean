import Lox.Scopes
/-!
# The machine

The state of a running interpreter: the scope arena, the fields of every instance made so far,
the current scope, how many calls are active, the next identity stamp, the text printed so far,
and the reading of the host's clock.

Evaluation runs in `Eval`: it changes the machine and may be interrupted by a fault or by
running out of fuel. The machine keeps every change made before an interruption.

A block or call opens a scope and lets it go when it ends. An `Allocator` says what that does
to the arena, and evaluation is written once for any allocator. The interpreter's,
`Allocator.reuse`, takes the slot freed last and empties and frees a scope that is not pinned;
`Allocator.fresh` gives every scope a slot of its own and never takes one back, the reference
that no reuse of a slot can disturb.
-/

namespace Lox

structure Machine where
  scopes : Scopes
  /-- The fields of each instance, by instance number. -/
  fields : Array (List (String × Value))
  current : Nat
  depth : Nat
  nextStamp : Nat
  output : String
  clock : Float

/-- Why evaluation stopped early. -/
inductive Interrupt where
  | fault (f : RuntimeFault)
  | outOfFuel

abbrev Eval := ExceptT Interrupt (StateM Machine)

/-- How the arena gives a new scope its slot, and what becomes of a scope let go. -/
class Allocator where
  child : Scopes → Nat → Scopes × Nat
  release : Scopes → Nat → Scopes

/-- The interpreter's allocator: the slot freed last is taken again, and a scope let go is
emptied and freed unless it is pinned. -/
instance Allocator.reuse : Allocator := ⟨Scopes.child, Scopes.release⟩

/-- A new empty scope under `parent`, in a slot past every slot of the arena. -/
def Scopes.pushChild (s : Scopes) (parent : Nat) : Scopes × Nat :=
  (⟨s.slots.push { Scope.empty with parent := some parent }, s.free⟩, s.slots.size)

/-- The reference allocator: every scope takes a new slot, and none is ever let go. -/
@[reducible] def Allocator.fresh : Allocator := ⟨Scopes.pushChild, fun s _ => s⟩

namespace Machine

/-- A fresh machine: only the globals scope, holding the native function `clock`. -/
def initial (clock : Float) : Machine :=
  { scopes := Scopes.new.define Scopes.globals "clock" (some (.function 0 (.native "clock" 0)))
    fields := #[], current := Scopes.globals, depth := 0, nextStamp := 1, output := "", clock }

/-- The names of the globals. -/
def globalNames (m : Machine) : List String := m.scopes.names Scopes.globals

end Machine

namespace Eval

def fail {α : Type} (f : RuntimeFault) : Eval α := throw (.fault f)

def ofExcept {α : Type} : Except RuntimeFault α → Eval α
  | .ok a => pure a
  | .error f => fail f

/-- Run `x` and hand back how it ended, without passing an interruption on. -/
def attempt {α : Type} (x : Eval α) : Eval (Except Interrupt α) :=
  ExceptT.mk (Except.ok <$> x.run)

/-- Pass on how a step ended. -/
def resume {α : Type} : Except Interrupt α → Eval α
  | .ok a => pure a
  | .error e => throw e

/-- A fresh identity stamp. -/
def stamp : Eval Nat :=
  modifyGet fun m => (m.nextStamp, { m with nextStamp := m.nextStamp + 1 })

def currentScope : Eval Nat := do return (← get).current

def setCurrent (id : Nat) : Eval Unit := modify fun m => { m with current := id }

/-- A new scope under `parent`, in the slot the allocator gives it. -/
def childOf [A : Allocator] (parent : Nat) : Eval Nat :=
  modifyGet fun m =>
    let (scopes, id) := Allocator.child m.scopes parent
    (id, { m with scopes := scopes })

/-- Let a scope go, as the allocator does. -/
def release [A : Allocator] (id : Nat) : Eval Unit :=
  modify fun m => { m with scopes := Allocator.release m.scopes id }

def pin (id : Nat) : Eval Unit := modify fun m => { m with scopes := m.scopes.pin id }

def define (id : Nat) (name : String) (v : Option Value) : Eval Unit :=
  modify fun m => { m with scopes := m.scopes.define id name v }

def emit (text : String) : Eval Unit := modify fun m => { m with output := m.output ++ text }

/-- The value a use of a name refers to: `hops` scopes out from the current scope if it was
resolved, among the globals otherwise. -/
def lookup (r : Reference) : Eval Value := do
  let m ← get
  match r.hops with
  | some h => ofExcept (m.scopes.getAt m.current h r.name)
  | none => ofExcept (m.scopes.get Scopes.globals r.name)

/-- Assign to the variable a use of a name refers to. -/
def assignTo (r : Reference) (v : Value) : Eval Unit := do
  let m ← get
  let result := match r.hops with
    | some h => m.scopes.assignAt m.current h r.name v
    | none => m.scopes.assign Scopes.globals r.name v
  match result with
  | .ok scopes => set { m with scopes := scopes }
  | .error f => fail f

/-- A new instance of a class, with no fields. -/
def newInstance (c : ClassDef) : Eval Value :=
  modifyGet fun m => (.instanceRef m.fields.size c, { m with fields := m.fields.push [] })

def field? (id : Nat) (name : String) : Eval (Option Value) := do
  return ((← get).fields[id]?.getD []).lookup name

def setField (id : Nat) (name : String) (v : Value) : Eval Unit :=
  modify fun m =>
    { m with fields := m.fields.modify id (setEntry name v) }

end Eval

end Lox
