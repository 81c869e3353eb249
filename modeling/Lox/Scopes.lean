import Lox.Machine.Fault
/-!
# The scope arena

Variables live in scopes, and scopes live in an arena of numbered slots. Slot 0 holds the
globals. A scope maps names to values (or to nothing yet, for a variable declared without a
value) and points to its parent scope.

A scope is pinned once a function or class may capture it; pinning also pins its ancestors,
up to the first that is pinned already. A released scope that is not pinned is emptied and its
slot goes on a free list; the next new scope takes the slot freed last.

Looking a name up walks the chain of parents from a scope; looking it up `hops` scopes out
goes that far first and looks only there.
-/

namespace Lox

/-- Set the entry of a name in a table keyed by names, such as a scope, the fields of an
instance, a table of class members or a frame of resolution: in place if the name is there, at
the end otherwise. -/
def setEntry {β : Type} (k : String) (v : β) : List (String × β) → List (String × β)
  | [] => [(k, v)]
  | (k', v') :: rest => if k' = k then (k, v) :: rest else (k', v') :: setEntry k v rest

/-- A scope: its variables, its parent, and whether it is pinned. -/
structure Scope where
  values : List (String × Option Value)
  parent : Option Nat
  pinned : Bool

/-- An empty scope with no parent. -/
def Scope.empty : Scope := ⟨[], none, false⟩

/-- The arena: the slots and the free list, the most recently freed slot first. -/
structure Scopes where
  slots : Array Scope
  free : List Nat

namespace Scopes

/-- An arena with only the pinned globals scope. -/
def new : Scopes := ⟨#[{ Scope.empty with pinned := true }], []⟩

/-- The scope of the globals. -/
def globals : Nat := 0

/-- A new empty scope under `parent`, in the slot freed last or else in a new slot. -/
def child (s : Scopes) (parent : Nat) : Scopes × Nat :=
  let scope : Scope := { Scope.empty with parent := some parent }
  match s.free with
  | id :: rest => (⟨s.slots.setIfInBounds id scope, rest⟩, id)
  | [] => (⟨s.slots.push scope, []⟩, s.slots.size)

/-- Pin scopes from `id` outward until one is pinned already; `fuel` bounds the walk. -/
def pinFrom (slots : Array Scope) : Nat → Option Nat → Array Scope
  | 0, _ => slots
  | _, none => slots
  | fuel + 1, some id =>
    match slots[id]? with
    | some sc => if sc.pinned then slots else pinFrom (slots.setIfInBounds id { sc with pinned := true }) fuel sc.parent
    | none => slots

/-- Pin a scope and its ancestors. -/
def pin (s : Scopes) (id : Nat) : Scopes :=
  { s with slots := pinFrom s.slots (s.slots.size + 1) (some id) }

/-- Release a scope: unless it is pinned, empty it and put its slot on the free list. -/
def release (s : Scopes) (id : Nat) : Scopes :=
  match s.slots[id]? with
  | some sc => if sc.pinned then s else ⟨s.slots.setIfInBounds id Scope.empty, id :: s.free⟩
  | none => s

/-- The number of slots not on the free list, as a 64-bit word. A slot released twice is on
the free list twice, so the count can fall below zero, and then it wraps around. -/
def len (s : Scopes) : UInt64 := s.slots.size.toUInt64 - s.free.length.toUInt64

/-- The names declared in a scope, in sorted order. -/
def names (s : Scopes) (id : Nat) : List String :=
  match s.slots[id]? with
  | some sc => (sc.values.map (·.1)).mergeSort (· ≤ ·)
  | none => []

/-- Declare a name in a scope, with a value or without one; a name declared again is
overwritten. -/
def define (s : Scopes) (id : Nat) (name : String) (v : Option Value) : Scopes :=
  match s.slots[id]? with
  | some sc => { s with slots := s.slots.setIfInBounds id { sc with values := setEntry name v sc.values } }
  | none => s

/-- The value of a declared name, or a fault if it has none yet. -/
def readSlot (name : Token) : Option Value → Except RuntimeFault Value
  | some v => .ok v
  | none => .error (.uninitializedVariable name)

/-- Look a name up along the chain from `id`; `fuel` bounds the walk. -/
def getFrom (s : Scopes) (name : Token) : Nat → Nat → Except RuntimeFault Value
  | 0, _ => .error (.undefinedVariable name)
  | fuel + 1, id =>
    match s.slots[id]? with
    | none => .error (.missingScope id)
    | some sc =>
      match sc.values.lookup name.lexeme with
      | some v => readSlot name v
      | none =>
        match sc.parent with
        | some p => s.getFrom name fuel p
        | none => .error (.undefinedVariable name)

/-- Look a name up in a scope and its ancestors. -/
def get (s : Scopes) (id : Nat) (name : Token) : Except RuntimeFault Value :=
  s.getFrom name (s.slots.size + 1) id

/-- The scope `hops` links out from `id`; `total` is the distance asked for, for the fault. -/
def ancestorFrom (s : Scopes) (total : Nat) : Nat → Nat → Except RuntimeFault Nat
  | 0, id => .ok id
  | k + 1, id =>
    match s.slots[id]? with
    | none => .error (.missingScope id)
    | some sc =>
      match sc.parent with
      | some p => s.ancestorFrom total k p
      | none => .error (.scopeChainTooShort total)

def ancestor (s : Scopes) (id hops : Nat) : Except RuntimeFault Nat := s.ancestorFrom hops hops id

/-- Look a name up in the scope `hops` links out, and only there. -/
def getAt (s : Scopes) (id hops : Nat) (name : Token) : Except RuntimeFault Value := do
  let target ← s.ancestor id hops
  match s.slots[target]? with
  | none => .error (.missingScope target)
  | some sc =>
    match sc.values.lookup name.lexeme with
    | some v => readSlot name v
    | none => .error (.undefinedVariable name)

/-- Give a declared name a new value in the nearest scope that declares it; `fuel` bounds the
walk. No name is ever added. -/
def assignFrom (s : Scopes) (name : Token) (v : Value) : Nat → Nat → Except RuntimeFault Scopes
  | 0, _ => .error (.undefinedVariable name)
  | fuel + 1, id =>
    match s.slots[id]? with
    | none => .error (.missingScope id)
    | some sc =>
      match sc.values.lookup name.lexeme with
      | some _ => .ok { s with slots := s.slots.setIfInBounds id { sc with values := setEntry name.lexeme (some v) sc.values } }
      | none =>
        match sc.parent with
        | some p => s.assignFrom name v fuel p
        | none => .error (.undefinedVariable name)

def assign (s : Scopes) (id : Nat) (name : Token) (v : Value) : Except RuntimeFault Scopes :=
  s.assignFrom name v (s.slots.size + 1) id

/-- Give a name a new value in the scope `hops` links out, where it must be declared. -/
def assignAt (s : Scopes) (id hops : Nat) (name : Token) (v : Value) : Except RuntimeFault Scopes := do
  let target ← s.ancestor id hops
  match s.slots[target]? with
  | none => .error (.missingScope target)
  | some sc =>
    match sc.values.lookup name.lexeme with
    | some _ => .ok { s with slots := s.slots.setIfInBounds target { sc with values := setEntry name.lexeme (some v) sc.values } }
    | none => .error (.undefinedVariable name)

end Scopes

end Lox
