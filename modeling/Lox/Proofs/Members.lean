import Mathlib
import Lox.Proofs.Agreement
/-!
# Which member a property read finds

A class keeps its members in four tables: methods, getters, class methods and class getters.
Looking a name up in one table walks the chain of classes, the class itself and then its
superclasses one after another, and takes the member of the first class whose table declares
the name.

A property read looks in two tables, one after the other: the getters and then the methods for
an instance, the class getters and then the class methods for a class, and `super` likewise,
from the superclass that the enclosing class was declared with. The second table is looked at
only when no class of the whole chain declares the name in the first. So a getter declared
anywhere along the chain is found before a method of the same name, even one that a nearer
class declares.

## Main statements

* `ClassDef.find_eq_some_iff`, `ClassDef.find_eq_none_iff`: a lookup finds the member of the
  first class along the chain that declares the name.
* `property_reads_prefer_getters`: how reads from instances, from classes and through `super`
  go.
* `superclass_getter_hides_method`: reading `g` from an instance of `B < A`, where `A` has a
  getter `g` and `B` a method `g`, runs the getter of `A`.
-/

namespace Lox

namespace ClassDef

/-- The classes a lookup walks: the class, then its superclass, and so on. -/
def chain : ClassDef → List ClassDef
  | c@(.mk _ none ..) => [c]
  | c@(.mk _ (some s) ..) => c :: s.chain

/-- The first class along the chain of `c` that declares `p` in its table of `kind` declares it
as `f`. -/
def FirstDeclares (c : ClassDef) (kind : MemberKind) (p : String) (f : Callable) : Prop :=
  ∃ pre k post, c.chain = pre ++ k :: post ∧ (k.table kind).lookup p = some f ∧
    ∀ k' ∈ pre, (k'.table kind).lookup p = none

/-- No class along the chain of `c` declares `p` in its table of `kind`. -/
def NoneDeclares (c : ClassDef) (kind : MemberKind) (p : String) : Prop :=
  ∀ k ∈ c.chain, (k.table kind).lookup p = none

/-- A lookup is a search along the chain. -/
theorem find_eq_findSome? (kind : MemberKind) (p : String) : ∀ c : ClassDef,
    c.find kind p = c.chain.findSome? fun k => (k.table kind).lookup p
  | .mk _ none .. => by
    rw [find, chain, List.findSome?_cons]
    split <;> rename_i h <;> simp only [h, List.findSome?_nil]
  | .mk _ (some s) .. => by
    rw [find, chain, List.findSome?_cons, find_eq_findSome? kind p s]
    split <;> rename_i h <;> simp only [h]

variable {c : ClassDef} {kind : MemberKind} {p : String} {f : Callable}

theorem find_eq_some_iff : c.find kind p = some f ↔ c.FirstDeclares kind p f := by
  rw [find_eq_findSome?, List.findSome?_eq_some_iff]
  rfl

theorem find_eq_none_iff : c.find kind p = none ↔ c.NoneDeclares kind p := by
  rw [find_eq_findSome?, List.findSome?_eq_none_iff]
  rfl

end ClassDef

namespace Eval

/-- Reading `name` from `this`, with members looked up along the chain of `c` in the table of
`getterKind` first and of `methodKind` after, goes from `m` to `r`: the getter of the first class that
declares one runs with no arguments; failing that, the method of the first class that declares
one comes back bound to `this` as a new function; failing both, the read fails. -/
def ReadsMember (n : Nat) (this : Value) (getterKind methodKind : MemberKind) (c : ClassDef)
    (name : Token) (m : Machine) (r : Except Interrupt Value × Machine) : Prop :=
  (∃ g, c.FirstDeclares getterKind name.lexeme g ∧
    r = exec (invoke n (.function (g.bind this)) name []) m) ∨
  (c.NoneDeclares getterKind name.lexeme ∧ ∃ f, c.FirstDeclares methodKind name.lexeme f ∧
    r = (.ok (.function m.nextStamp (f.bind this)), { m with nextStamp := m.nextStamp + 1 })) ∨
  (c.NoneDeclares getterKind name.lexeme ∧ c.NoneDeclares methodKind name.lexeme ∧
    r = (.error (.fault (.undefinedProperty name)), m))

section ReadsMember

variable {n : Nat} {this : Value} {getterKind methodKind : MemberKind} {c : ClassDef}
  {name : Token} {m : Machine}

theorem ReadsMember.getter {g : Callable} (hg : c.find getterKind name.lexeme = some g) :
    ReadsMember n this getterKind methodKind c name m
      (exec (invoke n (.function (g.bind this)) name []) m) :=
  .inl ⟨g, ClassDef.find_eq_some_iff.1 hg, rfl⟩

theorem ReadsMember.method {f : Callable} (hg : c.find getterKind name.lexeme = none)
    (hf : c.find methodKind name.lexeme = some f) :
    ReadsMember n this getterKind methodKind c name m
      (exec (do return Value.function (← stamp) (f.bind this)) m) :=
  .inr (.inl ⟨ClassDef.find_eq_none_iff.1 hg, f, ClassDef.find_eq_some_iff.1 hf, rfl⟩)

theorem ReadsMember.undefined (hg : c.find getterKind name.lexeme = none)
    (hf : c.find methodKind name.lexeme = none) :
    ReadsMember n this getterKind methodKind c name m (exec (fail (.undefinedProperty name)) m) :=
  .inr (.inr ⟨ClassDef.find_eq_none_iff.1 hg, ClassDef.find_eq_none_iff.1 hf, rfl⟩)

end ReadsMember

/-- The kinds of members that `super` reads for a receiver: class getters and class methods
when the receiver is a class, getters and methods otherwise. -/
def superKinds : Value → MemberKind × MemberKind
  | .classRef .. => (.staticGetter, .static)
  | _ => (.getter, .method)

theorem readsMember_instanceProperty (n i : Nat) (c : ClassDef) (name : Token) (m : Machine)
    (hfield : (m.fields[i]?.getD []).lookup name.lexeme = none) :
    ReadsMember n (.instanceRef i c) .getter .method c name m
      (exec (instanceProperty (n + 1) i c name) m) := by
  simp only [instanceProperty, exec_bind, exec_field?, hfield]
  split
  · exact ReadsMember.getter ‹_›
  · split
    · exact ReadsMember.method ‹_› ‹_›
    · exact ReadsMember.undefined ‹_› ‹_›

theorem readsMember_staticProperty (n s : Nat) (c : ClassDef) (name : Token) (m : Machine) :
    ReadsMember n (.classRef s c) .staticGetter .static c name m
      (exec (staticProperty (n + 1) s c name) m) := by
  simp only [staticProperty]
  split
  · exact ReadsMember.getter ‹_›
  · split
    · exact ReadsMember.method ‹_› ‹_›
    · exact ReadsMember.undefined ‹_› ‹_›

/-- `super.member` whose `super` lies `h + 1` scopes out, bound there to the class `sup`, with
`this` one scope nearer: the read walks the chain of `sup`, whatever the receiver's class. -/
theorem readsMember_superMember (n : Nat) (keyword : Reference) (member : Token) (m : Machine)
    {h k : Nat} {sup : ClassDef} {receiver : Value} (hhops : keyword.hops = some (h + 1))
    (hsup : m.scopes.getAt m.current (h + 1) keyword.name = .ok (.classRef k sup))
    (hthis : m.scopes.getAt m.current h (thisAt keyword.name) = .ok receiver) :
    ReadsMember n receiver (superKinds receiver).1 (superKinds receiver).2 sup member m
      (exec (superMember (n + 1) keyword member) m) := by
  simp only [superMember, hhops, exec_bind, exec_get, hsup, exec_ofExcept_ok, hthis]
  -- the body picks the kinds by matching on the receiver, as `superKinds` does
  cases receiver <;>
  · simp only [superKinds]
    split
    · exact ReadsMember.getter ‹_›
    · split
      · exact ReadsMember.method ‹_› ‹_›
      · exact ReadsMember.undefined ‹_› ‹_›

end Eval

namespace Members

/-- `return x;` -/
def returning (x : Float) : List Stmt :=
  [.returnFrom ⟨.return, "return", none, 1, 1⟩ (some (.literal (.number x)))]

/-- `class A { g { return 1; } }` -/
def getterBase : ClassDef :=
  .mk "A" none [] [("g", .closure (some "g") [] (returning 1) 0 none false)] [] []

/-- `class B < A { g() { return 2; } }` -/
def methodSub : ClassDef :=
  .mk "B" (some getterBase) [("g", .closure (some "g") [] (returning 2) 0 none false)] [] [] []

/-- The scopes of a call of a member of `B`: the member's scope binds `super` to `A`, the
receiver's scope under it binds `this` to instance `0` of `B`, and the call's own scope lies
under that. -/
def superCall : Machine :=
  let A1 := (Machine.initial 0).scopes.child Scopes.globals
  let A2 := (A1.1.define A1.2 "super" (some (.classRef 0 getterBase))).child A1.2
  let A3 := (A2.1.define A2.2 "this" (some (.instanceRef 0 methodSub))).child A2.2
  { Machine.initial 0 with scopes := A3.1, current := A3.2 }

/-- `super`, resolved two scopes out. -/
def superKeyword : Reference := ⟨⟨.super, "super", none, 1, 1⟩, some 2⟩

end Members

open Eval in
/-- Property reads look for getters along the whole chain before they look for methods. Reading
a name that is no field of an instance of `c` runs the getter of the first class along the chain
of `c` that declares a getter of that name, if any class does; otherwise it gives the method of
the first class that declares one, bound to the instance; otherwise it fails. Reading from a class
does the same with class getters and class methods. `super.member` does the same along the chain
of the superclass found in the scope of `super`, never the chain of the receiver's class, with
the class tables when the receiver is a class and the instance tables otherwise. -/
theorem property_reads_prefer_getters :
    (∀ (n i : Nat) (c : ClassDef) (name : Token) (m : Machine),
      (m.fields[i]?.getD []).lookup name.lexeme = none →
      ReadsMember n (.instanceRef i c) .getter .method c name m
        (exec (instanceProperty (n + 1) i c name) m)) ∧
    (∀ (n s : Nat) (c : ClassDef) (name : Token) (m : Machine),
      ReadsMember n (.classRef s c) .staticGetter .static c name m
        (exec (staticProperty (n + 1) s c name) m)) ∧
    (∀ (n : Nat) (keyword : Reference) (member : Token) (m : Machine) (h k : Nat)
      (sup : ClassDef) (receiver : Value), keyword.hops = some (h + 1) →
      m.scopes.getAt m.current (h + 1) keyword.name = .ok (.classRef k sup) →
      m.scopes.getAt m.current h (thisAt keyword.name) = .ok receiver →
      ReadsMember n receiver (superKinds receiver).1 (superKinds receiver).2 sup member m
        (exec (superMember (n + 1) keyword member) m)) :=
  ⟨readsMember_instanceProperty, readsMember_staticProperty,
    fun n keyword member m _ _ _ _ hh hs ht => readsMember_superMember n keyword member m hh hs ht⟩

open Members Eval in
/-- Reading `g` from instance `0` of `B` in a fresh machine, where no field shadows it, and
reading `super.g` in a call of a member of `B` bound to that instance: both look for getters
first, along the chain of `B` and of `A`. -/
theorem getter_reads_from_instance_and_super :
    ReadsMember 0 (.instanceRef 0 methodSub) .getter .method methodSub
      ⟨.identifier, "g", none, 1, 1⟩ (Machine.initial 0)
      (exec (instanceProperty 1 0 methodSub ⟨.identifier, "g", none, 1, 1⟩) (Machine.initial 0)) ∧
    ReadsMember 0 (.instanceRef 0 methodSub) .getter .method getterBase
      ⟨.identifier, "g", none, 1, 1⟩ superCall
      (exec (superMember 1 superKeyword ⟨.identifier, "g", none, 1, 1⟩) superCall) :=
  ⟨property_reads_prefer_getters.1 0 0 methodSub _ _ (by cbv),
    property_reads_prefer_getters.2.2 0 superKeyword _ superCall 1 0 getterBase _ rfl (by cbv)
      (by cbv)⟩

open Members Eval in
/-- `B` declares a method `g` and no getter `g`, and its superclass `A` a getter `g`. Reading `g`
from an instance of `B` runs the getter of `A` and gives `1`, not the method of `B`. -/
theorem superclass_getter_hides_method :
    (methodSub.table .method).lookup "g" =
        some (.closure (some "g") [] (returning 2) 0 none false) ∧
      (methodSub.table .getter).lookup "g" = none ∧
      (exec (instanceProperty 10 0 methodSub ⟨.identifier, "g", none, 1, 1⟩)
        { Machine.initial 0 with fields := #[[]] }).1 = .ok (.number 1) :=
  -- the run goes through scope operations that plain `rfl` does not unfold
  ⟨rfl, rfl, by with_unfolding_all rfl⟩

end Lox
