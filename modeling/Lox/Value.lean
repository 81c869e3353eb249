import Lox.Syntax.Tree
/-!
# Values

The values of running programs. Numbers, strings, booleans and `nil` are plain data. Functions
and classes are immutable and carry a stamp that gives them identity: two functions are equal
only if they are the same function, and binding a method to a receiver makes a new one.
Instances have fields that change, so a value only refers to an instance by its number in the
machine's heap, together with its class.

A class has four tables of members, each mapping a name to the function declared last under it;
a member is looked up in the class and then along its superclasses.
-/

namespace Lox

/-- The kinds of values, as messages name them. -/
inductive ValueKind where
  | nil | boolean | number | string | function | «class» | «instance»
  deriving DecidableEq, Repr

def ValueKind.name : ValueKind → String
  | .nil => "nil" | .boolean => "boolean" | .number => "number" | .string => "string"
  | .function => "function" | .class => "class" | .instance => "instance"

/-- The four tables of class members. -/
inductive MemberKind where
  | method | getter | static | staticGetter
  deriving DecidableEq, Repr

mutual

inductive Value where
  | nil
  | bool (b : Bool)
  | number (x : Float)
  | string (s : String)
  /-- A function with its identity stamp. -/
  | function (stamp : Nat) (f : Callable)
  /-- A class with its identity stamp. -/
  | classRef (stamp : Nat) (c : ClassDef)
  /-- The instance with the given number in the heap, and its class. -/
  | instanceRef (id : Nat) (c : ClassDef)

/-- What can be called: a function of the host, or a function of the program closed over a
scope, maybe bound to a receiver. -/
inductive Callable where
  | native (name : String) (arity : Nat)
  | closure (name : Option String) (params : List Token) (body : List Stmt) (scope : Nat)
      (receiver : Option Value) (isInitializer : Bool)

/-- A class: its name, its superclass, and its methods, getters, class methods and class
getters. -/
inductive ClassDef where
  | mk (name : String) (superclass : Option ClassDef)
      (methods getters statics staticGetters : List (String × Callable))

end

instance : Inhabited Value := ⟨.nil⟩

namespace Value

def kind : Value → ValueKind
  | .nil => .nil | .bool _ => .boolean | .number _ => .number | .string _ => .string
  | .function .. => .function | .classRef .. => .class | .instanceRef .. => .instance

/-- `nil` and `false` are false; every other value is true. -/
def truthy : Value → Bool
  | .nil => false
  | .bool b => b
  | _ => true

/-- Equality as the language sees it: numbers as floats, strings by text, functions, classes
and instances by identity, values of different kinds never. -/
def equals : Value → Value → Bool
  | .nil, .nil => true
  | .bool a, .bool b => a == b
  | .number a, .number b => a == b
  | .string a, .string b => a == b
  | .function a _, .function b _ => a == b
  | .classRef a _, .classRef b _ => a == b
  | .instanceRef a _, .instanceRef b _ => a == b
  | _, _ => false

end Value

/-- The value of a literal. -/
def Literal.toValue : Literal → Value
  | .nil => .nil
  | .bool b => .bool b
  | .number x => .number x
  | .string s => .string s

namespace Callable

def arity : Callable → Nat
  | .native _ n => n
  | .closure _ params .. => params.length

/-- The same function with `this` bound to a receiver. -/
def bind (receiver : Value) : Callable → Callable
  | .native name n => .native name n
  | .closure name params body scope _ init => .closure name params body scope (some receiver) init

def display : Callable → String
  | .native name _ => "<native fn " ++ name ++ ">"
  | .closure (some name) .. => "<fn " ++ name ++ ">"
  | .closure none .. => "<lambda>"

end Callable

namespace ClassDef

def name : ClassDef → String
  | .mk n .. => n

def table (kind : MemberKind) : ClassDef → List (String × Callable)
  | .mk _ _ methods getters statics staticGetters =>
    match kind with
    | .method => methods
    | .getter => getters
    | .static => statics
    | .staticGetter => staticGetters

/-- A member of one kind, from the class itself or else from the nearest superclass that
declares it. -/
def find (kind : MemberKind) (member : String) : ClassDef → Option Callable
  | c@(.mk _ superclass ..) =>
    match (c.table kind).lookup member with
    | some f => some f
    | none =>
      match superclass with
      | some s => find kind member s
      | none => none

/-- How many arguments a call of the class takes: those of its initializer, if it has one. -/
def arity (c : ClassDef) : Nat :=
  match c.find .method "init" with
  | some f => f.arity
  | none => 0

end ClassDef

/-- The text of a value when printed. -/
def Value.display : Value → String
  | .nil => "nil"
  | .bool b => if b then "true" else "false"
  | .number x => Number.displayText x
  | .string s => s
  | .function _ f => f.display
  | .classRef _ c => "<class " ++ c.name ++ ">"
  | .instanceRef _ c => "<instance of " ++ c.name ++ ">"

/-- How a statement ended: normally, by `break`, or by `return` with a value. -/
inductive Flow where
  | normal
  | breakLoop
  | returned (v : Value)

end Lox
