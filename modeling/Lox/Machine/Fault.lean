import Lox.Diagnostic
import Lox.Value
/-!
# Runtime faults

What stops a running program, each with the token it is reported at. A few faults are the
interpreter's own (a scope chain shorter than resolution promised, a missing scope): they
point nowhere and are reported as faults of the interpreter.
-/

namespace Lox

/-- A fault of a running program. -/
inductive RuntimeFault where
  | undefinedVariable (name : Token)
  | uninitializedVariable (name : Token)
  | wrongArity (paren : Token) (expected given : Nat)
  | stackOverflow (paren : Token)
  | undefinedProperty (name : Token)
  | noProperties (name : Token) (kind : ValueKind)
  | noFields (name : Token) (kind : ValueKind)
  | operandsNotNumbers (op : Token) (left right : ValueKind)
  | badAddition (op : Token) (left right : ValueKind)
  | divisionByZero (op : Token)
  | operandsNotIntegers (op : Token)
  | shiftOutOfRange (op : Token)
  | notCallable (paren : Token) (kind : ValueKind)
  | conditionNotBoolean (question : Token) (kind : ValueKind)
  | negateNonNumber (op : Token) (kind : ValueKind)
  | superclassNotClass (name : Token)
  /-- A scope `hops` links out was asked for, past the end of the chain. -/
  | scopeChainTooShort (hops : Nat)
  | missingScope (id : Nat)
  | unresolvedSuper
  | unboundInitializer

namespace RuntimeFault

/-- The advice given with the interpreter's own faults. -/
def internalAdvice : String := "This is a bug in the interpreter, please report it with example code."

/-- The most calls that may be active at once. -/
def maxDepth : Nat := 1000

def toDiagnostic : RuntimeFault → Diagnostic
  | .undefinedVariable t =>
    .runtime t ("Undefined variable '" ++ t.lexeme ++ "'.")
      ("Try defining the variable first using `var " ++ t.lexeme ++ " = ...;`.")
  | .uninitializedVariable t =>
    .runtime t ("Uninitialized variable '" ++ t.lexeme ++ "'.")
      ("Assign a value to '" ++ t.lexeme ++ "' before reading it, or initialize it where it is declared.")
  | .wrongArity t expected given =>
    .runtime t ("Expected " ++ toString expected ++ " arguments but got " ++ toString given ++ ".")
      "Make sure that you are passing the correct number of arguments to the function."
  | .stackOverflow t =>
    .runtime t "Stack overflow."
      ("Calls may only be nested " ++ toString maxDepth ++
        " deep, make sure that your recursion has a base case which is reached.")
  | .undefinedProperty t =>
    .runtime t ("Undefined property '" ++ t.lexeme ++ "'.")
      "Make sure that the property is assigned, or declared by the class, before reading it."
  | .noProperties t k =>
    .runtime t "Only instances have properties."
      ("Make sure that you are reading '" ++ t.lexeme ++ "' from an instance of a class rather than a " ++
        k.name ++ ".")
  | .noFields t k =>
    .runtime t "Only instances have fields."
      ("Make sure that you are assigning '" ++ t.lexeme ++ "' on an instance of a class rather than a " ++
        k.name ++ ".")
  | .operandsNotNumbers t l r =>
    .runtime t "Operands must be numbers."
      ("Provide numbers on both sides of the '" ++ t.lexeme ++ "' operator, rather than a " ++ l.name ++
        " and a " ++ r.name ++ ".")
  | .badAddition t l r =>
    .runtime t "Operands must be two numbers or a string followed by a value."
      ("Provide numbers on both sides of the '+' operator, or a string on its left, rather than a " ++
        l.name ++ " and a " ++ r.name ++ ".")
  | .divisionByZero t =>
    .runtime t "Division by zero." "Check that the right hand side of the operator is not zero before dividing."
  | .operandsNotIntegers t =>
    .runtime t "Operands must be integers."
      ("The '" ++ t.lexeme ++ "' operator only works on whole numbers, try rounding the operands first.")
  | .shiftOutOfRange t =>
    .runtime t "Shift amount must be between 0 and 63."
      "Make sure that the right hand side of the shift operator is within the width of a 64-bit integer."
  | .notCallable t k =>
    .runtime t "Can only call functions and classes."
      ("A " ++ k.name ++ " cannot be called, make sure you are calling the value you intended to.")
  | .conditionNotBoolean t k =>
    .runtime t "Ternary condition must be a boolean."
      ("The condition evaluated to a " ++ k.name ++ ", try comparing it explicitly, e.g. `x != nil ? a : b`.")
  | .negateNonNumber t k =>
    .runtime t "Operand must be a number."
      ("Provide a number to the unary negation operator rather than a " ++ k.name ++
        ", or remove the minus sign.")
  | .superclassNotClass t =>
    .runtime t "Superclass must be a class." "Make sure that the name after '<' refers to a class declaration."
  | .scopeChainTooShort hops =>
    .system ("A variable was resolved " ++ toString hops ++
      " scopes away, but the scope chain is shorter than that.") internalAdvice
  | .missingScope id =>
    .system ("Attempted to access scope " ++ toString id ++ " which does not exist.") internalAdvice
  | .unresolvedSuper => .system "Failed to resolve `super` within a method." internalAdvice
  | .unboundInitializer => .system "Failed to resolve `this` within the initializer function." internalAdvice

end RuntimeFault

end Lox
