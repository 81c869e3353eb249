import Lox.Diagnostic
/-!
# Static faults and warnings

What resolution reports before a program runs: misplaced `this`, `super`, `break` and `return`,
names declared twice in one scope, locals read in their own initializer, and classes that
inherit from themselves. Locals that are never read are reported as warnings.
-/

namespace Lox

/-- A fault that makes resolution reject a program; each carries the token it is reported at. -/
inductive StaticFault where
  | alreadyDeclared (name : Token)
  | ownInitializer (name : Token)
  | superOutsideClass (keyword : Token)
  | superWithoutSuperclass (keyword : Token)
  | thisOutsideClass (keyword : Token)
  | breakOutsideLoop (keyword : Token)
  | inheritsItself (name : Token)
  | returnAtTopLevel (keyword : Token)
  | returnValueFromInitializer (keyword : Token)
  deriving Repr

namespace StaticFault

def toDiagnostic : StaticFault → Diagnostic
  | .alreadyDeclared t =>
    .language (.ofToken t) ("Already a variable named '" ++ t.lexeme ++ "' in this scope.")
      ("Remove the `var` keyword to assign a new value to this variable, or rename it if you " ++
        "intended to maintain a separate instance.")
  | .ownInitializer t =>
    .language (.ofToken t) ("Can't read local variable '" ++ t.lexeme ++ "' in its own initializer.")
      ("Make sure you are not masking a variable with the same name and try using a different " ++
        "name for this variable if you are.")
  | .superOutsideClass t =>
    .language (.ofToken t) "Can't use 'super' outside of a class."
      "Make sure you are inside a class method, and that you are using 'super' in the correct context."
  | .superWithoutSuperclass t =>
    .language (.ofToken t) "Can't use 'super' in a class with no superclass."
      "Declare a superclass using `class Name < Superclass` before using 'super'."
  | .thisOutsideClass t =>
    .language (.ofToken t) "Can't use 'this' outside of a class."
      "You can only access `this` within a class method."
  | .breakOutsideLoop t =>
    .language (.ofToken t) "Can't use 'break' outside of a loop."
      "You can only use the `break` keyword within the body of a `while` or `for` loop."
  | .inheritsItself t =>
    .language (.ofToken t) "A class can't inherit from itself."
      "Remove the superclass from this declaration or choose a different class to inherit from."
  | .returnAtTopLevel t =>
    .language (.ofToken t) "Can't return from top-level code."
      "You can only use the `return` keyword within a function."
  | .returnValueFromInitializer t =>
    .language (.ofToken t) "Can't return a value from an initializer."
      "Initializers always return the new instance, use a bare `return;` to exit early."

end StaticFault

/-- A local variable, function or class that is declared and never read. -/
structure UnusedLocal where
  name : Token
  deriving Repr

def UnusedLocal.toDiagnostic (w : UnusedLocal) : Diagnostic :=
  .language (.ofToken w.name) ("Local variable '" ++ w.name.lexeme ++ "' is never used.")
    "Remove the declaration, or prefix it with an underscore if it is intentionally unused."

end Lox
