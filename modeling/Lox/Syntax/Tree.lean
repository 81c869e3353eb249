import Lox.Syntax.Token
/-!
# Syntax trees

Expressions and statements of Lox, as the parser builds them. Every place where a program
uses a name, `this` or `super` is a `Reference`: the token of the name and, once resolution
has run, the number of scopes between the use and the scope that declares the name (`none`
for a name left to the globals).

A `for` loop has no node of its own: the parser writes it as a `while` loop in blocks.
-/

namespace Lox

/-- The arithmetic, bitwise and comparison operators between two operands. -/
inductive BinaryOp where
  | add | subtract | multiply | divide | remainder
  | bitAnd | bitOr | bitXor | shiftLeft | shiftRight
  | equal | notEqual | less | lessEqual | greater | greaterEqual
  deriving DecidableEq, Repr

/-- The operators that may skip their right operand. -/
inductive LogicalOp where
  | and | or
  deriving DecidableEq, Repr

/-- The prefix operators. -/
inductive UnaryOp where
  | negate | not
  deriving DecidableEq, Repr

namespace BinaryOp

/-- The operator as written in source. -/
def symbol : BinaryOp → String
  | .add => "+" | .subtract => "-" | .multiply => "*" | .divide => "/" | .remainder => "%"
  | .bitAnd => "&" | .bitOr => "|" | .bitXor => "^" | .shiftLeft => "<<" | .shiftRight => ">>"
  | .equal => "==" | .notEqual => "!=" | .less => "<" | .lessEqual => "<="
  | .greater => ">" | .greaterEqual => ">="

end BinaryOp

def LogicalOp.symbol : LogicalOp → String
  | .and => "and" | .or => "or"

def UnaryOp.symbol : UnaryOp → String
  | .negate => "-" | .not => "!"

/-- A use of a name (or of `this`, `super`) and, once resolved, how many scopes out its
declaration lies. -/
structure Reference where
  name : Token
  hops : Option Nat := none
  deriving Repr, Inhabited

mutual

/-- Expressions. -/
inductive Expr where
  | assign (target : Reference) (value : Expr)
  | binary (left : Expr) (op : BinaryOp) (token : Token) (right : Expr)
  | call (callee : Expr) (paren : Token) (args : List Expr)
  | get (object : Expr) (name : Token)
  | lambda (keyword : Token) (params : List Token) (body : List Stmt)
  | grouping (inner : Expr)
  | literal (value : Literal)
  | logical (left : Expr) (op : LogicalOp) (token : Token) (right : Expr)
  | set (object : Expr) (name : Token) (value : Expr)
  | superMember (keyword : Reference) (member : Token)
  | conditional (cond : Expr) (question : Token) (thenBranch elseBranch : Expr)
  | this (keyword : Reference)
  | unary (op : UnaryOp) (token : Token) (operand : Expr)
  | variable (ref : Reference)

/-- A named function: a declared function or a member of a class. -/
inductive FunDecl where
  | mk (name : Token) (params : List Token) (body : List Stmt)

/-- Statements and declarations. -/
inductive Stmt where
  | block (body : List Stmt)
  | breakLoop (keyword : Token)
  /-- A class with its superclass, instance methods, getters, class methods and class getters,
  each list in source order. -/
  | classDecl (name : Token) (superclass : Option Reference)
      (methods getters statics staticGetters : List FunDecl)
  | expression (e : Expr)
  | function (decl : FunDecl)
  | ifElse (cond : Expr) (thenBranch : Stmt) (elseBranch : Option Stmt)
  | print (e : Expr)
  | returnFrom (keyword : Token) (value : Option Expr)
  | varDecl (name : Token) (init : Option Expr)
  | whileLoop (cond : Expr) (body : Stmt)

end

instance : Inhabited Expr := ⟨.literal .nil⟩
instance : Inhabited Stmt := ⟨.block []⟩

namespace FunDecl

def name : FunDecl → Token
  | .mk n _ _ => n

def params : FunDecl → List Token
  | .mk _ ps _ => ps

def body : FunDecl → List Stmt
  | .mk _ _ b => b

end FunDecl

end Lox
