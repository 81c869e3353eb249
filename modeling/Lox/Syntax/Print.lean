import Lox.Syntax.Tree
/-!
# Printing syntax trees

Syntax trees are written as S-expressions: an operator or keyword first, then its operands,
in parentheses. Names, `this`, `super.name` and property reads `object.name` stand bare;
string literals are quoted and numbers are written in their literal text. A function is
`(fun name params… (block …))`, a lambda has the name `@anonymous`, and class members are
tagged `fun`, `get`, `class-fun` and `class-get` by kind.
-/

namespace Lox

/-- The text of a literal in a printed tree. -/
def Literal.render : Literal → String
  | .nil => "nil"
  | .bool b => if b then "true" else "false"
  | .number x => Number.literalText x
  | .string s => "\"" ++ s ++ "\""

/-- Each parameter's name after a space. -/
def renderParams (params : List Token) : String :=
  String.join (params.map fun p => " " ++ p.lexeme)

mutual

def Expr.render : Expr → String
  | .assign r v => "(= " ++ r.name.lexeme ++ " " ++ v.render ++ ")"
  | .binary l op _ r => "(" ++ op.symbol ++ " " ++ l.render ++ " " ++ r.render ++ ")"
  | .call callee _ args => "(call " ++ callee.render ++ Expr.renderEach args ++ ")"
  | .get obj name => obj.render ++ "." ++ name.lexeme
  | .lambda _ params body => "(fun @anonymous" ++ renderParams params ++ " " ++ Stmt.renderBlock body ++ ")"
  | .grouping e => "(group " ++ e.render ++ ")"
  | .literal l => l.render
  | .logical l op _ r => "(" ++ op.symbol ++ " " ++ l.render ++ " " ++ r.render ++ ")"
  | .set obj name v => "(set " ++ obj.render ++ "." ++ name.lexeme ++ " " ++ v.render ++ ")"
  | .superMember _ m => "super." ++ m.lexeme
  | .conditional c _ a b => "(? " ++ c.render ++ " " ++ a.render ++ " " ++ b.render ++ ")"
  | .this _ => "this"
  | .unary op _ e => "(" ++ op.symbol ++ " " ++ e.render ++ ")"
  | .variable r => r.name.lexeme

/-- Each expression after a space. -/
def Expr.renderEach : List Expr → String
  | [] => ""
  | e :: es => " " ++ e.render ++ Expr.renderEach es

/-- A named function, tagged with its kind. -/
def FunDecl.render (kind : String) : FunDecl → String
  | .mk name params body =>
    "(" ++ kind ++ " " ++ name.lexeme ++ renderParams params ++ " " ++ Stmt.renderBlock body ++ ")"

/-- Each function after a space, all tagged with one kind. -/
def FunDecl.renderEach (kind : String) : List FunDecl → String
  | [] => ""
  | d :: ds => " " ++ d.render kind ++ FunDecl.renderEach kind ds

def Stmt.render : Stmt → String
  | .block body => Stmt.renderBlock body
  | .breakLoop _ => "(break)"
  | .classDecl name sup methods getters statics staticGetters =>
    "(class " ++ name.lexeme ++ (match sup with | some r => " < " ++ r.name.lexeme | none => "") ++
      FunDecl.renderEach "fun" methods ++ FunDecl.renderEach "get" getters ++
      FunDecl.renderEach "class-fun" statics ++ FunDecl.renderEach "class-get" staticGetters ++ ")"
  | .expression e => "(" ++ e.render ++ ")"
  | .function d => d.render "fun"
  | .ifElse c t e =>
    "(if " ++ c.render ++ " " ++ t.render ++ (match e with | some s => " " ++ s.render | none => "") ++ ")"
  | .print e => "(print " ++ e.render ++ ")"
  | .returnFrom _ v => "(return" ++ (match v with | some e => " " ++ e.render | none => "") ++ ")"
  | .varDecl name init =>
    "(var " ++ name.lexeme ++ (match init with | some e => " " ++ e.render | none => "") ++ ")"
  | .whileLoop c body => "(while " ++ c.render ++ " " ++ body.render ++ ")"

/-- A block: its statements after the word `block`. -/
def Stmt.renderBlock (body : List Stmt) : String := "(block" ++ Stmt.renderEach body ++ ")"

/-- Each statement after a space. -/
def Stmt.renderEach : List Stmt → String
  | [] => ""
  | s :: ss => " " ++ s.render ++ Stmt.renderEach ss

end

end Lox
