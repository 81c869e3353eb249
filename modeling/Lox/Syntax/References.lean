import Lox.Syntax.Tree
/-!
# Uses of names

Every place where a program uses a name: a variable read, an assignment, `this`, `super`,
and the superclass named by a class. `Stmt.referencesOf` lists them with their resolution,
in source order.
-/

namespace Lox

/-- The kinds of uses of a name. -/
inductive ReferenceKind where
  | read | assignment | this | super
  deriving DecidableEq, Repr

mutual

def Expr.references : Expr → List (ReferenceKind × Reference)
  | .assign r v => Expr.references v ++ [(.assignment, r)]
  | .binary l _ _ r => Expr.references l ++ Expr.references r
  | .call callee _ args => Expr.references callee ++ Expr.referencesEach args
  | .get obj _ => Expr.references obj
  | .lambda _ _ body => Stmt.referencesEach body
  | .grouping e => Expr.references e
  | .literal _ => []
  | .logical l _ _ r => Expr.references l ++ Expr.references r
  | .set obj _ v => Expr.references obj ++ Expr.references v
  | .superMember k _ => [(.super, k)]
  | .conditional c _ a b => Expr.references c ++ Expr.references a ++ Expr.references b
  | .this k => [(.this, k)]
  | .unary _ _ e => Expr.references e
  | .variable r => [(.read, r)]

def Expr.referencesEach : List Expr → List (ReferenceKind × Reference)
  | [] => []
  | e :: es => Expr.references e ++ Expr.referencesEach es

def FunDecl.referencesEach : List FunDecl → List (ReferenceKind × Reference)
  | [] => []
  | .mk _ _ body :: ds => Stmt.referencesEach body ++ FunDecl.referencesEach ds

def Stmt.references : Stmt → List (ReferenceKind × Reference)
  | .block body => Stmt.referencesEach body
  | .breakLoop _ => []
  | .classDecl _ sup ms gs ss sgs =>
    (match sup with | some r => [(.read, r)] | none => []) ++ FunDecl.referencesEach ms ++
      FunDecl.referencesEach gs ++ FunDecl.referencesEach ss ++ FunDecl.referencesEach sgs
  | .expression e => Expr.references e
  | .function (.mk _ _ body) => Stmt.referencesEach body
  | .ifElse c t e =>
    Expr.references c ++ Stmt.references t ++ (match e with | some s => Stmt.references s | none => [])
  | .print e => Expr.references e
  | .returnFrom _ v => (match v with | some e => Expr.references e | none => [])
  | .varDecl _ init => (match init with | some e => Expr.references e | none => [])
  | .whileLoop c body => Expr.references c ++ Stmt.references body

def Stmt.referencesEach : List Stmt → List (ReferenceKind × Reference)
  | [] => []
  | s :: ss => Stmt.references s ++ Stmt.referencesEach ss

end

/-- The uses of names in a program, ordered by where their tokens stand. -/
def Stmt.referencesOf (program : List Stmt) : List (ReferenceKind × Reference) :=
  (Stmt.referencesEach program).mergeSort fun a b =>
    a.2.name.line < b.2.name.line ||
      (a.2.name.line = b.2.name.line && a.2.name.column ≤ b.2.name.column)

end Lox
