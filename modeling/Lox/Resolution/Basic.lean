import Lox.Syntax.Tree
import Lox.Resolution.Fault
import Lox.Scopes
/-!
# Resolution

Resolution walks a program once before it runs. It keeps a stack of local scopes (blocks,
function parameters, and the scopes that hold `this` and `super` of a class), and for every
use of a name it finds the innermost scope that declares it and records how many scopes out
that is. A name found in no local scope is left to the globals.

On the way it rejects what the language forbids statically (`StaticFault`) and collects the
locals that are never read. A local whose initializer is being resolved is not yet visible,
except from inside a function body in that initializer, which only runs later.
-/

namespace Lox

namespace Resolution

/-- How far a declared name has come. -/
inductive Stage where
  | declared | defined | used
  deriving DecidableEq, Repr

/-- A name declared in a local scope, with its declaring token and whether it is reported
when never read. -/
structure Local where
  stage : Stage
  token : Token
  reportUnused : Bool

/-- A local scope: its names, and whether it holds the parameters of a function. -/
structure Frame where
  names : List (String × Local)
  isFunction : Bool

/-- The kind of class whose body is being resolved. -/
inductive ClassContext where
  | none | plain | subclass
  deriving DecidableEq, Repr

/-- The kind of function whose body is being resolved. -/
inductive FunctionContext where
  | none | function | method | initializer
  deriving DecidableEq, Repr

/-- What resolution carries along: the local scopes (innermost first), the globals known so
far, where it is in the program, and what it has reported. -/
structure State where
  frames : List Frame
  globals : List (String × Stage)
  classContext : ClassContext
  functionContext : FunctionContext
  loopDepth : Nat
  faults : Array StaticFault
  warnings : Array UnusedLocal

/-- The state at the top level, with the given globals already defined. -/
def State.initial (globals : List String) : State :=
  { frames := [], globals := globals.map (·, .defined), classContext := .none,
    functionContext := .none, loopDepth := 0, faults := #[], warnings := #[] }

abbrev ResolveM := StateM State

def report (f : StaticFault) : ResolveM Unit :=
  modify fun s => { s with faults := s.faults.push f }

def beginScope (isFunction : Bool) : ResolveM Unit :=
  modify fun s => { s with frames := ⟨[], isFunction⟩ :: s.frames }

/-- Whether token `a` comes before token `b` in the source, or at the same place. -/
def Token.precedes (a b : Token) : Bool :=
  a.line < b.line || (a.line = b.line && a.column ≤ b.column)

/-- Leave the innermost scope, warning about its unread names in source order. -/
def endScope : ResolveM Unit :=
  modify fun s =>
    match s.frames with
    | [] => s
    | f :: rest =>
      let unused := f.names.filterMap fun (_, l) =>
        if l.reportUnused && l.stage ≠ .used then some l.token else none
      let sorted := unused.mergeSort Token.precedes
      { s with frames := rest, warnings := s.warnings ++ (sorted.map UnusedLocal.mk).toArray }

/-- Declare a name in the innermost scope: a second declaration there is a fault. At the top
level the name becomes a global, unless it is one already. Names beginning with `_` are never
reported unread. -/
def declare (name : Token) (reportUnused : Bool) : ResolveM Unit := do
  let s ← get
  match s.frames with
  | [] =>
    if (s.globals.lookup name.lexeme).isNone then
      set { s with globals := s.globals ++ [(name.lexeme, Stage.declared)] }
  | f :: rest =>
    if (f.names.lookup name.lexeme).isSome then report (.alreadyDeclared name)
    else
      let l : Local := ⟨.declared, name, reportUnused && !name.lexeme.startsWith "_"⟩
      set { s with frames := { f with names := f.names ++ [(name.lexeme, l)] } :: rest }

/-- Mark a declared name of the innermost scope as having its value. -/
def define (name : Token) : ResolveM Unit :=
  modify fun s =>
    match s.frames with
    | [] => { s with globals := setEntry name.lexeme .defined s.globals }
    | f :: rest =>
      match f.names.lookup name.lexeme with
      | some l =>
        if l.stage = .declared then
          { s with frames := { f with names := setEntry name.lexeme { l with stage := .defined } f.names } :: rest }
        else s
      | none => s

/-- Bind `this` or `super` in the innermost scope; they never count as unread. -/
def insertKeyword (keyword : String) (token : Token) : ResolveM Unit :=
  modify fun s =>
    match s.frames with
    | [] => s
    | f :: rest =>
      { s with frames := { f with names := setEntry keyword ⟨.used, token, false⟩ f.names } :: rest }

/-- The outcome of looking a name up in the local scopes. -/
inductive Lookup where
  /-- Found `hops` scopes out; the scopes with the name marked if it was read. -/
  | found (hops : Nat) (frames : List Frame)
  /-- Not found; whether a scope where the name is still being initialized was passed, and
  whether a function scope was passed. -/
  | missing (initializing deferred : Bool)

/-- Look a name up from the innermost scope out. A scope where the name is declared but has
no value yet is passed over, unless a function scope lies between it and the use. -/
def lookupFrames (name : String) (read : Bool) (hops : Nat) (initializing deferred : Bool) :
    List Frame → Lookup
  | [] => .missing initializing deferred
  | f :: rest =>
    match f.names.lookup name with
    | some l =>
      if l.stage = .declared && !deferred then
        match lookupFrames name read (hops + 1) true (deferred || f.isFunction) rest with
        | .found h fs => .found h (f :: fs)
        | m => m
      else
        let f' := if read then { f with names := setEntry name { l with stage := .used } f.names } else f
        .found hops (f' :: rest)
    | none =>
      match lookupFrames name read (hops + 1) initializing (deferred || f.isFunction) rest with
      | .found h fs => .found h (f :: fs)
      | m => m

/-- Resolve a use of a name: record its distance, or leave it to the globals. Reading a local
in its own initializer is a fault, unless a global of that name has its value. -/
def resolveLocal (r : Reference) (read : Bool) : ResolveM Reference := do
  let s ← get
  let name := r.name.lexeme
  match lookupFrames name read 0 false false s.frames with
  | .found hops frames =>
    set { s with frames := frames }
    pure { r with hops := some hops }
  | .missing initializing deferred =>
    let g := s.globals.lookup name
    let initializing :=
      if !deferred && g = some .declared then true else if g.isSome then false else initializing
    if initializing then report (.ownInitializer r.name)
    pure { r with hops := none }

def setClassContext (c : ClassContext) : ResolveM Unit :=
  modify fun s => { s with classContext := c }

mutual

def resolveExpr : Expr → ResolveM Expr
  | .assign r v => do
    let v ← resolveExpr v
    let r ← resolveLocal r false
    pure (.assign r v)
  | .binary l op t r => do
    let l ← resolveExpr l
    let r ← resolveExpr r
    pure (.binary l op t r)
  | .call callee paren args => do
    let callee ← resolveExpr callee
    let args ← resolveExprs args
    pure (.call callee paren args)
  | .get obj name => do
    let obj ← resolveExpr obj
    pure (.get obj name)
  | .lambda keyword params body => do
    let body ← resolveFunction params body .function
    pure (.lambda keyword params body)
  | .grouping e => do
    let e ← resolveExpr e
    pure (.grouping e)
  | .literal l => pure (.literal l)
  | .logical l op t r => do
    let l ← resolveExpr l
    let r ← resolveExpr r
    pure (.logical l op t r)
  | .set obj name v => do
    let v ← resolveExpr v
    let obj ← resolveExpr obj
    pure (.set obj name v)
  | .superMember keyword member => do
    match (← get).classContext with
    | .none =>
      report (.superOutsideClass keyword.name)
      pure (.superMember keyword member)
    | .plain =>
      report (.superWithoutSuperclass keyword.name)
      pure (.superMember keyword member)
    | .subclass =>
      let keyword ← resolveLocal keyword true
      pure (.superMember keyword member)
  | .conditional c q a b => do
    let c ← resolveExpr c
    let a ← resolveExpr a
    let b ← resolveExpr b
    pure (.conditional c q a b)
  | .this keyword => do
    if (← get).classContext = .none then
      report (.thisOutsideClass keyword.name)
      pure (.this keyword)
    else
      let keyword ← resolveLocal keyword true
      pure (.this keyword)
  | .unary op t e => do
    let e ← resolveExpr e
    pure (.unary op t e)
  | .variable r => do
    let r ← resolveLocal r true
    pure (.variable r)

def resolveExprs : List Expr → ResolveM (List Expr)
  | [] => pure []
  | e :: es => do
    let e ← resolveExpr e
    let es ← resolveExprs es
    pure (e :: es)

def resolveOptExpr : Option Expr → ResolveM (Option Expr)
  | none => pure none
  | some e => do
    let e ← resolveExpr e
    pure (some e)

/-- Resolve a function body in a scope of its parameters; loops outside do not reach in. -/
def resolveFunction (params : List Token) (body : List Stmt) (kind : FunctionContext) :
    ResolveM (List Stmt) := do
  let s ← get
  let enclosingFunction := s.functionContext
  let enclosingLoops := s.loopDepth
  modify fun s => { s with functionContext := kind, loopDepth := 0 }
  beginScope true
  for p in params do
    declare p false
    define p
  let body ← resolveStmts body
  endScope
  modify fun s => { s with functionContext := enclosingFunction, loopDepth := enclosingLoops }
  pure body

/-- Resolve class members; among instance methods, `init` is the initializer. -/
def resolveMembers (instanceMethods : Bool) : List FunDecl → ResolveM (List FunDecl)
  | [] => pure []
  | .mk name params body :: rest => do
    let kind := if instanceMethods && name.lexeme = "init" then .initializer else .method
    let body ← resolveFunction params body kind
    let rest ← resolveMembers instanceMethods rest
    pure (.mk name params body :: rest)

def resolveStmt : Stmt → ResolveM Stmt
  | .block body => do
    beginScope false
    let body ← resolveStmts body
    endScope
    pure (.block body)
  | .breakLoop keyword => do
    if (← get).loopDepth = 0 then report (.breakOutsideLoop keyword)
    pure (.breakLoop keyword)
  | .classDecl name sup methods getters statics staticGetters => do
    let enclosing := (← get).classContext
    setClassContext .plain
    declare name true
    define name
    let sup ← match sup with
      | some r => do
        if r.name.lexeme = name.lexeme then report (.inheritsItself r.name)
        setClassContext .subclass
        let r ← resolveLocal r true
        beginScope false
        insertKeyword "super" name
        pure (some r)
      | none => pure none
    beginScope false
    insertKeyword "this" name
    let methods ← resolveMembers true methods
    let getters ← resolveMembers false getters
    let statics ← resolveMembers false statics
    let staticGetters ← resolveMembers false staticGetters
    endScope
    if sup.isSome then endScope
    setClassContext enclosing
    pure (.classDecl name sup methods getters statics staticGetters)
  | .expression e => do
    let e ← resolveExpr e
    pure (.expression e)
  | .function (.mk name params body) => do
    declare name true
    define name
    let body ← resolveFunction params body .function
    pure (.function (.mk name params body))
  | .ifElse c t e => do
    let c ← resolveExpr c
    let t ← resolveStmt t
    let e ← resolveOptStmt e
    pure (.ifElse c t e)
  | .print e => do
    let e ← resolveExpr e
    pure (.print e)
  | .returnFrom keyword value => do
    let context := (← get).functionContext
    if context = .none then report (.returnAtTopLevel keyword)
    match value with
    | some e =>
      if context = .initializer then report (.returnValueFromInitializer keyword)
      let e ← resolveExpr e
      pure (.returnFrom keyword (some e))
    | none => pure (.returnFrom keyword none)
  | .varDecl name init => do
    declare name true
    let init ← resolveOptExpr init
    define name
    pure (.varDecl name init)
  | .whileLoop c body => do
    let c ← resolveExpr c
    modify fun s => { s with loopDepth := s.loopDepth + 1 }
    let body ← resolveStmt body
    modify fun s => { s with loopDepth := s.loopDepth - 1 }
    pure (.whileLoop c body)

def resolveStmts : List Stmt → ResolveM (List Stmt)
  | [] => pure []
  | s :: ss => do
    let s ← resolveStmt s
    let ss ← resolveStmts ss
    pure (s :: ss)

def resolveOptStmt : Option Stmt → ResolveM (Option Stmt)
  | none => pure none
  | some s => do
    let s ← resolveStmt s
    pure (some s)

end

end Resolution

/-- A tree with every use of a name resolved, and what resolution reported. -/
structure Resolved (α : Type) where
  tree : α
  faults : List StaticFault
  warnings : List UnusedLocal

/-- Whether resolution accepted the program. -/
def Resolved.isOk {α : Type} (r : Resolved α) : Bool := r.faults.isEmpty

/-- Resolve a program against globals that already have values. -/
def resolveProgram (globals : List String) (program : List Stmt) : Resolved (List Stmt) :=
  let (tree, s) := (Resolution.resolveStmts program).run (Resolution.State.initial globals)
  ⟨tree, s.faults.toList, s.warnings.toList⟩

/-- Resolve one expression against globals that already have values. -/
def resolveExpression (globals : List String) (e : Expr) : Resolved Expr :=
  let (tree, s) := (Resolution.resolveExpr e).run (Resolution.State.initial globals)
  ⟨tree, s.faults.toList, s.warnings.toList⟩

end Lox
