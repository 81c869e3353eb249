import Lox.Machine.Basic
import Lox.Operators
/-!
# Evaluation

Expressions evaluate to values and statements run to a `Flow`, both in `Eval`, with a fuel
argument that every step spends one of. Operands are evaluated left to right.

Evaluation is written once for any `Allocator`; the interpreter's is `Allocator.reuse`. A
block runs in a new scope, released when it ends however it ends. A call checks the number
of arguments and that fewer than 1000 calls are active, then runs the function's body in a
scope of its parameters; a bound function first gets a scope that holds `this`. Both scopes
are released afterwards, and they survive only if a function or class made inside pinned
them. Calling a class makes an instance and runs its `init`, if it has one, on it: the call
counts once toward the limit. An initializer returns its receiver.

Reading a property of an instance finds a field first, then a getter, which runs at once,
then a method, bound to the instance; a class's own properties are its class getters and
class methods, bound to the class. `super.name` looks the member up from the superclass that
the enclosing class was declared with.
-/

namespace Lox

namespace Eval

/-- What a call invokes: a function, or a class. -/
inductive Callee where
  | function (f : Callable)
  | classOf (c : ClassDef)

def Callee.arity : Callee → Nat
  | .function f => f.arity
  | .classOf c => c.arity

/-- The member table of one kind of declarations, as functions closed over `scope`; when
`initializers` holds, the one named `init` is the class's initializer. A later declaration of
a name replaces an earlier one. -/
def memberTable (scope : Nat) (initializers : Bool) (decls : List FunDecl) : List (String × Callable) :=
  decls.foldl (fun table d =>
    let isInit := initializers && d.name.lexeme = "init"
    setEntry d.name.lexeme (.closure (some d.name.lexeme) d.params d.body scope none isInit) table) []

/-- The token of `this` as read by `super`, at the place of the `super` keyword. -/
def thisAt (keyword : Token) : Token := ⟨.this, "this", none, keyword.line, keyword.column⟩

section

variable [A : Allocator]

mutual

def evalExpr : Nat → Expr → Eval Value
  | 0, _ => throw .outOfFuel
  | n + 1, .assign r v => do
    let value ← evalExpr n v
    assignTo r value
    pure value
  | n + 1, .binary l op t r => do
    let a ← evalExpr n l
    let b ← evalExpr n r
    ofExcept (op.apply t a b)
  | n + 1, .call callee paren args => do
    let f ← evalExpr n callee
    let vs ← evalArgs n args
    match f with
    | .function _ c => invoke n (.function c) paren vs
    | .classRef _ c => invoke n (.classOf c) paren vs
    | other => fail (.notCallable paren other.kind)
  | n + 1, .get obj name => do
    match ← evalExpr n obj with
    | .instanceRef i c => instanceProperty n i c name
    | .classRef s c => staticProperty n s c name
    | other => fail (.noProperties name other.kind)
  | _ + 1, .lambda _ params body => do
    let scope ← currentScope
    pin scope
    let s ← stamp
    pure (.function s (.closure none params body scope none false))
  | n + 1, .grouping e => evalExpr n e
  | _ + 1, .literal l => pure l.toValue
  | n + 1, .logical l op _ r => do
    let a ← evalExpr n l
    match op with
    | .and => if a.truthy then evalExpr n r else pure a
    | .or => if a.truthy then pure a else evalExpr n r
  | n + 1, .set obj name v => do
    match ← evalExpr n obj with
    | .instanceRef i _ =>
      let value ← evalExpr n v
      setField i name.lexeme value
      pure value
    | other => fail (.noFields name other.kind)
  | n + 1, .superMember keyword member => superMember n keyword member
  | n + 1, .conditional c q a b => do
    match ← evalExpr n c with
    | .bool true => evalExpr n a
    | .bool false => evalExpr n b
    | other => fail (.conditionNotBoolean q other.kind)
  | _ + 1, .this r => lookup r
  | n + 1, .unary op t e => do
    let v ← evalExpr n e
    match op, v with
    | .negate, .number x => pure (.number (-x))
    | .negate, other => fail (.negateNonNumber t other.kind)
    | .not, v => pure (.bool !v.truthy)
  | _ + 1, .variable r => lookup r

def evalArgs : Nat → List Expr → Eval (List Value)
  | 0, _ => throw .outOfFuel
  | _ + 1, [] => pure []
  | n + 1, e :: es => do
    let v ← evalExpr n e
    let vs ← evalArgs n es
    pure (v :: vs)

/-- A call, after checking the number of arguments and the depth of calls. -/
def invoke : Nat → Callee → Token → List Value → Eval Value
  | 0, _, _, _ => throw .outOfFuel
  | n + 1, callee, paren, args => do
    if args.length ≠ callee.arity then fail (.wrongArity paren callee.arity args.length)
    if (← get).depth ≥ RuntimeFault.maxDepth then fail (.stackOverflow paren)
    modify fun m => { m with depth := m.depth + 1 }
    let r ← attempt (match callee with
      | .function f => callFunction n f args
      | .classOf c => construct n c args)
    modify fun m => { m with depth := m.depth - 1 }
    resume r

/-- Run a function on arguments; an initializer gives back its receiver. -/
def callFunction : Nat → Callable → List Value → Eval Value
  | 0, _, _ => throw .outOfFuel
  | _ + 1, .native _ _, _ => do return .number (← get).clock
  | n + 1, .closure _ params body scope receiver isInit, args =>
    if isInit then
      match receiver with
      | some this => do
        let _ ← runBody n params body scope receiver args
        pure this
      | none => fail .unboundInitializer
    else runBody n params body scope receiver args

/-- Run a function body in a scope of its parameters, under a scope of `this` if the
function is bound; what it returns, or `nil`. -/
def runBody : Nat → List Token → List Stmt → Nat → Option Value → List Value → Eval Value
  | 0, _, _, _, _, _ => throw .outOfFuel
  | n + 1, params, body, scope, receiver, args => do
    let receiverScope ← match receiver with
      | some this => do
        let s ← childOf scope
        define s "this" (some this)
        pure (some s)
      | none => pure none
    let paramScope ← childOf (receiverScope.getD scope)
    for (p, v) in params.zip args do
      define paramScope p.lexeme (some v)
    let r ← attempt (execBlock n body paramScope)
    release paramScope
    match receiverScope with
    | some s => release s
    | none => pure ()
    match ← resume r with
    | .returned v => pure v
    | _ => pure .nil

/-- Make an instance of a class and run its initializer on it. -/
def construct : Nat → ClassDef → List Value → Eval Value
  | 0, _, _ => throw .outOfFuel
  | n + 1, c, args => do
    let inst ← newInstance c
    match c.find .method "init" with
    | some init =>
      let _ ← callFunction n (init.bind inst) args
      pure inst
    | none => pure inst

/-- A property of an instance: a field, a getter's result, or a bound method. -/
def instanceProperty : Nat → Nat → ClassDef → Token → Eval Value
  | 0, _, _, _ => throw .outOfFuel
  | n + 1, i, c, name => do
    match ← field? i name.lexeme with
    | some v => pure v
    | none =>
      let this := Value.instanceRef i c
      match c.find .getter name.lexeme with
      | some g => invoke n (.function (g.bind this)) name []
      | none =>
        match c.find .method name.lexeme with
        | some f => do return .function (← stamp) (f.bind this)
        | none => fail (.undefinedProperty name)

/-- A property of a class: a class getter's result or a bound class method. -/
def staticProperty : Nat → Nat → ClassDef → Token → Eval Value
  | 0, _, _, _ => throw .outOfFuel
  | n + 1, s, c, name => do
    let this := Value.classRef s c
    match c.find .staticGetter name.lexeme with
    | some g => invoke n (.function (g.bind this)) name []
    | none =>
      match c.find .static name.lexeme with
      | some f => do return .function (← stamp) (f.bind this)
      | none => fail (.undefinedProperty name)

/-- `super.member`: the superclass is `hops` scopes out and the receiver one scope nearer. -/
def superMember : Nat → Reference → Token → Eval Value
  | 0, _, _ => throw .outOfFuel
  | n + 1, keyword, member => do
    match keyword.hops with
    | none => fail .unresolvedSuper
    | some hops =>
      let m ← get
      match ← ofExcept (m.scopes.getAt m.current hops keyword.name) with
      | .classRef _ superclass =>
        match hops with
        | 0 => fail .unresolvedSuper
        | h + 1 =>
          let m ← get
          let receiver ← ofExcept (m.scopes.getAt m.current h (thisAt keyword.name))
          let (getterKind, memberKind) := match receiver with
            | .classRef .. => (MemberKind.staticGetter, MemberKind.static)
            | _ => (MemberKind.getter, MemberKind.method)
          match superclass.find getterKind member.lexeme with
          | some g => invoke n (.function (g.bind receiver)) member []
          | none =>
            match superclass.find memberKind member.lexeme with
            | some f => do return .function (← stamp) (f.bind receiver)
            | none => fail (.undefinedProperty member)
      | _ => fail .unresolvedSuper

def execStmt : Nat → Stmt → Eval Flow
  | 0, _ => throw .outOfFuel
  | n + 1, .block body => do
    let scope ← childOf (← currentScope)
    let r ← attempt (execBlock n body scope)
    release scope
    resume r
  | _ + 1, .breakLoop _ => pure .breakLoop
  | _ + 1, .classDecl name sup methods getters statics staticGetters => do
    let superclass ← match sup with
      | some r => do
        match ← lookup r with
        | .classRef s c => pure (some (s, c))
        | _ => fail (.superclassNotClass r.name)
      | none => pure none
    let here ← currentScope
    define here name.lexeme (some .nil)
    let scope ← match superclass with
      | some (s, c) => do
        let sc ← childOf here
        define sc "super" (some (.classRef s c))
        pure sc
      | none => pure here
    pin scope
    let cls := ClassDef.mk name.lexeme (superclass.map (·.2))
      (memberTable scope true methods) (memberTable scope false getters)
      (memberTable scope false statics) (memberTable scope false staticGetters)
    let s ← stamp
    define here name.lexeme (some (.classRef s cls))
    pure .normal
  | n + 1, .expression e => do
    let _ ← evalExpr n e
    pure .normal
  | _ + 1, .function (.mk name params body) => do
    let here ← currentScope
    pin here
    let s ← stamp
    define here name.lexeme (some (.function s (.closure (some name.lexeme) params body here none false)))
    pure .normal
  | n + 1, .ifElse c t e => do
    if (← evalExpr n c).truthy then execStmt n t
    else
      match e with
      | some s => execStmt n s
      | none => pure .normal
  | n + 1, .print e => do
    let v ← evalExpr n e
    emit (v.display ++ "\n")
    pure .normal
  | n + 1, .returnFrom _ v => do
    match v with
    | some e => return .returned (← evalExpr n e)
    | none => pure (.returned .nil)
  | n + 1, .varDecl name init => do
    let v ← match init with
      | some e => some <$> evalExpr n e
      | none => pure none
    define (← currentScope) name.lexeme v
    pure .normal
  | n + 1, .whileLoop c body => execWhile n c body

/-- Run the body while the condition holds; `break` ends the loop, `return` leaves it. -/
def execWhile : Nat → Expr → Stmt → Eval Flow
  | 0, _, _ => throw .outOfFuel
  | n + 1, c, body => do
    if (← evalExpr n c).truthy then
      match ← execStmt n body with
      | .normal => execWhile n c body
      | .breakLoop => pure .normal
      | .returned v => pure (.returned v)
    else pure .normal

/-- Run statements in a scope, and return to the current scope however they end. -/
def execBlock : Nat → List Stmt → Nat → Eval Flow
  | 0, _, _ => throw .outOfFuel
  | n + 1, body, scope => do
    let previous ← currentScope
    setCurrent scope
    let r ← attempt (execStmts n body)
    setCurrent previous
    resume r

/-- Run statements in order until one ends otherwise than normally. -/
def execStmts : Nat → List Stmt → Eval Flow
  | 0, _ => throw .outOfFuel
  | _ + 1, [] => pure .normal
  | n + 1, s :: ss => do
    match ← execStmt n s with
    | .normal => execStmts n ss
    | other => pure other

end

end

end Eval

end Lox
