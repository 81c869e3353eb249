import Lox.Syntax.Tree
import Lox.Syntax.Cursor
/-!
# Parsing

A recursive descent parser from tokens to syntax trees, one function per rule of the grammar.
Expressions go from the loosest rule to the tightest: assignment, the conditional `?:`, ten
levels of left-associative infix operators (`or`, `and`, `|`, `^`, `&`, equality, comparison,
shifts, sums, products), prefix operators, calls and property reads, and primaries.

Every function is measured by the tokens left and its level in the grammar: a call either
reads on from a cursor with fewer tokens, or descends to a lower level at the same cursor.

A program is read declaration by declaration. After a fault the parser skips tokens up to the
end of the statement (a `;`, or a keyword that begins a statement) and goes on, so a program
yields its good statements and all its faults.
-/

namespace Lox.Parse

/-- An infix operator: one that may skip its right operand, or one that never does. -/
inductive Infix where
  | logical (op : LogicalOp)
  | binary (op : BinaryOp)

/-- The operators of a level of precedence, from products (1) to `or` (10). -/
def infixAt : Nat → TokenKind → Option Infix
  | 10, .or => some (.logical .or)
  | 9, .and => some (.logical .and)
  | 8, .pipe => some (.binary .bitOr)
  | 7, .caret => some (.binary .bitXor)
  | 6, .ampersand => some (.binary .bitAnd)
  | 5, .bangEqual => some (.binary .notEqual)
  | 5, .equalEqual => some (.binary .equal)
  | 4, .greater => some (.binary .greater)
  | 4, .greaterEqual => some (.binary .greaterEqual)
  | 4, .less => some (.binary .less)
  | 4, .lessEqual => some (.binary .lessEqual)
  | 3, .lessLess => some (.binary .shiftLeft)
  | 3, .greaterGreater => some (.binary .shiftRight)
  | 2, .minus => some (.binary .subtract)
  | 2, .plus => some (.binary .add)
  | 1, .star => some (.binary .multiply)
  | 1, .slash => some (.binary .divide)
  | 1, .percent => some (.binary .remainder)
  | _, _ => none

/-- The expression of an infix operator between two operands. -/
def Infix.build : Infix → Expr → Token → Expr → Expr
  | .logical op, l, t, r => .logical l op t r
  | .binary op, l, t, r => .binary l op t r

/-- The prefix operators. -/
def prefixOp : TokenKind → Option UnaryOp
  | .bang => some .not
  | .minus => some .negate
  | _ => none

/-- The members of a class body, by kind, each in source order. -/
structure Members where
  methods : List FunDecl := []
  getters : List FunDecl := []
  statics : List FunDecl := []
  staticGetters : List FunDecl := []

/-- Read the parameter names after the first `(`, separated by commas, at most 255. -/
def parameterList (acc : Array Token) (c : Cursor) : Reads c (List Token) :=
  (c.expect .identifier .parameterName).andThen (Nat.le_refl _) fun p ⟨c1, h1⟩ =>
  if 255 ≤ acc.size then .error (.tooManyParameters p, ⟨c1, Nat.le_of_lt h1⟩)
  else
    match c1.nextIf .comma with
    | none => .ok ((acc.push p).toList, ⟨c1, h1⟩)
    | some (_, ⟨c2, h2⟩) => (parameterList (acc.push p) c2).lift (Nat.le_of_lt (Nat.lt_trans h2 h1))
termination_by c.size
decreasing_by exact Nat.lt_trans h2 h1

/-- Read a parameter list in parentheses. -/
def parameters (kind : FunctionKind) (c : Cursor) : Reads c (List Token) :=
  (c.expect .leftParen (.parametersOpen kind)).andThen (Nat.le_refl _) fun _ ⟨c1, h1⟩ =>
  if c1.check .rightParen then
    (c1.expect .rightParen .parametersClose).andThen (Nat.le_of_lt h1) fun _ e => .ok ([], e)
  else
    (parameterList #[] c1).andThen (Nat.le_of_lt h1) fun ps ⟨c2, h2⟩ =>
    (c2.expect .rightParen .parametersClose).andThen (Nat.le_of_lt h2) fun _ e => .ok (ps, e)

/-- Read `< Name` after a class name, if it is there. -/
def superclassClause (c : Cursor) : Scans c (Option Reference) :=
  match c.nextIf .less with
  | some (_, ⟨c1, h1⟩) =>
    (c1.expect .identifier .superclassName).andThen (Nat.le_of_lt h1) fun t ⟨d, hd⟩ =>
      .ok (some { name := t }, ⟨d, Nat.le_of_lt hd⟩)
  | none => .ok (none, ⟨c, Nat.le_refl _⟩)

mutual

/-- primary → literal | name | `this` | `super` `.` name | `(` expression `)` | lambda -/
def primary (c : Cursor) : Reads c Expr :=
  match c.next with
  | none => .error (.expressionAtEnd c.line, ⟨c, Nat.le_refl _⟩)
  | some (t, ⟨c1, h1⟩) =>
    match t.kind with
    | .false => .ok (.literal (.bool false), ⟨c1, h1⟩)
    | .true => .ok (.literal (.bool true), ⟨c1, h1⟩)
    | .nil => .ok (.literal .nil, ⟨c1, h1⟩)
    | .number | .string => .ok (.literal (t.literal.getD .nil), ⟨c1, h1⟩)
    | .leftParen =>
      (expression c1).andThen (Nat.le_of_lt h1) fun e ⟨c2, h2⟩ =>
      (c2.expect .rightParen .groupClose).andThen (Nat.le_of_lt h2) fun _ d => .ok (.grouping e, d)
    | .identifier => .ok (.variable { name := t }, ⟨c1, h1⟩)
    | .this => .ok (.this { name := t }, ⟨c1, h1⟩)
    | .super =>
      (c1.expect .dot .superDot).andThen (Nat.le_of_lt h1) fun _ ⟨c2, h2⟩ =>
      (c2.expect .identifier .superMemberName).andThen (Nat.le_of_lt h2) fun m d =>
        .ok (.superMember { name := t } m, d)
    | .fun => (lambda t c1).lift (Nat.le_of_lt h1)
    | _ => .error (.notAnExpression t, ⟨c1, Nat.le_of_lt h1⟩)
termination_by c.size * 32 + 1

/-- Calls and property reads after an expression: `(` arguments `)` and `.` name, repeated. -/
def callSuffix (e : Expr) (c : Cursor) : Scans c Expr :=
  match c.next with
  | some (t, ⟨c1, h1⟩) =>
    if t.kind = .leftParen then
      (finishCall e c1).andThen (Nat.le_of_lt h1) fun e' ⟨c2, h2⟩ =>
      (callSuffix e' c2).andThen (Nat.le_of_lt h2) fun r d => .ok (r, d)
    else if t.kind = .dot then
      (c1.expect .identifier .propertyName).andThen (Nat.le_of_lt h1) fun name ⟨c2, h2⟩ =>
      (callSuffix (.get e name) c2).andThen (Nat.le_of_lt h2) fun r d => .ok (r, d)
    else .ok (e, ⟨c, Nat.le_refl _⟩)
  | none => .ok (e, ⟨c, Nat.le_refl _⟩)
termination_by c.size * 32 + 2

/-- call → primary, then calls and property reads -/
def call (c : Cursor) : Reads c Expr :=
  (primary c).andThen (Nat.le_refl _) fun e ⟨c1, h1⟩ =>
  (callSuffix e c1).andThenPast h1 fun r d => .ok (r, d)
termination_by c.size * 32 + 3

/-- unary → (`!` | `-`) unary | call -/
def unary (c : Cursor) : Reads c Expr :=
  match c.next with
  | some (t, ⟨c1, h1⟩) =>
    match prefixOp t.kind with
    | some op => (unary c1).andThen (Nat.le_of_lt h1) fun e d => .ok (.unary op t e, d)
    | none => call c
  | none => call c
termination_by c.size * 32 + 4

/-- The infix expressions of level `n` and tighter; level 0 is a prefix expression. -/
def binaryAt : Nat → (c : Cursor) → Reads c Expr
  | 0, c => unary c
  | n + 1, c =>
    (binaryAt n c).andThen (Nat.le_refl _) fun left ⟨c1, h1⟩ =>
    (chainAt n left c1).andThenPast h1 fun e d => .ok (e, d)
termination_by n c => c.size * 32 + 5 + n

/-- After an operand, the operators of level `n + 1` with their right operands, grouped to
the left. -/
def chainAt (n : Nat) (left : Expr) (c : Cursor) : Scans c Expr :=
  match c.next with
  | some (t, ⟨c1, h1⟩) =>
    match infixAt (n + 1) t.kind with
    | some op =>
      (binaryAt n c1).andThen (Nat.le_of_lt h1) fun right ⟨c2, h2⟩ =>
      (chainAt n (op.build left t right) c2).andThen (Nat.le_of_lt h2) fun e d => .ok (e, d)
    | none => .ok (left, ⟨c, Nat.le_refl _⟩)
  | none => .ok (left, ⟨c, Nat.le_refl _⟩)
termination_by c.size * 32 + 5 + n

/-- ternary → or (`?` expression `:` ternary)? -/
def ternary (c : Cursor) : Reads c Expr :=
  (binaryAt 10 c).andThen (Nat.le_refl _) fun cond ⟨c1, h1⟩ =>
  match c1.nextIf .question with
  | none => .ok (cond, ⟨c1, h1⟩)
  | some (q, ⟨c2, h2⟩) =>
    (expression c2).andThen (by omega) fun thenB ⟨c3, h3⟩ =>
    (c3.expect .colon .conditionalColon).andThen (Nat.le_of_lt h3) fun _ ⟨c4, h4⟩ =>
    (ternary c4).andThen (Nat.le_of_lt h4) fun elseB e => .ok (.conditional cond q thenB elseB, e)
termination_by c.size * 32 + 16

/-- assignment → target `=` assignment | ternary, where the target is a name or a property. -/
def assignment (c : Cursor) : Reads c Expr :=
  (ternary c).andThen (Nat.le_refl _) fun target ⟨c1, h1⟩ =>
  match c1.nextIf .equal with
  | none => .ok (target, ⟨c1, h1⟩)
  | some (eq, ⟨c2, h2⟩) =>
    (assignment c2).andThen (by omega) fun value ⟨c3, h3⟩ =>
    match target with
    | .variable r => .ok (.assign r value, ⟨c3, h3⟩)
    | .get obj name => .ok (.set obj name value, ⟨c3, h3⟩)
    | _ => .error (.invalidAssignmentTarget eq, ⟨c3, Nat.le_of_lt h3⟩)
termination_by c.size * 32 + 17

def expression (c : Cursor) : Reads c Expr := assignment c
termination_by c.size * 32 + 18

/-- Call arguments, separated by commas, at most 255. -/
def arguments (acc : Array Expr) (c : Cursor) : Reads c (List Expr) :=
  (expression c).andThen (Nat.le_refl _) fun arg ⟨c1, h1⟩ =>
  if 255 ≤ acc.size then .error (.tooManyArguments c1.line, ⟨c1, Nat.le_of_lt h1⟩)
  else
    match c1.nextIf .comma with
    | some (_, ⟨c2, h2⟩) => (arguments (acc.push arg) c2).lift (by omega)
    | none => .ok ((acc.push arg).toList, ⟨c1, h1⟩)
termination_by c.size * 32 + 19

/-- The arguments and the closing `)` of a call whose `(` was read. -/
def finishCall (callee : Expr) (c : Cursor) : Reads c Expr :=
  if c.check .rightParen then
    (c.expect .rightParen .argumentsClose).andThen (Nat.le_refl _) fun paren e =>
      .ok (.call callee paren [], e)
  else
    (arguments #[] c).andThen (Nat.le_refl _) fun args ⟨c1, h1⟩ =>
    (c1.expect .rightParen .argumentsClose).andThen (Nat.le_of_lt h1) fun paren e =>
      .ok (.call callee paren args, e)
termination_by c.size * 32 + 20

/-- An anonymous function after its `fun` keyword: parameters and a body. -/
def lambda (keyword : Token) (c : Cursor) : Reads c Expr :=
  (parameters .lambda c).andThen (Nat.le_refl _) fun params ⟨c1, h1⟩ =>
  (c1.expect .leftBrace (.bodyOpen .lambda)).andThen (Nat.le_of_lt h1) fun _ ⟨c2, h2⟩ =>
  (block c2).andThen (Nat.le_of_lt h2) fun body e => .ok (.lambda keyword params body, e)
termination_by c.size * 32 + 1

/-- A named function after its name: parameters and a body. -/
def functionRest (name : Token) (kind : FunctionKind) (c : Cursor) : Reads c FunDecl :=
  (parameters kind c).andThen (Nat.le_refl _) fun params ⟨c1, h1⟩ =>
  (c1.expect .leftBrace (.bodyOpen kind)).andThen (Nat.le_of_lt h1) fun _ ⟨c2, h2⟩ =>
  (block c2).andThen (Nat.le_of_lt h2) fun body e => .ok (.mk name params body, e)
termination_by c.size * 32 + 1

/-- A declared function after `fun`. -/
def function (c : Cursor) : Reads c FunDecl :=
  (c.expect .identifier (.functionName .function)).andThen (Nat.le_refl _) fun name ⟨c1, h1⟩ =>
  (functionRest name .function c1).lift (Nat.le_of_lt h1)
termination_by c.size * 32 + 1

/-- The members of a class body and its closing brace. -/
def classBody (acc : Members) (c : Cursor) : Reads c Members :=
  if c.check .rightBrace || c.atEnd then
    (c.expect .rightBrace .classBodyClose).andThen (Nat.le_refl _) fun _ e => .ok (acc, e)
  else
    let (isStatic, ⟨c1, h1⟩) : Bool × Upto c :=
      match c.nextIf .class with
      | some (_, ⟨d, hd⟩) => (true, ⟨d, Nat.le_of_lt hd⟩)
      | none => (false, ⟨c, Nat.le_refl _⟩)
    (c1.expect .identifier .memberName).andThen h1 fun name ⟨c2, h2⟩ =>
    if c2.check .leftParen then
      (functionRest name (if isStatic then .staticMethod else .method) c2).andThen
        (Nat.le_of_lt h2) fun decl ⟨c3, h3⟩ =>
      let acc := if isStatic then { acc with statics := acc.statics ++ [decl] }
        else { acc with methods := acc.methods ++ [decl] }
      (classBody acc c3).lift (Nat.le_of_lt h3)
    else
      match c2.nextIf .leftBrace with
      | some (_, ⟨c3, h3⟩) =>
        (block c3).andThen (by omega) fun body ⟨c4, h4⟩ =>
        let getter := FunDecl.mk name [] body
        let acc := if isStatic then { acc with staticGetters := acc.staticGetters ++ [getter] }
          else { acc with getters := acc.getters ++ [getter] }
        (classBody acc c4).lift (Nat.le_of_lt h4)
      | none =>
        match c2.next with
        | some (t, ⟨c3, h3⟩) => .error (.memberBody name t, ⟨c3, by omega⟩)
        | none => .error (.memberBodyAtEnd c2.line, ⟨c2, Nat.le_of_lt h2⟩)
termination_by c.size * 32 + 1

/-- A class after `class`: its name, superclass and body. -/
def classDeclaration (c : Cursor) : Reads c Stmt :=
  (c.expect .identifier .className).andThen (Nat.le_refl _) fun name ⟨c1, h1⟩ =>
  (superclassClause c1).andThenPast h1 fun sup ⟨c2, h2⟩ =>
  (c2.expect .leftBrace .classBodyOpen).andThen (Nat.le_of_lt h2) fun _ ⟨c3, h3⟩ =>
  (classBody {} c3).andThen (Nat.le_of_lt h3) fun m e =>
    .ok (.classDecl name sup m.methods m.getters m.statics m.staticGetters, e)
termination_by c.size * 32 + 1

/-- A variable after `var`: its name, an optional initial value and `;`. -/
def varDeclaration (c : Cursor) : Reads c Stmt :=
  (c.expect .identifier .variableName).andThen (Nat.le_refl _) fun name ⟨c1, h1⟩ =>
  match c1.nextIf .equal with
  | some (_, ⟨c2, h2⟩) =>
    (expression c2).andThen (by omega) fun init ⟨c3, h3⟩ =>
    (c3.expect .semicolon .semicolonAfterVariable).andThen (Nat.le_of_lt h3) fun _ e =>
      .ok (.varDecl name (some init), e)
  | none =>
    (c1.expect .semicolon .semicolonAfterVariable).andThen (Nat.le_of_lt h1) fun _ e =>
      .ok (.varDecl name none, e)
termination_by c.size * 32 + 1

/-- An expression and its `;`. -/
def expressionStatement (c : Cursor) : Reads c Stmt :=
  (expression c).andThen (Nat.le_refl _) fun e ⟨c1, h1⟩ =>
  (c1.expect .semicolon .semicolonAfterExpression).andThen (Nat.le_of_lt h1) fun _ d =>
    .ok (.expression e, d)
termination_by c.size * 32 + 19

/-- The first clause of a `for` loop: nothing, a variable, or an expression, and its `;`. -/
def forInitializer (c : Cursor) : Reads c (Option Stmt) :=
  match c.nextIf .semicolon with
  | some (_, d) => .ok (none, d)
  | none =>
    match c.nextIf .var with
    | some (_, ⟨c1, h1⟩) => (varDeclaration c1).andThen (Nat.le_of_lt h1) fun s e => .ok (some s, e)
    | none =>
      (expression c).andThen (Nat.le_refl _) fun e ⟨c1, h1⟩ =>
      (c1.expect .semicolon .semicolonAfterInitializer).andThen (Nat.le_of_lt h1) fun _ d =>
        .ok (some (.expression e), d)
termination_by c.size * 32 + 19

/-- An expression unless the next token is `stop`. -/
def optionalExpression (stop : TokenKind) (c : Cursor) : Scans c (Option Expr) :=
  if c.check stop then .ok (none, ⟨c, Nat.le_refl _⟩)
  else (expression c).andThen (Nat.le_refl _) fun e ⟨d, hd⟩ => .ok (some e, ⟨d, Nat.le_of_lt hd⟩)
termination_by c.size * 32 + 19

/-- A `for` loop after `for`, written as a `while` loop: the initializer and the loop in a
block, the body and the increment in a block. -/
def forStatement (c : Cursor) : Reads c Stmt :=
  (c.expect .leftParen .forOpen).andThen (Nat.le_refl _) fun _ ⟨c1, h1⟩ =>
  (forInitializer c1).andThen (Nat.le_of_lt h1) fun init ⟨c2, h2⟩ =>
  (optionalExpression .semicolon c2).andThenPast h2 fun cond ⟨c3, h3⟩ =>
  (c3.expect .semicolon .semicolonAfterCondition).andThen (Nat.le_of_lt h3) fun _ ⟨c4, h4⟩ =>
  (optionalExpression .rightParen c4).andThenPast h4 fun incr ⟨c5, h5⟩ =>
  (c5.expect .rightParen .forClose).andThen (Nat.le_of_lt h5) fun _ ⟨c6, h6⟩ =>
  (statement c6).andThen (Nat.le_of_lt h6) fun body e =>
    let body := match incr with
      | some i => Stmt.block [body, .expression i]
      | none => body
    let loop := Stmt.whileLoop (cond.getD (.literal (.bool true))) body
    .ok ((match init with
      | some s => Stmt.block [s, loop]
      | none => loop), e)
termination_by c.size * 32 + 1

/-- An `if` after `if`: condition, branch, and an optional `else` branch. -/
def ifStatement (c : Cursor) : Reads c Stmt :=
  (c.expect .leftParen .ifOpen).andThen (Nat.le_refl _) fun _ ⟨c1, h1⟩ =>
  (expression c1).andThen (Nat.le_of_lt h1) fun cond ⟨c2, h2⟩ =>
  (c2.expect .rightParen .ifClose).andThen (Nat.le_of_lt h2) fun _ ⟨c3, h3⟩ =>
  (statement c3).andThen (Nat.le_of_lt h3) fun thenB ⟨c4, h4⟩ =>
  match c4.nextIf .else with
  | some (_, ⟨c5, h5⟩) =>
    (statement c5).andThen (by omega) fun elseB e => .ok (.ifElse cond thenB (some elseB), e)
  | none => .ok (.ifElse cond thenB none, ⟨c4, h4⟩)
termination_by c.size * 32 + 1

/-- A `while` loop after `while`: condition and body. -/
def whileStatement (c : Cursor) : Reads c Stmt :=
  (c.expect .leftParen .whileOpen).andThen (Nat.le_refl _) fun _ ⟨c1, h1⟩ =>
  (expression c1).andThen (Nat.le_of_lt h1) fun cond ⟨c2, h2⟩ =>
  (c2.expect .rightParen .whileClose).andThen (Nat.le_of_lt h2) fun _ ⟨c3, h3⟩ =>
  (statement c3).andThen (Nat.le_of_lt h3) fun body e => .ok (.whileLoop cond body, e)
termination_by c.size * 32 + 1

/-- statement → for | if | block | while | return | break | print | expression statement -/
def statement (c : Cursor) : Reads c Stmt :=
  match c.next with
  | some (t, ⟨c1, h1⟩) =>
    match t.kind with
    | .for => (forStatement c1).lift (Nat.le_of_lt h1)
    | .if => (ifStatement c1).lift (Nat.le_of_lt h1)
    | .leftBrace => (block c1).andThen (Nat.le_of_lt h1) fun body e => .ok (.block body, e)
    | .while => (whileStatement c1).lift (Nat.le_of_lt h1)
    | .return =>
      if c1.check .semicolon then
        (c1.expect .semicolon .semicolonAfterReturn).andThen (Nat.le_of_lt h1) fun _ e =>
          .ok (.returnFrom t none, e)
      else
        (expression c1).andThen (Nat.le_of_lt h1) fun v ⟨c2, h2⟩ =>
        (c2.expect .semicolon .semicolonAfterReturn).andThen (Nat.le_of_lt h2) fun _ e =>
          .ok (.returnFrom t (some v), e)
    | .break =>
      (c1.expect .semicolon .semicolonAfterBreak).andThen (Nat.le_of_lt h1) fun _ e =>
        .ok (.breakLoop t, e)
    | .print =>
      (expression c1).andThen (Nat.le_of_lt h1) fun v ⟨c2, h2⟩ =>
      (c2.expect .semicolon .semicolonAfterExpression).andThen (Nat.le_of_lt h2) fun _ e =>
        .ok (.print v, e)
    | _ => expressionStatement c
  | none => expressionStatement c
termination_by c.size * 32 + 21

/-- declaration → class | fun name ... | lambda statement | var | statement. A `fun` not
followed by a name begins an anonymous function, which may be called or read from before
the `;`. -/
def declaration (c : Cursor) : Reads c Stmt :=
  match c.next with
  | some (t, ⟨c1, h1⟩) =>
    match t.kind with
    | .class => (classDeclaration c1).lift (Nat.le_of_lt h1)
    | .fun =>
      if c1.check .identifier then ((function c1).map Stmt.function).lift (Nat.le_of_lt h1)
      else
        (lambda t c1).andThen (Nat.le_of_lt h1) fun f ⟨c2, h2⟩ =>
        (callSuffix f c2).andThenPast h2 fun e ⟨c3, h3⟩ =>
        (c3.expect .semicolon .semicolonAfterExpression).andThen (Nat.le_of_lt h3) fun _ d =>
          .ok (.expression e, d)
    | .var => (varDeclaration c1).lift (Nat.le_of_lt h1)
    | _ => statement c
  | none => statement c
termination_by c.size * 32 + 22

/-- The declarations of a block up to and with its closing brace. -/
def blockFrom (acc : Array Stmt) (c : Cursor) : Reads c (List Stmt) :=
  if c.check .rightBrace || c.atEnd then
    (c.expect .rightBrace .blockClose).andThen (Nat.le_refl _) fun _ e => .ok (acc.toList, e)
  else
    (declaration c).andThen (Nat.le_refl _) fun s ⟨c1, h1⟩ =>
    (blockFrom (acc.push s) c1).lift (Nat.le_of_lt h1)
termination_by c.size * 32 + 23

/-- A block after its opening brace. -/
def block (c : Cursor) : Reads c (List Stmt) := blockFrom #[] c
termination_by c.size * 32 + 24

end

/-- Whether the tokens begin a new statement: none is left, or the first is a keyword that
starts one. -/
def opensStatement : List Token → Bool
  | [] => true
  | u :: _ => u.kind.startsStatement

/-- Skip the rest of a faulty statement in `ts`, the last token read being on `line`: read
tokens up to and with a `;`, or up to a keyword that begins a statement. -/
def skipStatement (line : Nat) : List Token → Cursor
  | [] => ⟨[], line⟩
  | t :: rest =>
    if t.kind = .semicolon ∨ opensStatement rest then ⟨rest, t.line⟩
    else skipStatement t.line rest

/-- Skip to the end of a faulty statement. -/
def synchronize (c : Cursor) : Cursor := skipStatement c.line c.tokens

/-- Skipping reads no token twice. -/
theorem size_skipStatement_le (line : Nat) (ts : List Token) :
    (skipStatement line ts).size ≤ ts.length := by
  induction ts generalizing line with
  | nil => simp [skipStatement, Cursor.size]
  | cons t rest ih =>
    rw [skipStatement]
    split
    · simp [Cursor.size]
    · exact Nat.le_succ_of_le (ih t.line)

/-- Skipping reads at least one token unless none is left. -/
theorem size_synchronize (c : Cursor) :
    (synchronize c).size < c.size ∨ (synchronize c).size = 0 := by
  show (skipStatement c.line c.tokens).size < c.tokens.length ∨
    (skipStatement c.line c.tokens).size = 0
  cases c.tokens with
  | nil => exact Or.inr rfl
  | cons t rest =>
    refine Or.inl (Nat.lt_of_le_of_lt ?_ (Nat.lt_succ_self rest.length))
    rw [skipStatement]
    split
    · exact Nat.le_refl _
    · exact size_skipStatement_le t.line rest

/-- Read declarations to the end of the input, recovering after each fault. -/
def declarations (c : Cursor) (stmts : Array Stmt) (faults : Array ParseFault) :
    List Stmt × List ParseFault :=
  if hc : c.atEnd then (stmts.toList, faults.toList)
  else
    have hpos := Cursor.size_pos_of_not_atEnd (by simpa using hc)
    match declaration c with
    | .ok (s, ⟨c1, _⟩) => declarations c1 (stmts.push s) faults
    | .error (f, ⟨c1, h1⟩) =>
      have : (synchronize c1).size < c.size :=
        (size_synchronize c1).elim (fun h2 => Nat.lt_of_lt_of_le h2 h1)
          (fun h2 => Nat.lt_of_le_of_lt (Nat.le_of_eq h2) hpos)
      declarations (synchronize c1) stmts (faults.push f)
termination_by c.size

end Lox.Parse

namespace Lox

/-- The statements of a program that parse, and the faults of those that do not. -/
def parseProgram (tokens : List Token) : List Stmt × List ParseFault :=
  Parse.declarations (Parse.Cursor.start tokens) #[] #[]

/-- One expression that takes all the tokens. -/
def parseExpression (tokens : List Token) : Except ParseFault Expr :=
  match Parse.expression (Parse.Cursor.start tokens) with
  | .error (f, _) => .error f
  | .ok (e, ⟨c, _⟩) =>
    match c.next with
    | none => .ok e
    | some (t, _) => .error (.trailingInput t)

end Lox
