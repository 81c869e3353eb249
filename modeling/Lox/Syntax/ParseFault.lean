import Lox.Diagnostic
/-!
# Parse faults

What the parser reports when the tokens do not form a program. Most faults say which token
the parser expected at some point of the grammar (`Expectation`) and what it found there:
another token, or the end of the input.
-/

namespace Lox

/-- The kinds of named functions, which parse messages mention. -/
inductive FunctionKind where
  | function | method | staticMethod | lambda
  deriving DecidableEq, Repr

/-- How a function kind is called in messages. -/
def FunctionKind.noun : FunctionKind → String
  | .function => "function"
  | .method => "method"
  | .staticMethod => "static method"
  | .lambda => "anonymous function"

/-- A point of the grammar where one kind of token must come next. -/
inductive Expectation where
  | semicolonAfterExpression | variableName | semicolonAfterVariable
  | className | superclassName | classBodyOpen | memberName | classBodyClose
  | functionName (kind : FunctionKind) | bodyOpen (kind : FunctionKind)
  | parametersOpen (kind : FunctionKind) | parameterName | parametersClose
  | semicolonAfterReturn | semicolonAfterBreak
  | ifOpen | ifClose | forOpen | semicolonAfterInitializer | semicolonAfterCondition | forClose
  | whileOpen | whileClose | blockClose
  | conditionalColon | propertyName | argumentsClose | groupClose | superDot | superMemberName
  deriving DecidableEq, Repr

namespace Expectation

/-- What was expected, as the start of a message. -/
def message : Expectation → String
  | .semicolonAfterExpression => "Expected ';' after expression"
  | .variableName => "Expected an identifier to be provided after 'var'"
  | .semicolonAfterVariable => "Expected ';' after variable declaration"
  | .className => "Expected a class name after the `class` keyword"
  | .superclassName => "Expected a superclass name after '<'"
  | .classBodyOpen => "Expected an opening brace `\x7b` before the class body"
  | .memberName => "Expected a method name within the class body"
  | .classBodyClose => "Expected a closing brace `\x7d` after the class body"
  | .functionName k => "Expected a " ++ k.noun ++ " name"
  | .bodyOpen k => "Expected an opening brace `\x7b` before the " ++ k.noun ++ " body"
  | .parametersOpen k => "Expected an opening parenthesis `(` after the " ++ k.noun ++ " name"
  | .parameterName => "Expected a parameter name"
  | .parametersClose => "Expected a closing parenthesis `)` after the parameters"
  | .semicolonAfterReturn => "Expected ';' after the return value"
  | .semicolonAfterBreak => "Expected ';' after 'break'"
  | .ifOpen => "Expected an opening parenthesis `(` after the `if` keyword"
  | .ifClose => "Expected a closing parenthesis `)` after the `if` keyword's condition"
  | .forOpen => "Expected an opening parenthesis `(` after the `for` keyword"
  | .semicolonAfterInitializer => "Expected a semicolon after the initializer"
  | .semicolonAfterCondition => "Expected a semicolon after the condition"
  | .forClose => "Expected a closing parenthesis `)` after the `for` keyword's clauses"
  | .whileOpen => "Expected an opening parenthesis `(` after the `while` keyword"
  | .whileClose => "Expected a closing parenthesis `)` after the `while` keyword's condition"
  | .blockClose => "Expected a closing brace `\x7d` after the block"
  | .conditionalColon => "Expected ':' after the first branch of the conditional expression"
  | .propertyName => "Expected a property name after '.'"
  | .argumentsClose => "Expected a closing parenthesis `)` after the call arguments"
  | .groupClose => "Expected a closing parenthesis `)` after the expression"
  | .superDot => "Expected '.' after 'super'"
  | .superMemberName => "Expected a superclass method name after 'super.'"

def advice : Expectation → String
  | .semicolonAfterExpression => "Make sure that you have a semicolon at the end of your previous expression."
  | .variableName => "Provide a variable name after the `var` keyword."
  | .semicolonAfterVariable => "Make sure that you have a semicolon after the variable declaration."
  | .className => "Provide a name for your class after the `class` keyword."
  | .superclassName => "Provide the name of the class you wish to inherit from after the '<'."
  | .classBodyOpen => "Make sure you have an opening brace `\x7b` after the class name."
  | .memberName => "Class bodies may only contain methods, getters and `class` (static) members."
  | .classBodyClose => "Make sure you have a closing brace `\x7d` after the class body."
  | .functionName _ => "Provide a name after the `fun` keyword."
  | .bodyOpen _ => "Function bodies must be wrapped in braces."
  | .parametersOpen _ => "Provide the list of parameters in parentheses."
  | .parameterName => "Parameters must be plain identifiers separated by commas."
  | .parametersClose => "Make sure you have closed the parameter list."
  | .semicolonAfterReturn => "Make sure that you have a semicolon at the end of your return statement."
  | .semicolonAfterBreak => "Make sure that you have a semicolon after the `break` keyword."
  | .ifOpen => "Make sure you have an opening parenthesis `(` after the `if` keyword."
  | .ifClose => "Make sure you have a closing parenthesis `)` after the `if` keyword's condition."
  | .forOpen => "Make sure you have an opening parenthesis `(` after the `for` keyword."
  | .semicolonAfterInitializer => "Make sure you have a semicolon after the initializer."
  | .semicolonAfterCondition => "Make sure you have a semicolon after the condition."
  | .forClose => "Make sure you have a closing parenthesis `)` after the `for` keyword's clauses."
  | .whileOpen => "Make sure you have an opening parenthesis `(` after the `while` keyword."
  | .whileClose => "Make sure you have a closing parenthesis `)` after the `while` keyword's condition."
  | .blockClose => "Make sure you have a closing brace `\x7d` after the block."
  | .conditionalColon => "Conditional expressions take the form `condition ? a : b`."
  | .propertyName => "Provide the name of the property you wish to access."
  | .argumentsClose => "Make sure you have closed the argument list."
  | .groupClose => "Make sure you have a closing parenthesis `)` after the expression."
  | .superDot => "You can only access a superclass member through `super.name`."
  | .superMemberName => "Provide the name of the superclass member you wish to access."

end Expectation

/-- A fault found while parsing. Faults at the end of the input carry the line of the last
token read. -/
inductive ParseFault where
  /-- Another token stood where the expected one had to. -/
  | expected (what : Expectation) (found : Token)
  /-- The input ended where a token was expected. -/
  | expectedAtEnd (what : Expectation) (line : Nat)
  /-- A member name in a class body was followed by neither parameters nor a body. -/
  | memberBody (name found : Token)
  | memberBodyAtEnd (line : Nat)
  /-- The 256th parameter of a function. -/
  | tooManyParameters (param : Token)
  /-- The 256th argument of a call, reported at the end of the input. -/
  | tooManyArguments (line : Nat)
  /-- The left side of `=` is neither a name nor a property. -/
  | invalidAssignmentTarget (equals : Token)
  /-- A token that cannot begin an expression. -/
  | notAnExpression (found : Token)
  | expressionAtEnd (line : Nat)
  /-- A token after a complete expression. -/
  | trailingInput (found : Token)
  deriving Repr

namespace ParseFault

/-- The kinds of tokens that begin an expression, as listed in messages. -/
def expressionStarts : String :=
  "['true', 'false', 'nil', number, string, identifier, 'this', 'super', 'fun', '(']"

def toDiagnostic : ParseFault → Diagnostic
  | .expected what found =>
    .language (.ofToken found) (what.message ++ ", but got " ++ found.describe ++ " instead.") what.advice
  | .expectedAtEnd what line =>
    .language (.endOfFile line) (what.message ++ ", but reached the end of the file instead.") what.advice
  | .memberBody name found =>
    .language (.ofToken found)
      ("Expected '(' for a method or '\x7b' for a getter after '" ++ name.lexeme ++ "', but got " ++
        found.describe ++ " instead.")
      "Methods take a parameter list in parentheses, getters are followed directly by their body."
  | .memberBodyAtEnd line =>
    .language (.endOfFile line)
      "Expected '(' for a method or '\x7b' for a getter, but reached the end of the file instead."
      "Make sure you have closed your class body with a `\x7d`."
  | .tooManyParameters param =>
    .language (.ofToken param) "Cannot have more than 255 parameters."
      "Try grouping some of your parameters into an object."
  | .tooManyArguments line =>
    .language (.endOfFile line) "Cannot have more than 255 arguments."
      "Try grouping some of your arguments into an object."
  | .invalidAssignmentTarget equals =>
    .language (.ofToken equals) "Invalid assignment target."
      "Make sure that you provide the name of a variable or property to assign to."
  | .notAnExpression found =>
    .language (.ofToken found)
      ("Encountered an unexpected " ++ found.describe ++ " while waiting for one of " ++
        expressionStarts ++ ".")
      "Make sure that you are providing a primary value at this location."
  | .expressionAtEnd line =>
    .language (.endOfFile line)
      ("Reached the end of the input while waiting for one of " ++ expressionStarts ++ ".")
      "Make sure that you have provided a valid expression."
  | .trailingInput found =>
    .language (.ofToken found)
      ("Expected the end of the expression, but got " ++ found.describe ++ " instead.")
      "Make sure that you have provided a single expression."

end ParseFault

end Lox
