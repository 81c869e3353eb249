import Lox.Syntax.Token
/-!
# Diagnostics

Every fault and warning is reported as a diagnostic: a message, a piece of advice, and where it
arose. Faults found before a program runs point at a place in the source; faults of a running
program point at the token being evaluated; faults of the interpreter itself point nowhere.
-/

namespace Lox

/-- A place in the source and the text found there; the end of the input is the text
`end of file` at column 0. -/
structure Location where
  sample : String
  line : Nat
  column : Nat
  deriving Repr, Inhabited

namespace Location

/-- The place of a token, with the token's text. -/
def ofToken (t : Token) : Location := ⟨t.lexeme, t.line, t.column⟩

/-- The end of the input, reported on the line of the last token read. -/
def endOfFile (line : Nat) : Location := ⟨"end of file", line, 0⟩

/-- The place as written in a message: the text in quotes if there is one, then line and column. -/
def describe (l : Location) : String :=
  let place := "line " ++ toString l.line ++ ", column " ++ toString l.column
  if l.sample.isEmpty then place else "'" ++ l.sample ++ "' at " ++ place

end Location

/-- A reported fault or warning. -/
inductive Diagnostic where
  /-- Found in the source before it runs: when scanning, parsing or resolving. -/
  | language (place : Location) (message advice : String)
  /-- Raised by the running program, at the token being evaluated. -/
  | runtime (token : Token) (message advice : String)
  /-- A fault of the interpreter itself. -/
  | system (message advice : String)
  deriving Repr, Inhabited

namespace Diagnostic

def message : Diagnostic → String
  | .language _ m _ | .runtime _ m _ | .system m _ => m

def advice : Diagnostic → String
  | .language _ _ a | .runtime _ _ a | .system _ a => a

/-- The one-line report: the place and the message before a run, the message and the line
during a run, the message alone for the interpreter's own faults. -/
def display : Diagnostic → String
  | .language l m _ => "Error at " ++ l.describe ++ ": " ++ m
  | .runtime t m _ => m ++ "\n[line " ++ toString t.line ++ "]"
  | .system m _ => m

end Diagnostic

end Lox
