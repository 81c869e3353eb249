import Lox.Eval
import Lox.Syntax.Scan
import Lox.Syntax.Parse
import Lox.Resolution.Basic
/-!
# Running programs and sessions

A source text becomes a program in three steps: scanning, parsing and resolution. A source
with faults from the first two steps is `malformed`; otherwise it is parsed and resolution's
verdict stands beside the resolved tree.

A whole program is scanned, parsed and resolved against the globals of a fresh machine, and
only then run statement by statement; after a runtime fault it stops, or skips to the next
statement, as the `Policy` says.

A session keeps one machine across steps, like a prompt: each step is a piece of source with
statements, or one expression whose value is the answer. Each step is resolved against the
globals that exist at that point.

Like evaluation, running is written for any allocator of scopes, and the interpreter's is
`Allocator.reuse`.
-/

namespace Lox

/-- A source text read as far as it goes. -/
inductive Reading (α : Type) where
  /-- Faults from scanning or parsing: nothing is resolved. -/
  | malformed (scanFaults : List ScanFault) (parseFaults : List ParseFault)
  | parsed (tree : α)

/-- Scan and parse a program. -/
def readProgram (source : String) : Reading (List Stmt) :=
  let (tokens, scanFaults) := lex source
  let (stmts, parseFaults) := parseProgram tokens
  if scanFaults.isEmpty && parseFaults.isEmpty then .parsed stmts
  else .malformed scanFaults parseFaults

/-- Scan and parse a program, then resolve it against globals that already have values. -/
def analyze (globals : List String) (source : String) : Reading (Resolved (List Stmt)) :=
  match readProgram source with
  | .malformed sf pf => .malformed sf pf
  | .parsed stmts => .parsed (resolveProgram globals stmts)

/-- What a runtime fault does to the rest of a program. -/
inductive Policy where
  /-- Stop the program. -/
  | abortProgram
  /-- Skip the rest of the top-level statement and go on with the next. -/
  | abortStatement
  deriving DecidableEq, Repr

/-- The fuel for each top-level statement or expression: far more than any program that ends
needs. -/
def Eval.fuel : Nat := 1000000000

variable [A : Allocator]

namespace Machine

/-- Run top-level statements in order and collect the runtime faults; also tell whether a
statement ran out of fuel, which ends the run. -/
def interpret (policy : Policy) : List Stmt → StateM Machine (List RuntimeFault × Bool)
  | [] => pure ([], false)
  | s :: rest => do
    match ← (Eval.execStmt Eval.fuel s).run with
    | .ok _ => interpret policy rest
    | .error .outOfFuel => pure ([], true)
    | .error (.fault f) =>
      match policy with
      | .abortProgram => pure ([f], false)
      | .abortStatement => do
        let (fs, stopped) ← interpret policy rest
        pure (f :: fs, stopped)

end Machine

/-- What running a source text gives. -/
inductive RunOutcome where
  /-- Faults from scanning or parsing; nothing ran. -/
  | malformed (scanFaults : List ScanFault) (parseFaults : List ParseFault)
  /-- Resolution rejected the program; nothing ran. -/
  | rejected (faults : List StaticFault) (warnings : List UnusedLocal)
  /-- The program ran: the warnings of resolution, the runtime faults, the printed text, and
  whether a statement ran out of fuel. -/
  | finished (warnings : List UnusedLocal) (faults : List RuntimeFault) (output : String)
      (outOfFuel : Bool)

/-- Run a source text on a fresh machine whose clock reads `clock`. -/
def runSource (policy : Policy) (clock : Float) (source : String) : RunOutcome :=
  let m := Machine.initial clock
  match analyze m.globalNames source with
  | .malformed sf pf => .malformed sf pf
  | .parsed r =>
    if r.isOk then
      let ((faults, stopped), m') := (Machine.interpret policy r.tree).run m
      .finished r.warnings faults m'.output stopped
    else .rejected r.faults r.warnings

/-- A step of a session: statements, or one expression. -/
inductive Step where
  | statements (source : String)
  | expression (source : String)

/-- How a step of a session ended. -/
inductive StepOutcome where
  /-- Faults from scanning or parsing; nothing ran. -/
  | malformed (scanFaults : List ScanFault) (parseFaults : List ParseFault)
  /-- Resolution rejected the step; nothing ran. -/
  | rejected (faults : List StaticFault)
  /-- The step ran, with these runtime faults. -/
  | executed (faults : List RuntimeFault)
  /-- The expression had this value. -/
  | evaluated (v : Value)
  | outOfFuel

/-- A step's outcome, the text it printed and the warnings of its resolution. -/
structure StepReport where
  outcome : StepOutcome
  output : String
  warnings : List UnusedLocal

namespace Machine

/-- Take the text printed so far and start afresh. -/
def takeOutput : StateM Machine String :=
  modifyGet fun m => (m.output, { m with output := "" })

/-- Run a step on the machine. Statements all run, each after the faults of those before. -/
def step : Step → StateM Machine StepReport
  | .statements source => do
    match analyze (← get).globalNames source with
    | .malformed sf pf => pure ⟨.malformed sf pf, "", []⟩
    | .parsed r =>
      if r.isOk then
        let (faults, stopped) ← interpret .abortStatement r.tree
        let out ← takeOutput
        pure ⟨if stopped then .outOfFuel else .executed faults, out, r.warnings⟩
      else pure ⟨.rejected r.faults, "", r.warnings⟩
  | .expression source => do
    let (tokens, sf) := lex source
    match parseExpression tokens with
    | .error f => pure ⟨.malformed sf [f], "", []⟩
    | .ok e =>
      if !sf.isEmpty then pure ⟨.malformed sf [], "", []⟩
      else
        let r := resolveExpression (← get).globalNames e
        if r.isOk then
          let result ← (Eval.evalExpr Eval.fuel r.tree).run
          let out ← takeOutput
          match result with
          | .ok v => pure ⟨.evaluated v, out, r.warnings⟩
          | .error (.fault f) => pure ⟨.executed [f], out, r.warnings⟩
          | .error .outOfFuel => pure ⟨.outOfFuel, out, r.warnings⟩
        else pure ⟨.rejected r.faults, "", r.warnings⟩

end Machine

/-- Run the steps of a session in order on one fresh machine whose clock reads `clock`. -/
def runSession (clock : Float) (steps : List Step) : List StepReport :=
  (Id.run ((steps.mapM Machine.step).run (Machine.initial clock))).1

end Lox
