import Lox.Decimal.Notation
import Lox.Decimal.Shortest
import Lox.Diagnostic
import Lox.Eval
import Lox.Interpreter
import Lox.Machine.Basic
import Lox.Machine.Fault
import Lox.Number.Integer
import Lox.Number.Remainder
import Lox.Operators
import Lox.Resolution.Basic
import Lox.Resolution.Fault
import Lox.Scopes
import Lox.Syntax.Cursor
import Lox.Syntax.Lexemes
import Lox.Syntax.Parse
import Lox.Syntax.ParseFault
import Lox.Syntax.Print
import Lox.Syntax.Progress
import Lox.Syntax.References
import Lox.Syntax.Scan
import Lox.Syntax.Token
import Lox.Syntax.Tree
import Lox.Unicode.Classes
import Lox.Value
import Lox.Proofs.Arena
import Lox.Proofs.Discipline
import Lox.Proofs.Exec
import Lox.Proofs.Closures
import Lox.Proofs.Boundary
import Lox.Proofs.Session
import Lox.Proofs.Exits
import Lox.Proofs.Resolution
import Lox.Proofs.Bodies
import Lox.Proofs.Scoping
import Lox.Proofs.Chains
import Lox.Proofs.Parts
import Lox.Proofs.Agreement
import Lox.Proofs.Lexemes
import Lox.Proofs.MaximalMunch
import Lox.Proofs.Anchors
import Lox.Proofs.Sources
import Lox.Proofs.Hygiene
import Lox.Proofs.Runs
import Lox.Proofs.Sparing
import Lox.Proofs.Initializers
import Lox.Proofs.Members
import Lox.Proofs.ArityFaults
import Lox.Proofs.Construction
import Lox.Proofs.Receivers
import Lox.Proofs.Spelling
import Lox.Proofs.Binding
import Lox.Proofs.Lookups
import Lox.Proofs.Locations
import Lox.Proofs.Bitwise
import Lox.Proofs.StaticContext
import Lox.Proofs.UnusedLocals
import Lox.Proofs.DecimalArithmetic
import Lox.Proofs.ShortestDecimal
import Lox.Proofs.FloatReading
import Lox.Proofs.NumberDisplay
import Lox.Proofs.Renaming
import Lox.Proofs.Mirror
import Lox.Proofs.Reclamation
