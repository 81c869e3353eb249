import Lox.Decimal.Notation
/-!
# Tokens

A token is a kind, the exact source text it was read from, and where that text starts: a line
counted from 1 and a column counted in bytes from 1. String and number tokens also carry the
literal value they denote. Literals are the constants of the language, also those written as
keywords (`true`, `false`, `nil`).
-/

namespace Lox

/-- The kinds of tokens: punctuation, operators, names, literals and keywords. -/
inductive TokenKind where
  | leftParen | rightParen | leftBrace | rightBrace | comma | dot | minus | plus | semicolon
  | slash | star | percent | question | colon | ampersand | pipe | caret | lessLess
  | greaterGreater | bang | bangEqual | equal | equalEqual | greater | greaterEqual | less
  | lessEqual | identifier | string | number
  | and | «break» | «class» | «else» | false | «fun» | «for» | «if» | nil | or | print
  | «return» | super | this | true | var | «while»
  deriving DecidableEq, Repr, Inhabited

namespace TokenKind

/-- The keywords and the kinds they are read as; every other word is an identifier. -/
def keywords : List (String × TokenKind) :=
  [("and", .and), ("break", .break), ("class", .class), ("else", .else), ("false", .false),
   ("for", .for), ("fun", .fun), ("if", .if), ("nil", .nil), ("or", .or), ("print", .print),
   ("return", .return), ("super", .super), ("this", .this), ("true", .true), ("var", .var),
   ("while", .while)]

/-- The kind of a word: its keyword, or an identifier. -/
def ofWord (w : String) : TokenKind :=
  match keywords.lookup w with
  | some k => k
  | none => .identifier

/-- The kinds that begin a declaration or statement, where error recovery resumes. -/
def startsStatement : TokenKind → Bool
  | .class | .fun | .var | .for | .if | .while | .print | .return => Bool.true
  | _ => Bool.false

end TokenKind

/-- A constant of the language. -/
inductive Literal where
  | nil
  | bool (b : Bool)
  | number (x : Float)
  | string (s : String)
  deriving Repr, Inhabited

/-- A token: its kind, its text in the source, its literal value if it has one, and the line
and byte column where its text starts. -/
structure Token where
  kind : TokenKind
  lexeme : String
  literal : Option Literal
  line : Nat
  column : Nat
  deriving Repr, Inhabited

namespace Token

/-- A name token with no literal, as produced for identifiers. -/
def name (lexeme : String) (line column : Nat) : Token :=
  ⟨.identifier, lexeme, none, line, column⟩

/-- How a token is shown in messages: its text in quotes and its position. -/
def describe (t : Token) : String :=
  "'" ++ t.lexeme ++ "' (line " ++ toString t.line ++ ", column " ++ toString t.column ++ ")"

end Token

end Lox
