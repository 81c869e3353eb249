import Lox.Diagnostic
import Lox.Unicode.Classes
/-!
# Scanning

`Lox.scan` reads source text into tokens, front to back. At each step the first character
decides what the text ahead makes: a token, a stretch to skip (blanks and comments), a
character that starts nothing, or a string that never closes. Each token takes the longest
text its kind allows: `>=` over `>`, a whole word, every digit. A character that starts
nothing is reported and scanning goes on after it; a string that never closes ends the scan.

Positions count lines from 1 and columns in bytes from 1: a token's column is the number of
bytes between the last line break before it and its first byte, plus one.
-/

namespace Lox

/-- A fault found while scanning. -/
inductive ScanFault where
  /-- A character that begins no token; the place shows the character. -/
  | unexpectedCharacter (c : Char) (place : Location)
  /-- A string with no closing quote; the place shows its first twenty characters. -/
  | unterminatedString (place : Location)
  deriving Repr

namespace ScanFault

def toDiagnostic : ScanFault → Diagnostic
  | .unexpectedCharacter c place =>
    .language place
      ("We found an unexpected character '" ++ c.toString ++ "' where we were expecting one of: " ++
        "[whitespace, parenthesis, brace, operator, identifier, number, string, comment]")
      "Make sure you have entered valid Lox code and have not accidentally closed a string."
  | .unterminatedString place =>
    .language place "Reached the end of the file without finding the closing quote for a string."
      "Make sure that you have terminated your string with a '\"' character."

end ScanFault

namespace Scan

/-- The position of the next character: bytes read so far, the line, and the byte offset at
which that line starts. -/
structure Position where
  offset : Nat
  line : Nat
  lineStart : Nat
  deriving Repr, DecidableEq

namespace Position

/-- The start of the source. -/
def start : Position := ⟨0, 1, 0⟩

/-- The position after reading one more character; a line break starts a new line. -/
def advance (p : Position) (c : Char) : Position :=
  let offset := p.offset + c.utf8Size
  if c = '\n' then ⟨offset, p.line + 1, offset⟩ else ⟨offset, p.line, p.lineStart⟩

/-- The position after reading the characters in order. -/
def advanceOver (p : Position) (cs : List Char) : Position := cs.foldl advance p

/-- The byte column of the next character, counted from 1. -/
def column (p : Position) : Nat := p.offset - p.lineStart + 1

end Position

/-- Characters skipped between tokens. -/
def isBlank (c : Char) : Bool := c = ' ' || c = '\r' || c = '\t' || c = '\n'

/-- Characters that may begin a name. -/
def isNameStart (c : Char) : Bool := Unicode.isAlphabetic c || c = '_'

/-- Characters that may continue a name. -/
def isNamePart (c : Char) : Bool := Unicode.isAlphabetic c || Unicode.isNumeric c || c = '_'

/-- How many characters a block comment takes after its opening `/*`, with `depth` comments
open: nested comments open and close in pairs, and an unclosed comment runs to the end. -/
def commentLength : Nat → List Char → Nat
  | depth, '/' :: '*' :: rest => commentLength (depth + 1) rest + 2
  | depth, '*' :: '/' :: rest => if depth ≤ 1 then 2 else commentLength (depth - 1) rest + 2
  | depth, _ :: rest => commentLength depth rest + 1
  | _, [] => 0

/-- How many characters a number takes after its first digit: more digits, then a point and
digits if a digit follows the point. -/
def numberLength (rest : List Char) : Nat :=
  let whole := (rest.takeWhile Char.isDigit).length
  match rest.drop whole with
  | '.' :: d :: more => if d.isDigit then whole + 2 + (more.takeWhile Char.isDigit).length else whole
  | _ => whole

/-- What the text beginning with `c` and going on with `rest` makes. The counts are the
characters taken after `c`. -/
inductive Piece where
  | token (kind : TokenKind) (extra : Nat)
  | skip (extra : Nat)
  | unexpected
  | unclosedString
  deriving Repr, DecidableEq

/-- The kind of a one-character token, if `c` is one by itself. -/
def single : Char → Option TokenKind
  | '(' => some .leftParen | ')' => some .rightParen | '{' => some .leftBrace
  | '}' => some .rightBrace | ',' => some .comma | '.' => some .dot | '-' => some .minus
  | '+' => some .plus | ';' => some .semicolon | '*' => some .star | '%' => some .percent
  | '?' => some .question | ':' => some .colon | '&' => some .ampersand | '|' => some .pipe
  | '^' => some .caret
  | _ => none

/-- A one-character operator that becomes `long` when `next` follows it, and `short` else. -/
def pair (rest : List Char) (next : Char) (long short : TokenKind) : Piece :=
  if rest.head? = some next then .token long 1 else .token short 0

def piece (c : Char) (rest : List Char) : Piece :=
  match single c with
  | some k => .token k 0
  | none =>
    match c with
    | '!' => pair rest '=' .bangEqual .bang
    | '=' => pair rest '=' .equalEqual .equal
    | '>' =>
      match rest with
      | '=' :: _ => .token .greaterEqual 1
      | '>' :: _ => .token .greaterGreater 1
      | _ => .token .greater 0
    | '<' =>
      match rest with
      | '=' :: _ => .token .lessEqual 1
      | '<' :: _ => .token .lessLess 1
      | _ => .token .less 0
    | '/' =>
      match rest with
      | '/' :: more => .skip ((more.takeWhile (· ≠ '\n')).length + 1)
      | '*' :: more => .skip (commentLength 1 more + 1)
      | _ => .token .slash 0
    | '"' =>
      let body := rest.takeWhile (· ≠ '"')
      if body.length < rest.length then .token .string (body.length + 1) else .unclosedString
    | _ =>
      if isBlank c then .skip 0
      else if c.isDigit then .token .number (numberLength rest)
      else if isNameStart c then
        .token (TokenKind.ofWord (String.ofList (c :: rest.takeWhile isNamePart)))
          (rest.takeWhile isNamePart).length
      else .unexpected

/-- The value of a number written as ASCII digits with at most one point, rounded to the
nearest float. -/
def readNumber (text : List Char) : Float :=
  let whole := text.takeWhile Char.isDigit
  let fraction := (text.drop (whole.length + 1)).takeWhile Char.isDigit
  let digits := (whole ++ fraction).foldl (fun n d => 10 * n + (d.toNat - '0'.toNat)) 0
  Float.ofScientific digits true fraction.length

/-- The token of a kind read from `text`, which starts at `p`; strings and numbers carry
their literal. -/
def makeToken (kind : TokenKind) (text : List Char) (p : Position) : Token :=
  let literal := match kind with
    | .string => some (Literal.string (String.ofList ((text.drop 1).dropLast)))
    | .number => some (Literal.number (readNumber text))
    | _ => none
  ⟨kind, String.ofList text, literal, p.line, p.column⟩

/-- Scan the characters `cs`, the first of which is at `p`. -/
def scanFrom (cs : List Char) (p : Position) : List (Except ScanFault Token) :=
  match cs with
  | [] => []
  | c :: rest =>
    match piece c rest with
    | .skip k => scanFrom (rest.drop k) (p.advanceOver (c :: rest.take k))
    | .token kind k =>
      let text := c :: rest.take k
      .ok (makeToken kind text p) :: scanFrom (rest.drop k) (p.advanceOver text)
    | .unexpected =>
      .error (.unexpectedCharacter c ⟨c.toString, p.line, p.column⟩) :: scanFrom rest (p.advance c)
    | .unclosedString =>
      [.error (.unterminatedString ⟨String.ofList ((c :: rest).take 20), p.line, p.column⟩)]
termination_by cs.length
decreasing_by all_goals simp only [List.length_drop, List.length_cons]; omega

end Scan

/-- The tokens and faults of a source text, in the order they occur. -/
def scan (source : String) : List (Except ScanFault Token) :=
  Scan.scanFrom source.toList Scan.Position.start

end Lox

namespace Lox

/-- The tokens of a source text and, apart, the faults found while scanning it. -/
def lex (source : String) : List Token × List ScanFault :=
  let items := scan source
  (items.filterMap fun | .ok t => some t | .error _ => none,
   items.filterMap fun | .ok _ => none | .error f => some f)

end Lox
