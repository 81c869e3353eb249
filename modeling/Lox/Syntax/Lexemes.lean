import Lox.Syntax.Scan
import Mathlib.Data.Nat.Digits.Defs
/-!
# The lexical grammar

Which texts are tokens, of which kind, and which are skipped between tokens, said of the
characters of a text and not of how a scanner reads them.

* A gap is skipped: one blank (space, tab, carriage return, line feed), a `//` comment up to
  the end of its line, or a block comment. In a block comment `/*` opens one more comment and
  `*/` closes one, the pairs read from left to right; the comment ends where the last one
  closes, or with the text if that never happens.
* A token is an operator or punctuation mark with its spelling, a number (ASCII digits, then
  perhaps a point and one or more digits), a word (an alphabetic character or `_`, then
  alphanumeric characters or `_`), which is a keyword exactly when it spells one, or a string
  from a quote to the next quote.

`Tokenizes cs out` says that `out` is the maximal-munch reading of the text `cs`: at each point
the longest lexeme at the front is taken, a gap is skipped and a token is read. A character
where no lexeme begins is one fault, and reading goes on after it; a quote that no later quote
closes is one fault, and the reading ends there.
-/

namespace Lox.Lexical

open Scan (isBlank isNameStart isNamePart)

/-- The operators and punctuation marks, each with its spelling. -/
def operators : List (TokenKind × List Char) :=
  [(.leftParen, ['(']), (.rightParen, [')']), (.leftBrace, ['{']), (.rightBrace, ['}']),
   (.comma, [',']), (.dot, ['.']), (.minus, ['-']), (.plus, ['+']), (.semicolon, [';']),
   (.slash, ['/']), (.star, ['*']), (.percent, ['%']), (.question, ['?']), (.colon, [':']),
   (.ampersand, ['&']), (.pipe, ['|']), (.caret, ['^']), (.bang, ['!']), (.bangEqual, ['!', '=']),
   (.equal, ['=']), (.equalEqual, ['=', '=']), (.greater, ['>']), (.greaterEqual, ['>', '=']),
   (.greaterGreater, ['>', '>']), (.less, ['<']), (.lessEqual, ['<', '=']),
   (.lessLess, ['<', '<'])]

/-- One or more ASCII digits. -/
def Digits (ds : List Char) : Prop := ds ≠ [] ∧ ∀ d ∈ ds, d.isDigit = true

/-- A `/*` or a `*/` begins at `c`, followed by `cs`. -/
def PairStart (c : Char) (cs : List Char) : Prop :=
  (c = '/' ∧ cs.head? = some '*') ∨ (c = '*' ∧ cs.head? = some '/')

/-- Read inside `d + 1` open block comments, `cs` closes the outermost one exactly at its end.
Each `/*` and `*/` is read as a pair, from left to right. -/
inductive Closes : Nat → List Char → Prop
  | last : Closes 0 ['*', '/']
  | shut {d : Nat} {cs : List Char} : Closes d cs → Closes (d + 1) ('*' :: '/' :: cs)
  | nest {d : Nat} {cs : List Char} : Closes (d + 1) cs → Closes d ('/' :: '*' :: cs)
  | skip {d : Nat} {c : Char} {cs : List Char} : ¬ PairStart c cs → Closes d cs →
      Closes d (c :: cs)

/-- Read inside `d + 1` open block comments, `cs` leaves at least one of them open. -/
inductive Unclosed : Nat → List Char → Prop
  | nil {d : Nat} : Unclosed d []
  | shut {d : Nat} {cs : List Char} : Unclosed d cs → Unclosed (d + 1) ('*' :: '/' :: cs)
  | nest {d : Nat} {cs : List Char} : Unclosed (d + 1) cs → Unclosed d ('/' :: '*' :: cs)
  | skip {d : Nat} {c : Char} {cs : List Char} : ¬ PairStart c cs → Unclosed d cs →
      Unclosed d (c :: cs)

/-- The texts skipped between tokens. -/
inductive Gap : List Char → Prop
  | blank {c : Char} : isBlank c → Gap [c]
  | line {body : List Char} : '\n' ∉ body → Gap ('/' :: '/' :: body)
  | block {body : List Char} : Closes 0 body ∨ Unclosed 0 body → Gap ('/' :: '*' :: body)

/-- `Spells k cs`: the text `cs` is a token of kind `k`. -/
inductive Spells : TokenKind → List Char → Prop
  | operator {k : TokenKind} {cs : List Char} : (k, cs) ∈ operators → Spells k cs
  | integer {ds : List Char} : Digits ds → Spells .number ds
  | decimal {ds fs : List Char} : Digits ds → Digits fs → Spells .number (ds ++ '.' :: fs)
  | word {c : Char} {cs : List Char} : isNameStart c → (∀ d ∈ cs, isNamePart d) →
      Spells (TokenKind.ofWord (String.ofList (c :: cs))) (c :: cs)
  | string {body : List Char} : '"' ∉ body → Spells .string ('"' :: body ++ ['"'])

/-- A text the lexical grammar knows: a gap or a token. -/
def Lexeme (cs : List Char) : Prop := Gap cs ∨ ∃ k, Spells k cs

/-- `p` is the longest lexeme at the front of `cs`. -/
def Longest (p cs : List Char) : Prop :=
  p <+: cs ∧ Lexeme p ∧ ∀ q, q <+: cs → Lexeme q → q.length ≤ p.length

/-- What reading a text yields, in order: tokens with their kind and text, and faults. -/
inductive Item where
  | token (kind : TokenKind) (text : List Char)
  | fault
  deriving DecidableEq, Repr

/-- A token or a fault of the scanner, as an item. -/
def Item.ofScanned : Except ScanFault Token → Item
  | .ok t => .token t.kind t.lexeme.toList
  | .error _ => .fault

/-- `Tokenizes cs out`: the maximal-munch reading of the text `cs` yields `out`. -/
inductive Tokenizes : List Char → List Item → Prop
  | nil : Tokenizes [] []
  | gap {p rest : List Char} {out : List Item} : Longest p (p ++ rest) → Gap p →
      Tokenizes rest out → Tokenizes (p ++ rest) out
  | token {k : TokenKind} {p rest : List Char} {out : List Item} : Longest p (p ++ rest) →
      Spells k p → Tokenizes rest out → Tokenizes (p ++ rest) (.token k p :: out)
  | stray {c : Char} {rest : List Char} {out : List Item} :
      (∀ q, q <+: c :: rest → ¬ Lexeme q) → (c = '"' → '"' ∈ rest) → Tokenizes rest out →
      Tokenizes (c :: rest) (.fault :: out)
  | unclosed {rest : List Char} : '"' ∉ rest → Tokenizes ('"' :: rest) [.fault]

/-- The number that ASCII digits denote, the most significant first. -/
def digitsValue (ds : List Char) : Nat :=
  Nat.ofDigits 10 (ds.reverse.map fun d => d.toNat - '0'.toNat)

/-- `Decimal text m e`: the number lexeme `text` denotes `m · 10 ^ (-e)`. -/
inductive Decimal : List Char → Nat → Nat → Prop
  | whole {ds : List Char} : Digits ds → Decimal ds (digitsValue ds) 0
  | point {ds fs : List Char} : Digits ds → Digits fs →
      Decimal (ds ++ '.' :: fs) (digitsValue (ds ++ fs)) fs.length

end Lox.Lexical
