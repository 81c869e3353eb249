import Lox.Syntax.Parse
/-!
# Progress of the parser

A program is read declaration by declaration. After a fault the parser skips to the end of the
faulty statement and goes on, so one fault does not hide the next. Each round of this loop
reads at least one token: a declaration is a phrase, which takes a token by its type, and the
skip after a fault takes one unless none is left. Each round also yields exactly one statement
or one fault. That every part of the parser ends is the measure it is defined by; what is left
to prove is the count.

## Main statements

* `Lox.Parse.declarations_length_le`: from a cursor with `k` tokens left, the loop adds at most
  `k` statements and faults to those it already has.
* `Lox.parseProgram_length_le`: a program of `n` tokens reads as at most `n` statements and
  faults together.
-/

namespace Lox.Parse

/-- Each round of the loop reads a token and adds one statement or one fault, so the rounds
from a cursor add no more than the tokens it has left. -/
theorem declarations_length_le (c : Cursor) (stmts : Array Stmt) (faults : Array ParseFault) :
    (declarations c stmts faults).1.length + (declarations c stmts faults).2.length ≤
      stmts.size + faults.size + c.size := by
  fun_induction declarations c stmts faults with
  | case1 => simp
  | case2 c stmts faults _ _ s c1 h1 _ ih =>
    simp only [Array.size_push] at ih
    omega
  | case3 c stmts faults _ _ f c1 h1 _ hlt ih =>
    simp only [Array.size_push] at ih
    omega

end Lox.Parse

namespace Lox

/-- A program of `n` tokens reads as at most `n` statements and faults together. -/
theorem parseProgram_length_le (tokens : List Token) :
    (parseProgram tokens).1.length + (parseProgram tokens).2.length ≤ tokens.length := by
  simpa [parseProgram, Parse.Cursor.start, Parse.Cursor.size] using
    Parse.declarations_length_le (Parse.Cursor.start tokens) #[] #[]

end Lox
