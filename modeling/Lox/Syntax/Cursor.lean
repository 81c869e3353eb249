import Lox.Syntax.ParseFault
/-!
# Reading tokens

The parser reads a list of tokens front to back through a `Cursor`, which also remembers the
line of the last token read: faults at the end of the input are reported on that line.

Every step of the parser says in its type how far it got. A phrase that was read leaves a
cursor `Past` the one it started from, with strictly fewer tokens; a fault leaves a cursor
`Upto` it, with no more tokens. These facts are what make the recursive descent terminate:
every recursive call is on fewer tokens, or on as many tokens and a lower level of the grammar.
-/

namespace Lox.Parse

/-- The tokens still to read and the line of the last token read (1 before the first). -/
structure Cursor where
  tokens : List Token
  line : Nat
  deriving Inhabited

namespace Cursor

/-- The number of tokens still to read. -/
def size (c : Cursor) : Nat := c.tokens.length

/-- The cursor before the first of the tokens. -/
def start (tokens : List Token) : Cursor := ⟨tokens, 1⟩

end Cursor

/-- A cursor that has read at least one token more than `c`. -/
abbrev Past (c : Cursor) := { d : Cursor // d.size < c.size }

/-- A cursor that has read no fewer tokens than `c`. -/
abbrev Upto (c : Cursor) := { d : Cursor // d.size ≤ c.size }

/-- A fault and where reading stopped. -/
abbrev Failure (c : Cursor) := ParseFault × Upto c

/-- The outcome of reading a phrase, which takes at least one token, from `c`. -/
abbrev Reads (c : Cursor) (α : Type) := Except (Failure c) (α × Past c)

/-- The outcome of reading something that may take no token from `c`. -/
abbrev Scans (c : Cursor) (α : Type) := Except (Failure c) (α × Upto c)

namespace Cursor

/-- Read the next token. -/
def next (c : Cursor) : Option (Token × Past c) :=
  match h : c.tokens with
  | [] => none
  | t :: rest => some (t, ⟨⟨rest, t.line⟩, by simp [size, h]⟩)

/-- Whether the next token is of kind `k`. -/
def check (c : Cursor) (k : TokenKind) : Bool :=
  match c.tokens with
  | t :: _ => t.kind = k
  | [] => false

/-- Whether all tokens are read. -/
def atEnd (c : Cursor) : Bool := c.tokens.isEmpty

theorem size_pos_of_not_atEnd {c : Cursor} (h : c.atEnd = false) : 0 < c.size := by
  unfold atEnd at h
  unfold size
  cases hc : c.tokens with
  | nil => simp [hc] at h
  | cons t rest => simp

/-- Read the next token if it is of kind `k`. -/
def nextIf (c : Cursor) (k : TokenKind) : Option (Token × Past c) :=
  match c.next with
  | some (t, d) => if t.kind = k then some (t, d) else none
  | none => none

/-- Read a token of kind `k`. A token of another kind is read all the same and reported;
at the end of the input the fault is reported there. -/
def expect (c : Cursor) (k : TokenKind) (what : Expectation) : Reads c Token :=
  match c.next with
  | some (t, ⟨d, h⟩) =>
    if t.kind = k then .ok (t, ⟨d, h⟩) else .error (.expected what t, ⟨d, Nat.le_of_lt h⟩)
  | none => .error (.expectedAtEnd what c.line, ⟨c, Nat.le_refl _⟩)

end Cursor

/-- Go on after a phrase read from `d`, a cursor no later than `c`. -/
def Reads.andThen {α β : Type} {c d : Cursor} (h : d.size ≤ c.size) (r : Reads d α)
    (k : α → Past c → Except (Failure c) β) : Except (Failure c) β :=
  match r with
  | .error (f, ⟨e, he⟩) => .error (f, ⟨e, Nat.le_trans he h⟩)
  | .ok (a, ⟨e, he⟩) => k a ⟨e, Nat.lt_of_lt_of_le he h⟩

/-- Go on after something read from `d`, a cursor no later than `c`. -/
def Scans.andThen {α β : Type} {c d : Cursor} (h : d.size ≤ c.size) (r : Scans d α)
    (k : α → Upto c → Except (Failure c) β) : Except (Failure c) β :=
  match r with
  | .error (f, ⟨e, he⟩) => .error (f, ⟨e, Nat.le_trans he h⟩)
  | .ok (a, ⟨e, he⟩) => k a ⟨e, Nat.le_trans he h⟩

/-- Go on after something read from `d`, a cursor strictly later than `c`. -/
def Scans.andThenPast {α β : Type} {c d : Cursor} (h : d.size < c.size) (r : Scans d α)
    (k : α → Past c → Except (Failure c) β) : Except (Failure c) β :=
  match r with
  | .error (f, ⟨e, he⟩) => .error (f, ⟨e, Nat.le_of_lt (Nat.lt_of_le_of_lt he h)⟩)
  | .ok (a, ⟨e, he⟩) => k a ⟨e, Nat.lt_of_le_of_lt he h⟩

/-- A phrase read from a later cursor, seen from `c`. -/
def Reads.lift {α : Type} {c d : Cursor} (h : d.size ≤ c.size) (r : Reads d α) : Reads c α :=
  r.andThen h fun a e => .ok (a, e)

/-- Rewrite what a phrase read. -/
def Reads.map {α β : Type} {c : Cursor} (f : α → β) (r : Reads c α) : Reads c β :=
  r.andThen (Nat.le_refl _) fun a e => .ok (f a, e)

end Lox.Parse
