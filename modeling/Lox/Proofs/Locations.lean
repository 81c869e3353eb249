import Lox.Proofs.MaximalMunch
import Mathlib.Data.List.Induction
/-!
# Where scanned items stand

Every token and every fault the scanner yields is read off its own stretch of the source, and
the stretches follow one another from left to right without overlapping. Each item is placed
where its stretch starts: on the line after as many line breaks as come before it, and at the
column one past the number of bytes between the last of those line breaks and its first byte.
A token's lexeme is its stretch, quotes and line breaks of a string included; a stray character
is a stretch of one, and a string that never closes runs to the end of the source.

The scanner keeps its place as it reads (`Scan.Position.advance`): the byte offset, the line,
and the byte offset at which the line starts. Read from the start over any text, that place is
exactly the one the text itself gives (`advanceOver_start`), so every line break the scanner
steps over, in a blank, a comment or a string, is counted once.

## Main statements

* `Lox.Lexical.scan_located`: the items of `scan s` are laid out along `s` as described.
-/

namespace Lox.Lexical

open Scan (Position)

/-! ## Places in a text -/

/-- The number of bytes the characters take in UTF-8. -/
def bytes (cs : List Char) : Nat := (String.ofList cs).utf8ByteSize

theorem bytes_append_singleton (cs : List Char) (c : Char) :
    bytes (cs ++ [c]) = bytes cs + c.utf8Size := by
  rw [bytes, String.ofList_append, String.utf8ByteSize_append, ← String.singleton_eq_ofList,
    String.utf8ByteSize_singleton, bytes]

/-- The text up to and including its last line break; empty if it has none. -/
def throughLastBreak (cs : List Char) : List Char := (cs.reverse.dropWhile (· ≠ '\n')).reverse

theorem throughLastBreak_append_singleton (cs : List Char) (c : Char) :
    throughLastBreak (cs ++ [c]) = if c = '\n' then cs ++ [c] else throughLastBreak cs := by
  by_cases hc : c = '\n'
  · subst hc
    simp [throughLastBreak]
  · simp [throughLastBreak, hc]

/-- The line of the character at offset `a` of `text`, counted from 1. -/
def lineAt (text : List Char) (a : Nat) : Nat := (text.take a).count '\n' + 1

/-- The column of the character at offset `a` of `text`, counted from 1: its byte offset `p`,
less the byte offset `q` just after the last line break before it (or 0), plus one. -/
def columnAt (text : List Char) (a : Nat) : Nat :=
  bytes (text.take a) - bytes (throughLastBreak (text.take a)) + 1

theorem advanceOver_append (p : Position) (cs ds : List Char) :
    p.advanceOver (cs ++ ds) = (p.advanceOver cs).advanceOver ds := by
  simp [Position.advanceOver, List.foldl_append]

theorem advanceOver_singleton (p : Position) (c : Char) : p.advanceOver [c] = p.advance c := rfl

/-- Reading a text from the start ends at the place the text gives: its bytes, one line more
than its line breaks, and the bytes up to its last line break. -/
theorem advanceOver_start (pre : List Char) :
    Position.start.advanceOver pre =
      ⟨bytes pre, pre.count '\n' + 1, bytes (throughLastBreak pre)⟩ := by
  induction pre using List.reverseRecOn with
  | nil => rfl
  | append_singleton pre c ih =>
    rw [advanceOver_append, ih, advanceOver_singleton]
    by_cases hc : c = '\n'
    · subst hc
      simp [Position.advance, bytes_append_singleton, throughLastBreak_append_singleton]
    · simp [Position.advance, bytes_append_singleton, throughLastBreak_append_singleton, hc]

/-- The place reached after `pre` is the place of the offset `pre.length` in any text that goes
on from `pre`. -/
theorem advanceOver_place (pre rest : List Char) :
    (Position.start.advanceOver pre).line = lineAt (pre ++ rest) pre.length ∧
      (Position.start.advanceOver pre).column = columnAt (pre ++ rest) pre.length := by
  simp [advanceOver_start, lineAt, columnAt, Position.column]

/-! ## Items and their stretches -/

/-- The line and column an item is reported at. -/
def placeOf : Except ScanFault Token → Nat × Nat
  | .ok t => (t.line, t.column)
  | .error (.unexpectedCharacter _ place) => (place.line, place.column)
  | .error (.unterminatedString place) => (place.line, place.column)

/-- The item is read off `text` from offset `a` to offset `b`: it is placed where `a` is; a
token's lexeme is the text from `a` to `b`, a stray character is the one at `a`, and a string
that never closes starts with its quote at `a` and runs to the end. -/
def Stretch (text : List Char) (a b : Nat) (item : Except ScanFault Token) : Prop :=
  placeOf item = (lineAt text a, columnAt text a) ∧
    match item with
    | .ok t => t.lexeme = String.ofList ((text.take b).drop a)
    | .error (.unexpectedCharacter c _) => text[a]? = some c ∧ b = a + 1
    | .error (.unterminatedString _) => text[a]? = some '"' ∧ b = text.length

/-- `Laid text k items`: the items are read off consecutive stretches of `text` at or after
offset `k`, each non-empty and each ending at or before the next one starts. -/
inductive Laid (text : List Char) : Nat → List (Except ScanFault Token) → Prop
  | nil {k : Nat} : Laid text k []
  | cons {k a b : Nat} {item : Except ScanFault Token} {items : List (Except ScanFault Token)} :
      k ≤ a → a < b → b ≤ text.length → Stretch text a b item → Laid text b items →
      Laid text k (item :: items)

theorem Laid.mono {text : List Char} {k k' : Nat} {items : List (Except ScanFault Token)}
    (h : Laid text k items) (hk : k' ≤ k) : Laid text k' items := by
  cases h with
  | nil => exact .nil
  | cons ha hab hb hs hrest => exact .cons (Nat.le_trans hk ha) hab hb hs hrest

/-- The text of a stretch that starts after `pre` and takes `body`. -/
theorem slice_middle (pre body post : List Char) :
    ((pre ++ body ++ post).take (pre ++ body).length).drop pre.length = body := by
  simp [List.take_append]

/-! ## The scanner's items -/

/-- Scanning what follows `pre` lays the items out along the whole text, after `pre`. -/
theorem laid_scanFrom (cs : List Char) (p : Position) :
    ∀ pre, p = Position.start.advanceOver pre → Laid (pre ++ cs) pre.length (Scan.scanFrom cs p) := by
  fun_induction Scan.scanFrom cs p with
  | case1 => intro _ _; exact .nil
  | case2 p c rest k hk ih =>
    -- a stretch to skip: go on after it
    intro pre hp
    have h := ih (pre ++ c :: rest.take k) (by rw [hp, advanceOver_append])
    rw [List.append_assoc, List.cons_append, List.take_append_drop] at h
    exact h.mono (by simp)
  | case3 p c rest kind k hk text ih =>
    intro pre hp
    have htext : pre ++ c :: rest = pre ++ text ++ rest.drop k := by
      simp [text, List.take_append_drop]
    have h := ih (pre ++ text) (by rw [hp, advanceOver_append])
    rw [← htext] at h
    obtain ⟨hline, hcol⟩ := advanceOver_place pre (c :: rest)
    refine .cons (Nat.le_refl _) (by simp [text]) ?_ ⟨?_, ?_⟩ h
    · rw [htext]; simp
    · simp [placeOf, Scan.makeToken, hp, hline, hcol]
    · simp only [Scan.makeToken]
      rw [htext, slice_middle]
  | case4 p c rest hk ih =>
    intro pre hp
    have h := ih (pre ++ [c]) (by rw [hp, advanceOver_append, advanceOver_singleton])
    rw [List.append_assoc, List.singleton_append] at h
    obtain ⟨hline, hcol⟩ := advanceOver_place pre (c :: rest)
    refine .cons (b := pre.length + 1) (Nat.le_refl _) (by simp) (by simp) ⟨?_, ?_, ?_⟩
      (by simpa using h)
    · simp [placeOf, hp, hline, hcol]
    · simp
    · simp
  | case5 p c rest hk =>
    intro pre hp
    -- only a quote starts a string that never closes
    have hq : c = '"' := by
      have h := reads_piece c rest
      rw [hk] at h
      exact h.1
    obtain ⟨hline, hcol⟩ := advanceOver_place pre (c :: rest)
    refine .cons (Nat.le_refl _) (by simp) (Nat.le_refl _) ⟨?_, ?_, rfl⟩ .nil
    · simp [placeOf, hp, hline, hcol]
    · simp [hq]

/-- Every token and fault the scanner yields for `s` is read off its own stretch of `s`, and
the stretches follow one another without overlapping. Each item is placed at the line one past
the line breaks before its stretch, and at the column one past the bytes between the last of
those and its first byte; a token's lexeme is its stretch. -/
theorem scan_located (s : String) : Laid s.toList 0 (scan s) := by
  simpa [scan] using laid_scanFrom s.toList Position.start [] rfl

end Lox.Lexical
