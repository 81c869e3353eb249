import Lox.Proofs.Lexemes
/-!
# The scanner is a maximal-munch lexer

At each character the scanner decides what the text ahead makes (`Scan.piece`). Each decision
is shown to read the longest lexeme at the front of the text, or to find that none begins
there (`reads_piece`): the counts that `commentLength`, `numberLength` and the runs of name and
string characters give are the longest that the grammar allows. Following the scanner's
recursion, its whole output is then a maximal-munch reading of the text (`tokenizes_scanFrom`),
and so, by `Tokenizes.unique`, the only one.

## Main statements

* `Lox.Lexical.reads_piece`: one step of the scanner reads the longest lexeme.
* `Lox.Lexical.scan_maximal_munch`: the tokens and faults of `scan s` are the maximal-munch
  reading of `s`, and each number token carries the float of the decimal its text denotes.
-/

namespace Lox.Lexical

open Scan (isBlank isNameStart isNamePart commentLength numberLength)

variable {c : Char} {d : Nat} {k : TokenKind} {q cs rest : List Char}

/-! ## Block comments -/

theorem PairStart.of_prefix (h : PairStart c q) (hq : q <+: cs) : PairStart c cs := by
  obtain ⟨t, rfl⟩ := hq
  cases q with
  | nil => simp [PairStart] at h
  | cons x q => simpa [PairStart] using h

theorem PairStart.of_append (h : PairStart c (q ++ cs)) (hq : q ≠ []) : PairStart c q := by
  obtain ⟨x, q, rfl⟩ := List.exists_cons_of_ne_nil hq
  simpa [PairStart] using h

theorem Closes.ne_nil (h : Closes d q) : q ≠ [] := by
  cases h <;> simp

theorem commentLength_nest (d : Nat) (cs : List Char) :
    commentLength d ('/' :: '*' :: cs) = commentLength (d + 1) cs + 2 := by
  rw [commentLength]

theorem commentLength_shut (d : Nat) (cs : List Char) :
    commentLength (d + 2) ('*' :: '/' :: cs) = commentLength (d + 1) cs + 2 := by
  rw [commentLength, if_neg (by omega)]
  rfl

theorem commentLength_skip (h : ¬ PairStart c cs) :
    commentLength d (c :: cs) = commentLength d cs + 1 :=
  Scan.commentLength.eq_3 d c cs (fun _ hc he => h (.inl ⟨hc, by simp [he]⟩))
    (fun _ hc he => h (.inr ⟨hc, by simp [he]⟩))

theorem two_le_commentLength (h : PairStart c cs) : 2 ≤ commentLength d (c :: cs) := by
  rcases h with ⟨rfl, hc⟩ | ⟨rfl, hc⟩ <;> cases cs <;> simp at hc <;> subst hc
  · rw [commentLength_nest]
    omega
  · rw [commentLength]
    split <;> omega

/-- Within `n` open comments, `commentLength` stops where the outermost one closes, or at the
end of a text that never closes it. -/
theorem commentLength_spec (n : Nat) (cs : List Char) (hn : 1 ≤ n) :
    commentLength n cs ≤ cs.length ∧
      (Closes (n - 1) (cs.take (commentLength n cs)) ∨
        (Unclosed (n - 1) cs ∧ commentLength n cs = cs.length)) := by
  induction n, cs using Scan.commentLength.induct with
  | case1 n cs ih =>
    obtain ⟨hle, h⟩ := ih (by omega)
    rw [commentLength_nest]
    refine ⟨by simp; omega, ?_⟩
    rcases h with h | ⟨h, he⟩
    · left
      simpa using Closes.nest (d := n - 1) (by simpa [show n - 1 + 1 = n by omega] using h)
    · right
      refine ⟨.nest (by simpa [show n - 1 + 1 = n by omega] using h), by simp [he]⟩
  | case2 n cs hle =>
    obtain rfl : n = 1 := by omega
    simp [commentLength, Closes.last]
  | case3 n cs hgt ih =>
    obtain ⟨m, rfl⟩ : ∃ m, n = m + 2 := ⟨n - 2, by omega⟩
    obtain ⟨hle, h⟩ := ih (by omega)
    simp only [show m + 2 - 1 = m + 1 by omega, Nat.add_sub_cancel] at hle h ⊢
    rw [commentLength_shut]
    refine ⟨by simp; omega, ?_⟩
    rcases h with h | ⟨h, he⟩
    · exact .inl (by simpa using Closes.shut h)
    · exact .inr ⟨.shut h, by simp [he]⟩
  | case4 n c cs h1 h2 ih =>
    have hp : ¬ PairStart c cs := by
      rintro (⟨rfl, hc⟩ | ⟨rfl, hc⟩) <;> cases cs <;> simp_all
    obtain ⟨hle, h⟩ := ih hn
    rw [commentLength_skip hp]
    refine ⟨by simp; omega, ?_⟩
    rcases h with h | ⟨h, he⟩
    · exact .inl (by simpa using Closes.skip (fun hs => hp (hs.of_prefix (List.take_prefix _ _))) h)
    · exact .inr ⟨.skip hp h, by simp [he]⟩
  | case5 n => simp [commentLength, Unclosed.nil]

/-- A text at the front of `cs` that closes the outermost comment is the one `commentLength`
measures. -/
theorem Closes.eq_take (h : Closes d q) (hq : q <+: cs) :
    q = cs.take (commentLength (d + 1) cs) := by
  induction h generalizing cs with
  | last =>
    obtain ⟨t, rfl⟩ := hq
    simp [commentLength]
  | @shut d q h ih =>
    obtain ⟨t, rfl⟩ := hq
    rw [List.cons_append, List.cons_append, commentLength_shut]
    simpa using ih (List.prefix_append q t)
  | @nest d q h ih =>
    obtain ⟨t, rfl⟩ := hq
    rw [List.cons_append, List.cons_append, commentLength_nest]
    simpa using ih (List.prefix_append q t)
  | @skip d c q hp h ih =>
    obtain ⟨t, rfl⟩ := hq
    have hp' : ¬ PairStart c (q ++ t) := fun hs => hp (hs.of_append h.ne_nil)
    rw [List.cons_append, commentLength_skip hp']
    simpa using ih (List.prefix_append q t)

/-- A text at the front of `cs` that leaves a comment open is no longer than what
`commentLength` measures. -/
theorem Unclosed.length_le (h : Unclosed d q) (hq : q <+: cs) :
    q.length ≤ commentLength (d + 1) cs := by
  induction h generalizing cs with
  | nil => simp
  | @shut d q h ih =>
    obtain ⟨t, rfl⟩ := hq
    rw [List.cons_append, List.cons_append, commentLength_shut]
    simpa using ih (List.prefix_append q t)
  | @nest d q h ih =>
    obtain ⟨t, rfl⟩ := hq
    rw [List.cons_append, List.cons_append, commentLength_nest]
    simpa using ih (List.prefix_append q t)
  | @skip d c q hp h ih =>
    obtain ⟨t, rfl⟩ := hq
    by_cases hs : PairStart c (q ++ t)
    · -- a pair begins here in `cs` but not in `q`: so `q` ends right after `c`
      obtain rfl : q = [] := by
        by_contra hne
        exact hp (hs.of_append hne)
      have := two_le_commentLength (d := d + 1) hs
      simp only [List.cons_append, List.nil_append, List.length_cons, List.length_nil] at this ⊢
      omega
    · rw [List.cons_append, commentLength_skip hs]
      simpa using ih (List.prefix_append q t)

/-- `commentLength` measures the longest block comment body at the front of `cs`. -/
theorem commentLength_longest (cs : List Char) :
    (Closes 0 (cs.take (commentLength 1 cs)) ∨ Unclosed 0 (cs.take (commentLength 1 cs))) ∧
      ∀ q, q <+: cs → Closes 0 q ∨ Unclosed 0 q → q.length ≤ commentLength 1 cs := by
  refine ⟨?_, fun q hq h => ?_⟩
  · rcases (commentLength_spec 1 cs le_rfl).2 with h | ⟨h, he⟩
    · exact .inl h
    · exact .inr (by simpa [he] using h)
  · rcases h with h | h
    · rw [h.eq_take hq]
      exact List.length_take_le _ _
    · exact h.length_le hq

/-! ## Runs of characters -/

section Runs

variable {P : Char → Bool} {l : List Char}

theorem mem_takeWhile {x : Char} (h : x ∈ l.takeWhile P) : P x = true :=
  List.all_eq_true.1 List.all_takeWhile x h

theorem take_length_takeWhile : l.take (l.takeWhile P).length = l.takeWhile P :=
  (List.prefix_iff_eq_take.1 (List.takeWhile_prefix P)).symm

theorem drop_length_takeWhile : l.drop (l.takeWhile P).length = l.dropWhile P := by
  have h := @List.drop_left _ (l.takeWhile P) (l.dropWhile P)
  rwa [List.takeWhile_append_dropWhile] at h

/-- A run of `P` at the front of `l` is no longer than the longest one. -/
theorem length_le_takeWhile (hq : q <+: l) (hall : ∀ d ∈ q, P d = true) :
    q.length ≤ (l.takeWhile P).length := by
  obtain ⟨t, rfl⟩ := hq
  rw [List.takeWhile_append_of_pos hall]
  simp

/-- A run of `P` that a character outside `P` ends, at the front of `l`, is the longest one. -/
theorem takeWhile_eq_of_prefix {x : Char} {ds r : List Char} (h : ds ++ x :: r <+: l)
    (hall : ∀ d ∈ ds, P d = true) (hx : P x = false) : l.takeWhile P = ds := by
  obtain ⟨t, rfl⟩ := h
  rw [List.append_assoc, List.takeWhile_append_of_pos hall]
  simp [hx]

/-- What follows that run: the character that ends it, then the rest of `l`. -/
theorem dropWhile_eq_of_prefix {x : Char} {ds r : List Char} (h : ds ++ x :: r <+: l)
    (hall : ∀ d ∈ ds, P d = true) (hx : P x = false) : ∃ t, l.dropWhile P = x :: (r ++ t) := by
  obtain ⟨t, rfl⟩ := h
  refine ⟨t, ?_⟩
  rw [List.append_assoc, List.dropWhile_append_of_pos hall]
  simp [hx]

end Runs

/-! ## Numbers, strings and words -/

/-- `numberLength` measures the longest number at the front of the text after its first digit. -/
theorem numberLength_longest (hc : c.isDigit = true) (rest : List Char) :
    After c (rest.take (numberLength rest)) ∧
      ∀ q, q <+: rest → After c q → q.length ≤ numberLength rest := by
  simp only [after_digit hc]
  have hW : ∀ d ∈ rest.takeWhile Char.isDigit, d.isDigit = true := fun d hd => mem_takeWhile hd
  have hsplit := List.takeWhile_append_dropWhile (p := Char.isDigit) (l := rest)
  -- a number with a point at the front of `rest` has all the leading digits before its point
  have hpoint : ∀ ds fs, ds ++ '.' :: fs <+: rest → (∀ d ∈ ds, d.isDigit = true) →
      ds = rest.takeWhile Char.isDigit ∧ ∃ t, rest.dropWhile Char.isDigit = '.' :: (fs ++ t) :=
    fun ds fs h hds => ⟨Eq.symm <| takeWhile_eq_of_prefix h hds rfl, dropWhile_eq_of_prefix h hds rfl⟩
  have htake : rest.take (rest.takeWhile Char.isDigit).length = rest.takeWhile Char.isDigit :=
    take_length_takeWhile
  have hrun : ∀ q, q <+: rest → (∀ d ∈ q, d.isDigit = true) →
      q.length ≤ (rest.takeWhile Char.isDigit).length :=
    fun q hq h => length_le_takeWhile hq h
  unfold numberLength
  simp only [drop_length_takeWhile]
  generalize rest.takeWhile Char.isDigit = W at hW hsplit hpoint htake hrun ⊢
  split
  · next d more heq =>
    split
    · next hd =>
      -- a point and a digit follow the leading digits: the number goes on past the point
      obtain rfl : rest = W ++ '.' :: d :: more := by rw [← heq]; exact hsplit.symm
      refine ⟨.inr ⟨W, d :: more.takeWhile Char.isDigit, ?_, hW, by simp, ?_⟩, ?_⟩
      · rw [List.take_append, List.take_of_length_le (by omega),
          show W.length + 2 + (more.takeWhile Char.isDigit).length - W.length =
            (more.takeWhile Char.isDigit).length + 1 + 1 by omega]
        simp [take_length_takeWhile]
      · intro x hx
        simp only [List.mem_cons] at hx
        rcases hx with rfl | hx
        · exact hd
        · exact mem_takeWhile hx
      · rintro q hq (hall | ⟨ds, fs, rfl, hds, hfs⟩)
        · have := hrun q hq hall
          omega
        · obtain ⟨rfl, -⟩ := hpoint ds fs hq hds
          have hfs' : fs <+: d :: more := by simpa using hq
          have := length_le_takeWhile hfs' hfs.2
          simp [List.takeWhile_cons_of_pos hd] at this
          simp
          omega
    · next hd =>
      refine ⟨.inl (by rw [htake]; exact hW), ?_⟩
      rintro q hq (hall | ⟨ds, fs, rfl, hds, hfs⟩)
      · exact hrun q hq hall
      · -- a number with a point would need a digit right after the point
        obtain ⟨-, t, ht⟩ := hpoint ds fs hq hds
        obtain ⟨f, fs, rfl⟩ := List.exists_cons_of_ne_nil hfs.1
        rw [heq] at ht
        simp only [List.cons_append, List.cons.injEq] at ht
        obtain ⟨rfl, -⟩ := ht.2
        exact absurd (hfs.2 d List.mem_cons_self) hd
  · next hne =>
    refine ⟨.inl (by rw [htake]; exact hW), ?_⟩
    rintro q hq (hall | ⟨ds, fs, rfl, hds, hfs⟩)
    · exact hrun q hq hall
    · obtain ⟨-, t, ht⟩ := hpoint ds fs hq hds
      obtain ⟨f, fs, rfl⟩ := List.exists_cons_of_ne_nil hfs.1
      exact (hne f (fs ++ t) ht).elim

/-- `piece` reads a string up to the first quote after the opening one. -/
theorem take_takeWhile_ne {x : Char} (l : List Char) (h : (l.takeWhile (· ≠ x)).length < l.length) :
    l.take ((l.takeWhile (· ≠ x)).length + 1) = l.takeWhile (· ≠ x) ++ [x] := by
  induction l with
  | nil => simp at h
  | cons y l ih =>
    by_cases hy : y = x
    · subst hy
      simp
    · rw [List.takeWhile_cons_of_pos (p := (· ≠ x)) (decide_eq_true hy)] at h ⊢
      simp only [List.length_cons, List.take_succ_cons, List.cons_append] at h ⊢
      rw [ih (by omega)]

theorem string_longest (h : (rest.takeWhile (· ≠ '"')).length < rest.length) :
    After '"' (rest.take ((rest.takeWhile (· ≠ '"')).length + 1)) ∧
      ∀ q, q <+: rest → After '"' q → q.length ≤ (rest.takeWhile (· ≠ '"')).length + 1 := by
  simp only [after_quote]
  rw [take_takeWhile_ne rest h]
  refine ⟨⟨_, rfl, fun hq => by simpa using mem_takeWhile hq⟩, ?_⟩
  rintro q hq ⟨body, rfl, hbody⟩
  have he := takeWhile_eq_of_prefix (P := (· ≠ '"')) (r := []) hq
    (fun d hd => decide_eq_true fun e => hbody (e ▸ hd)) (by simp)
  rw [he]
  simp

theorem not_mem_of_takeWhile (h : ¬ (rest.takeWhile (· ≠ '"')).length < rest.length) :
    '"' ∉ rest := by
  have hp := List.takeWhile_prefix (l := rest) (· ≠ '"')
  have he : rest.takeWhile (· ≠ '"') = rest := hp.eq_of_length (by have := hp.length_le; omega)
  intro hq
  rw [← he] at hq
  simpa using mem_takeWhile hq

theorem word_longest (hc : isNameStart c = true) (rest : List Char) :
    After c (rest.takeWhile isNamePart) ∧
      ∀ q, q <+: rest → After c q → q.length ≤ (rest.takeWhile isNamePart).length := by
  simp only [after_nameStart hc]
  exact ⟨fun d hd => mem_takeWhile hd, fun q hq h => length_le_takeWhile hq h⟩

/-! ## Operators -/

/-- Every operator begins with a one-character token or with one of `! = > < /`. -/
theorem operators_first : ∀ e ∈ operators, ∀ c ∈ e.2.take 1,
    (Scan.single c).isSome ∨ c = '!' ∨ c = '=' ∨ c = '>' ∨ c = '<' ∨ c = '/' := by
  have h : operators.all (fun e => (e.2.take 1).all fun c =>
      (Scan.single c).isSome || c == '!' || c == '=' || c == '>' || c == '<' || c == '/') := by
    decide
  simpa [or_assoc] using h

/-- No operator is longer than two characters. -/
theorem operators_length : ∀ e ∈ operators, e.2.length ≤ 2 := by
  decide

theorem single_spec (h : Scan.single c = some k) :
    (k, [c]) ∈ operators ∧ c ≠ '/' ∧ ∀ k' q, (k', c :: q) ∈ operators → q = [] := by
  unfold Scan.single at h
  split at h <;> cases h <;> simp [operators]

/-! ## Each step of the scanner -/

/-- Given everything a lexeme that begins with `c` may go on with, `c :: p` is the longest at
the front of `c :: rest`. -/
theorem longest_cons {p : List Char} (hp : p <+: rest) (h : After c p)
    (hmax : ∀ q, q <+: rest → After c q → q.length ≤ p.length) : Longest (c :: p) (c :: rest) := by
  refine ⟨List.cons_prefix_cons.2 ⟨rfl, hp⟩, lexeme_cons_iff.2 h, fun q hq hl => ?_⟩
  obtain ⟨c', q, rfl⟩ := List.exists_cons_of_ne_nil hl.ne_nil
  obtain ⟨rfl, hqr⟩ := List.cons_prefix_cons.1 hq
  simpa using hmax q hqr (lexeme_cons_iff.1 hl)

/-- What the scanner's decision at `c`, followed by `rest`, says in terms of the lexical
grammar. -/
def Reads (c : Char) (rest : List Char) : Scan.Piece → Prop
  | .skip n => Longest (c :: rest.take n) (c :: rest) ∧ Gap (c :: rest.take n)
  | .token k n => Longest (c :: rest.take n) (c :: rest) ∧ Spells k (c :: rest.take n)
  | .unexpected => (∀ q, q <+: c :: rest → ¬ Lexeme q) ∧ c ≠ '"'
  | .unclosedString => c = '"' ∧ '"' ∉ rest

theorem reads_operator {n : Nat} (hk : (k, c :: rest.take n) ∈ operators) (hs : c ≠ '/')
    (hmax : ∀ k' q, q <+: rest → (k', c :: q) ∈ operators → q.length ≤ (rest.take n).length) :
    Reads c rest (.token k n) := by
  obtain ⟨hb, hq, hd, hn⟩ := of_mem_operators hk
  have hafter : ∀ q, After c q ↔ ∃ k, (k, c :: q) ∈ operators :=
    fun q => after_other hb hs hq hd hn
  refine ⟨longest_cons (List.take_prefix _ _) ((hafter _).2 ⟨k, hk⟩) fun q hq h => ?_, .operator hk⟩
  obtain ⟨k', hk'⟩ := (hafter q).1 h
  exact hmax k' q hq hk'

/-- A two-character operator, read whole. -/
theorem reads_operator_long {x : Char} {r : List Char} (hk : (k, [c, x]) ∈ operators)
    (hs : c ≠ '/') : Reads c (x :: r) (.token k 1) :=
  reads_operator (by simpa using hk) hs fun _ _ _ h => by simpa using operators_length _ h

/-- A one-character operator, read alone when no two-character operator begins here. -/
theorem reads_operator_short (hk : (k, [c]) ∈ operators) (hs : c ≠ '/')
    (hnext : ∀ k' x r, (k', [c, x]) ∈ operators → rest = x :: r → False) :
    Reads c rest (.token k 0) := by
  refine reads_operator (by simpa using hk) hs fun k' q hq h => ?_
  obtain ⟨t, rfl⟩ := hq
  match q, operators_length _ h with
  | [], _ => simp
  | [x], _ => exact (hnext k' x t h rfl).elim

/-- `!` and `=`, read with a following `=`. -/
theorem reads_pair {next : Char} {long short : TokenKind} (hs : c ≠ '/')
    (hl : (long, [c, next]) ∈ operators) (hsh : (short, [c]) ∈ operators)
    (hops : ∀ k x, (k, [c, x]) ∈ operators → x = next) :
    Reads c rest (Scan.pair rest next long short) := by
  unfold Scan.pair
  split
  · next hh =>
    obtain ⟨r, rfl⟩ : ∃ r, rest = next :: r := by
      cases rest with
      | nil => simp at hh
      | cons x r => exact ⟨r, by simpa using hh⟩
    exact reads_operator_long hl hs
  · next hh =>
    refine reads_operator_short hsh hs fun k x r hk he => hh ?_
    rw [he, hops k x hk]
    rfl

theorem reads_line (more : List Char) :
    Reads '/' ('/' :: more) (.skip ((more.takeWhile (· ≠ '\n')).length + 1)) := by
  simp only [Reads, List.take_succ_cons, take_length_takeWhile]
  have hline : '\n' ∉ more.takeWhile (· ≠ '\n') := fun h => by simpa using mem_takeWhile h
  refine ⟨longest_cons (List.cons_prefix_cons.2 ⟨rfl, List.takeWhile_prefix _⟩)
    (after_slash.2 (.inr (.inl ⟨_, rfl, hline⟩))) fun q hq h => ?_, .line hline⟩
  rcases after_slash.1 h with rfl | ⟨body, rfl, hbody⟩ | ⟨body, rfl, -⟩
  · simp
  · have := length_le_takeWhile (P := (· ≠ '\n')) (List.cons_prefix_cons.1 hq).2
      fun d hd => decide_eq_true fun e => hbody (e ▸ hd)
    simpa using this
  · simp at hq

theorem reads_block (more : List Char) :
    Reads '/' ('*' :: more) (.skip (commentLength 1 more + 1)) := by
  simp only [Reads, List.take_succ_cons]
  obtain ⟨hbody, hmax⟩ := commentLength_longest more
  refine ⟨longest_cons (List.cons_prefix_cons.2 ⟨rfl, List.take_prefix _ _⟩)
    (after_slash.2 (.inr (.inr ⟨_, rfl, hbody⟩))) fun q hq h => ?_, .block hbody⟩
  rcases after_slash.1 h with rfl | ⟨body, rfl, -⟩ | ⟨body, rfl, hb⟩
  · simp
  · simp at hq
  · have hpre := (List.cons_prefix_cons.1 hq).2
    have := hmax body hpre hb
    have := hpre.length_le
    simp only [List.length_cons, List.length_take]
    omega

theorem reads_slash (h1 : ∀ r, rest = '/' :: r → False) (h2 : ∀ r, rest = '*' :: r → False) :
    Reads '/' rest (.token .slash 0) := by
  simp only [Reads, List.take_zero]
  refine ⟨longest_cons List.nil_prefix (after_slash.2 (.inl rfl)) fun q hq h => ?_,
    .operator (by decide)⟩
  obtain ⟨t, rfl⟩ := hq
  rcases after_slash.1 h with rfl | ⟨body, rfl, -⟩ | ⟨body, rfl, -⟩
  · simp
  · exact (h1 _ rfl).elim
  · exact (h2 _ rfl).elim

theorem reads_string (h : (rest.takeWhile (· ≠ '"')).length < rest.length) :
    Reads '"' rest (.token .string ((rest.takeWhile (· ≠ '"')).length + 1)) := by
  obtain ⟨hafter, hmax⟩ := string_longest h
  refine ⟨longest_cons (List.take_prefix _ _) hafter fun q hq ha => ?_, ?_⟩
  · have := hmax q hq ha
    rwa [List.length_take_of_le h]
  · obtain ⟨body, he, hbody⟩ := after_quote.1 hafter
    rw [he]
    exact .string hbody

theorem reads_blank (h : isBlank c = true) : Reads c rest (.skip 0) := by
  simp only [Reads, List.take_zero]
  exact ⟨longest_cons List.nil_prefix ((after_blank h).2 rfl)
    fun q _ hq => by simp [(after_blank h).1 hq], .blank h⟩

theorem reads_number (h : c.isDigit = true) : Reads c rest (.token .number (numberLength rest)) := by
  obtain ⟨hafter, hmax⟩ := numberLength_longest h rest
  refine ⟨longest_cons (List.take_prefix _ _) hafter fun q hq ha => ?_, ?_⟩
  · simp only [List.length_take]
    exact le_min (hmax q hq ha) hq.length_le
  · rcases (after_digit h).1 hafter with hall | ⟨ds, fs, he, hds, hfs⟩
    · exact .integer ⟨by simp, by simpa [h] using hall⟩
    · rw [he]
      simpa using @Spells.decimal (c :: ds) fs ⟨by simp, by simpa [h] using hds⟩ hfs

theorem reads_word (h : isNameStart c = true) :
    Reads c rest (.token (TokenKind.ofWord (String.ofList (c :: rest.takeWhile isNamePart)))
      (rest.takeWhile isNamePart).length) := by
  obtain ⟨hafter, hmax⟩ := word_longest h rest
  simp only [Reads, take_length_takeWhile]
  exact ⟨longest_cons (List.takeWhile_prefix _) hafter hmax,
    .word h ((after_nameStart h).1 hafter)⟩

theorem reads_unexpected (hsingle : Scan.single c = none) (h1 : c = '!' → False)
    (h2 : c = '=' → False) (h3 : c = '>' → False) (h4 : c = '<' → False) (h5 : c = '/' → False)
    (h6 : c = '"' → False) (hb : ¬ isBlank c = true) (hd : ¬ c.isDigit = true)
    (hn : ¬ isNameStart c = true) : Reads c rest .unexpected := by
  refine ⟨fun q hq hl => ?_, h6⟩
  obtain ⟨c', q, rfl⟩ := List.exists_cons_of_ne_nil hl.ne_nil
  obtain ⟨rfl, -⟩ := List.cons_prefix_cons.1 hq
  simp only [Bool.not_eq_true] at hb hd hn
  obtain ⟨k, hk⟩ := (after_other hb h5 h6 hd hn).1 (lexeme_cons_iff.1 hl)
  -- an operator would begin with a one-character token or with one of `! = > < /`
  rcases operators_first _ hk c' (by simp) with hs | h | h | h | h | h
  · simp [hsingle] at hs
  exacts [h1 h, h2 h, h3 h, h4 h, h5 h]

/-- Each decision of the scanner reads the longest lexeme at the front of the text, or finds
that none begins there. -/
theorem reads_piece (c : Char) (rest : List Char) : Reads c rest (Scan.piece c rest) := by
  unfold Scan.piece
  split
  · next k hk =>
    obtain ⟨hop, hs, hone⟩ := single_spec hk
    exact reads_operator (n := 0) (by simpa using hop) hs fun k' q _ h => by simp [hone k' q h]
  · next hnone =>
    split
    · exact reads_pair (by decide) (by decide) (by decide) fun k x h => by
        simp [operators] at h
        exact h.2
    · exact reads_pair (by decide) (by decide) (by decide) fun k x h => by
        simp [operators] at h
        exact h.2
    · split
      · exact reads_operator_long (by decide) (by decide)
      · exact reads_operator_long (by decide) (by decide)
      · next h1 h2 =>
        refine reads_operator_short (by decide) (by decide) fun k x r h he => ?_
        simp [operators] at h
        rcases h with ⟨-, rfl⟩ | ⟨-, rfl⟩
        exacts [h1 r he, h2 r he]
    · split
      · exact reads_operator_long (by decide) (by decide)
      · exact reads_operator_long (by decide) (by decide)
      · next h1 h2 =>
        refine reads_operator_short (by decide) (by decide) fun k x r h he => ?_
        simp [operators] at h
        rcases h with ⟨-, rfl⟩ | ⟨-, rfl⟩
        exacts [h1 r he, h2 r he]
    · split
      · exact reads_line _
      · exact reads_block _
      · next h1 h2 => exact reads_slash h1 h2
    · dsimp only
      split
      · next h => exact reads_string h
      · next h => exact ⟨rfl, not_mem_of_takeWhile h⟩
    · next h1 h2 h3 h4 h5 h6 =>
      split
      · next hb => exact reads_blank hb
      split
      · next hb hd => exact reads_number hd
      split
      · next hb hd hn => exact reads_word hn
      · next hb hd hn => exact reads_unexpected hnone h1 h2 h3 h4 h5 h6 hb hd hn

/-! ## The scanner's reading -/

/-- The scanner reads every text the maximal-munch way. -/
theorem tokenizes_scanFrom (cs : List Char) (p : Scan.Position) :
    Tokenizes cs ((Scan.scanFrom cs p).map Item.ofScanned) := by
  fun_induction Scan.scanFrom cs p with
  | case1 => exact .nil
  | case2 p c rest k hk ih =>
    have h := reads_piece c rest
    rw [hk] at h
    simpa using @Tokenizes.gap _ (rest.drop k) _ (by simpa using h.1) h.2 ih
  | case3 p c rest kind k hk text ih =>
    have h := reads_piece c rest
    rw [hk] at h
    simpa [Item.ofScanned, Scan.makeToken, text] using
      @Tokenizes.token _ _ (rest.drop k) _ (by simpa using h.1) h.2 ih
  | case4 p c rest hk ih =>
    have h := reads_piece c rest
    rw [hk] at h
    exact .stray h.1 (fun e => absurd e h.2) ih
  | case5 p c rest hk =>
    have h := reads_piece c rest
    rw [hk] at h
    obtain ⟨rfl, hq⟩ := h
    exact .unclosed hq

/-- Every token of a reading is spelled as its kind says. -/
theorem Tokenizes.spells {out : List Item} {p : List Char} (h : Tokenizes cs out)
    (hm : Item.token k p ∈ out) : Spells k p := by
  induction h with
  | nil => cases hm
  | gap _ _ _ ih => exact ih hm
  | token _ hk _ ih =>
    rcases List.mem_cons.1 hm with he | hm
    · cases he
      exact hk
    · exact ih hm
  | stray _ _ _ ih =>
    rcases List.mem_cons.1 hm with he | hm
    · cases he
    · exact ih hm
  | unclosed => simp at hm

/-! ## Number literals -/

theorem foldl_digits (ds : List Char) :
    ds.foldl (fun n d => 10 * n + (d.toNat - '0'.toNat)) 0 = digitsValue ds := by
  rw [List.foldl_eq_foldr_reverse, digitsValue]
  -- the last digit is the least significant
  generalize ds.reverse = l
  induction l with
  | nil => rfl
  | cons d l ih =>
    rw [List.foldr_cons, ih, List.map_cons, Nat.ofDigits_cons]
    omega

theorem readNumber_whole {ds : List Char} (hd : Digits ds) :
    Scan.readNumber ds = OfScientific.ofScientific (digitsValue ds) true 0 := by
  have hw : ds.takeWhile Char.isDigit = ds := by
    simpa using @List.takeWhile_append_of_pos _ _ _ [] hd.2
  simp only [Scan.readNumber, hw, List.drop_eq_nil_of_le (Nat.le_succ ds.length),
    List.takeWhile_nil, List.append_nil, foldl_digits, List.length_nil]
  rfl

theorem readNumber_point {ds fs : List Char} (hd : Digits ds) (hf : Digits fs) :
    Scan.readNumber (ds ++ '.' :: fs) =
      OfScientific.ofScientific (digitsValue (ds ++ fs)) true fs.length := by
  have hw : (ds ++ '.' :: fs).takeWhile Char.isDigit = ds :=
    takeWhile_eq_of_prefix (List.prefix_refl _) hd.2 rfl
  have hf' : fs.takeWhile Char.isDigit = fs := by
    simpa using @List.takeWhile_append_of_pos _ _ _ [] hf.2
  have hdrop : (ds ++ '.' :: fs).drop (ds.length + 1) = fs := by
    simp [List.drop_append]
  simp only [Scan.readNumber, hw, hdrop, hf', foldl_digits]
  rfl

/-- `readNumber` converts the decimal value of a number's text. -/
theorem readNumber_eq {text : List Char} {m e : Nat} (h : Decimal text m e) :
    Scan.readNumber text = OfScientific.ofScientific m true e := by
  cases h with
  | whole hd => exact readNumber_whole hd
  | point hd hf => exact readNumber_point hd hf

/-- No operator is a number. -/
theorem operators_kind : ∀ e ∈ operators, e.1 ≠ .number := by
  decide

theorem TokenKind.ofWord_ne_number (w : String) : TokenKind.ofWord w ≠ .number := by
  unfold TokenKind.ofWord
  split
  · next k hk =>
    simp only [TokenKind.keywords, List.lookup_cons] at hk
    repeat' split at hk
    all_goals cases hk <;> intro h <;> cases h
  · simp

/-- A number token's text is a decimal numeral. -/
theorem Spells.exists_decimal {p : List Char} (h : Spells .number p) : ∃ m e, Decimal p m e := by
  generalize hk : TokenKind.number = k at h
  cases h with
  | operator h => exact absurd hk.symm (operators_kind _ h)
  | integer h => exact ⟨_, _, .whole h⟩
  | decimal hd hf => exact ⟨_, _, .point hd hf⟩
  | word => exact absurd hk.symm (TokenKind.ofWord_ne_number _)
  | string => cases hk

/-- A number token carries what `readNumber` makes of its text. -/
theorem scanFrom_number_literal (cs : List Char) (p : Scan.Position) :
    ∀ t, .ok t ∈ Scan.scanFrom cs p → t.kind = .number →
      t.literal = some (.number (Scan.readNumber t.lexeme.toList)) := by
  fun_induction Scan.scanFrom cs p with
  | case1 => intro t ht; cases ht
  | case2 _ _ _ _ _ ih => exact ih
  | case3 p c rest kind k hk text ih =>
    intro t ht hkind
    rcases List.mem_cons.1 ht with h | h
    · cases h
      simp only [Scan.makeToken] at hkind ⊢
      subst hkind
      simp
    · exact ih t h hkind
  | case4 _ _ _ _ ih =>
    intro t ht
    rcases List.mem_cons.1 ht with h | h
    · cases h
    · exact ih t h
  | case5 => intro t ht; simp at ht

/-- The scanner is a maximal-munch lexer. Its reading of a source text, tokens and faults in
order, is the one maximal-munch reading of the text; and every number token carries the float
that `OfScientific` makes of the decimal value of its text. -/
theorem scan_maximal_munch (s : String) :
    (∀ out, Tokenizes s.toList out ↔ out = (scan s).map Item.ofScanned) ∧
      ∀ t, .ok t ∈ scan s → t.kind = .number →
        ∃ m e, Decimal t.lexeme.toList m e ∧
          t.literal = some (.number (OfScientific.ofScientific m true e)) := by
  have hs := tokenizes_scanFrom s.toList Scan.Position.start
  refine ⟨fun out => ⟨fun h => h.unique hs, fun h => h ▸ hs⟩, fun t ht hk => ?_⟩
  have hsp : Spells t.kind t.lexeme.toList :=
    hs.spells (List.mem_map_of_mem (f := Item.ofScanned) ht)
  rw [hk] at hsp
  obtain ⟨m, e, hd⟩ := hsp.exists_decimal
  exact ⟨m, e, hd, by rw [scanFrom_number_literal _ _ t ht hk, readNumber_eq hd]⟩

end Lox.Lexical
