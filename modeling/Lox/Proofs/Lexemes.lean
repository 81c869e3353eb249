import Lox.Syntax.Lexemes
/-!
# Each text has one maximal-munch reading

The first character of a lexeme fixes its family: a blank begins only itself, `/` begins the
slash and the two kinds of comment, a quote begins only strings, a digit only numbers, a name
character only words, and every other character only operators (`lexeme_cons_iff`, stated with
`After c q`, what may follow `c` in a lexeme). So no text is both a gap and a token, no token
has two kinds, and the longest lexeme at the front of a text is unique.

## Main statements

* `Lox.Lexical.lexeme_cons_iff`: the lexemes that begin with a character, by its family.
* `Lox.Lexical.Tokenizes.unique`: a text has at most one maximal-munch reading.
-/

namespace Lox.Lexical

open Scan (isBlank isNameStart isNamePart)

variable {c : Char} {k k' : TokenKind} {p p' q cs rest : List Char}

/-! ## Characters -/

/-- The first character of an operator is no blank, quote, digit or name character. -/
theorem operators_head : ∀ e ∈ operators, ∀ c ∈ e.2.take 1,
    isBlank c = false ∧ c ≠ '"' ∧ c.isDigit = false ∧ isNameStart c = false := by
  -- decided over the table as booleans: a quantifier over characters would be decided over
  -- every character
  have h : operators.all (fun e => (e.2.take 1).all fun c =>
      !isBlank c && c != '"' && !c.isDigit && !isNameStart c) := by decide
  simpa [and_assoc] using h

/-- Each spelling is one operator's. -/
theorem operators_functional : ∀ e ∈ operators, ∀ e' ∈ operators, e.2 = e'.2 → e.1 = e'.1 := by
  decide

theorem of_mem_operators (h : (k, c :: q) ∈ operators) :
    isBlank c = false ∧ c ≠ '"' ∧ c.isDigit = false ∧ isNameStart c = false :=
  operators_head _ h c (by simp)

/-- The only operator that begins with `/` is the slash itself. -/
theorem mem_operators_slash (h : (k, '/' :: q) ∈ operators) : k = .slash ∧ q = [] := by
  simpa [operators] using h

theorem of_isBlank (h : isBlank c = true) :
    c.isDigit = false ∧ isNameStart c = false ∧ c ≠ '/' ∧ c ≠ '"' := by
  simp only [isBlank, Bool.or_eq_true, decide_eq_true_eq] at h
  rcases h with ((rfl | rfl) | rfl) | rfl <;> decide

theorem isNameStart_of_isDigit (h : c.isDigit = true) : isNameStart c = false := by
  have h1 : 48 ≤ c.toNat ∧ c.toNat ≤ 57 := by
    simp only [Char.isDigit, Bool.and_eq_true, decide_eq_true_eq] at h
    exact ⟨h.1, h.2⟩
  have hu : c ≠ '_' := fun e => by subst e; simp at h1
  have hv : c.toNat = c.val.toNat := rfl
  simp only [isNameStart, Unicode.isAlphabetic, if_pos (show c.toNat < 128 by omega), hu]
  delta Char.isAlpha Char.isUpper Char.isLower
  simp [UInt32.le_iff_toNat_le]
  omega

theorem of_isDigit (h : c.isDigit = true) : isNameStart c = false ∧ c ≠ '/' ∧ c ≠ '"' :=
  ⟨isNameStart_of_isDigit h, by rintro rfl; revert h; decide, by rintro rfl; revert h; decide⟩

theorem of_isNameStart (h : isNameStart c = true) : c ≠ '/' ∧ c ≠ '"' :=
  ⟨by rintro rfl; revert h; decide, by rintro rfl; revert h; decide⟩

/-! ## Lexemes by their first character -/

/-- What may follow the character `c` in a lexeme, by the family of `c`. -/
def After (c : Char) (q : List Char) : Prop :=
  if isBlank c then q = []
  else if c = '/' then q = [] ∨ (∃ body, q = '/' :: body ∧ '\n' ∉ body) ∨
    ∃ body, q = '*' :: body ∧ (Closes 0 body ∨ Unclosed 0 body)
  else if c = '"' then ∃ body, q = body ++ ['"'] ∧ '"' ∉ body
  else if c.isDigit then (∀ d ∈ q, d.isDigit = true) ∨
    ∃ ds fs, q = ds ++ '.' :: fs ∧ (∀ d ∈ ds, d.isDigit = true) ∧ Digits fs
  else if isNameStart c then ∀ d ∈ q, isNamePart d = true
  else ∃ k, (k, c :: q) ∈ operators

theorem after_blank (h : isBlank c = true) : After c q ↔ q = [] := by
  simp [After, h]

theorem after_slash : After '/' q ↔ q = [] ∨ (∃ body, q = '/' :: body ∧ '\n' ∉ body) ∨
    ∃ body, q = '*' :: body ∧ (Closes 0 body ∨ Unclosed 0 body) := by
  simp [After, show isBlank '/' = false by decide]

theorem after_quote : After '"' q ↔ ∃ body, q = body ++ ['"'] ∧ '"' ∉ body := by
  simp [After, show isBlank '"' = false by decide]

theorem after_digit (h : c.isDigit = true) : After c q ↔ (∀ d ∈ q, d.isDigit = true) ∨
    ∃ ds fs, q = ds ++ '.' :: fs ∧ (∀ d ∈ ds, d.isDigit = true) ∧ Digits fs := by
  obtain ⟨-, hs, hq⟩ := of_isDigit h
  have hb : isBlank c = false := by
    cases hb : isBlank c
    · rfl
    · simp [(of_isBlank hb).1] at h
  simp [After, hb, hs, hq, h]

theorem after_nameStart (h : isNameStart c = true) : After c q ↔ ∀ d ∈ q, isNamePart d = true := by
  obtain ⟨hs, hq⟩ := of_isNameStart h
  have hb : isBlank c = false := by
    cases hb : isBlank c
    · rfl
    · simp [(of_isBlank hb).2.1] at h
  have hd : c.isDigit = false := by
    cases hd : c.isDigit
    · rfl
    · simp [isNameStart_of_isDigit hd] at h
  simp [After, hb, hs, hq, hd, h]

theorem after_other (hb : isBlank c = false) (hs : c ≠ '/') (hq : c ≠ '"')
    (hd : c.isDigit = false) (hn : isNameStart c = false) :
    After c q ↔ ∃ k, (k, c :: q) ∈ operators := by
  simp [After, hb, hs, hq, hd, hn]

/-- A token's first character puts it in one family. -/
theorem Spells.cases_head (h : Spells k p) (hp : p = c :: q) :
    (k, c :: q) ∈ operators ∨ (c.isDigit = true ∧ k = .number ∧ After c q) ∨
      (isNameStart c = true ∧ k = TokenKind.ofWord (String.ofList (c :: q)) ∧ After c q) ∨
      (c = '"' ∧ k = .string ∧ After c q) := by
  cases h with
  | operator h => exact .inl (hp ▸ h)
  | integer h =>
    subst hp
    have hc := h.2 c List.mem_cons_self
    exact .inr (.inl ⟨hc, rfl, (after_digit hc).2 (.inl fun d hd => h.2 d (.tail _ hd))⟩)
  | @decimal ds fs hd hf =>
    obtain ⟨d, ds, rfl⟩ := List.exists_cons_of_ne_nil hd.1
    simp only [List.cons_append, List.cons.injEq] at hp
    obtain ⟨rfl, rfl⟩ := hp
    have hc := hd.2 d List.mem_cons_self
    exact .inr (.inl ⟨hc, rfl,
      (after_digit hc).2 (.inr ⟨ds, fs, rfl, fun e he => hd.2 e (.tail _ he), hf⟩)⟩)
  | word hc hs =>
    obtain ⟨rfl, rfl⟩ := List.cons.inj hp
    exact .inr (.inr (.inl ⟨hc, rfl, (after_nameStart hc).2 hs⟩))
  | string hb =>
    obtain ⟨rfl, rfl⟩ := List.cons.inj hp
    exact .inr (.inr (.inr ⟨rfl, rfl, after_quote.2 ⟨_, rfl, hb⟩⟩))

theorem Spells.ne_nil (h : Spells k p) : p ≠ [] := by
  cases h with
  | operator h => rintro rfl; simp [operators] at h
  | integer h => exact h.1
  | decimal => simp
  | word => simp
  | string => simp

theorem Gap.ne_nil (h : Gap p) : p ≠ [] := by
  cases h <;> simp

theorem Lexeme.ne_nil (h : Lexeme p) : p ≠ [] :=
  h.elim Gap.ne_nil fun ⟨_, hk⟩ => hk.ne_nil

theorem lexeme_cons_iff : Lexeme (c :: q) ↔ After c q := by
  constructor
  · rintro (hg | ⟨k, hk⟩)
    · cases hg with
      | blank hc => exact (after_blank hc).2 rfl
      | line hb => exact after_slash.2 (.inr (.inl ⟨_, rfl, hb⟩))
      | block hb => exact after_slash.2 (.inr (.inr ⟨_, rfl, hb⟩))
    · rcases hk.cases_head rfl with hk | ⟨-, -, h⟩ | ⟨-, -, h⟩ | ⟨-, -, h⟩
      · by_cases hs : c = '/'
        · subst hs
          exact after_slash.2 (.inl (mem_operators_slash hk).2)
        · obtain ⟨hb, hq, hd, hn⟩ := of_mem_operators hk
          exact (after_other hb hs hq hd hn).2 ⟨k, hk⟩
      all_goals exact h
  · intro h
    by_cases hb : isBlank c = true
    · rw [(after_blank hb).1 h]
      exact .inl (.blank hb)
    by_cases hs : c = '/'
    · subst hs
      rcases after_slash.1 h with rfl | ⟨body, rfl, hl⟩ | ⟨body, rfl, hc⟩
      · exact .inr ⟨.slash, .operator (by decide)⟩
      · exact .inl (.line hl)
      · exact .inl (.block hc)
    by_cases hq : c = '"'
    · subst hq
      obtain ⟨body, rfl, hbody⟩ := after_quote.1 h
      exact .inr ⟨.string, .string hbody⟩
    by_cases hd : c.isDigit = true
    · rcases (after_digit hd).1 h with hall | ⟨ds, fs, rfl, hds, hfs⟩
      · refine .inr ⟨.number, .integer ⟨by simp, ?_⟩⟩
        simpa [hd] using hall
      · refine .inr ⟨.number, ?_⟩
        simpa using @Spells.decimal (c :: ds) fs ⟨by simp, by simpa [hd] using hds⟩ hfs
    by_cases hn : isNameStart c = true
    · exact .inr ⟨_, .word hn ((after_nameStart hn).1 h)⟩
    simp only [Bool.not_eq_true] at hb hd hn
    obtain ⟨k, hk⟩ := (after_other hb hs hq hd hn).1 h
    exact .inr ⟨k, .operator hk⟩

/-! ## One reading -/

/-- A token has one kind. -/
theorem Spells.kind_unique (h : Spells k p) (h' : Spells k' p) : k = k' := by
  obtain ⟨c, q, rfl⟩ := List.exists_cons_of_ne_nil h.ne_nil
  rcases h.cases_head rfl with ho | ⟨hd, rfl, -⟩ | ⟨hn, rfl, -⟩ | ⟨rfl, rfl, -⟩ <;>
  rcases h'.cases_head rfl with ho' | ⟨hd', rfl, -⟩ | ⟨hn', rfl, -⟩ | ⟨hq', rfl, -⟩
  -- the same family gives the same kind; two families never share a first character
  · exact operators_functional _ ho _ ho' rfl
  · simp [(of_mem_operators ho).2.2.1] at hd'
  · simp [(of_mem_operators ho).2.2.2] at hn'
  · exact absurd hq' (of_mem_operators ho).2.1
  · simp [(of_mem_operators ho').2.2.1] at hd
  · rfl
  · simp [isNameStart_of_isDigit hd] at hn'
  · subst hq'; exact absurd hd (by decide)
  · simp [(of_mem_operators ho').2.2.2] at hn
  · simp [isNameStart_of_isDigit hd'] at hn
  · rfl
  · exact absurd hq' (of_isNameStart hn).2
  · exact absurd rfl (of_mem_operators ho').2.1
  · exact absurd hd' (by decide)
  · exact absurd hn' (by decide)
  · rfl

/-- No text is both a gap and a token. -/
theorem Gap.not_spells (h : Gap p) : ¬ Spells k p := by
  intro hk
  cases h with
  | blank hc =>
    obtain ⟨hd, hn, hs, hq⟩ := of_isBlank hc
    rcases hk.cases_head rfl with ho | ⟨hd', -⟩ | ⟨hn', -⟩ | ⟨hq', -⟩
    · simp [(of_mem_operators ho).1] at hc
    · simp [hd] at hd'
    · simp [hn] at hn'
    · exact hq hq'
  | line _ | block _ =>
    rcases hk.cases_head rfl with ho | ⟨hd', -⟩ | ⟨hn', -⟩ | ⟨hq', -⟩
    · exact absurd (mem_operators_slash ho).2 (by simp)
    · exact absurd hd' (by decide)
    · exact absurd hn' (by decide)
    · exact absurd hq' (by decide)

/-- The longest lexeme at the front of a text is unique. -/
theorem Longest.unique (h : Longest p cs) (h' : Longest p' cs) : p = p' := by
  have hlen : p.length = p'.length :=
    Nat.le_antisymm (h'.2.2 p h.1 h.2.1) (h.2.2 p' h'.1 h'.2.1)
  rw [List.prefix_iff_eq_take.1 h.1, List.prefix_iff_eq_take.1 h'.1, hlen]

/-- The first step of a reading. -/
theorem Tokenizes.cases_first {out : List Item} (h : Tokenizes cs out) :
    (cs = [] ∧ out = []) ∨
    (∃ p rest, cs = p ++ rest ∧ Longest p cs ∧ Gap p ∧ Tokenizes rest out) ∨
    (∃ k p rest out', cs = p ++ rest ∧ Longest p cs ∧ Spells k p ∧ Tokenizes rest out' ∧
      out = .token k p :: out') ∨
    (∃ c rest out', cs = c :: rest ∧ (∀ q, q <+: cs → ¬ Lexeme q) ∧ Tokenizes rest out' ∧
      (c = '"' → '"' ∈ rest) ∧ out = .fault :: out') ∨
    (∃ rest, cs = '"' :: rest ∧ '"' ∉ rest ∧ out = [.fault]) := by
  cases h with
  | nil => exact .inl ⟨rfl, rfl⟩
  | gap hl hg hr => exact .inr (.inl ⟨_, _, rfl, hl, hg, hr⟩)
  | token hl hk hr => exact .inr (.inr (.inl ⟨_, _, _, _, rfl, hl, hk, hr, rfl⟩))
  | stray hn hq hr => exact .inr (.inr (.inr (.inl ⟨_, _, _, rfl, hn, hr, hq, rfl⟩)))
  | unclosed hq => exact .inr (.inr (.inr (.inr ⟨_, rfl, hq, rfl⟩)))

/-- A lexeme at the front of a quote that no quote closes does not exist. -/
theorem not_lexeme_of_unclosed (hq : '"' ∉ rest) (hp : p <+: '"' :: rest) : ¬ Lexeme p := by
  intro hl
  obtain ⟨c, q, rfl⟩ := List.exists_cons_of_ne_nil hl.ne_nil
  obtain ⟨rfl, hqr⟩ := List.cons_prefix_cons.1 hp
  obtain ⟨body, rfl, -⟩ := after_quote.1 (lexeme_cons_iff.1 hl)
  exact hq (hqr.subset (by simp))

/-- A text has at most one maximal-munch reading. -/
theorem Tokenizes.unique {a b : List Item} (ha : Tokenizes cs a) (hb : Tokenizes cs b) :
    a = b := by
  induction ha generalizing b with
  | nil =>
    rcases hb.cases_first with ⟨-, rfl⟩ | ⟨p, _, he, hl, -⟩ | ⟨_, p, _, _, he, hl, -⟩ |
      ⟨_, _, _, he, -⟩ | ⟨_, he, -⟩
    · rfl
    all_goals
      first
        | exact absurd (List.append_eq_nil_iff.1 he.symm).1 hl.2.1.ne_nil
        | simp at he
  | @gap p rest out hl hg _ ih =>
    rcases hb.cases_first with ⟨he, -⟩ | ⟨p', rest', he, hl', -, hr'⟩ |
      ⟨k', p', rest', _, he, hl', hk', -⟩ | ⟨c', rest', _, he, hn, -⟩ | ⟨rest', he, hq, -⟩
    · exact absurd (List.append_eq_nil_iff.1 he).1 hl.2.1.ne_nil
    · obtain rfl := hl.unique hl'
      obtain rfl := List.append_cancel_left he
      exact ih hr'
    · exact absurd ((hl.unique hl') ▸ hk') hg.not_spells
    · exact absurd hl.2.1 (hn p hl.1)
    · exact absurd hl.2.1 (not_lexeme_of_unclosed hq (he ▸ hl.1))
  | @token k p rest out hl hk _ ih =>
    rcases hb.cases_first with ⟨he, -⟩ | ⟨p', rest', he, hl', hg', -⟩ |
      ⟨k', p', rest', _, he, hl', hk', hr', rfl⟩ | ⟨c', rest', _, he, hn, -⟩ | ⟨rest', he, hq, -⟩
    · exact absurd (List.append_eq_nil_iff.1 he).1 hl.2.1.ne_nil
    · exact absurd ((hl.unique hl') ▸ hk) hg'.not_spells
    · obtain rfl := hl.unique hl'
      obtain rfl := List.append_cancel_left he
      rw [hk.kind_unique hk', ih hr']
    · exact absurd hl.2.1 (hn p hl.1)
    · exact absurd hl.2.1 (not_lexeme_of_unclosed hq (he ▸ hl.1))
  | @stray c rest out hn hq _ ih =>
    rcases hb.cases_first with ⟨he, -⟩ | ⟨p', rest', he, hl', -⟩ |
      ⟨k', p', rest', _, he, hl', -⟩ | ⟨c', rest', _, he, -, hr', -, rfl⟩ | ⟨rest', he, hq', -⟩
    · simp at he
    · exact absurd hl'.2.1 (hn p' (he ▸ hl'.1))
    · exact absurd hl'.2.1 (hn p' (he ▸ hl'.1))
    · obtain ⟨rfl, rfl⟩ := List.cons.inj he
      rw [ih hr']
    · obtain ⟨rfl, rfl⟩ := List.cons.inj he
      exact absurd (hq rfl) hq'
  | @unclosed rest hq =>
    rcases hb.cases_first with ⟨he, -⟩ | ⟨p', rest', he, hl', -⟩ |
      ⟨k', p', rest', _, he, hl', -⟩ | ⟨c', rest', _, he, -, -, hq', -⟩ | ⟨rest', he, -, rfl⟩
    · simp at he
    · exact absurd hl'.2.1 (not_lexeme_of_unclosed hq (he ▸ hl'.1))
    · exact absurd hl'.2.1 (not_lexeme_of_unclosed hq (he ▸ hl'.1))
    · obtain ⟨rfl, rfl⟩ := List.cons.inj he
      exact absurd (hq' rfl) hq
    · rfl

end Lox.Lexical
