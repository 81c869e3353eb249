import Lox.Syntax.Parse
import Mathlib.Tactic.Tauto
/-!
# Where parsed names come from

The parser puts tokens of the input into a tree as names (read, assigned or declared), as
parameters, and as the keywords of `this` and `super.member`, and it takes each from a token of
that place's kind: names and parameters from name tokens, keywords from their own tokens.
`Stmt.Sourced T s` says so of a statement, for a property `T` of tokens: every token in those
places has the place's kind and satisfies `T`. Property and member names, which no scope binds,
are left out.

Each rule of the grammar gets one lemma, `_gives`, proved by the same recursion as the rule:
from a cursor whose tokens all satisfy `T`, what it reads is sourced, and the cursor it stops
at, after a phrase or a fault, has only such tokens left. So a program read from tokens that
satisfy `T` is sourced (`parseProgram_sourced`, `parseExpression_sourced`). What `T` says (that
no name is a keyword, that keywords are spelled as themselves) is up to the scanner.
-/

namespace Lox

/-- `t` was read as a token of kind `k` that satisfies `T`. -/
def Token.ReadAs (T : Token → Prop) (k : TokenKind) (t : Token) : Prop := t.kind = k ∧ T t

/-- Parameters each read as a name token that satisfies `T`. -/
def NamesRead (T : Token → Prop) (params : List Token) : Prop :=
  ∀ p ∈ params, p.ReadAs T .identifier

mutual

/-- Every name, `this` and `super` of the expression, and every parameter of its anonymous
functions, was read as a token of its kind that satisfies `T`. -/
inductive Expr.Sourced (T : Token → Prop) : Expr → Prop
  | assign {r v} : r.name.ReadAs T .identifier → Expr.Sourced T v →
      Expr.Sourced T (.assign r v)
  | binary {l op t r} : Expr.Sourced T l → Expr.Sourced T r → Expr.Sourced T (.binary l op t r)
  | call {callee paren args} : Expr.Sourced T callee → (∀ e ∈ args, Expr.Sourced T e) →
      Expr.Sourced T (.call callee paren args)
  | get {obj name} : Expr.Sourced T obj → Expr.Sourced T (.get obj name)
  | lambda {keyword params body} : NamesRead T params → (∀ s ∈ body, Stmt.Sourced T s) →
      Expr.Sourced T (.lambda keyword params body)
  | grouping {e} : Expr.Sourced T e → Expr.Sourced T (.grouping e)
  | literal {l} : Expr.Sourced T (.literal l)
  | logical {l op t r} : Expr.Sourced T l → Expr.Sourced T r →
      Expr.Sourced T (.logical l op t r)
  | set {obj name v} : Expr.Sourced T obj → Expr.Sourced T v → Expr.Sourced T (.set obj name v)
  | superMember {keyword member} : keyword.name.ReadAs T .super →
      Expr.Sourced T (.superMember keyword member)
  | conditional {c q x y} : Expr.Sourced T c → Expr.Sourced T x → Expr.Sourced T y →
      Expr.Sourced T (.conditional c q x y)
  | this {r} : r.name.ReadAs T .this → Expr.Sourced T (.this r)
  | unary {op t e} : Expr.Sourced T e → Expr.Sourced T (.unary op t e)
  | «variable» {r} : r.name.ReadAs T .identifier → Expr.Sourced T (.variable r)

/-- Every name, `this` and `super` of the statement, and every parameter of its functions, was
read as a token of its kind that satisfies `T`. -/
inductive Stmt.Sourced (T : Token → Prop) : Stmt → Prop
  | block {body} : (∀ s ∈ body, Stmt.Sourced T s) → Stmt.Sourced T (.block body)
  | breakLoop {keyword} : Stmt.Sourced T (.breakLoop keyword)
  | classDecl {name sup methods getters statics staticGetters} : name.ReadAs T .identifier →
      (∀ r, sup = some r → r.name.ReadAs T .identifier) →
      (∀ f ∈ methods ++ getters ++ statics ++ staticGetters, NamesRead T f.params) →
      (∀ f ∈ methods ++ getters ++ statics ++ staticGetters, ∀ s ∈ f.body, Stmt.Sourced T s) →
      Stmt.Sourced T (.classDecl name sup methods getters statics staticGetters)
  | expression {e} : Expr.Sourced T e → Stmt.Sourced T (.expression e)
  | function {name params body} : name.ReadAs T .identifier → NamesRead T params →
      (∀ s ∈ body, Stmt.Sourced T s) → Stmt.Sourced T (.function (.mk name params body))
  | ifElse {c t e} : Expr.Sourced T c → Stmt.Sourced T t → (∀ s, e = some s → Stmt.Sourced T s) →
      Stmt.Sourced T (.ifElse c t e)
  | print {e} : Expr.Sourced T e → Stmt.Sourced T (.print e)
  | returnFrom {keyword value} : (∀ e, value = some e → Expr.Sourced T e) →
      Stmt.Sourced T (.returnFrom keyword value)
  | varDecl {name init} : name.ReadAs T .identifier → (∀ e, init = some e → Expr.Sourced T e) →
      Stmt.Sourced T (.varDecl name init)
  | whileLoop {c body} : Expr.Sourced T c → Stmt.Sourced T body →
      Stmt.Sourced T (.whileLoop c body)

end

/-- A function whose parameters and body are sourced. -/
def FunDecl.Sourced (T : Token → Prop) (f : FunDecl) : Prop :=
  NamesRead T f.params ∧ ∀ s ∈ f.body, Stmt.Sourced T s

variable {T : Token → Prop}

theorem Expr.Sourced.variable_name {r : Reference} (h : Expr.Sourced T (.variable r)) :
    r.name.ReadAs T .identifier := by
  cases h with
  | «variable» h => exact h

theorem Expr.Sourced.get_obj {obj : Expr} {name : Token} (h : Expr.Sourced T (.get obj name)) :
    Expr.Sourced T obj := by
  cases h with
  | get h => exact h

theorem all_pair {γ : Type} {R : γ → Prop} {a b : γ} (ha : R a) (hb : R b) : ∀ x ∈ [a, b], R x := by
  intro x hx
  simp only [List.mem_cons, List.not_mem_nil, or_false] at hx
  rcases hx with rfl | rfl
  · exact ha
  · exact hb

theorem all_push {γ : Type} {R : γ → Prop} {acc : Array γ} (hacc : ∀ x ∈ acc.toList, R x) {x : γ}
    (hx : R x) : ∀ y ∈ (acc.push x).toList, R y := by
  intro y hy
  simp only [Array.toList_push, List.mem_append, List.mem_singleton] at hy
  rcases hy with hy | rfl
  · exact hacc y hy
  · exact hx

namespace Parse

/-- Every token still to read satisfies `T`. -/
def Cursor.All (T : Token → Prop) (c : Cursor) : Prop := ∀ t ∈ c.tokens, T t

/-- The members of a class body, each sourced. -/
def Members.Sourced (T : Token → Prop) (m : Members) : Prop :=
  ∀ f ∈ m.methods ++ m.getters ++ m.statics ++ m.staticGetters, f.Sourced T

/-- A step of the parser from `c` that reads what satisfies `P`, if it reads anything, and
stops, after a phrase or a fault, at a cursor whose tokens all satisfy `T`. -/
def Gives (T : Token → Prop) {c : Cursor} {α : Type} {p : Cursor → Prop} (P : α → Prop)
    (r : Except (Failure c) (α × Subtype p)) : Prop :=
  (∀ a d, r = .ok (a, d) → P a ∧ d.1.All T) ∧ ∀ f d, r = .error (f, d) → d.1.All T

variable {α β : Type} {P : α → Prop} {Q : β → Prop} {c d : Cursor} {p q : Cursor → Prop}

theorem Gives.ok {a : α} {e : Subtype p} (ha : P a) (he : e.1.All T) :
    Gives (c := c) T P (.ok (a, e)) :=
  ⟨fun _ _ h => (by cases h; exact ⟨ha, he⟩), fun _ _ h => by cases h⟩

theorem Gives.error {f : ParseFault} {e : Upto c} (he : e.1.All T) :
    Gives (p := p) T P (.error (f, e) : Except (Failure c) (α × Subtype p)) :=
  ⟨fun _ _ h => (by cases h), fun _ _ h => by cases h; exact he⟩

theorem Gives.mono {r : Except (Failure c) (α × Subtype p)} (hr : Gives T P r)
    {P' : α → Prop} (h : ∀ a, P a → P' a) : Gives T P' r :=
  ⟨fun a e he => (hr.1 a e he).imp_left (h a), hr.2⟩

/-- Going on after a phrase read from `d`: what the rest reads from the cursor the phrase
stopped at. -/
theorem Gives.andThen {h : d.size ≤ c.size} {r : Reads d α}
    {k : α → Past c → Except (Failure c) (β × Subtype q)} (hr : Gives T P r)
    (hk : ∀ a (e : Past c), P a → e.1.All T → Gives T Q (k a e)) :
    Gives T Q (r.andThen h k) := by
  unfold Reads.andThen
  split
  · exact Gives.error (hr.2 _ _ rfl)
  · rename_i a e he
    exact hk a _ (hr.1 a ⟨e, he⟩ rfl).1 (hr.1 a ⟨e, he⟩ rfl).2

theorem Gives.scansAndThen {h : d.size ≤ c.size} {r : Scans d α}
    {k : α → Upto c → Except (Failure c) (β × Subtype q)} (hr : Gives T P r)
    (hk : ∀ a (e : Upto c), P a → e.1.All T → Gives T Q (k a e)) :
    Gives T Q (Scans.andThen h r k) := by
  unfold Scans.andThen
  split
  · exact Gives.error (hr.2 _ _ rfl)
  · rename_i a e he
    exact hk a _ (hr.1 a ⟨e, he⟩ rfl).1 (hr.1 a ⟨e, he⟩ rfl).2

theorem Gives.andThenPast {h : d.size < c.size} {r : Scans d α}
    {k : α → Past c → Except (Failure c) (β × Subtype q)} (hr : Gives T P r)
    (hk : ∀ a (e : Past c), P a → e.1.All T → Gives T Q (k a e)) :
    Gives T Q (Scans.andThenPast h r k) := by
  unfold Scans.andThenPast
  split
  · exact Gives.error (hr.2 _ _ rfl)
  · rename_i a e he
    exact hk a _ (hr.1 a ⟨e, he⟩ rfl).1 (hr.1 a ⟨e, he⟩ rfl).2

theorem Gives.lift {h : d.size ≤ c.size} {r : Reads d α} (hr : Gives T P r) :
    Gives T P (r.lift h) :=
  Gives.andThen hr fun _ _ ha he => Gives.ok ha he

theorem Gives.map {r : Reads c α} {f : α → β} (hr : Gives T P r) (hf : ∀ a, P a → Q (f a)) :
    Gives T Q (r.map f) :=
  Gives.andThen hr fun a _ ha he => Gives.ok (hf a ha) he

theorem Cursor.next_all (hc : c.All T) {t : Token} {e : Past c} (h : c.next = some (t, e)) :
    T t ∧ e.1.All T := by
  unfold Cursor.next at h
  split at h
  · cases h
  · rename_i u rest hc'
    cases h
    refine ⟨hc t ?_, fun u hu => hc u ?_⟩
    · simp [hc']
    · simp [hc', hu]

theorem Cursor.nextIf_all (hc : c.All T) {k : TokenKind} {t : Token} {e : Past c}
    (h : c.nextIf k = some (t, e)) : t.ReadAs T k ∧ e.1.All T := by
  unfold Cursor.nextIf at h
  split at h
  · rename_i t' e' heq
    split at h
    · cases h
      exact ⟨⟨‹_›, (c.next_all hc heq).1⟩, (c.next_all hc heq).2⟩
    · cases h
  · cases h

/-- Expecting a kind of token reads a token of that kind. -/
theorem Cursor.expect_gives (hc : c.All T) (k : TokenKind) (w : Expectation) :
    Gives T (Token.ReadAs T k) (c.expect k w) := by
  unfold Cursor.expect
  split
  · rename_i t d hd heq
    obtain ⟨ht, he⟩ := c.next_all hc heq
    split
    · exact Gives.ok ⟨‹_›, ht⟩ he
    · exact Gives.error he
  · exact Gives.error hc

/-! ## Sourced trees -/

theorem Infix.build_sourced (op : Infix) {l r : Expr} (t : Token) (hl : Expr.Sourced T l)
    (hr : Expr.Sourced T r) : Expr.Sourced T (op.build l t r) := by
  cases op with
  | logical op => exact .logical hl hr
  | binary op => exact .binary hl hr

theorem Members.Sourced.add {acc m : Members} (hacc : acc.Sourced T) {f : FunDecl}
    (hf : f.Sourced T)
    (h : ∀ g ∈ m.methods ++ m.getters ++ m.statics ++ m.staticGetters,
      g ∈ acc.methods ++ acc.getters ++ acc.statics ++ acc.staticGetters ∨ g = f) :
    m.Sourced T := by
  intro g hg
  rcases h g hg with hg | rfl
  · exact hacc g hg
  · exact hf

theorem parameterList_gives (acc : Array Token) (c : Cursor) (hacc : NamesRead T acc.toList)
    (hc : c.All T) : Gives T (NamesRead T) (parameterList acc c) := by
  rw [parameterList]
  refine Gives.andThen (c.expect_gives hc _ _) fun p ⟨c1, h1⟩ hp hc1 => ?_
  have hacc' : NamesRead T (acc.push p).toList := all_push hacc hp
  dsimp only
  split
  · exact Gives.error hc1
  · split
    · exact Gives.ok hacc' hc1
    · rename_i c2 h2 heq
      exact Gives.lift
        (parameterList_gives (acc.push p) c2 hacc' (Cursor.nextIf_all hc1 heq).2)
termination_by c.size
decreasing_by omega

theorem parameters_gives (kind : FunctionKind) (c : Cursor) (hc : c.All T) :
    Gives T (NamesRead T) (parameters kind c) := by
  rw [parameters]
  refine Gives.andThen (c.expect_gives hc _ _) fun _ ⟨c1, h1⟩ _ hc1 => ?_
  dsimp only
  split
  · exact Gives.andThen (Cursor.expect_gives hc1 _ _) fun _ e _ he =>
      Gives.ok (fun _ h => by cases h) he
  · refine Gives.andThen (parameterList_gives #[] c1 (fun _ h => by simp at h) hc1)
      fun ps ⟨c2, h2⟩ hps hc2 => ?_
    exact Gives.andThen (Cursor.expect_gives hc2 _ _) fun _ e _ he => Gives.ok hps he

theorem superclassClause_gives (c : Cursor) (hc : c.All T) :
    Gives T (fun o => ∀ r : Reference, o = some r → r.name.ReadAs T .identifier)
      (superclassClause c) := by
  cases heq : c.nextIf .less with
  | some r =>
    obtain ⟨t, c1, h1⟩ := r
    simp only [superclassClause, heq]
    exact Gives.andThen (Cursor.expect_gives (Cursor.nextIf_all hc heq).2 _ _)
      fun _ ⟨_, _⟩ hn hd => Gives.ok (fun _ h => by cases h; exact hn) hd
  | none =>
    simp only [superclassClause, heq]
    exact Gives.ok (fun _ h => by cases h) hc

/-! ## Every rule of the grammar

Each call reads on from a cursor with fewer tokens, or descends a level of the grammar at the
same cursor; `omega` proves the measure drops from the cursor facts in scope.
-/

mutual

theorem primary_gives (c : Cursor) (hc : c.All T) : Gives T (Expr.Sourced T) (primary c) := by
  rw [primary]
  split
  · exact Gives.error hc
  · rename_i t c1 h1 heq
    obtain ⟨ht, hc1⟩ := c.next_all hc heq
    -- `false`, `true`, `nil`, numbers and strings are literals
    split
    · exact Gives.ok .literal hc1
    · exact Gives.ok .literal hc1
    · exact Gives.ok .literal hc1
    · exact Gives.ok .literal hc1
    · exact Gives.ok .literal hc1
    · refine Gives.andThen (expression_gives c1 hc1) fun e ⟨c2, h2⟩ he hc2 => ?_
      exact Gives.andThen (Cursor.expect_gives hc2 _ _) fun _ d _ hd => Gives.ok (.grouping he) hd
    · exact Gives.ok (.variable ⟨‹_›, ht⟩) hc1
    · exact Gives.ok (.this ⟨‹_›, ht⟩) hc1
    · refine Gives.andThen (Cursor.expect_gives hc1 _ _) fun _ ⟨c2, h2⟩ _ hc2 => ?_
      exact Gives.andThen (Cursor.expect_gives hc2 _ _) fun _ d _ hd =>
        Gives.ok (.superMember ⟨‹_›, ht⟩) hd
    · exact Gives.lift (lambda_gives t c1 hc1)
    · exact Gives.error hc1
termination_by c.size * 32 + 1
decreasing_by all_goals omega

theorem callSuffix_gives (e : Expr) (c : Cursor) (he : Expr.Sourced T e) (hc : c.All T) :
    Gives T (Expr.Sourced T) (callSuffix e c) := by
  rw [callSuffix]
  split
  · rename_i t c1 h1 heq
    have hc1 := (c.next_all hc heq).2
    split
    · refine Gives.andThen (finishCall_gives e c1 he hc1) fun e' ⟨c2, h2⟩ he' hc2 => ?_
      exact Gives.scansAndThen (callSuffix_gives e' c2 he' hc2) fun r d hr hd => Gives.ok hr hd
    · split
      · refine Gives.andThen (Cursor.expect_gives hc1 _ _) fun name ⟨c2, h2⟩ _ hc2 => ?_
        exact Gives.scansAndThen (callSuffix_gives (.get e name) c2 (.get he) hc2)
          fun r d hr hd => Gives.ok hr hd
      · exact Gives.ok he hc
  · exact Gives.ok he hc
termination_by c.size * 32 + 2
decreasing_by all_goals omega

theorem call_gives (c : Cursor) (hc : c.All T) : Gives T (Expr.Sourced T) (call c) := by
  rw [call]
  refine Gives.andThen (primary_gives c hc) fun e ⟨c1, h1⟩ he hc1 => ?_
  exact Gives.andThenPast (callSuffix_gives e c1 he hc1) fun r d hr hd => Gives.ok hr hd
termination_by c.size * 32 + 3
decreasing_by all_goals omega

theorem unary_gives (c : Cursor) (hc : c.All T) : Gives T (Expr.Sourced T) (unary c) := by
  rw [unary]
  split
  · rename_i t c1 h1 heq
    have hc1 := (c.next_all hc heq).2
    split
    · exact Gives.andThen (unary_gives c1 hc1) fun e d he hd => Gives.ok (.unary he) hd
    · exact call_gives c hc
  · exact call_gives c hc
termination_by c.size * 32 + 4
decreasing_by all_goals omega

theorem binaryAt_gives (n : Nat) (c : Cursor) (hc : c.All T) :
    Gives T (Expr.Sourced T) (binaryAt n c) := by
  cases n with
  | zero =>
    rw [binaryAt]
    exact unary_gives c hc
  | succ n =>
    rw [binaryAt]
    refine Gives.andThen (binaryAt_gives n c hc) fun left ⟨c1, h1⟩ hl hc1 => ?_
    exact Gives.andThenPast (chainAt_gives n left c1 hl hc1) fun e d he hd => Gives.ok he hd
termination_by c.size * 32 + 5 + n
decreasing_by all_goals omega

theorem chainAt_gives (n : Nat) (left : Expr) (c : Cursor) (hl : Expr.Sourced T left)
    (hc : c.All T) : Gives T (Expr.Sourced T) (chainAt n left c) := by
  rw [chainAt]
  split
  · rename_i t c1 h1 heq
    have hc1 := (c.next_all hc heq).2
    split
    · rename_i op _
      refine Gives.andThen (binaryAt_gives n c1 hc1) fun right ⟨c2, h2⟩ hr hc2 => ?_
      exact Gives.scansAndThen
        (chainAt_gives n (op.build left t right) c2 (Infix.build_sourced op t hl hr) hc2)
        fun e d he hd => Gives.ok he hd
    · exact Gives.ok hl hc
  · exact Gives.ok hl hc
termination_by c.size * 32 + 5 + n
decreasing_by all_goals omega

theorem ternary_gives (c : Cursor) (hc : c.All T) : Gives T (Expr.Sourced T) (ternary c) := by
  rw [ternary]
  refine Gives.andThen (binaryAt_gives 10 c hc) fun cond ⟨c1, h1⟩ hcond hc1 => ?_
  dsimp only
  split
  · exact Gives.ok hcond hc1
  · rename_i q c2 h2 heq
    refine Gives.andThen (expression_gives c2 (Cursor.nextIf_all hc1 heq).2)
      fun thenB ⟨c3, h3⟩ ht hc3 => ?_
    refine Gives.andThen (Cursor.expect_gives hc3 _ _) fun _ ⟨c4, h4⟩ _ hc4 => ?_
    exact Gives.andThen (ternary_gives c4 hc4) fun elseB d he hd =>
      Gives.ok (.conditional hcond ht he) hd
termination_by c.size * 32 + 16
decreasing_by all_goals omega

/-- An assignment's target is a name, read from a name token, or a property. -/
theorem assignment_gives (c : Cursor) (hc : c.All T) :
    Gives T (Expr.Sourced T) (assignment c) := by
  rw [assignment]
  refine Gives.andThen (ternary_gives c hc) fun target ⟨c1, h1⟩ htg hc1 => ?_
  dsimp only
  split
  · exact Gives.ok htg hc1
  · rename_i eq c2 h2 heq
    refine Gives.andThen (assignment_gives c2 (Cursor.nextIf_all hc1 heq).2)
      fun value ⟨c3, h3⟩ hv hc3 => ?_
    split
    · exact Gives.ok (.assign htg.variable_name hv) hc3
    · exact Gives.ok (.set htg.get_obj hv) hc3
    · exact Gives.error hc3
termination_by c.size * 32 + 17
decreasing_by all_goals omega

theorem expression_gives (c : Cursor) (hc : c.All T) :
    Gives T (Expr.Sourced T) (expression c) := by
  rw [expression]
  exact assignment_gives c hc
termination_by c.size * 32 + 18
decreasing_by all_goals omega

theorem arguments_gives (acc : Array Expr) (c : Cursor) (hacc : ∀ e ∈ acc.toList, Expr.Sourced T e)
    (hc : c.All T) : Gives T (fun l => ∀ e ∈ l, Expr.Sourced T e) (arguments acc c) := by
  rw [arguments]
  refine Gives.andThen (expression_gives c hc) fun arg ⟨c1, h1⟩ ha hc1 => ?_
  have hacc' := all_push hacc ha
  dsimp only
  split
  · exact Gives.error hc1
  · split
    · rename_i c2 h2 heq
      exact Gives.lift (arguments_gives (acc.push arg) c2 hacc' (Cursor.nextIf_all hc1 heq).2)
    · exact Gives.ok hacc' hc1
termination_by c.size * 32 + 19
decreasing_by all_goals omega

theorem finishCall_gives (callee : Expr) (c : Cursor) (hcallee : Expr.Sourced T callee)
    (hc : c.All T) : Gives T (Expr.Sourced T) (finishCall callee c) := by
  rw [finishCall]
  split
  · exact Gives.andThen (Cursor.expect_gives hc _ _) fun _ e _ he =>
      Gives.ok (.call hcallee fun _ h => by cases h) he
  · refine Gives.andThen (arguments_gives #[] c (fun _ h => by simp at h) hc)
      fun args ⟨c1, h1⟩ hargs hc1 => ?_
    exact Gives.andThen (Cursor.expect_gives hc1 _ _) fun _ e _ he =>
      Gives.ok (.call hcallee hargs) he
termination_by c.size * 32 + 20
decreasing_by all_goals omega

theorem lambda_gives (keyword : Token) (c : Cursor) (hc : c.All T) :
    Gives T (Expr.Sourced T) (lambda keyword c) := by
  rw [lambda]
  refine Gives.andThen (parameters_gives .lambda c hc) fun params ⟨c1, h1⟩ hp hc1 => ?_
  refine Gives.andThen (Cursor.expect_gives hc1 _ _) fun _ ⟨c2, h2⟩ _ hc2 => ?_
  exact Gives.andThen (block_gives c2 hc2) fun body e hb he => Gives.ok (.lambda hp hb) he
termination_by c.size * 32 + 1
decreasing_by all_goals omega

theorem functionRest_gives (name : Token) (kind : FunctionKind) (c : Cursor) (hc : c.All T) :
    Gives T (fun f => f.name = name ∧ f.Sourced T) (functionRest name kind c) := by
  rw [functionRest]
  refine Gives.andThen (parameters_gives kind c hc) fun params ⟨c1, h1⟩ hp hc1 => ?_
  refine Gives.andThen (Cursor.expect_gives hc1 _ _) fun _ ⟨c2, h2⟩ _ hc2 => ?_
  exact Gives.andThen (block_gives c2 hc2) fun body e hb he => Gives.ok ⟨rfl, hp, hb⟩ he
termination_by c.size * 32 + 1
decreasing_by all_goals omega

theorem function_gives (c : Cursor) (hc : c.All T) :
    Gives T (fun f => f.name.ReadAs T .identifier ∧ f.Sourced T) (function c) := by
  rw [function]
  refine Gives.andThen (c.expect_gives hc _ _) fun name ⟨c1, h1⟩ hn hc1 => ?_
  exact (Gives.lift (functionRest_gives name .function c1 hc1)).mono fun f ⟨hname, hf⟩ =>
    ⟨hname ▸ hn, hf⟩
termination_by c.size * 32 + 1
decreasing_by all_goals omega

theorem classBody_gives (acc : Members) (c : Cursor) (hacc : acc.Sourced T) (hc : c.All T) :
    Gives T (Members.Sourced T) (classBody acc c) := by
  rw [classBody]
  split
  · exact Gives.andThen (Cursor.expect_gives hc _ _) fun _ e _ he => Gives.ok hacc he
  · -- the member, `class` first if it belongs to the class itself
    split
    rename_i isStatic c1 h1 heq
    have hc1 : c1.All T := by
      split at heq
      · rename_i hnext
        cases heq
        exact (Cursor.nextIf_all hc hnext).2
      · cases heq
        exact hc
    refine Gives.andThen (Cursor.expect_gives hc1 _ _) fun name ⟨c2, h2⟩ _ hc2 => ?_
    dsimp only
    split
    · refine Gives.andThen (functionRest_gives name _ c2 hc2)
        fun decl ⟨c3, h3⟩ ⟨_, hdecl⟩ hc3 => Gives.lift (classBody_gives _ c3 ?_ hc3)
      split <;> exact hacc.add hdecl fun g hg => by
        simp only [List.mem_append, List.mem_singleton] at hg ⊢
        tauto
    · split
      · rename_i c3 h3 heq3
        refine Gives.andThen (block_gives c3 (Cursor.nextIf_all hc2 heq3).2)
          fun body ⟨c4, h4⟩ hb hc4 => Gives.lift (classBody_gives _ c4 ?_ hc4)
        have hgetter : FunDecl.Sourced T (.mk name [] body) := ⟨fun _ h => (by cases h), hb⟩
        split <;> exact hacc.add hgetter fun g hg => by
          simp only [List.mem_append, List.mem_singleton] at hg ⊢
          tauto
      · split
        · exact Gives.error (c2.next_all hc2 ‹_›).2
        · exact Gives.error hc2
termination_by c.size * 32 + 1
decreasing_by all_goals omega

theorem classDeclaration_gives (c : Cursor) (hc : c.All T) :
    Gives T (Stmt.Sourced T) (classDeclaration c) := by
  rw [classDeclaration]
  refine Gives.andThen (c.expect_gives hc _ _) fun name ⟨c1, h1⟩ hn hc1 => ?_
  refine Gives.andThenPast (superclassClause_gives c1 hc1) fun sup ⟨c2, h2⟩ hsup hc2 => ?_
  refine Gives.andThen (Cursor.expect_gives hc2 _ _) fun _ ⟨c3, h3⟩ _ hc3 => ?_
  exact Gives.andThen (classBody_gives {} c3 (fun _ h => by simp at h) hc3) fun m e hm he =>
    Gives.ok (.classDecl hn hsup (fun f hf => (hm f hf).1) fun f hf => (hm f hf).2) he
termination_by c.size * 32 + 1
decreasing_by all_goals omega

theorem varDeclaration_gives (c : Cursor) (hc : c.All T) :
    Gives T (Stmt.Sourced T) (varDeclaration c) := by
  rw [varDeclaration]
  refine Gives.andThen (c.expect_gives hc _ _) fun name ⟨c1, h1⟩ hn hc1 => ?_
  dsimp only
  split
  · rename_i c2 h2 heq
    refine Gives.andThen (expression_gives c2 (Cursor.nextIf_all hc1 heq).2)
      fun init ⟨c3, h3⟩ hi hc3 => ?_
    exact Gives.andThen (Cursor.expect_gives hc3 _ _) fun _ e _ he =>
      Gives.ok (.varDecl hn fun _ h => by cases h; exact hi) he
  · exact Gives.andThen (Cursor.expect_gives hc1 _ _) fun _ e _ he =>
      Gives.ok (.varDecl hn fun _ h => by cases h) he
termination_by c.size * 32 + 1
decreasing_by all_goals omega

theorem expressionStatement_gives (c : Cursor) (hc : c.All T) :
    Gives T (Stmt.Sourced T) (expressionStatement c) := by
  rw [expressionStatement]
  refine Gives.andThen (expression_gives c hc) fun e ⟨c1, h1⟩ he hc1 => ?_
  exact Gives.andThen (Cursor.expect_gives hc1 _ _) fun _ d _ hd => Gives.ok (.expression he) hd
termination_by c.size * 32 + 19
decreasing_by all_goals omega

theorem forInitializer_gives (c : Cursor) (hc : c.All T) :
    Gives T (fun o => ∀ s, o = some s → Stmt.Sourced T s) (forInitializer c) := by
  rw [forInitializer]
  split
  · exact Gives.ok (fun _ h => by cases h) (Cursor.nextIf_all hc ‹_›).2
  · split
    · rename_i c1 h1 heq
      exact Gives.andThen (varDeclaration_gives c1 (Cursor.nextIf_all hc heq).2)
        fun s e hs he => Gives.ok (fun _ h => by cases h; exact hs) he
    · refine Gives.andThen (expression_gives c hc) fun e ⟨c1, h1⟩ he hc1 => ?_
      exact Gives.andThen (Cursor.expect_gives hc1 _ _) fun _ d _ hd =>
        Gives.ok (fun _ h => by cases h; exact .expression he) hd
termination_by c.size * 32 + 19
decreasing_by all_goals omega

theorem optionalExpression_gives (stop : TokenKind) (c : Cursor) (hc : c.All T) :
    Gives T (fun o => ∀ e, o = some e → Expr.Sourced T e) (optionalExpression stop c) := by
  rw [optionalExpression]
  split
  · exact Gives.ok (fun _ h => by cases h) hc
  · exact Gives.andThen (expression_gives c hc) fun e ⟨_, _⟩ he hd =>
      Gives.ok (fun _ h => by cases h; exact he) hd
termination_by c.size * 32 + 19
decreasing_by all_goals omega

/-- A `for` loop is read as the `while` loop it stands for. -/
theorem forStatement_gives (c : Cursor) (hc : c.All T) :
    Gives T (Stmt.Sourced T) (forStatement c) := by
  rw [forStatement]
  refine Gives.andThen (c.expect_gives hc _ _) fun _ ⟨c1, h1⟩ _ hc1 => ?_
  refine Gives.andThen (forInitializer_gives c1 hc1) fun init ⟨c2, h2⟩ hinit hc2 => ?_
  refine Gives.andThenPast (optionalExpression_gives _ c2 hc2) fun cond ⟨c3, h3⟩ hcond hc3 => ?_
  refine Gives.andThen (Cursor.expect_gives hc3 _ _) fun _ ⟨c4, h4⟩ _ hc4 => ?_
  refine Gives.andThenPast (optionalExpression_gives _ c4 hc4) fun incr ⟨c5, h5⟩ hincr hc5 => ?_
  refine Gives.andThen (Cursor.expect_gives hc5 _ _) fun _ ⟨c6, h6⟩ _ hc6 => ?_
  refine Gives.andThen (statement_gives c6 hc6) fun body e hbody he => Gives.ok ?_ he
  have hcond' : Expr.Sourced T (cond.getD (.literal (.bool true))) := by
    cases cond with
    | none => exact .literal
    | some e => exact hcond e rfl
  -- the body runs before the increment, and the initializer before the loop
  cases incr with
  | none =>
    cases init with
    | none => exact .whileLoop hcond' hbody
    | some s => exact .block (all_pair (hinit s rfl) (.whileLoop hcond' hbody))
  | some i =>
    have hloop : Stmt.Sourced T (.whileLoop _ _) :=
      .whileLoop hcond' (.block (all_pair hbody (.expression (hincr i rfl))))
    cases init with
    | none => exact hloop
    | some s => exact .block (all_pair (hinit s rfl) hloop)
termination_by c.size * 32 + 1
decreasing_by all_goals omega

theorem ifStatement_gives (c : Cursor) (hc : c.All T) :
    Gives T (Stmt.Sourced T) (ifStatement c) := by
  rw [ifStatement]
  refine Gives.andThen (c.expect_gives hc _ _) fun _ ⟨c1, h1⟩ _ hc1 => ?_
  refine Gives.andThen (expression_gives c1 hc1) fun cond ⟨c2, h2⟩ hcond hc2 => ?_
  refine Gives.andThen (Cursor.expect_gives hc2 _ _) fun _ ⟨c3, h3⟩ _ hc3 => ?_
  refine Gives.andThen (statement_gives c3 hc3) fun thenB ⟨c4, h4⟩ ht hc4 => ?_
  dsimp only
  split
  · rename_i c5 h5 heq
    exact Gives.andThen (statement_gives c5 (Cursor.nextIf_all hc4 heq).2) fun elseB e he hd =>
      Gives.ok (.ifElse hcond ht fun _ h => by cases h; exact he) hd
  · exact Gives.ok (.ifElse hcond ht fun _ h => by cases h) hc4
termination_by c.size * 32 + 1
decreasing_by all_goals omega

theorem whileStatement_gives (c : Cursor) (hc : c.All T) :
    Gives T (Stmt.Sourced T) (whileStatement c) := by
  rw [whileStatement]
  refine Gives.andThen (c.expect_gives hc _ _) fun _ ⟨c1, h1⟩ _ hc1 => ?_
  refine Gives.andThen (expression_gives c1 hc1) fun cond ⟨c2, h2⟩ hcond hc2 => ?_
  refine Gives.andThen (Cursor.expect_gives hc2 _ _) fun _ ⟨c3, h3⟩ _ hc3 => ?_
  exact Gives.andThen (statement_gives c3 hc3) fun body e hb he =>
    Gives.ok (.whileLoop hcond hb) he
termination_by c.size * 32 + 1
decreasing_by all_goals omega

theorem statement_gives (c : Cursor) (hc : c.All T) : Gives T (Stmt.Sourced T) (statement c) := by
  rw [statement]
  split
  · rename_i t c1 h1 heq
    have hc1 := (c.next_all hc heq).2
    split
    · exact Gives.lift (forStatement_gives c1 hc1)
    · exact Gives.lift (ifStatement_gives c1 hc1)
    · exact Gives.andThen (block_gives c1 hc1) fun body e hb he => Gives.ok (.block hb) he
    · exact Gives.lift (whileStatement_gives c1 hc1)
    · split
      · exact Gives.andThen (Cursor.expect_gives hc1 _ _) fun _ e _ he =>
          Gives.ok (.returnFrom fun _ h => by cases h) he
      · refine Gives.andThen (expression_gives c1 hc1) fun v ⟨c2, h2⟩ hv hc2 => ?_
        exact Gives.andThen (Cursor.expect_gives hc2 _ _) fun _ e _ he =>
          Gives.ok (.returnFrom fun _ h => by cases h; exact hv) he
    · exact Gives.andThen (Cursor.expect_gives hc1 _ _) fun _ e _ he => Gives.ok .breakLoop he
    · refine Gives.andThen (expression_gives c1 hc1) fun v ⟨c2, h2⟩ hv hc2 => ?_
      exact Gives.andThen (Cursor.expect_gives hc2 _ _) fun _ e _ he => Gives.ok (.print hv) he
    · exact expressionStatement_gives c hc
  · exact expressionStatement_gives c hc
termination_by c.size * 32 + 21
decreasing_by all_goals omega

theorem declaration_gives (c : Cursor) (hc : c.All T) :
    Gives T (Stmt.Sourced T) (declaration c) := by
  rw [declaration]
  split
  · rename_i t c1 h1 heq
    have hc1 := (c.next_all hc heq).2
    split
    · exact Gives.lift (classDeclaration_gives c1 hc1)
    · split
      · exact Gives.lift ((function_gives c1 hc1).map fun ⟨_, _, _⟩ hf =>
          .function hf.1 hf.2.1 hf.2.2)
      · refine Gives.andThen (lambda_gives t c1 hc1) fun f ⟨c2, h2⟩ hf hc2 => ?_
        refine Gives.andThenPast (callSuffix_gives f c2 hf hc2) fun e ⟨c3, h3⟩ he hc3 => ?_
        exact Gives.andThen (Cursor.expect_gives hc3 _ _) fun _ d _ hd =>
          Gives.ok (.expression he) hd
    · exact Gives.lift (varDeclaration_gives c1 hc1)
    · exact statement_gives c hc
  · exact statement_gives c hc
termination_by c.size * 32 + 22
decreasing_by all_goals omega

theorem blockFrom_gives (acc : Array Stmt) (c : Cursor) (hacc : ∀ s ∈ acc.toList, Stmt.Sourced T s)
    (hc : c.All T) : Gives T (fun l => ∀ s ∈ l, Stmt.Sourced T s) (blockFrom acc c) := by
  rw [blockFrom]
  split
  · exact Gives.andThen (Cursor.expect_gives hc _ _) fun _ e _ he => Gives.ok hacc he
  · refine Gives.andThen (declaration_gives c hc) fun s ⟨c1, h1⟩ hs hc1 => ?_
    exact Gives.lift (blockFrom_gives (acc.push s) c1 (all_push hacc hs) hc1)
termination_by c.size * 32 + 23
decreasing_by all_goals omega

theorem block_gives (c : Cursor) (hc : c.All T) :
    Gives T (fun l => ∀ s ∈ l, Stmt.Sourced T s) (block c) := by
  rw [block]
  exact blockFrom_gives #[] c (fun _ h => by simp at h) hc
termination_by c.size * 32 + 24
decreasing_by all_goals omega

end

/-! ## Programs and expressions -/

theorem skipStatement_all (line : Nat) :
    ∀ ts : List Token, (∀ t ∈ ts, T t) → (skipStatement line ts).All T
  | [], _ => fun _ h => by cases h
  | t :: rest, h => by
    have hrest : ∀ u ∈ rest, T u := fun u hu => h u (List.mem_cons_of_mem _ hu)
    rw [skipStatement]
    split
    · exact hrest
    · exact skipStatement_all t.line rest hrest

/-- After a fault, the parser goes on from a cursor whose tokens all satisfy `T`. -/
theorem declarations_sourced (c : Cursor) (stmts : Array Stmt) (faults : Array ParseFault)
    (hc : c.All T) (hs : ∀ s ∈ stmts.toList, Stmt.Sourced T s) :
    ∀ s ∈ (declarations c stmts faults).1, Stmt.Sourced T s := by
  rw [declarations]
  split
  · exact hs
  · rename_i hend
    have hpos := Cursor.size_pos_of_not_atEnd (by simpa using hend)
    have hy := declaration_gives c hc
    split
    · rename_i s c1 h1 heq
      have hlt : c1.size < c.size := h1
      exact declarations_sourced c1 _ faults (hy.1 _ _ heq).2 (all_push hs (hy.1 _ _ heq).1)
    · rename_i f c1 h1 heq
      -- skipping to the end of the statement reads a token, unless none is left
      have hlt : (synchronize c1).size < c.size :=
        (size_synchronize c1).elim (fun h2 => Nat.lt_of_lt_of_le h2 h1)
          fun h2 => Nat.lt_of_le_of_lt (Nat.le_of_eq h2) hpos
      exact declarations_sourced (synchronize c1) stmts _
        (skipStatement_all c1.line c1.tokens (hy.2 _ _ heq)) hs
termination_by c.size
decreasing_by all_goals assumption

end Parse

/-- Every statement of a program read from tokens that satisfy `T` is sourced. -/
theorem parseProgram_sourced {tokens : List Token} (h : ∀ t ∈ tokens, T t) :
    ∀ s ∈ (parseProgram tokens).1, Stmt.Sourced T s :=
  Parse.declarations_sourced _ _ _ h fun _ h => by simp at h

/-- An expression read from tokens that satisfy `T` is sourced. -/
theorem parseExpression_sourced {tokens : List Token} (h : ∀ t ∈ tokens, T t) {e : Expr}
    (he : parseExpression tokens = .ok e) : Expr.Sourced T e := by
  unfold parseExpression at he
  split at he
  · cases he
  · rename_i e' c _ heq
    split at he
    · cases he
      exact ((Parse.expression_gives (Parse.Cursor.start tokens) h).1 _ _ heq).1
    · cases he

end Lox
