import Mathlib
import Lox.Proofs.Sparing
/-!
# A local is not read in its own initializer

Resolving `var x = e` in a local scope declares `x` there before `e` is resolved and defines it
after. While `e` is resolved, `x` is pending in the innermost scope (`Pending`), and a use of
`x` looks past it: it is bound to a scope further out that declares `x`, or left to the
globals, which is the fault `ownInitializer` unless `x` is a global (`Outside`).

Only uses inside a function body in `e` are bound to the pending `x`, and such a use marks it
read, so that a later use in `e` no longer passes it. The rule therefore holds of the uses
outside function bodies when the function bodies in `e` do not use `x` at all, and when `x` is
not declared a second time in the same scope. The main statement is
`resolve_initializer_outside_own_scope`; `initializer_through_function_accepted` shows a
program where a function body reads the name and the rule fails.
-/

namespace Lox

/-- Outside the function bodies in the expression, every variable and assignment target
satisfies `P`; and every function body in it satisfies `B`. -/
inductive Expr.Surface (P : Reference → Prop) (B : List Stmt → Prop) : Expr → Prop
  | assign {r v} : P r → Expr.Surface P B v → Expr.Surface P B (.assign r v)
  | binary {l op t r} : Expr.Surface P B l → Expr.Surface P B r →
      Expr.Surface P B (.binary l op t r)
  | call {callee paren args} : Expr.Surface P B callee → (∀ a ∈ args, Expr.Surface P B a) →
      Expr.Surface P B (.call callee paren args)
  | get {obj name} : Expr.Surface P B obj → Expr.Surface P B (.get obj name)
  | lambda {keyword params body} : B body → Expr.Surface P B (.lambda keyword params body)
  | grouping {e} : Expr.Surface P B e → Expr.Surface P B (.grouping e)
  | literal {l} : Expr.Surface P B (.literal l)
  | logical {l op t r} : Expr.Surface P B l → Expr.Surface P B r →
      Expr.Surface P B (.logical l op t r)
  | set {obj name v} : Expr.Surface P B obj → Expr.Surface P B v →
      Expr.Surface P B (.set obj name v)
  | superMember {keyword member} : Expr.Surface P B (.superMember keyword member)
  | conditional {c q a b} : Expr.Surface P B c → Expr.Surface P B a → Expr.Surface P B b →
      Expr.Surface P B (.conditional c q a b)
  | this {r} : Expr.Surface P B (.this r)
  | unary {op t e} : Expr.Surface P B e → Expr.Surface P B (.unary op t e)
  | «variable» {r} : P r → Expr.Surface P B (.variable r)

namespace Resolution

variable {α β : Type} {x : String}

/-- Whether each scope declares `x`, innermost first. -/
def declaresOf (x : String) (frames : List Frame) : List Bool :=
  frames.map fun f => (f.names.lookup x).isSome

@[simp] theorem declaresOf_cons (f : Frame) (frames : List Frame) :
    declaresOf x (f :: frames) = (f.names.lookup x).isSome :: declaresOf x frames := rfl

theorem declaresOf_eq {frames frames' : List Frame}
    (h : bindingsOf x frames' = bindingsOf x frames) : declaresOf x frames' = declaresOf x frames := by
  have h' := congrArg (List.map Option.isSome) h
  simp only [bindingsOf, List.map_map] at h'
  exact h'

/-- `x` is declared in the innermost scope and has no value yet: its initializer is being
resolved. -/
def Pending (x : String) (s : State) : Prop :=
  ∃ l, (bindingsOf x s.frames).head? = some (some l) ∧ l.stage = .declared

theorem Pending.frames {s : State} (h : Pending x s) :
    ∃ f rest l, s.frames = f :: rest ∧ f.names.lookup x = some l ∧ l.stage = .declared := by
  obtain ⟨l, hl, hst⟩ := h
  cases hs : s.frames with
  | nil => simp [hs, bindingsOf] at hl
  | cons f rest =>
    simp only [hs, bindingsOf, List.map_cons, List.head?_cons, Option.some.injEq] at hl
    exact ⟨f, rest, l, rfl, hl, hst⟩

theorem Pending.ne_nil {s : State} (h : Pending x s) : s.frames ≠ [] := by
  obtain ⟨f, rest, _, hs, _⟩ := h.frames
  simp [hs]

/-- From `s` to `s'`, as far as a use of `x` can tell once resolved: the same scopes declare
`x`, the globals are the same, and faults were only added. -/
structure Seen (x : String) (s s' : State) : Prop where
  declares_eq : declaresOf x s'.frames = declaresOf x s.frames
  globals_eq : s'.globals = s.globals
  faults_prefix : s.faults.toList <+: s'.faults.toList

/-- From `s` to `s'`, as far as the initializer of `x` can tell: what `Seen` says, and the
innermost scope binds `x` as it did. -/
structure Kept (x : String) (s s' : State) : Prop extends Seen x s s' where
  top_eq : (bindingsOf x s'.frames).head? = (bindingsOf x s.frames).head?

theorem Seen.refl (s : State) : Seen x s s := ⟨rfl, rfl, List.prefix_refl _⟩

theorem Seen.trans {s s' s'' : State} (h : Seen x s s') (g : Seen x s' s'') : Seen x s s'' :=
  ⟨g.declares_eq.trans h.declares_eq, g.globals_eq.trans h.globals_eq,
    h.faults_prefix.trans g.faults_prefix⟩

theorem Kept.refl (s : State) : Kept x s s := ⟨.refl s, rfl⟩

theorem Kept.trans {s s' s'' : State} (h : Kept x s s') (g : Kept x s' s'') : Kept x s s'' :=
  ⟨h.toSeen.trans g.toSeen, g.top_eq.trans h.top_eq⟩

theorem Kept.pending {s s' : State} (h : Kept x s s') (hs : Pending x s) : Pending x s' := by
  obtain ⟨l, hl, hst⟩ := hs
  exact ⟨l, h.top_eq.trans hl, hst⟩

theorem Spared.kept {s s' : State} (h : Spared x s s') : Kept x s s' :=
  ⟨⟨declaresOf_eq h.bindings_eq, h.globals_eq, h.faults_prefix⟩, by rw [h.bindings_eq]⟩

/-- Where a use `r` of `x` in the initializer of `x` is resolved, as seen from the state `s`:
to a scope further out than the innermost that declares `x`, or to the globals, which is the
fault `ownInitializer` unless `x` is a global. -/
def Outside (x : String) (s : State) (r : Reference) : Prop :=
  r.name.lexeme = x →
    (∃ h, r.hops = some (h + 1) ∧ (declaresOf x s.frames)[h + 1]? = some true) ∨
      (r.hops = none ∧
        ((s.globals.lookup x).isSome ∨ StaticFault.ownInitializer r.name ∈ s.faults.toList))

/-- Run where `x` is pending, `m` keeps what `Kept` says, and its result satisfies `P` in every
state that `Seen` relates to the one it ends in. -/
def Initializes (x : String) (m : ResolveM α) (P : State → α → Prop) : Prop :=
  ∀ s, Pending x s → Kept x s (m.run s).2 ∧ ∀ s', Seen x (m.run s).2 s' → P s' (m.run s).1

theorem Initializes.bind {Q : State → α → Prop} {P : State → β → Prop} {m : ResolveM α}
    {f : α → ResolveM β} (hm : Initializes x m Q)
    (hf : ∀ a, Initializes x (f a) fun s b => Q s a → P s b) : Initializes x (m >>= f) P := by
  intro s hs
  obtain ⟨h1, hq⟩ := hm s hs
  obtain ⟨h2, hp⟩ := hf (m.run s).1 (m.run s).2 (h1.pending hs)
  rw [run_bind]
  exact ⟨h1.trans h2, fun s' h3 => hp s' h3 (hq s' (h2.toSeen.trans h3))⟩

theorem Initializes.pure {P : State → α → Prop} {a : α} (h : ∀ s, P s a) :
    Initializes x (Pure.pure a) P :=
  fun s _ => ⟨.refl s, fun s' _ => h s'⟩

theorem Spares.initializes {m : ResolveM α} (h : Spares x m) : Initializes x m fun _ _ => True :=
  fun s hs => ⟨(h s hs.ne_nil).kept, fun _ _ => trivial⟩

theorem Initializes.get_bind {P : State → α → Prop} {f : State → ResolveM α}
    (h : ∀ t, Initializes x (f t) P) : Initializes x (get >>= f) P :=
  fun s hs => h s s hs

theorem Initializes.ite {P : State → α → Prop} {c : Prop} [Decidable c] {m m' : ResolveM α}
    (hm : Initializes x m P) (hm' : Initializes x m' P) : Initializes x (if c then m else m') P := by
  split
  · exact hm
  · exact hm'

/-- Looking a name up keeps which scopes declare each name, and finds it in a scope that
declares it. -/
theorem lookupFrames_declares {name : String} {read : Bool} {frames : List Frame} {hops : Nat}
    {initializing deferred : Bool} {h : Nat} {fs : List Frame}
    (hl : lookupFrames name read hops initializing deferred frames = .found h fs) :
    (∃ k, h = hops + k ∧ (declaresOf name frames)[k]? = some true) ∧
      ∀ y, declaresOf y fs = declaresOf y frames := by
  obtain ⟨k, f, l, hk, hf, hfl, rfl⟩ := lookupFrames_found_eq hl
  refine ⟨⟨k, hk, by simp [declaresOf, hf, hfl]⟩, fun y => map_set_of_eq _ hf ?_⟩
  -- marking the name read keeps which names the scope binds
  split
  · by_cases hy : y = name
    · subst hy
      simp [Scopes.lookup_setEntry, hfl]
    · simp [Scopes.lookup_setEntry, hy]
  · rfl

/-- A lookup that has passed a scope still initializing the name says so if it finds nothing. -/
theorem lookupFrames_initializing {name : String} {read : Bool} :
    ∀ {frames : List Frame} {hops : Nat} {deferred i d : Bool},
      lookupFrames name read hops true deferred frames = .missing i d → i = true
  | [], _, _, _, _, hl => by
    simp only [lookupFrames, Lookup.missing.injEq] at hl
    exact hl.1.symm
  | f :: rest, hops, deferred, i, d, hl => by
    unfold lookupFrames at hl
    split at hl
    · split at hl
      · split at hl
        · cases hl
        · exact lookupFrames_initializing hl
      · cases hl
    · split at hl
      · cases hl
      · exact lookupFrames_initializing hl

/-- Where the innermost scope holds `x` declared and without a value, a lookup of `x` passes
it: it finds `x` in a scope further out that declares it, or finds nothing and says that it
passed a scope still initializing `x`. -/
theorem lookupFrames_pending {f : Frame} {rest : List Frame} {l : Local} {read : Bool}
    (hf : f.names.lookup x = some l) (hst : l.stage = .declared) :
    (∃ k fs, lookupFrames x read 0 false false (f :: rest) = .found (k + 1) (f :: fs) ∧
        (declaresOf x rest)[k]? = some true ∧ ∀ y, declaresOf y fs = declaresOf y rest) ∨
      ∃ d, lookupFrames x read 0 false false (f :: rest) = .missing true d := by
  rw [lookupFrames, hf]
  simp only [hst, Bool.not_false, Bool.and_true, decide_true, if_true, Bool.false_or]
  cases hrec : lookupFrames x read (0 + 1) true f.isFunction rest with
  | found h fs =>
    obtain ⟨⟨k, hk, hd⟩, hy⟩ := lookupFrames_declares hrec
    refine .inl ⟨k, fs, ?_, hd, hy⟩
    rw [hk, Nat.add_comm]
  | missing i d =>
    rw [lookupFrames_initializing hrec]
    exact .inr ⟨d, rfl⟩

theorem resolveLocal_name (r : Reference) (read : Bool) (s : State) :
    ((resolveLocal r read).run s).1.name = r.name := by
  unfold resolveLocal
  extract_lets name g
  rw [run_get_bind]
  split
  · rfl
  · extract_lets known initializing'
    split <;> rfl

/-- A use of `x` in its own initializer is found in a scope further out than the innermost, or
left to the globals, which is reported unless `x` is a global; and it keeps the innermost
scope. A use of another name does not touch `x` at all. -/
theorem initializes_resolveLocal (r : Reference) (read : Bool) :
    Initializes x (resolveLocal r read) fun s r' => Outside x s r' := by
  intro s hs
  by_cases hx : r.name.lexeme = x
  case neg =>
    refine ⟨(spares_resolveLocal hx read s hs.ne_nil).kept, fun s' _ hx' => ?_⟩
    rw [resolveLocal_name] at hx'
    exact absurd hx' hx
  subst hx
  obtain ⟨f, rest, l, hfr, hf, hst⟩ := hs.frames
  have hlook := @lookupFrames_pending r.name.lexeme f rest l read hf hst
  unfold resolveLocal
  extract_lets name g
  rw [run_get_bind]
  split
  · rename_i hops frames hl
    have hl' : lookupFrames r.name.lexeme read 0 false false (f :: rest) = .found hops frames :=
      hfr ▸ hl
    obtain ⟨k, fs, hk, hd, hy⟩ | ⟨d, hm⟩ := hlook
    · rw [hk] at hl'
      cases hl'
      simp only [run_bind, run_set, run_pure]
      refine ⟨⟨⟨by simp [hfr, hy], rfl, List.prefix_refl _⟩, by simp [hfr, bindingsOf]⟩,
        fun s' hs' _ => .inl ⟨k, rfl, ?_⟩⟩
      rw [hs'.declares_eq]
      simpa [hy] using hd
    · rw [hm] at hl'
      cases hl'
  · rename_i initializing deferred hl
    have hl' : lookupFrames r.name.lexeme read 0 false false (f :: rest) =
        .missing initializing deferred := hfr ▸ hl
    obtain ⟨k, fs, hk, -⟩ | ⟨d, hm⟩ := hlook
    · rw [hk] at hl'
      cases hl'
    rw [hm] at hl'
    cases hl'
    extract_lets known initializing'
    split
    · simp only [run_bind, run_report, g, run_pure]
      refine ⟨⟨⟨rfl, rfl, by simp⟩, rfl⟩, fun s' hs' _ => .inr ⟨rfl, .inr ?_⟩⟩
      exact hs'.faults_prefix.subset (by simp)
    · rename_i hn
      -- nothing is reported only where the name is a global
      have hg : known.isSome = true := by
        cases hk : known.isSome
        · exact absurd (by simp [initializing', hk]) hn
        · rfl
      exact ⟨Kept.refl s, fun s' hs' _ => .inr ⟨rfl, .inl (hs'.globals_eq ▸ hg)⟩⟩

mutual

/-- The uses of `x` that an initializer makes outside its function bodies are resolved outside
the innermost scope, when those bodies do not use `x`. -/
theorem initializes_resolveExpr : ∀ e : Expr,
    Expr.Surface (fun _ => True) (fun body => ∀ s ∈ body, Stmt.Avoids x s) e →
    Initializes x (resolveExpr e) fun s e' => Expr.Surface (Outside x s) (fun _ => True) e'
  | .assign r v, he => by
    cases he with
    | assign _ hv =>
      rw [resolveExpr]
      exact (initializes_resolveExpr v hv).bind fun _ => (initializes_resolveLocal r false).bind
        fun _ => Initializes.pure fun _ hr' hv' => .assign hr' hv'
  | .binary l op t r, he => by
    cases he with
    | binary hl hr =>
      rw [resolveExpr]
      exact (initializes_resolveExpr l hl).bind fun _ => (initializes_resolveExpr r hr).bind
        fun _ => Initializes.pure fun _ hr' hl' => .binary hl' hr'
  | .call callee paren args, he => by
    cases he with
    | call hc ha =>
      rw [resolveExpr]
      exact (initializes_resolveExpr callee hc).bind fun _ =>
        (initializes_resolveExprs args ha).bind fun _ =>
          Initializes.pure fun _ ha' hc' => .call hc' ha'
  | .get obj name, he => by
    cases he with
    | get ho =>
      rw [resolveExpr]
      exact (initializes_resolveExpr obj ho).bind fun _ =>
        Initializes.pure fun _ ho' => .get ho'
  | .lambda keyword params body, he => by
    cases he with
    | lambda hb =>
      rw [resolveExpr]
      exact (spares_resolveFunction .function (sparesBelow_resolveStmts body hb)).initializes.bind
        fun _ => Initializes.pure fun _ _ => .lambda trivial
  | .grouping e, he => by
    cases he with
    | grouping he =>
      rw [resolveExpr]
      exact (initializes_resolveExpr e he).bind fun _ =>
        Initializes.pure fun _ he' => .grouping he'
  | .literal l, _ => by
    rw [resolveExpr]
    exact Initializes.pure fun _ => .literal
  | .logical l op t r, he => by
    cases he with
    | logical hl hr =>
      rw [resolveExpr]
      exact (initializes_resolveExpr l hl).bind fun _ => (initializes_resolveExpr r hr).bind
        fun _ => Initializes.pure fun _ hr' hl' => .logical hl' hr'
  | .set obj name v, he => by
    cases he with
    | set ho hv =>
      rw [resolveExpr]
      exact (initializes_resolveExpr v hv).bind fun _ => (initializes_resolveExpr obj ho).bind
        fun _ => Initializes.pure fun _ ho' hv' => .set ho' hv'
  | .superMember keyword member, _ => by
    rw [resolveExpr]
    refine Initializes.get_bind fun t => ?_
    split
    · exact (spares_report _).initializes.bind fun _ => Initializes.pure fun _ _ => .superMember
    · exact (spares_report _).initializes.bind fun _ => Initializes.pure fun _ _ => .superMember
    · exact (initializes_resolveLocal keyword true).bind fun _ =>
        Initializes.pure fun _ _ => .superMember
  | .conditional c q a b, he => by
    cases he with
    | conditional hc ha hb =>
      rw [resolveExpr]
      exact (initializes_resolveExpr c hc).bind fun _ => (initializes_resolveExpr a ha).bind
        fun _ => (initializes_resolveExpr b hb).bind fun _ =>
          Initializes.pure fun _ hb' ha' hc' => .conditional hc' ha' hb'
  | .this keyword, _ => by
    rw [resolveExpr]
    refine Initializes.get_bind fun t => Initializes.ite ?_ ?_
    · exact (spares_report _).initializes.bind fun _ => Initializes.pure fun _ _ => .this
    · exact (initializes_resolveLocal keyword true).bind fun _ => Initializes.pure fun _ _ => .this
  | .unary op t e, he => by
    cases he with
    | unary he =>
      rw [resolveExpr]
      exact (initializes_resolveExpr e he).bind fun _ =>
        Initializes.pure fun _ he' => .unary he'
  | .variable r, he => by
    rw [resolveExpr]
    exact (initializes_resolveLocal r true).bind fun _ =>
      Initializes.pure fun _ hr' => .variable hr'

theorem initializes_resolveExprs : ∀ es : List Expr,
    (∀ e ∈ es, Expr.Surface (fun _ => True) (fun body => ∀ s ∈ body, Stmt.Avoids x s) e) →
    Initializes x (resolveExprs es) fun s es' =>
      ∀ e ∈ es', Expr.Surface (Outside x s) (fun _ => True) e
  | [], _ => by
    rw [resolveExprs]
    exact Initializes.pure fun _ e he => by cases he
  | e :: es, hes => by
    rw [resolveExprs]
    refine (initializes_resolveExpr e (hes e List.mem_cons_self)).bind fun e' =>
      (initializes_resolveExprs es fun a ha => hes a (List.mem_cons_of_mem _ ha)).bind
        fun es' => Initializes.pure fun _ hes' he' a ha => ?_
    rcases List.mem_cons.1 ha with rfl | ha
    · exact he'
    · exact hes' a ha

end

/-- Declaring a name that the innermost scope does not hold yet leaves it pending there. -/
theorem pending_declare {s : State} {f : Frame} {rest : List Frame} {name : Token}
    (hs : s.frames = f :: rest) (hx : f.names.lookup name.lexeme = none) (reportUnused : Bool) :
    Pending name.lexeme ((declare name reportUnused).run s).2 := by
  unfold declare
  rw [run_get_bind]
  split
  · rename_i hfr
    rw [hs] at hfr
    cases hfr
  · rename_i f' rest' hfr
    rw [hs] at hfr
    cases hfr
    refine ⟨⟨.declared, name, reportUnused && !name.lexeme.startsWith "_"⟩, ?_, rfl⟩
    simp only [hx, Option.isSome_none, Bool.false_eq_true, if_false, run_set, bindingsOf,
      List.map_cons, List.head?_cons]
    simp [List.lookup_append, hx]

/-- Giving a name its value changes no scope's set of names, nor the globals inside a scope. -/
theorem seen_define (y : String) (name : Token) {s : State} (hs : s.frames ≠ []) :
    Seen y s ((define name).run s).2 := by
  rw [define, run_modify]
  split
  · exact absurd ‹_› hs
  · rename_i f rest hfr
    split
    · rename_i l hl
      split
      · refine ⟨?_, rfl, List.prefix_refl _⟩
        rw [hfr]
        by_cases hy : y = name.lexeme
        · subst hy
          simp [Scopes.lookup_setEntry, hl]
        · simp [Scopes.lookup_setEntry, hy]
      · exact .refl s
    · exact .refl s

/-- Resolving `var x = e` in a scope that does not hold `x` yet, where no function body in `e`
uses `x`: no use of `x` in `e` is bound to the scope of the declaration. Each is bound to a
scope further out that declares `x`, or left to the globals, which is reported as
`ownInitializer` unless `x` is a global. -/
theorem resolve_initializer_outside_own_scope (s : State) (f : Frame) (rest : List Frame)
    (hs : s.frames = f :: rest) (name : Token) (hx : f.names.lookup name.lexeme = none) (e : Expr)
    (he : Expr.Surface (fun _ => True) (fun body => ∀ st ∈ body, Stmt.Avoids name.lexeme st) e) :
    ∃ e', ((resolveStmt (.varDecl name (some e))).run s).1 = .varDecl name (some e') ∧
      Expr.Surface (Outside name.lexeme ((resolveStmt (.varDecl name (some e))).run s).2)
        (fun _ => True) e' := by
  have hp := pending_declare hs hx true
  obtain ⟨hk, hP⟩ := initializes_resolveExpr e he _ hp
  rw [resolveStmt, resolveOptExpr]
  exact ⟨_, rfl, hP _ (seen_define _ name (hk.pending hp).ne_nil)⟩

/-- `var a = a;` first in a block meets the conditions. -/
theorem resolve_initializer_reading_itself :
    ∃ e', ((resolveStmt (.varDecl (Token.name "a" 1 7)
        (some (.variable ⟨Token.name "a" 1 11, none⟩)))).run
        { State.initial [] with frames := [⟨[], false⟩] }).1 =
        .varDecl (Token.name "a" 1 7) (some e') ∧
      Expr.Surface (Outside "a" ((resolveStmt (.varDecl (Token.name "a" 1 7)
        (some (.variable ⟨Token.name "a" 1 11, none⟩)))).run
          { State.initial [] with frames := [⟨[], false⟩] }).2) (fun _ => True) e' :=
  resolve_initializer_outside_own_scope _ ⟨[], false⟩ [] rfl _ rfl _ (.variable trivial)

/-- `{ var a = (fun () { print a; }) == a; }`, as it is parsed. -/
def initializerThroughFunction : Stmt :=
  .block [.varDecl (Token.name "a" 1 7) (some (.binary
    (.grouping (.lambda ⟨.fun, "fun", none, 1, 12⟩ []
      [.print (.variable ⟨Token.name "a" 1 27, none⟩)]))
    .equal ⟨.equalEqual, "==", none, 1, 33⟩ (.variable ⟨Token.name "a" 1 36, none⟩)))]

/-- Where a function body in the initializer reads the name, the rule fails: in
`{ var a = (fun () { print a; }) == a; }` the read in the function body marks `a` read, and the
second `a`, outside every function body, is then bound to the scope of the declaration itself,
with nothing reported. -/
theorem initializer_through_function_accepted :
    resolveProgram [] [initializerThroughFunction] =
      ⟨[.block [.varDecl (Token.name "a" 1 7) (some (.binary
        (.grouping (.lambda ⟨.fun, "fun", none, 1, 12⟩ []
          [.print (.variable ⟨Token.name "a" 1 27, some 1⟩)]))
        .equal ⟨.equalEqual, "==", none, 1, 33⟩ (.variable ⟨Token.name "a" 1 36, some 0⟩)))]],
        [], []⟩ := by
  cbv

end Resolution

end Lox
