import Lox.Proofs.Scoping
/-!
# Code that does not use a name

Resolving a statement or an expression that nowhere uses the name `x` (no variable,
assignment target, `this` or `super` of that name, inside function bodies too) leaves the
binding of `x` alone: every scope outside the code binds `x` as it did, in the same stage, and
the globals stay as they were. Statements may bind `x` anew in the innermost scope, where they
declare names; expressions and function bodies, which run in scopes of their own, may not.

The main statements are `spares_resolveExpr` and `sparesBelow_resolveStmts`. A block or a
function body opens a scope and closes it; a class body closes, besides the scope of `this`,
the scope of `super` opened before it, which `Drops` follows.
-/

namespace Lox

mutual

/-- No use of a name in the expression, function bodies included, is of `x`: no variable,
assignment target, `this` or `super` names it. Declarations and parameters may. -/
inductive Expr.Avoids (x : String) : Expr → Prop
  | assign {r v} : r.name.lexeme ≠ x → Expr.Avoids x v → Expr.Avoids x (.assign r v)
  | binary {l op t r} : Expr.Avoids x l → Expr.Avoids x r → Expr.Avoids x (.binary l op t r)
  | call {callee paren args} : Expr.Avoids x callee → (∀ a ∈ args, Expr.Avoids x a) →
      Expr.Avoids x (.call callee paren args)
  | get {obj name} : Expr.Avoids x obj → Expr.Avoids x (.get obj name)
  | lambda {keyword params body} : (∀ s ∈ body, Stmt.Avoids x s) →
      Expr.Avoids x (.lambda keyword params body)
  | grouping {e} : Expr.Avoids x e → Expr.Avoids x (.grouping e)
  | literal {l} : Expr.Avoids x (.literal l)
  | logical {l op t r} : Expr.Avoids x l → Expr.Avoids x r → Expr.Avoids x (.logical l op t r)
  | set {obj name v} : Expr.Avoids x obj → Expr.Avoids x v → Expr.Avoids x (.set obj name v)
  | superMember {keyword member} : keyword.name.lexeme ≠ x →
      Expr.Avoids x (.superMember keyword member)
  | conditional {c q a b} : Expr.Avoids x c → Expr.Avoids x a → Expr.Avoids x b →
      Expr.Avoids x (.conditional c q a b)
  | this {r} : r.name.lexeme ≠ x → Expr.Avoids x (.this r)
  | unary {op t e} : Expr.Avoids x e → Expr.Avoids x (.unary op t e)
  | «variable» {r} : r.name.lexeme ≠ x → Expr.Avoids x (.variable r)

/-- No use of a name in the statement, function bodies included, is of `x`. -/
inductive Stmt.Avoids (x : String) : Stmt → Prop
  | block {body} : (∀ s ∈ body, Stmt.Avoids x s) → Stmt.Avoids x (.block body)
  | breakLoop {keyword} : Stmt.Avoids x (.breakLoop keyword)
  | classDecl {name sup methods getters statics staticGetters} :
      (∀ r, sup = some r → r.name.lexeme ≠ x) →
      (∀ f ∈ methods ++ getters ++ statics ++ staticGetters, ∀ s ∈ f.body, Stmt.Avoids x s) →
      Stmt.Avoids x (.classDecl name sup methods getters statics staticGetters)
  | expression {e} : Expr.Avoids x e → Stmt.Avoids x (.expression e)
  | function {name params body} : (∀ s ∈ body, Stmt.Avoids x s) →
      Stmt.Avoids x (.function (.mk name params body))
  | ifElse {c t e} : Expr.Avoids x c → Stmt.Avoids x t → (∀ s, e = some s → Stmt.Avoids x s) →
      Stmt.Avoids x (.ifElse c t e)
  | print {e} : Expr.Avoids x e → Stmt.Avoids x (.print e)
  | returnFrom {keyword value} : (∀ e, value = some e → Expr.Avoids x e) →
      Stmt.Avoids x (.returnFrom keyword value)
  | varDecl {name init} : (∀ e, init = some e → Expr.Avoids x e) →
      Stmt.Avoids x (.varDecl name init)
  | whileLoop {c body} : Expr.Avoids x c → Stmt.Avoids x body → Stmt.Avoids x (.whileLoop c body)

end

namespace Resolution

variable {α β : Type} {x : String}

/-- What each scope binds `x` to, innermost first. -/
def bindingsOf (x : String) (frames : List Frame) : List (Option Local) :=
  frames.map (·.names.lookup x)

/-- From `s` to `s'`: every scope binds `x` as it did, the globals are as they were, and faults
were only added. -/
structure Spared (x : String) (s s' : State) : Prop where
  bindings_eq : bindingsOf x s'.frames = bindingsOf x s.frames
  globals_eq : s'.globals = s.globals
  faults_prefix : s.faults.toList <+: s'.faults.toList

/-- As `Spared`, except that the innermost scope may bind `x` anew. -/
structure SparedBelow (x : String) (s s' : State) : Prop where
  length_eq : s'.frames.length = s.frames.length
  tail_eq : bindingsOf x s'.frames.tail = bindingsOf x s.frames.tail
  globals_eq : s'.globals = s.globals
  faults_prefix : s.faults.toList <+: s'.faults.toList

theorem Spared.refl (s : State) : Spared x s s := ⟨rfl, rfl, List.prefix_refl _⟩

theorem Spared.trans {s s' s'' : State} (h : Spared x s s') (g : Spared x s' s'') :
    Spared x s s'' :=
  ⟨g.bindings_eq.trans h.bindings_eq, g.globals_eq.trans h.globals_eq,
    h.faults_prefix.trans g.faults_prefix⟩

theorem Spared.length_eq {s s' : State} (h : Spared x s s') :
    s'.frames.length = s.frames.length := by
  simpa [bindingsOf] using congrArg List.length h.bindings_eq

theorem Spared.below {s s' : State} (h : Spared x s s') : SparedBelow x s s' :=
  ⟨h.length_eq, by simpa [bindingsOf, List.map_tail] using congrArg List.tail h.bindings_eq,
    h.globals_eq, h.faults_prefix⟩

theorem SparedBelow.refl (s : State) : SparedBelow x s s := (Spared.refl s).below

theorem SparedBelow.trans {s s' s'' : State} (h : SparedBelow x s s') (g : SparedBelow x s' s'') :
    SparedBelow x s s'' :=
  ⟨g.length_eq.trans h.length_eq, g.tail_eq.trans h.tail_eq, g.globals_eq.trans h.globals_eq,
    h.faults_prefix.trans g.faults_prefix⟩

theorem SparedBelow.ne_nil {s s' : State} (h : SparedBelow x s s') (hs : s.frames ≠ []) :
    s'.frames ≠ [] := by
  intro he
  have := h.length_eq
  rw [he] at this
  exact hs (List.eq_nil_of_length_eq_zero this.symm)

/-- Run inside a local scope, `m` leaves every scope's binding of `x` and the globals. -/
def Spares (x : String) (m : ResolveM α) : Prop := ∀ s, s.frames ≠ [] → Spared x s (m.run s).2

/-- Run inside a local scope, `m` leaves the binding of `x` in every scope but the innermost,
and the globals. -/
def SparesBelow (x : String) (m : ResolveM α) : Prop :=
  ∀ s, s.frames ≠ [] → SparedBelow x s (m.run s).2

theorem Spares.below {m : ResolveM α} (h : Spares x m) : SparesBelow x m :=
  fun s hs => (h s hs).below

theorem Spares.bind {m : ResolveM α} {f : α → ResolveM β} (hm : Spares x m)
    (hf : ∀ a, Spares x (f a)) : Spares x (m >>= f) :=
  fun s hs => (hm s hs).trans (hf _ _ ((hm s hs).below.ne_nil hs))

theorem SparesBelow.bind {m : ResolveM α} {f : α → ResolveM β} (hm : SparesBelow x m)
    (hf : ∀ a, SparesBelow x (f a)) : SparesBelow x (m >>= f) :=
  fun s hs => (hm s hs).trans (hf _ _ ((hm s hs).ne_nil hs))

theorem spares_pure (a : α) : Spares x (Pure.pure a : ResolveM α) := fun s _ => .refl s

theorem Spares.ite {c : Prop} [Decidable c] {m m' : ResolveM α} (hm : Spares x m)
    (hm' : Spares x m') : Spares x (if c then m else m') := by
  split
  · exact hm
  · exact hm'

theorem run_set (s' s : State) : (set s' : ResolveM PUnit).run s = (⟨⟩, s') := rfl

theorem run_report (f : StaticFault) (s : State) :
    (report f).run s = ((), { s with faults := s.faults.push f }) := rfl

theorem spares_report (f : StaticFault) : Spares x (report f) := by
  intro s _
  rw [run_report]
  exact ⟨rfl, rfl, by simp⟩

/-- A step that changes neither the frames, the globals nor the faults. -/
theorem spares_modify {g : State → State} (hfr : ∀ s, (g s).frames = s.frames)
    (hgl : ∀ s, (g s).globals = s.globals) (hf : ∀ s, (g s).faults = s.faults) :
    Spares x (modify g) :=
  fun s _ => ⟨by rw [run_modify, hfr], by rw [run_modify, hgl],
    by simp only [run_modify, hf]; exact List.prefix_refl _⟩

/-- A step that changes only the innermost scope. -/
theorem SparedBelow.top {s s' : State} {f f' : Frame} {rest : List Frame}
    (h1 : s.frames = f :: rest) (h2 : s'.frames = f' :: rest) (hg : s'.globals = s.globals)
    (hf : s'.faults = s.faults) : SparedBelow x s s' :=
  ⟨by rw [h1, h2]; rfl, by rw [h1, h2]; rfl, hg, hf ▸ List.prefix_refl _⟩

theorem sparesBelow_declare (name : Token) (reportUnused : Bool) :
    SparesBelow x (declare name reportUnused) := by
  intro s hs
  unfold declare
  rw [run_get_bind]
  split
  · exact absurd ‹_› hs
  · rename_i f rest hfr
    split
    · exact (spares_report _ s hs).below
    · exact SparedBelow.top hfr rfl rfl rfl

theorem sparesBelow_define (name : Token) : SparesBelow x (define name) := by
  intro s hs
  rw [define, run_modify]
  split
  · exact absurd ‹_› hs
  · rename_i f rest hfr
    split
    · split
      · exact SparedBelow.top hfr rfl rfl rfl
      · exact .refl s
    · exact .refl s

theorem sparesBelow_insertKeyword (keyword : String) (token : Token) :
    SparesBelow x (insertKeyword keyword token) := by
  intro s hs
  rw [insertKeyword, run_modify]
  split
  · exact .refl s
  · rename_i f rest hfr
    exact SparedBelow.top hfr rfl rfl rfl

/-- What a lookup that finds the name gives back: the frames, with the scope `k` out where it
is found marked as read if it was read. -/
theorem lookupFrames_found_eq {name : String} {read : Bool} :
    ∀ {frames : List Frame} {hops : Nat} {initializing deferred : Bool} {h : Nat}
      {fs : List Frame}, lookupFrames name read hops initializing deferred frames = .found h fs →
      ∃ k f l, h = hops + k ∧ frames[k]? = some f ∧ f.names.lookup name = some l ∧
        fs = frames.set k (if read then
          { f with names := setEntry name { l with stage := .used } f.names } else f)
  | [], _, _, _, _, _, hl => by simp [lookupFrames] at hl
  | f :: rest, hops, initializing, deferred, h, fs, hl => by
    -- a match further out keeps this scope as it is
    have hout : ∀ {i d : Bool} {h' : Nat} {fs' : List Frame},
        lookupFrames name read (hops + 1) i d rest = .found h' fs' →
        ∃ k g l, h' = hops + k ∧ (f :: rest)[k]? = some g ∧ g.names.lookup name = some l ∧
          f :: fs' = (f :: rest).set k (if read then
            { g with names := setEntry name { l with stage := .used } g.names } else g) := by
      intro i d h' fs' hrec
      obtain ⟨k, g, l, hk, hg, hgl, rfl⟩ := lookupFrames_found_eq hrec
      exact ⟨k + 1, g, l, by omega, hg, hgl, rfl⟩
    unfold lookupFrames at hl
    split at hl
    · rename_i l hfl
      split at hl
      · split at hl
        · rename_i hrec
          cases hl
          exact hout hrec
        · rename_i hne
          exact absurd hl (hne _ _)
      · cases hl
        exact ⟨0, f, l, by omega, rfl, hfl, rfl⟩
    · split at hl
      · rename_i hrec
        cases hl
        exact hout hrec
      · rename_i hne
        exact absurd hl (hne _ _)

/-- Setting a frame to one that a projection does not tell apart from the old one leaves the
projected list. -/
theorem map_set_of_eq {β : Type} (F : Frame → β) {frames : List Frame} {k : Nat} {f g : Frame}
    (hk : frames[k]? = some f) (hg : F g = F f) : (frames.set k g).map F = frames.map F := by
  obtain ⟨hlt, hf⟩ := List.getElem?_eq_some_iff.1 hk
  rw [List.map_set, hg]
  apply List.ext_getElem?
  intro i
  rw [List.getElem?_set]
  split
  · rename_i hi
    subst hi
    simp [hlt, hf]
  · rfl

/-- Looking up a name other than `x` leaves every scope's binding of `x`. -/
theorem lookupFrames_bindings {name : String} (hx : name ≠ x) {read : Bool}
    {frames : List Frame} {hops : Nat} {initializing deferred : Bool} {h : Nat} {fs : List Frame}
    (hl : lookupFrames name read hops initializing deferred frames = .found h fs) :
    bindingsOf x fs = bindingsOf x frames := by
  obtain ⟨k, f, l, -, hk, -, rfl⟩ := lookupFrames_found_eq hl
  refine map_set_of_eq _ hk ?_
  split <;> simp [Scopes.lookup_setEntry, Ne.symm hx]

theorem spares_resolveLocal {r : Reference} (hr : r.name.lexeme ≠ x) (read : Bool) :
    Spares x (resolveLocal r read) := by
  intro s hs
  unfold resolveLocal
  extract_lets name g
  rw [run_get_bind]
  split
  · rename_i hops frames hl
    exact ⟨lookupFrames_bindings hr hl, rfl, List.prefix_refl _⟩
  · extract_lets known initializing'
    split
    · exact spares_report _ s hs
    · exact .refl s

theorem Spares.get_bind {f : State → ResolveM α} (h : ∀ t, Spares x (f t)) :
    Spares x (get >>= f) :=
  fun s hs => h s s hs

theorem SparesBelow.get_bind {f : State → ResolveM α} (h : ∀ t, SparesBelow x (f t)) :
    SparesBelow x (get >>= f) :=
  fun s hs => h s s hs

/-! Scopes are opened and closed in pairs; between the two, a step may close scopes it did not
open, as a class body closes the scope of `super` opened before it. `Drops x k m`: `m` closes
`k` scopes, and leaves those below them as `Spares` does. -/

/-- Run with more than `k` scopes, `m` closes the innermost `k` and spares `x` in the others. -/
def Drops (x : String) (k : Nat) (m : ResolveM α) : Prop :=
  ∀ s, k < s.frames.length → Spared x { s with frames := s.frames.drop k } (m.run s).2

theorem Drops.spares {m : ResolveM α} (h : Drops x 0 m) : Spares x m := by
  intro s hs
  have := h s (List.length_pos_iff.2 hs)
  simpa using this

theorem Spares.drops {m : ResolveM α} (h : Spares x m) : Drops x 0 m := by
  intro s hs
  simpa using h s (List.length_pos_iff.1 hs)

theorem drops_beginScope_bind {k : Nat} {m : ResolveM α} (b : Bool) (hm : Drops x (k + 1) m) :
    Drops x k (beginScope b >>= fun _ => m) := by
  intro s hs
  simp only [beginScope, run_bind, run_modify]
  simpa using hm { s with frames := ⟨[], b⟩ :: s.frames } (by simpa using hs)

theorem drops_endScope_bind {k : Nat} {f : Unit → ResolveM α} (hf : ∀ u, Drops x k (f u)) :
    Drops x (k + 1) (endScope >>= f) := by
  intro s hs
  obtain ⟨g, rest, hfr⟩ : ∃ g rest, s.frames = g :: rest := by
    cases h : s.frames with
    | nil => rw [h] at hs; cases hs
    | cons g rest => exact ⟨g, rest, rfl⟩
  obtain ⟨e1, e2, -⟩ := endScope_run hfr
  rw [run_bind]
  have h := hf () (endScope.run s).2 (by rw [e1]; rw [hfr] at hs; simpa using hs)
  rw [e1] at h
  have he : (endScope.run s).2.globals = s.globals := by
    unfold endScope
    rw [run_modify]
    dsimp only
    rw [hfr]
  exact ⟨by simpa [hfr] using h.bindings_eq, h.globals_eq.trans he, by
    simpa [e2] using h.faults_prefix⟩

/-- Spared in every scope, `x` is spared in the scopes below the innermost `k`. -/
theorem Spared.drop {s s' : State} (h : Spared x s s') (k : Nat) :
    Spared x { s with frames := s.frames.drop k } { s' with frames := s'.frames.drop k } := by
  refine ⟨?_, h.globals_eq, h.faults_prefix⟩
  show bindingsOf x (s'.frames.drop k) = bindingsOf x (s.frames.drop k)
  simp only [bindingsOf, List.map_drop]
  rw [← bindingsOf, ← bindingsOf, h.bindings_eq]

/-- Spared below the innermost scope, `x` is spared in the scopes below the innermost
`k + 1`. -/
theorem SparedBelow.drop {s s' : State} (h : SparedBelow x s s') (k : Nat) :
    Spared x { s with frames := s.frames.drop (k + 1) }
      { s' with frames := s'.frames.drop (k + 1) } := by
  have e : ∀ l : List Frame, bindingsOf x (l.drop (k + 1)) = (bindingsOf x l.tail).drop k := by
    intro l
    simp [bindingsOf, List.map_drop, List.drop_tail]
  refine ⟨?_, h.globals_eq, h.faults_prefix⟩
  show bindingsOf x (s'.frames.drop (k + 1)) = bindingsOf x (s.frames.drop (k + 1))
  rw [e, e, h.tail_eq]

theorem Spares.bind_drops {k : Nat} {m : ResolveM α} {f : α → ResolveM β} (hm : Spares x m)
    (hf : ∀ a, Drops x k (f a)) : Drops x k (m >>= f) := by
  intro s hs
  have h1 := hm s (List.length_pos_iff.1 (Nat.lt_of_le_of_lt (Nat.zero_le k) hs))
  rw [run_bind]
  exact (h1.drop k).trans (hf _ _ (h1.length_eq ▸ hs))

theorem SparesBelow.bind_drops {k : Nat} {m : ResolveM α} {f : α → ResolveM β}
    (hm : SparesBelow x m) (hf : ∀ a, Drops x (k + 1) (f a)) : Drops x (k + 1) (m >>= f) := by
  intro s hs
  have h1 := hm s (List.length_pos_iff.1 (Nat.lt_of_le_of_lt (Nat.zero_le _) hs))
  rw [run_bind]
  exact (h1.drop k).trans (hf _ _ (h1.length_eq ▸ hs))

theorem Spares.withinFunction {m : ResolveM α} (kind : FunctionContext) (hm : Spares x m) :
    Spares x (withinFunction kind m) := by
  intro s hs
  simp only [Resolution.withinFunction, run_bind, run_get, run_modify, run_pure]
  obtain ⟨hb, hg, hf⟩ := hm { s with functionContext := kind, loopDepth := 0 } hs
  exact ⟨hb, hg, hf⟩

/-- Declaring the parameters of a function, in its own scope. -/
theorem sparesBelow_params (params : List Token) :
    SparesBelow x (forIn params PUnit.unit fun p _ => do
      declare p false
      define p
      Pure.pure (ForInStep.yield PUnit.unit) : ResolveM PUnit) := by
  induction params with
  | nil => exact (spares_pure _).below
  | cons p ps ih =>
    simp only [List.forIn_cons]
    refine SparesBelow.bind (SparesBelow.bind (sparesBelow_declare p false) fun _ =>
      SparesBelow.bind (sparesBelow_define p) fun _ => (spares_pure _).below) fun r => ?_
    split
    · exact (spares_pure _).below
    · exact ih

/-- A function body is resolved in a scope of its own, closed afterwards. -/
theorem spares_resolveFunction {params : List Token} {body : List Stmt} (kind : FunctionContext)
    (hb : SparesBelow x (resolveStmts body)) : Spares x (resolveFunction params body kind) := by
  rw [resolveFunction_eq]
  refine Spares.withinFunction kind (Drops.spares ?_)
  exact drops_beginScope_bind true ((sparesBelow_params params).bind_drops fun _ =>
    hb.bind_drops fun b => drops_endScope_bind fun _ => (spares_pure b).drops)

theorem spares_setClassContext (c : ClassContext) : Spares x (setClassContext c) :=
  spares_modify (fun _ => rfl) (fun _ => rfl) (fun _ => rfl)

/-- A class: its members are resolved in a scope of `this`, inside a scope of `super` when the
class has a superclass, and both scopes are closed after them. -/
theorem sparesBelow_classDecl {name : Token} {sup : Option Reference}
    {methods getters statics staticGetters : List FunDecl}
    (hsup : ∀ r, sup = some r → r.name.lexeme ≠ x) (hm : Spares x (resolveMembers true methods))
    (hg : Spares x (resolveMembers false getters)) (hst : Spares x (resolveMembers false statics))
    (hsg : Spares x (resolveMembers false staticGetters)) :
    SparesBelow x (resolveStmt (.classDecl name sup methods getters statics staticGetters)) := by
  rw [resolveStmt]
  refine SparesBelow.get_bind fun t => ?_
  extract_lets enclosing body
  -- the scope of `this` is closed at the end of the body, and the scope of `super` with it
  have hbody : ∀ sup : Option Reference, Drops x (if sup.isSome then 1 else 0) (body sup) := by
    intro sup
    refine drops_beginScope_bind false ((sparesBelow_insertKeyword _ _).bind_drops fun _ => ?_)
    refine hm.bind_drops fun ms => hg.bind_drops fun gs => hst.bind_drops fun ss =>
      hsg.bind_drops fun sgs => drops_endScope_bind fun _ => ?_
    have hend : Spares x (setClassContext enclosing >>= fun _ =>
        pure (Stmt.classDecl name sup ms gs ss sgs)) :=
      (spares_setClassContext _).bind fun _ => spares_pure _
    cases sup
    · exact hend.drops
    · exact drops_endScope_bind fun _ => hend.drops
  refine (spares_setClassContext _).below.bind fun _ => ?_
  refine (sparesBelow_declare name true).bind fun _ => ?_
  refine (sparesBelow_define name).bind fun _ => Spares.below ?_
  cases sup with
  | none => exact (hbody none).spares
  | some r =>
    dsimp -zeta only
    extract_lets superclass
    -- the scope of `super` is open while the body runs
    have hsuper : ∀ u, Spares x (superclass u) := fun _ => by
      refine (spares_setClassContext _).bind fun _ =>
        Drops.spares ((spares_resolveLocal (hsup r rfl) true).bind_drops fun r' => ?_)
      exact drops_beginScope_bind false ((sparesBelow_insertKeyword _ _).bind_drops fun _ =>
        hbody (some r'))
    exact Spares.ite ((spares_report _).bind hsuper) (hsuper ())

mutual

theorem spares_resolveExpr : ∀ e : Expr, Expr.Avoids x e → Spares x (resolveExpr e)
  | .assign r v, he => by
    cases he with
    | assign hr hv =>
      rw [resolveExpr]
      exact (spares_resolveExpr v hv).bind fun _ =>
        (spares_resolveLocal hr false).bind fun _ => spares_pure _
  | .binary l op t r, he => by
    cases he with
    | binary hl hr =>
      rw [resolveExpr]
      exact (spares_resolveExpr l hl).bind fun _ => (spares_resolveExpr r hr).bind fun _ =>
        spares_pure _
  | .call callee paren args, he => by
    cases he with
    | call hc ha =>
      rw [resolveExpr]
      exact (spares_resolveExpr callee hc).bind fun _ => (spares_resolveExprs args ha).bind
        fun _ => spares_pure _
  | .get obj name, he => by
    cases he with
    | get ho =>
      rw [resolveExpr]
      exact (spares_resolveExpr obj ho).bind fun _ => spares_pure _
  | .lambda keyword params body, he => by
    cases he with
    | lambda hb =>
      rw [resolveExpr]
      exact (spares_resolveFunction .function (sparesBelow_resolveStmts body hb)).bind fun _ =>
        spares_pure _
  | .grouping e, he => by
    cases he with
    | grouping he =>
      rw [resolveExpr]
      exact (spares_resolveExpr e he).bind fun _ => spares_pure _
  | .literal l, _ => by
    rw [resolveExpr]
    exact spares_pure _
  | .logical l op t r, he => by
    cases he with
    | logical hl hr =>
      rw [resolveExpr]
      exact (spares_resolveExpr l hl).bind fun _ => (spares_resolveExpr r hr).bind fun _ =>
        spares_pure _
  | .set obj name v, he => by
    cases he with
    | set ho hv =>
      rw [resolveExpr]
      exact (spares_resolveExpr v hv).bind fun _ => (spares_resolveExpr obj ho).bind fun _ =>
        spares_pure _
  | .superMember keyword member, he => by
    cases he with
    | superMember hk =>
      rw [resolveExpr]
      refine Spares.get_bind fun t => ?_
      split
      · exact (spares_report _).bind fun _ => spares_pure _
      · exact (spares_report _).bind fun _ => spares_pure _
      · exact (spares_resolveLocal hk true).bind fun _ => spares_pure _
  | .conditional c q a b, he => by
    cases he with
    | conditional hc ha hb =>
      rw [resolveExpr]
      exact (spares_resolveExpr c hc).bind fun _ => (spares_resolveExpr a ha).bind fun _ =>
        (spares_resolveExpr b hb).bind fun _ => spares_pure _
  | .this keyword, he => by
    cases he with
    | this hk =>
      rw [resolveExpr]
      refine Spares.get_bind fun t => ?_
      exact Spares.ite ((spares_report _).bind fun _ => spares_pure _)
        ((spares_resolveLocal hk true).bind fun _ => spares_pure _)
  | .unary op t e, he => by
    cases he with
    | unary he =>
      rw [resolveExpr]
      exact (spares_resolveExpr e he).bind fun _ => spares_pure _
  | .variable r, he => by
    cases he with
    | «variable» hr =>
      rw [resolveExpr]
      exact (spares_resolveLocal hr true).bind fun _ => spares_pure _

theorem spares_resolveExprs : ∀ es : List Expr, (∀ e ∈ es, Expr.Avoids x e) →
    Spares x (resolveExprs es)
  | [], _ => by
    rw [resolveExprs]
    exact spares_pure _
  | e :: es, hes => by
    rw [resolveExprs]
    exact (spares_resolveExpr e (hes e List.mem_cons_self)).bind fun _ =>
      (spares_resolveExprs es fun e' he' => hes e' (List.mem_cons_of_mem _ he')).bind fun _ =>
        spares_pure _

theorem spares_resolveOptExpr : ∀ o : Option Expr, (∀ e, o = some e → Expr.Avoids x e) →
    Spares x (resolveOptExpr o)
  | none, _ => by
    rw [resolveOptExpr]
    exact spares_pure _
  | some e, ho => by
    rw [resolveOptExpr]
    exact (spares_resolveExpr e (ho e rfl)).bind fun _ => spares_pure _

theorem spares_resolveMembers (instanceMethods : Bool) : ∀ ds : List FunDecl,
    (∀ f ∈ ds, ∀ s ∈ f.body, Stmt.Avoids x s) → Spares x (resolveMembers instanceMethods ds)
  | [], _ => by
    rw [resolveMembers]
    exact spares_pure _
  | .mk name params body :: rest, hds => by
    rw [resolveMembers]
    exact (spares_resolveFunction _ (sparesBelow_resolveStmts body (hds _ List.mem_cons_self))).bind
      fun _ => (spares_resolveMembers instanceMethods rest
        fun f hf => hds f (List.mem_cons_of_mem _ hf)).bind fun _ => spares_pure _

theorem sparesBelow_resolveStmt : ∀ s : Stmt, Stmt.Avoids x s → SparesBelow x (resolveStmt s)
  | .block body, hs => by
    cases hs with
    | block hb =>
      rw [resolveStmt]
      exact (Drops.spares (drops_beginScope_bind false ((sparesBelow_resolveStmts body hb).bind_drops
        fun _ => drops_endScope_bind fun _ => (spares_pure _).drops))).below
  | .breakLoop keyword, _ => by
    rw [resolveStmt]
    refine SparesBelow.get_bind fun t => Spares.below ?_
    split
    · exact (spares_report _).bind fun _ => spares_pure _
    · exact spares_pure _
  | .classDecl name sup methods getters statics staticGetters, hs => by
    cases hs with
    | classDecl hsup hm =>
      exact sparesBelow_classDecl hsup
        (spares_resolveMembers true methods fun f hf => hm f (by simp [hf]))
        (spares_resolveMembers false getters fun f hf => hm f (by simp [hf]))
        (spares_resolveMembers false statics fun f hf => hm f (by simp [hf]))
        (spares_resolveMembers false staticGetters fun f hf => hm f (by simp [hf]))
  | .expression e, hs => by
    cases hs with
    | expression he =>
      rw [resolveStmt]
      exact ((spares_resolveExpr e he).bind fun _ => spares_pure _).below
  | .function (.mk name params body), hs => by
    cases hs with
    | function hb =>
      rw [resolveStmt]
      exact (sparesBelow_declare name true).bind fun _ => (sparesBelow_define name).bind fun _ =>
        ((spares_resolveFunction .function (sparesBelow_resolveStmts body hb)).bind fun _ =>
          spares_pure _).below
  | .ifElse c t e, hs => by
    cases hs with
    | ifElse hc ht he =>
      rw [resolveStmt]
      exact (spares_resolveExpr c hc).below.bind fun _ => (sparesBelow_resolveStmt t ht).bind
        fun _ => (sparesBelow_resolveOptStmt e he).bind fun _ => (spares_pure _).below
  | .print e, hs => by
    cases hs with
    | print he =>
      rw [resolveStmt]
      exact ((spares_resolveExpr e he).bind fun _ => spares_pure _).below
  | .returnFrom keyword none, _ => by
    rw [resolveStmt]
    refine SparesBelow.get_bind fun t => Spares.below ?_
    extract_lets context tail
    have htail : ∀ u, Spares x (tail u) := fun u => by
      simp only [tail]
      exact spares_pure _
    exact Spares.ite ((spares_report _).bind htail) (htail ())
  | .returnFrom keyword (some e), hs => by
    cases hs with
    | returnFrom hv =>
      rw [resolveStmt]
      refine SparesBelow.get_bind fun t => Spares.below ?_
      extract_lets context tail
      have hvalue : Spares x (resolveExpr e >>= fun e' =>
          Pure.pure (Stmt.returnFrom keyword (some e'))) :=
        (spares_resolveExpr e (hv e rfl)).bind fun _ => spares_pure _
      have htail : ∀ u, Spares x (tail u) := fun u => by
        simp only [tail]
        exact Spares.ite ((spares_report _).bind fun _ => hvalue) hvalue
      exact Spares.ite ((spares_report _).bind htail) (htail ())
  | .varDecl name init, hs => by
    cases hs with
    | varDecl hi =>
      rw [resolveStmt]
      exact (sparesBelow_declare name true).bind fun _ => (spares_resolveOptExpr init hi).below.bind
        fun _ => (sparesBelow_define name).bind fun _ => (spares_pure _).below
  | .whileLoop c body, hs => by
    cases hs with
    | whileLoop hc hb =>
      rw [resolveStmt]
      -- the loop depth is all that the two steps around the body change
      have hdepth : ∀ g : Nat → Nat,
          Spares x (modify fun s : State => { s with loopDepth := g s.loopDepth }) :=
        fun _ => spares_modify (fun _ => rfl) (fun _ => rfl) (fun _ => rfl)
      exact (spares_resolveExpr c hc).below.bind fun _ => (hdepth (· + 1)).below.bind fun _ =>
        (sparesBelow_resolveStmt body hb).bind fun _ => (hdepth (· - 1)).below.bind fun _ =>
          (spares_pure _).below

theorem sparesBelow_resolveStmts : ∀ ss : List Stmt, (∀ s ∈ ss, Stmt.Avoids x s) →
    SparesBelow x (resolveStmts ss)
  | [], _ => by
    rw [resolveStmts]
    exact (spares_pure _).below
  | s :: ss, hss => by
    rw [resolveStmts]
    exact (sparesBelow_resolveStmt s (hss s List.mem_cons_self)).bind fun _ =>
      (sparesBelow_resolveStmts ss fun s' hs' => hss s' (List.mem_cons_of_mem _ hs')).bind fun _ =>
        (spares_pure _).below

theorem sparesBelow_resolveOptStmt : ∀ o : Option Stmt, (∀ s, o = some s → Stmt.Avoids x s) →
    SparesBelow x (resolveOptStmt o)
  | none, _ => by
    rw [resolveOptStmt]
    exact (spares_pure _).below
  | some s, ho => by
    rw [resolveOptStmt]
    exact (sparesBelow_resolveStmt s (ho s rfl)).bind fun _ => (spares_pure _).below

end

end Resolution

end Lox
