import Lox.Proofs.Arena
import Lox.Proofs.Resolution
/-!
# How far out each name is found

Resolution records, for each use of a name, how many scopes out its declaration lies. The
interpreter opens scopes where resolution opens frames: one for a block, one for the
parameters of a function body, and for a class member's body one for `this` and, when the
class has a superclass, one for `super` outside it. `Stmt.Scoped u d s` says that, with `d`
scopes around it counted that way, every use of a name in `s` satisfies `u`, and that no
declaration, parameter or assignment names `super`.

Parsing gives trees where `super` is always the keyword (`Uses.parsed`). Resolving such a tree
at the top level, when it reports nothing, gives a tree where every name is found at most the
number of scopes around it out, and `super` at least one scope out (`Uses.resolved`): the
scope of `this` lies just inside the scope of `super`. The main statements are
`resolveProgram_scoped` and `resolveExpression_scoped`.
-/

namespace Lox

/-- What each use of a name must satisfy, `d` scopes inside: `name d r` for a variable, `this`
or an assignment target, `super d r` for `super`. -/
structure Uses where
  name : Nat → Reference → Prop
  super : Nat → Reference → Prop

/-- The uses that parsing gives: `super` is the keyword. -/
def Uses.parsed : Uses := ⟨fun _ _ => True, fun _ r => r.name.lexeme = "super"⟩

/-- The uses that resolution gives: a name found in a local scope lies inside the `d` scopes
around it, and `super` is found outside the innermost scope. -/
def Uses.resolved : Uses :=
  ⟨fun d r => ∀ h, r.hops = some h → h < d,
    fun d r => r.name.lexeme = "super" ∧ ∃ h, r.hops = some (h + 1) ∧ h + 1 < d⟩

/-- No parameter is named `super`. -/
def Params (params : List Token) : Prop := ∀ p ∈ params, p.lexeme ≠ "super"

/-- The scopes around a class member's body, `d` around the class: its parameters, `this`, and
`super` when the class has a superclass. -/
def memberDepth (d : Nat) : Option Reference → Nat
  | some _ => d + 3
  | none => d + 2

mutual

/-- Every use of a name in the expression, `d` scopes inside, satisfies `u`. -/
inductive Expr.Scoped (u : Uses) : Nat → Expr → Prop
  | assign {d r v} : u.name d r → r.name.lexeme ≠ "super" → Expr.Scoped u d v →
      Expr.Scoped u d (.assign r v)
  | binary {d l op t r} : Expr.Scoped u d l → Expr.Scoped u d r →
      Expr.Scoped u d (.binary l op t r)
  | call {d callee paren args} : Expr.Scoped u d callee → (∀ a ∈ args, Expr.Scoped u d a) →
      Expr.Scoped u d (.call callee paren args)
  | get {d obj name} : Expr.Scoped u d obj → Expr.Scoped u d (.get obj name)
  | lambda {d keyword params body} : Params params → (∀ s ∈ body, Stmt.Scoped u (d + 1) s) →
      Expr.Scoped u d (.lambda keyword params body)
  | grouping {d e} : Expr.Scoped u d e → Expr.Scoped u d (.grouping e)
  | literal {d l} : Expr.Scoped u d (.literal l)
  | logical {d l op t r} : Expr.Scoped u d l → Expr.Scoped u d r →
      Expr.Scoped u d (.logical l op t r)
  | set {d obj name v} : Expr.Scoped u d obj → Expr.Scoped u d v →
      Expr.Scoped u d (.set obj name v)
  | superMember {d keyword member} : u.super d keyword →
      Expr.Scoped u d (.superMember keyword member)
  | conditional {d c q a b} : Expr.Scoped u d c → Expr.Scoped u d a → Expr.Scoped u d b →
      Expr.Scoped u d (.conditional c q a b)
  | this {d r} : u.name d r → Expr.Scoped u d (.this r)
  | unary {d op t e} : Expr.Scoped u d e → Expr.Scoped u d (.unary op t e)
  | «variable» {d r} : u.name d r → Expr.Scoped u d (.variable r)

/-- Every use of a name in the statement, `d` scopes inside, satisfies `u`, and no declaration
names `super`. -/
inductive Stmt.Scoped (u : Uses) : Nat → Stmt → Prop
  | block {d body} : (∀ s ∈ body, Stmt.Scoped u (d + 1) s) → Stmt.Scoped u d (.block body)
  | breakLoop {d keyword} : Stmt.Scoped u d (.breakLoop keyword)
  | classDecl {d name sup methods getters statics staticGetters} : name.lexeme ≠ "super" →
      (∀ r, sup = some r → u.name d r) →
      (∀ f ∈ methods ++ getters ++ statics ++ staticGetters, Params f.params) →
      (∀ f ∈ methods ++ getters ++ statics ++ staticGetters, ∀ s ∈ f.body,
        Stmt.Scoped u (memberDepth d sup) s) →
      Stmt.Scoped u d (.classDecl name sup methods getters statics staticGetters)
  | expression {d e} : Expr.Scoped u d e → Stmt.Scoped u d (.expression e)
  | function {d name params body} : name.lexeme ≠ "super" → Params params →
      (∀ s ∈ body, Stmt.Scoped u (d + 1) s) → Stmt.Scoped u d (.function (.mk name params body))
  | ifElse {d c t e} : Expr.Scoped u d c → Stmt.Scoped u d t →
      (∀ s, e = some s → Stmt.Scoped u d s) → Stmt.Scoped u d (.ifElse c t e)
  | print {d e} : Expr.Scoped u d e → Stmt.Scoped u d (.print e)
  | returnFrom {d keyword value} : (∀ e, value = some e → Expr.Scoped u d e) →
      Stmt.Scoped u d (.returnFrom keyword value)
  | varDecl {d name init} : name.lexeme ≠ "super" → (∀ e, init = some e → Expr.Scoped u d e) →
      Stmt.Scoped u d (.varDecl name init)
  | whileLoop {d c body} : Expr.Scoped u d c → Stmt.Scoped u d body →
      Stmt.Scoped u d (.whileLoop c body)

end

namespace Resolution

variable {α β : Type}

/-! ## Guarded steps

The invariants `Scoping` below and `Anchoring` after it share one form. From a state the
invariant applies to, a step leaves a state that a relation `keep` ties to it; when the step
reports no fault, from a state where results are judged, its result satisfies a property at what
that state shows. The rules for composing such steps are stated here once, for every relation
with the laws of a `Guard`. -/

/-- An invariant of resolution: the states it applies to (`pre`), how a step may change them
(`keep`), the states where results are judged (`ready`), and what a result is judged at
(`view`). `keep` is reflexive and transitive, keeps `pre`, `ready` and `view`, only adds faults,
and allows a fault to be reported. -/
structure Guard (V : Type) where
  pre : State → Prop
  keep : State → State → Prop
  ready : State → Prop
  view : State → V
  refl : ∀ {s}, pre s → keep s s
  trans : ∀ {s s' s''}, keep s s' → keep s' s'' → keep s s''
  pre_of_keep : ∀ {s s'}, keep s s' → pre s'
  ready_of_keep : ∀ {s s'}, keep s s' → ready s → ready s'
  view_of_keep : ∀ {s s'}, keep s s' → view s' = view s
  faults_le : ∀ {s s'}, keep s s' → s.faults.size ≤ s'.faults.size
  reported : ∀ {s} (f : StaticFault), pre s → keep s { s with faults := s.faults.push f }

namespace Guard

variable {V : Type} (G : Guard V)

/-- From `s`, when the invariant applies, `x` keeps `s`; and when it reports no fault and
results are judged at `s`, its result satisfies `P` at the view of `s`. -/
def At (x : ResolveM α) (P : V → α → Prop) (s : State) : Prop :=
  G.pre s → G.keep s (x.run s).2 ∧
    (G.ready s → (x.run s).2.faults.size = s.faults.size → P (G.view s) (x.run s).1)

/-- From every state. -/
def Holds (x : ResolveM α) (P : V → α → Prop) : Prop := ∀ s, G.At x P s

/-- A step that keeps every state the invariant applies to, whatever its result. -/
def Steady (x : ResolveM α) : Prop := ∀ s, G.pre s → G.keep s (x.run s).2

variable {G}

theorem Steady.holds {x : ResolveM α} (hx : G.Steady x) : G.Holds x fun _ _ => True :=
  fun s hs => ⟨hx s hs, fun _ _ => trivial⟩

theorem holds_pure {P : V → α → Prop} {a : α} (h : ∀ v, P v a) : G.Holds (Pure.pure a) P :=
  fun _ hs => ⟨G.refl hs, fun _ _ => h _⟩

/-- What `f` needs of `x`'s result holds when neither reports a fault: then `x` reported none,
and `f` starts from a state with the view of `s`. -/
theorem At.bind {Q : V → α → Prop} {P : V → β → Prop} {x : ResolveM α} {f : α → ResolveM β}
    {s : State} (hx : G.At x Q s) (hf : ∀ a, G.Holds (f a) fun v r => Q v a → P v r) :
    G.At (x >>= f) P s := by
  intro hs
  obtain ⟨hk1, hq⟩ := hx hs
  obtain ⟨hk2, hp⟩ := hf (x.run s).1 (x.run s).2 (G.pre_of_keep hk1)
  refine ⟨G.trans hk1 hk2, fun hr h => ?_⟩
  have h1 : (x.run s).2.faults.size = s.faults.size :=
    Nat.le_antisymm (h ▸ G.faults_le hk2) (G.faults_le hk1)
  have hp := hp (G.ready_of_keep hk1 hr) (h1 ▸ h)
  rw [G.view_of_keep hk1] at hp
  exact hp (hq hr h1)

theorem Holds.bind {Q : V → α → Prop} {P : V → β → Prop} {x : ResolveM α} {f : α → ResolveM β}
    (hx : G.Holds x Q) (hf : ∀ a, G.Holds (f a) fun v r => Q v a → P v r) :
    G.Holds (x >>= f) P :=
  fun s => (hx s).bind hf

theorem Holds.steady {P : V → α → Prop} {x : ResolveM α} (h : G.Holds x P) : G.Steady x :=
  fun s hs => (h s hs).1

theorem Steady.bind {x : ResolveM α} {f : α → ResolveM β} (hx : G.Steady x)
    (hf : ∀ a, G.Steady (f a)) : G.Steady (x >>= f) :=
  fun s hs => G.trans (hx s hs) (hf _ _ (G.pre_of_keep (hx s hs)))

theorem steady_pure {a : α} : G.Steady (Pure.pure a : ResolveM α) := fun _ hs => G.refl hs

theorem Holds.mono {P Q : V → α → Prop} {x : ResolveM α} (hx : G.Holds x P)
    (h : ∀ v a, P v a → Q v a) : G.Holds x Q :=
  fun s hs => ⟨(hx s hs).1, fun hr e => h _ _ ((hx s hs).2 hr e)⟩

theorem Holds.after {P : V → β → Prop} {x : ResolveM α} {f : α → ResolveM β}
    (hx : G.Steady x) (hf : ∀ a, G.Holds (f a) P) : G.Holds (x >>= f) P :=
  hx.holds.bind fun a => (hf a).mono fun _ _ h _ => h

/-- A fault reported makes every requirement on the result hold vacuously. -/
theorem holds_report {P : V → Unit → Prop} (f : StaticFault) : G.Holds (report f) P := by
  intro s hs
  have h : ((report f).run s).2 = { s with faults := s.faults.push f } := rfl
  rw [h]
  exact ⟨G.reported f hs, fun _ h => by simp at h⟩

theorem steady_report (f : StaticFault) : G.Steady (report f) :=
  (holds_report (P := fun _ _ => True) f).steady

/-- After a fault is reported, nothing more needs to hold. -/
theorem Holds.report_bind {P Q : V → β → Prop} (f : StaticFault) {k : Unit → ResolveM β}
    (hk : ∀ a, G.Holds (k a) Q) : G.Holds (report f >>= k) P :=
  (holds_report (P := fun _ _ => False) f).bind fun a => (hk a).mono fun _ _ _ h => h.elim

/-- After a fault is reported, a step that keeps the state is all that needs to hold. -/
theorem At.report_bind {P : V → α → Prop} {s : State} {f : StaticFault}
    {k : Unit → ResolveM α} (hk : ∀ u, G.Steady (k u)) : G.At (report f >>= k) P s :=
  ((holds_report (P := fun _ _ => False) f).bind
    fun u => (hk u).holds.mono fun _ _ _ h => h.elim) s

end Guard

/-- Whether a frame binds `super`. -/
def Frame.holdsSuper (f : Frame) : Bool := (f.names.lookup "super").isSome

/-- A frame that binds `super` counts it as used. -/
def Frame.Clean (f : Frame) : Prop := ∀ l, f.names.lookup "super" = some l → l.stage = .used

/-- Only classes bind `super`, and they count it as used at once. -/
def State.Clean (s : State) : Prop := ∀ f ∈ s.frames, f.Clean

/-- Of frames that bind `super` or not, innermost first: the first that does is `i` out. -/
inductive SuperAt : List Bool → Nat → Prop
  | here {l : List Bool} : SuperAt (true :: l) 0
  | there {l : List Bool} {i : Nat} : SuperAt l i → SuperAt (false :: l) (i + 1)

/-- Inside a subclass, `super` is bound outside the innermost frame. -/
def State.SuperReady (s : State) : Prop :=
  s.classContext = .subclass → ∃ i, SuperAt (s.frames.map Frame.holdsSuper) (i + 1)

/-- From `s` to `s'`, resolution only added faults, left as many frames as it found, binding
`super` where they did and counting it used, and left the class context as it was. -/
structure Restores (s s' : State) : Prop where
  faults_le : s.faults.size ≤ s'.faults.size
  length_eq : s'.frames.length = s.frames.length
  supers_eq : s'.frames.map Frame.holdsSuper = s.frames.map Frame.holdsSuper
  classContext_eq : s'.classContext = s.classContext
  clean : s'.Clean

theorem Restores.refl {s : State} (h : s.Clean) : Restores s s := ⟨Nat.le_refl _, rfl, rfl, rfl, h⟩

theorem Restores.trans {s s' s'' : State} (h : Restores s s') (g : Restores s' s'') :
    Restores s s'' :=
  ⟨Nat.le_trans h.faults_le g.faults_le, g.length_eq.trans h.length_eq,
    g.supers_eq.trans h.supers_eq, g.classContext_eq.trans h.classContext_eq, g.clean⟩

theorem State.SuperReady.restores {s s' : State} (hs : s.SuperReady) (h : Restores s s') :
    s'.SuperReady := by
  intro hc
  rw [h.supers_eq]
  exact hs (h.classContext_eq ▸ hc)

/-- Scoping as a guard: from clean states, steps restore them, results are judged where `super`
is ready, at the number of frames. -/
def scopeGuard : Guard Nat where
  pre := State.Clean
  keep := Restores
  ready := State.SuperReady
  view s := s.frames.length
  refl := Restores.refl
  trans := Restores.trans
  pre_of_keep h := h.clean
  ready_of_keep h hs := hs.restores h
  view_of_keep h := h.length_eq
  faults_le h := h.faults_le
  reported _ hs := ⟨by simp, rfl, rfl, rfl, hs⟩

/-- From a clean state `s`, `x` restores it, and when it reports no fault and `super` is ready
at `s`, its result satisfies `P` with as many scopes around it as `s` has frames. -/
def ScopedAt (x : ResolveM α) (P : Nat → α → Prop) (s : State) : Prop :=
  s.Clean → Restores s (x.run s).2 ∧
    (s.SuperReady → (x.run s).2.faults.size = s.faults.size → P s.frames.length (x.run s).1)

/-- From every state, `x` is scoped at it. -/
def Scoping (x : ResolveM α) (P : Nat → α → Prop) : Prop := ∀ s, ScopedAt x P s

/-- A step that restores every clean state and whose result needs nothing. -/
def Neutral (x : ResolveM α) : Prop := ∀ s, s.Clean → Restores s (x.run s).2

/-! The rules of `Guard`, for `scopeGuard`. -/

theorem Neutral.scoping {x : ResolveM α} (hx : Neutral x) : Scoping x fun _ _ => True :=
  Guard.Steady.holds (G := scopeGuard) hx

theorem Scoping.pure {P : Nat → α → Prop} {a : α} (h : ∀ d, P d a) : Scoping (Pure.pure a) P :=
  Guard.holds_pure (G := scopeGuard) h

theorem ScopedAt.bind {Q : Nat → α → Prop} {P : Nat → β → Prop} {x : ResolveM α}
    {f : α → ResolveM β} {s : State} (hx : ScopedAt x Q s)
    (hf : ∀ a, Scoping (f a) fun d r => Q d a → P d r) : ScopedAt (x >>= f) P s :=
  Guard.At.bind (G := scopeGuard) hx hf

theorem Scoping.bind {Q : Nat → α → Prop} {P : Nat → β → Prop} {x : ResolveM α}
    {f : α → ResolveM β} (hx : Scoping x Q) (hf : ∀ a, Scoping (f a) fun d r => Q d a → P d r) :
    Scoping (x >>= f) P :=
  Guard.Holds.bind (G := scopeGuard) hx hf

theorem Scoping.neutral {P : Nat → α → Prop} {x : ResolveM α} (h : Scoping x P) : Neutral x :=
  Guard.Holds.steady (G := scopeGuard) h

theorem Neutral.bind {x : ResolveM α} {f : α → ResolveM β} (hx : Neutral x)
    (hf : ∀ a, Neutral (f a)) : Neutral (x >>= f) :=
  Guard.Steady.bind (G := scopeGuard) hx hf

theorem Neutral.pure {a : α} : Neutral (Pure.pure a : ResolveM α) :=
  Guard.steady_pure (G := scopeGuard)

theorem Scoping.mono {P Q : Nat → α → Prop} {x : ResolveM α} (hx : Scoping x P)
    (h : ∀ d a, P d a → Q d a) : Scoping x Q :=
  Guard.Holds.mono (G := scopeGuard) hx h

theorem Scoping.after {P : Nat → β → Prop} {x : ResolveM α} {f : α → ResolveM β}
    (hx : Neutral x) (hf : ∀ a, Scoping (f a) P) : Scoping (x >>= f) P :=
  Guard.Holds.after (G := scopeGuard) hx hf

theorem Scoping.ite {P : Nat → α → Prop} {c : Prop} [Decidable c] {x y : ResolveM α}
    (hx : Scoping x P) (hy : Scoping y P) : Scoping (if c then x else y) P := by
  split
  · exact hx
  · exact hy

theorem Neutral.ite {c : Prop} [Decidable c] {x y : ResolveM α} (hx : Neutral x) (hy : Neutral y) :
    Neutral (if c then x else y) := by
  split
  · exact hx
  · exact hy

theorem ScopedAt.ite {P : Nat → α → Prop} {s : State} {c : Bool} {x y : ResolveM α}
    (hx : ScopedAt x P s) (hy : ScopedAt y P s) : ScopedAt (if c = true then x else y) P s := by
  cases c
  · exact hy
  · exact hx

/-- A fault reported makes every requirement hold vacuously. -/
theorem scoping_report {P : Nat → Unit → Prop} (f : StaticFault) : Scoping (report f) P :=
  Guard.holds_report (G := scopeGuard) f

theorem neutral_report (f : StaticFault) : Neutral (report f) :=
  Guard.steady_report (G := scopeGuard) f

/-- After a fault is reported, nothing more needs to hold. -/
theorem Scoping.report_bind {P Q : Nat → β → Prop} (f : StaticFault) {k : Unit → ResolveM β}
    (hk : ∀ a, Scoping (k a) Q) : Scoping (report f >>= k) P :=
  Guard.Holds.report_bind (G := scopeGuard) f hk

theorem run_get_bind (f : State → ResolveM α) (s : State) : (get >>= f).run s = (f s).run s :=
  rfl

theorem Scoping.get_bind {P : Nat → α → Prop} {f : State → ResolveM α}
    (h : ∀ s, ScopedAt (f s) P s) : Scoping (get >>= f) P := h

theorem ScopedAt.get_bind {P : Nat → α → Prop} {f : State → ResolveM α} {s : State}
    (h : ScopedAt (f s) P s) : ScopedAt (get >>= f) P s := h

/-- A fault reported, then `k`: restored as `k` restores, and nothing more needs to hold. -/
theorem ScopedAt.report_bind {P : Nat → α → Prop} {s : State} {f : StaticFault}
    {k : Unit → ResolveM α} (hk : ∀ u, Neutral (k u)) : ScopedAt (report f >>= k) P s :=
  Guard.At.report_bind (G := scopeGuard) hk

theorem Neutral.get_bind {f : State → ResolveM α} (h : ∀ s, s.Clean → Restores s ((f s).run s).2) :
    Neutral (get >>= f) := h

/-- A step that changes neither the faults, the frames nor the class context. -/
theorem neutral_modify {g : State → State} (hf : ∀ s, (g s).faults = s.faults)
    (hfr : ∀ s, (g s).frames = s.frames) (hc : ∀ s, (g s).classContext = s.classContext) :
    Neutral (modify g) :=
  fun s hs => ⟨Nat.le_of_eq (congrArg Array.size (hf s)).symm, by rw [run_modify, hfr],
    by rw [run_modify, hfr], hc s, fun f hf' => hs f (hfr s ▸ hf')⟩

/-- Setting a name other than `super` leaves where a frame binds `super`. -/
theorem lookup_super_setEntry {β : Type} {name : String} (h : name ≠ "super") (v : β)
    (l : List (String × β)) : (setEntry name v l).lookup "super" = l.lookup "super" := by
  rw [Scopes.lookup_setEntry, if_neg (Ne.symm h)]

theorem lookup_super_append {name : String} (h : name ≠ "super") (l : List (String × Local))
    (x : Local) : (l ++ [(name, x)]).lookup "super" = l.lookup "super" := by
  rw [List.lookup_append]
  cases l.lookup "super" with
  | some _ => rfl
  | none => simp [List.lookup_cons, beq_false_of_ne (Ne.symm h)]

/-- A frame changed only in what it binds to names other than `super`. -/
theorem frame_super_eq {f g : Frame} (h : g.names.lookup "super" = f.names.lookup "super") :
    g.holdsSuper = f.holdsSuper ∧ (f.Clean → g.Clean) :=
  ⟨by simp [Frame.holdsSuper, h], fun hf l hl => hf l (h ▸ hl)⟩

theorem Restores.of_frames_eq {s s' : State} (hs : s.Clean) (h : s'.frames = s.frames)
    (hf : s'.faults = s.faults) (hc : s'.classContext = s.classContext) : Restores s s' :=
  ⟨Nat.le_of_eq (congrArg Array.size hf).symm, by rw [h], by rw [h], hc, fun f hf' => hs f (h ▸ hf')⟩

/-- A step that changes the innermost frame, but not where it binds `super`. -/
theorem Restores.top {s s' : State} (hs : s.Clean) {f f' : Frame} {rest : List Frame}
    (h1 : s.frames = f :: rest) (h2 : s'.frames = f' :: rest)
    (h3 : f'.names.lookup "super" = f.names.lookup "super") (hf : s'.faults = s.faults)
    (hc : s'.classContext = s.classContext) : Restores s s' := by
  have hsup := frame_super_eq h3
  refine ⟨Nat.le_of_eq (congrArg Array.size hf).symm, by rw [h1, h2]; rfl, ?_, hc, ?_⟩
  · rw [h1, h2, List.map_cons, List.map_cons, hsup.1]
  · intro x hx
    rw [h2] at hx
    rcases List.mem_cons.1 hx with rfl | hx
    · exact hsup.2 (hs f (h1 ▸ List.mem_cons_self))
    · exact hs x (h1 ▸ List.mem_cons_of_mem _ hx)

theorem neutral_define {name : Token} (h : name.lexeme ≠ "super") : Neutral (define name) := by
  intro s hs
  rw [define, run_modify]
  split
  · exact Restores.of_frames_eq hs rfl rfl rfl
  · rename_i f rest hfr
    split
    · split
      · exact Restores.top hs hfr rfl (lookup_super_setEntry h _ _) rfl rfl
      · exact .refl hs
    · exact .refl hs

theorem neutral_declare {name : Token} (h : name.lexeme ≠ "super") (reportUnused : Bool) :
    Neutral (declare name reportUnused) := by
  refine Neutral.get_bind fun s hs => ?_
  split
  · split
    · exact Restores.of_frames_eq hs rfl rfl rfl
    · exact .refl hs
  · rename_i f rest hfr
    split
    · exact neutral_report _ s hs
    · exact Restores.top hs hfr rfl (lookup_super_append h _ _) rfl rfl

/-- Declaring the parameters of a function, none named `super`. -/
theorem neutral_params {params : List Token} (h : Params params) :
    Neutral (forIn params PUnit.unit fun p _ => do
      declare p false
      define p
      Pure.pure (ForInStep.yield PUnit.unit) : ResolveM PUnit) := by
  induction params with
  | nil => exact Neutral.pure
  | cons p ps ih =>
    simp only [List.forIn_cons]
    have hp : p.lexeme ≠ "super" := h p List.mem_cons_self
    refine Neutral.bind (Neutral.bind (neutral_declare hp false) fun _ =>
      Neutral.bind (neutral_define hp) fun _ => Neutral.pure) fun r => ?_
    split
    · exact Neutral.pure
    · exact ih fun q hq => h q (List.mem_cons_of_mem _ hq)

/-- Looking a name up in the frames leaves as many frames, binding `super` where they did,
and finds the name inside them. -/
theorem lookupFrames_found {name : String} {read : Bool} :
    ∀ {frames : List Frame} {hops : Nat} {initializing deferred : Bool} {h : Nat}
      {fs : List Frame}, (∀ f ∈ frames, f.Clean) →
      lookupFrames name read hops initializing deferred frames = .found h fs →
      h < hops + frames.length ∧ fs.length = frames.length ∧
        fs.map Frame.holdsSuper = frames.map Frame.holdsSuper ∧ ∀ f ∈ fs, f.Clean
  | [], _, _, _, _, _, _, hl => by simp [lookupFrames] at hl
  | f :: rest, hops, initializing, deferred, h, fs, hc, hl => by
    have hrest : ∀ g ∈ rest, g.Clean := fun g hg => hc g (List.mem_cons_of_mem _ hg)
    -- a match further out keeps this frame as it is
    have hout : ∀ {i d : Bool} {h' : Nat} {fs' : List Frame},
        lookupFrames name read (hops + 1) i d rest = .found h' fs' →
        h' < hops + (f :: rest).length ∧ (f :: fs').length = (f :: rest).length ∧
          (f :: fs').map Frame.holdsSuper = (f :: rest).map Frame.holdsSuper ∧
          ∀ g ∈ f :: fs', g.Clean := by
      intro i d h' fs' hrec
      obtain ⟨h1, h2, h3, h4⟩ := lookupFrames_found hrest hrec
      refine ⟨by simp only [List.length_cons]; omega, by simp [h2], by simp [h3], fun g hg => ?_⟩
      rcases List.mem_cons.1 hg with rfl | hg
      · exact hc g List.mem_cons_self
      · exact h4 g hg
    unfold lookupFrames at hl
    split at hl
    · rename_i l hfl
      split at hl
      · split at hl
        · rename_i hrec
          cases hl
          exact hout hrec
        · rename_i hne
          exact absurd hl (hne _ _)
      · cases hl
        -- the name is found here, and perhaps marked as read
        have hsame : ∀ g : Frame, g.names.lookup "super" = f.names.lookup "super" ∨
            (name = "super" ∧ ∃ l', g.names.lookup "super" = some l' ∧ l'.stage = .used) →
            g.holdsSuper = f.holdsSuper ∧ g.Clean := by
          rintro g (hg | ⟨rfl, l', hg, hst⟩)
          · exact ⟨(frame_super_eq hg).1, (frame_super_eq hg).2 (hc f List.mem_cons_self)⟩
          · refine ⟨by simp [Frame.holdsSuper, hg, hfl], fun l'' hl'' => ?_⟩
            rw [hg] at hl''
            cases hl''
            exact hst
        have hf' := hsame (if read then { f with names := setEntry name { l with stage := .used } f.names }
          else f) (by
            split
            · by_cases hn : name = "super"
              · exact .inr ⟨hn, { l with stage := .used },
                  by rw [Scopes.lookup_setEntry, if_pos hn.symm], rfl⟩
              · exact .inl (lookup_super_setEntry hn _ _)
            · exact .inl rfl)
        refine ⟨by simp, by simp, by simp [hf'.1], fun g hg => ?_⟩
        rcases List.mem_cons.1 hg with rfl | hg
        · exact hf'.2
        · exact hrest g hg
    · split at hl
      · rename_i hrec
        cases hl
        exact hout hrec
      · rename_i hne
        exact absurd hl (hne _ _)

/-- Where `super` is bound `i` frames out, it is found there. -/
theorem lookupFrames_super {read : Bool} :
    ∀ {frames : List Frame} {i hops : Nat} {initializing deferred : Bool},
      (∀ f ∈ frames, f.Clean) → SuperAt (frames.map Frame.holdsSuper) i →
      ∃ fs, lookupFrames "super" read hops initializing deferred frames = .found (hops + i) fs
  | [], _, _, _, _, _, hi => by cases hi
  | f :: rest, i, hops, initializing, deferred, hc, hi => by
    unfold lookupFrames
    cases hsup : f.holdsSuper with
    | true =>
      rw [List.map_cons, hsup] at hi
      cases hi
      obtain ⟨l, hl⟩ := Option.isSome_iff_exists.1 hsup
      rw [hl]
      have hst : l.stage = .used := hc f List.mem_cons_self l hl
      simp only [hst, reduceCtorEq, decide_false, Bool.false_and, Bool.false_eq_true, ↓reduceIte]
      exact ⟨_, by rfl⟩
    | false =>
      rw [List.map_cons, hsup] at hi
      cases hi with
      | there hi =>
        have hnone : f.names.lookup "super" = none := by
          simpa [Frame.holdsSuper] using hsup
        rw [hnone]
        obtain ⟨fs, hfs⟩ := @lookupFrames_super read rest _ (hops + 1) initializing
          (deferred || f.isFunction) (fun g hg => hc g (List.mem_cons_of_mem _ hg)) hi
        rw [hfs]
        refine ⟨f :: fs, ?_⟩
        dsimp only
        rw [Nat.add_assoc, Nat.add_comm 1]

/-- Resolving a use of a name restores the state, and finds the name inside the frames, where
`lookupFrames` finds it, or leaves it to the globals; whatever the class context. -/
theorem resolveLocal_spec (r : Reference) (read : Bool) {s : State} (hs : s.Clean) :
    Restores s ((resolveLocal r read).run s).2 ∧ ((resolveLocal r read).run s).1.name = r.name ∧
      Uses.resolved.name s.frames.length ((resolveLocal r read).run s).1 ∧
      ∀ h fs, lookupFrames r.name.lexeme read 0 false false s.frames = .found h fs →
        ((resolveLocal r read).run s).1.hops = some h := by
  unfold resolveLocal
  extract_lets name g
  rw [run_get_bind]
  split
  · rename_i hops frames hl
    obtain ⟨h1, h2, h3, h4⟩ := lookupFrames_found hs hl
    refine ⟨⟨Nat.le_refl _, h2, h3, rfl, h4⟩, rfl, fun h hh => ?_, fun h fs hf => ?_⟩
    · cases hh
      simpa using h1
    · rw [hl] at hf
      cases hf
      rfl
  · rename_i initializing deferred hl
    have hnot : ∀ h fs, lookupFrames r.name.lexeme read 0 false false s.frames = .found h fs →
        False := fun h fs hf => by rw [hl] at hf; cases hf
    extract_lets known initializing'
    clear_value initializing'
    cases initializing'
    · exact ⟨.refl hs, rfl, fun h hh => (by cases hh), fun h fs hf => (hnot h fs hf).elim⟩
    · exact ⟨neutral_report _ s hs, rfl, fun h hh => (by cases hh),
        fun h fs hf => (hnot h fs hf).elim⟩

theorem scoping_resolveLocal (r : Reference) (read : Bool) :
    Scoping (resolveLocal r read) fun d r' => r'.name = r.name ∧ Uses.resolved.name d r' :=
  fun _ hs => ⟨(resolveLocal_spec r read hs).1,
    fun _ _ => ⟨(resolveLocal_spec r read hs).2.1, (resolveLocal_spec r read hs).2.2.1⟩⟩

/-- Inside a subclass, `super` is found outside the innermost frame. -/
theorem scopedAt_resolveSuper {r : Reference} (hr : r.name.lexeme = "super") {s : State}
    (hc : s.classContext = .subclass) :
    ScopedAt (resolveLocal r true) (fun d r' => Uses.resolved.super d r') s := by
  intro hs
  obtain ⟨hres, hname, hlt, hfound⟩ := resolveLocal_spec r true hs
  refine ⟨hres, fun hsr _ => ?_⟩
  obtain ⟨i, hi⟩ := hsr hc
  obtain ⟨fs, hfs⟩ := @lookupFrames_super true s.frames _ 0 false false hs hi
  rw [← hr] at hfs
  have hh := hfound _ _ hfs
  refine ⟨hname ▸ hr, i, by simpa using hh, ?_⟩
  exact hlt _ (by simpa using hh)

theorem Scoping.withinFunction {P : Nat → α → Prop} {x : ResolveM α} (kind : FunctionContext)
    (hx : Scoping x P) : Scoping (withinFunction kind x) P := by
  intro s hs
  simp only [Resolution.withinFunction, run_bind, run_get, run_modify, run_pure]
  obtain ⟨hr, hp⟩ := hx { s with functionContext := kind, loopDepth := 0 } hs
  exact ⟨⟨hr.faults_le, hr.length_eq, hr.supers_eq, hr.classContext_eq, hr.clean⟩, hp⟩

/-- A frame opened for `x` and closed after it: what `x` gives lies one scope further in. -/
theorem State.Clean.push {s : State} (hs : s.Clean) (b : Bool) :
    State.Clean { s with frames := ⟨[], b⟩ :: s.frames } := by
  intro f hf
  rcases List.mem_cons.1 hf with rfl | hf
  · intro l hl
    simp at hl
  · exact hs f hf

theorem endScope_run {s : State} {f : Frame} {rest : List Frame} (h : s.frames = f :: rest) :
    (endScope.run s).2.frames = rest ∧ (endScope.run s).2.faults = s.faults ∧
      (endScope.run s).2.classContext = s.classContext := by
  unfold endScope
  rw [run_modify]
  dsimp only
  rw [h]
  exact ⟨rfl, rfl, rfl⟩

/-- Closing the innermost frame of a clean state leaves it clean, with the frames below. -/
theorem State.Clean.endScope {u : State} {b : Bool} {bs : List Bool} (hu : u.Clean)
    (h : u.frames.map Frame.holdsSuper = b :: bs) :
    (endScope.run u).2.Clean ∧ (endScope.run u).2.frames.map Frame.holdsSuper = bs ∧
      (endScope.run u).2.faults = u.faults ∧
      (endScope.run u).2.classContext = u.classContext := by
  obtain ⟨f, rest, hfr, -, hrest⟩ := List.map_eq_cons_iff.1 h
  obtain ⟨e1, e2, e3⟩ := endScope_run hfr
  exact ⟨fun g hg => hu g (hfr ▸ List.mem_cons_of_mem _ (e1 ▸ hg)), by rw [e1, hrest], e2, e3⟩

theorem Scoping.scope {P : Nat → α → Prop} {Q : Nat → β → Prop} {x : ResolveM α} {g : α → β}
    (b : Bool) (hx : Scoping x P) (hg : ∀ d a, P (d + 1) a → Q d (g a)) :
    Scoping (do beginScope b; let a ← x; endScope; Pure.pure (g a)) Q := by
  intro s hs
  simp only [beginScope, endScope, run_bind, run_modify, run_pure]
  obtain ⟨hr, hp⟩ := hx _ (hs.push b)
  generalize x.run { s with frames := ⟨[], b⟩ :: s.frames } = p at hr hp
  obtain ⟨a, s2⟩ := p
  dsimp only at hr hp ⊢
  obtain ⟨hf, hlen, hsup, hcc, hcl⟩ := hr
  split
  · rename_i hnil
    simp [hnil] at hlen
  · rename_i f rest hfr
    rw [hfr, List.map_cons, List.map_cons] at hsup
    rw [hfr] at hlen
    refine ⟨⟨hf, by simpa using hlen, (List.cons.inj hsup).2, hcc, fun g hg => hcl g
      (hfr ▸ List.mem_cons_of_mem _ hg)⟩, fun hsr h => hg _ _ ?_⟩
    have hp := hp (fun hc => ?_) h
    · simpa using hp
    · obtain ⟨i, hi⟩ := hsr hc
      exact ⟨i + 1, by simpa [Frame.holdsSuper] using SuperAt.there hi⟩

/-- A function body, resolved in a frame of its parameters, lies one scope further in. -/
theorem Scoping.function {params : List Token} {body : List Stmt} (kind : FunctionContext)
    (hp : Params params) (h : Scoping (resolveStmts body) fun d b => ∀ s ∈ b, Stmt.Scoped .resolved d s) :
    Scoping (resolveFunction params body kind) fun d b =>
      ∀ s ∈ b, Stmt.Scoped .resolved (d + 1) s := by
  rw [resolveFunction_eq]
  refine Scoping.withinFunction kind ?_
  have hx := Scoping.scope (Q := fun d b => ∀ s ∈ b, Stmt.Scoped .resolved (d + 1) s)
    (g := fun b => b) true ((neutral_params hp).scoping.bind fun _ => h.mono fun _ _ hb _ => hb)
    fun _ _ hb => hb
  simp only [bind_assoc] at hx ⊢
  exact hx

/-- The members of a class, resolved as instance methods or not: parameters as they were, and
bodies one scope further in. -/
def MembersScoped (d : Nat) (ds : List FunDecl) : Prop :=
  (∀ f ∈ ds, Params f.params) ∧ ∀ f ∈ ds, ∀ s ∈ f.body, Stmt.Scoped .resolved (d + 1) s

theorem MembersScoped.append {d : Nat} {a b : List FunDecl} (ha : MembersScoped d a)
    (hb : MembersScoped d b) : MembersScoped d (a ++ b) :=
  ⟨fun f hf => (List.mem_append.1 hf).elim (ha.1 f) (hb.1 f),
    fun f hf => (List.mem_append.1 hf).elim (ha.2 f) (hb.2 f)⟩

/-- A frame opened for a keyword counts it as used. -/
theorem State.Clean.keyword {t : State} (ht : t.Clean) (keyword : String) (name : Token)
    (b : Bool) :
    State.Clean { t with frames := ⟨[(keyword, ⟨.used, name, false⟩)], b⟩ :: t.frames } := by
  intro g hg
  rcases List.mem_cons.1 hg with rfl | hg
  · intro l hl
    simp only [List.lookup_cons, List.lookup_nil] at hl
    split at hl
    · cases hl
      rfl
    · cases hl
  · exact ht g hg

/-- The four tables of members, resolved one after another, are scoped alike. -/
theorem scoping_classMembers {methods getters statics staticGetters : List FunDecl}
    (hm : Scoping (resolveMembers true methods) MembersScoped)
    (hg : Scoping (resolveMembers false getters) MembersScoped)
    (hst : Scoping (resolveMembers false statics) MembersScoped)
    (hsg : Scoping (resolveMembers false staticGetters) MembersScoped) :
    Scoping (classMembers methods getters statics staticGetters)
      fun d b => MembersScoped d (b.1 ++ b.2.1 ++ b.2.2.1 ++ b.2.2.2) :=
  hm.bind fun _ => hg.bind fun _ => hst.bind fun _ => hsg.bind fun _ =>
    Scoping.pure fun _ h4 h3 h2 h1 => ((h1.append h2).append h3).append h4

/-- The frame of `this` around the members restores the state; where `super`, inside a
subclass, is bound in the frames it is opened over, every member lies one scope further in. -/
theorem classBody_scoped (name : Token) {methods getters statics staticGetters : List FunDecl}
    (h : Scoping (classMembers methods getters statics staticGetters)
      fun d b => MembersScoped d (b.1 ++ b.2.1 ++ b.2.2.1 ++ b.2.2.2))
    {t : State} (ht : t.Clean) :
    Restores t ((classBody name methods getters statics staticGetters).run t).2 ∧
      ((t.classContext = .subclass → ∃ i, SuperAt (t.frames.map Frame.holdsSuper) i) →
        ((classBody name methods getters statics staticGetters).run t).2.faults.size =
          t.faults.size →
        MembersScoped (t.frames.length + 1)
          (((classBody name methods getters statics staticGetters).run t).1.1 ++
            ((classBody name methods getters statics staticGetters).run t).1.2.1 ++
            ((classBody name methods getters statics staticGetters).run t).1.2.2.1 ++
            ((classBody name methods getters statics staticGetters).run t).1.2.2.2)) := by
  rw [classBody_run]
  dsimp only
  obtain ⟨hr, hp⟩ := h _ (ht.keyword "this" name false)
  generalize (classMembers methods getters statics staticGetters).run
    { t with frames := ⟨[("this", ⟨.used, name, false⟩)], false⟩ :: t.frames } = p at hr hp
  obtain ⟨b, u⟩ := p
  dsimp only at hr hp ⊢
  -- the frame of `this` is still on top, and is closed
  have hsup := hr.supers_eq
  rw [List.map_cons] at hsup
  obtain ⟨hu, hrest, e2, e3⟩ := hr.clean.endScope hsup
  refine ⟨⟨e2 ▸ hr.faults_le, by simpa using congrArg List.length hrest, hrest,
    e3.trans hr.classContext_eq, hu⟩, fun hsr hf => hp (fun hc => ?_) (e2 ▸ hf)⟩
  obtain ⟨i, hi⟩ := hsr hc
  exact ⟨i, SuperAt.there hi⟩

/-- The frame of `super`, opened for a superclass, binds it as used just inside the frames it is
opened over, and makes the class context that of a subclass; the superclass is resolved within
those frames. Without a superclass nothing changes. -/
theorem superFrame_scoped (name : Token) (sup : Option Reference) {v : State} (hv : v.Clean) :
    v.faults.size ≤ ((superFrame name sup).run v).2.faults.size ∧
      ((superFrame name sup).run v).2.Clean ∧
      ((superFrame name sup).run v).2.frames.map Frame.holdsSuper =
        (sup.map fun _ => true).toList ++ v.frames.map Frame.holdsSuper ∧
      ((superFrame name sup).run v).2.classContext =
        (if sup.isSome then .subclass else v.classContext) ∧
      (∀ r, ((superFrame name sup).run v).1 = some r → Uses.resolved.name v.frames.length r) ∧
      ((superFrame name sup).run v).1.isSome = sup.isSome := by
  cases sup with
  | none => exact ⟨Nat.le_refl _, hv, rfl, rfl, fun _ h => (by cases h), rfl⟩
  | some r =>
    rw [superFrame_run]
    dsimp only
    -- a class inheriting from itself is reported, and resolution goes on alike
    have h1 := (Neutral.ite (c := r.name.lexeme = name.lexeme) (y := Pure.pure ())
      (neutral_report (.inheritsItself r.name)) Neutral.pure) v hv
    generalize (StateT.run (if r.name.lexeme = name.lexeme then report (.inheritsItself r.name)
      else (Pure.pure () : ResolveM Unit)) v).2 = w at h1 ⊢
    obtain ⟨h2, -, hname, -⟩ :=
      resolveLocal_spec r true (show State.Clean { w with classContext := .subclass } from h1.clean)
    generalize (resolveLocal r true).run { w with classContext := .subclass } = p at h2 hname ⊢
    obtain ⟨r', w2⟩ := p
    dsimp only at h2 hname ⊢
    refine ⟨Nat.le_trans h1.faults_le h2.faults_le, h2.clean.keyword "super" name false, ?_,
      h2.classContext_eq, fun _ h => ?_, rfl⟩
    · rw [List.map_cons, h2.supers_eq]
      exact congrArg _ h1.supers_eq
    · cases h
      rwa [← h1.length_eq]

/-- A class: its members are resolved in a frame of `this`, inside a frame of `super` when it
has a superclass, and the class context is restored afterwards. -/
theorem scoping_classDecl {name : Token} {sup : Option Reference}
    {methods getters statics staticGetters : List FunDecl} (hn : name.lexeme ≠ "super")
    (hm : Scoping (resolveMembers true methods) MembersScoped)
    (hg : Scoping (resolveMembers false getters) MembersScoped)
    (hst : Scoping (resolveMembers false statics) MembersScoped)
    (hsg : Scoping (resolveMembers false staticGetters) MembersScoped) :
    Scoping (resolveStmt (.classDecl name sup methods getters statics staticGetters))
      fun d s' => Stmt.Scoped .resolved d s' := by
  rw [resolveStmt_classDecl]
  refine Scoping.get_bind fun s => ?_
  intro hs
  simp only [setClassContext, run_bind, run_modify]
  -- the class name is declared and defined in the enclosing scope
  have h2 := neutral_declare hn true _ (show State.Clean { s with classContext := .plain } from hs)
  generalize (declare name true).run { s with classContext := .plain } = p2 at h2 ⊢
  obtain ⟨_, s2⟩ := p2
  have h3 := neutral_define hn s2 h2.clean
  generalize (define name).run s2 = p3 at h3 ⊢
  obtain ⟨_, s3⟩ := p3
  dsimp only at h2 h3 ⊢
  have h23 := h2.trans h3
  obtain ⟨f4, hc4, hmap4, hcc4, hname4, hsome⟩ := superFrame_scoped name sup h23.clean
  generalize (superFrame name sup).run s3 = p4 at f4 hc4 hmap4 hcc4 hname4 hsome ⊢
  obtain ⟨sup', v⟩ := p4
  dsimp only at f4 hc4 hmap4 hcc4 hname4 hsome ⊢
  rw [h23.supers_eq] at hmap4
  rw [h23.classContext_eq] at hcc4
  rw [h23.length_eq] at hname4
  obtain ⟨hr5, hp5⟩ := classBody_scoped name (scoping_classMembers hm hg hst hsg) hc4
  generalize (classBody name methods getters statics staticGetters).run v = p5 at hr5 hp5 ⊢
  obtain ⟨b, u⟩ := p5
  dsimp only at hr5 hp5 ⊢
  -- the members see `super` just outside the frame of `this` in a subclass, and no class
  -- without a superclass is a subclass
  have hscoped : u.faults.size = s.faults.size →
      Stmt.Scoped .resolved s.frames.length (.classDecl name sup' b.1 b.2.1 b.2.2.1 b.2.2.2) := by
    intro hfs
    have hf : u.faults.size = v.faults.size := by
      have e1 := h23.faults_le
      have e2 := hr5.faults_le
      dsimp only at e1
      omega
    have hready : v.classContext = .subclass → ∃ i, SuperAt (v.frames.map Frame.holdsSuper) i := by
      intro hc
      rw [hmap4]
      cases sup with
      | some _ => exact ⟨0, .here⟩
      | none =>
        rw [hcc4] at hc
        cases hc
    have hall := hp5 hready hf
    have hdepth : v.frames.length + 1 + 1 = memberDepth s.frames.length sup' := by
      have := congrArg List.length hmap4
      simp only [List.length_map, List.length_append] at this
      cases sup <;> cases sup' <;> simp [memberDepth] at this hsome ⊢ <;> omega
    exact .classDecl hn hname4 hall.1 (hdepth ▸ hall.2)
  -- the frame of `super`, if any, is closed, and the class context restored
  have hmap5 := hr5.supers_eq.trans hmap4
  have hfinal : ∀ w : State, w.Clean → w.frames.map Frame.holdsSuper =
      s.frames.map Frame.holdsSuper → w.faults = u.faults →
      Restores s { w with classContext := s.classContext } :=
    fun w hw hwm hwf => ⟨hwf ▸ Nat.le_trans h23.faults_le (Nat.le_trans f4 hr5.faults_le),
      by simpa using congrArg List.length hwm, hwm, rfl, hw⟩
  cases sup with
  | none =>
    have hn' : sup' = none := Option.not_isSome_iff_eq_none.1 (by simp [hsome])
    subst hn'
    simp only [Option.isSome_none, Bool.false_eq_true, reduceIte, run_bind, run_modify, run_pure]
    exact ⟨hfinal u hr5.clean (by simpa using hmap5) rfl, fun _ hfs => hscoped hfs⟩
  | some r =>
    obtain ⟨r', rfl⟩ := Option.isSome_iff_exists.1 (hsome.trans rfl)
    simp only [Option.isSome_some, reduceIte, run_bind, run_modify, run_pure]
    rw [Option.map_some, Option.toList_some, List.singleton_append] at hmap5
    obtain ⟨hu, hrest, e2, -⟩ := hr5.clean.endScope hmap5
    exact ⟨hfinal _ hu hrest e2, fun _ hfs => hscoped (e2 ▸ hfs)⟩

mutual

theorem scoping_resolveExpr : ∀ (e : Expr) {k : Nat}, Expr.Scoped .parsed k e →
    Scoping (resolveExpr e) fun d e' => Expr.Scoped .resolved d e'
  | .assign r v, _, he => by
    cases he with
    | assign _ hr hv =>
      rw [resolveExpr]
      refine (scoping_resolveExpr v hv).bind fun v' => (scoping_resolveLocal r false).bind
        fun r' => Scoping.pure fun _ hr' hv' => .assign hr'.2 (hr'.1 ▸ hr) hv'
  | .binary l op t r, _, he => by
    cases he with
    | binary hl hr =>
      rw [resolveExpr]
      refine (scoping_resolveExpr l hl).bind fun l' => (scoping_resolveExpr r hr).bind fun r' => ?_
      exact Scoping.pure fun _ hr' hl' => .binary hl' hr'
  | .call callee paren args, _, he => by
    cases he with
    | call hc ha =>
      rw [resolveExpr]
      refine (scoping_resolveExpr callee hc).bind fun c' => (scoping_resolveExprs args ha).bind
        fun a' => ?_
      exact Scoping.pure fun _ ha' hc' => .call hc' ha'
  | .get obj name, _, he => by
    cases he with
    | get ho =>
      rw [resolveExpr]
      refine (scoping_resolveExpr obj ho).bind fun o' => ?_
      exact Scoping.pure fun _ ho' => .get ho'
  | .lambda keyword params body, _, he => by
    cases he with
    | lambda hp hb =>
      rw [resolveExpr]
      refine (Scoping.function .function hp (scoping_resolveStmts body hb)).bind fun b' => ?_
      exact Scoping.pure fun _ hb' => .lambda hp hb'
  | .grouping e, _, he => by
    cases he with
    | grouping he =>
      rw [resolveExpr]
      refine (scoping_resolveExpr e he).bind fun e' => ?_
      exact Scoping.pure fun _ he' => .grouping he'
  | .literal l, _, _ => by
    rw [resolveExpr]
    exact Scoping.pure fun _ => .literal
  | .logical l op t r, _, he => by
    cases he with
    | logical hl hr =>
      rw [resolveExpr]
      refine (scoping_resolveExpr l hl).bind fun l' => (scoping_resolveExpr r hr).bind fun r' => ?_
      exact Scoping.pure fun _ hr' hl' => .logical hl' hr'
  | .set obj name v, _, he => by
    cases he with
    | set ho hv =>
      rw [resolveExpr]
      refine (scoping_resolveExpr v hv).bind fun v' => (scoping_resolveExpr obj ho).bind
        fun o' => ?_
      exact Scoping.pure fun _ ho' hv' => .set ho' hv'
  | .superMember keyword member, _, he => by
    cases he with
    | superMember hk =>
      rw [resolveExpr]
      refine Scoping.get_bind fun s => ?_
      split
      · exact ScopedAt.report_bind fun _ => Neutral.pure
      · exact ScopedAt.report_bind fun _ => Neutral.pure
      · rename_i hc
        exact (scopedAt_resolveSuper hk hc).bind fun k' => Scoping.pure fun _ hk' => .superMember hk'
  | .conditional c q a b, _, he => by
    cases he with
    | conditional hc ha hb =>
      rw [resolveExpr]
      refine (scoping_resolveExpr c hc).bind fun c' => (scoping_resolveExpr a ha).bind fun a' => ?_
      refine (scoping_resolveExpr b hb).bind fun b' => ?_
      exact Scoping.pure fun _ hb' ha' hc' => .conditional hc' ha' hb'
  | .this keyword, _, _ => by
    rw [resolveExpr]
    refine Scoping.get_bind fun s => ?_
    split
    · exact ScopedAt.report_bind fun _ => Neutral.pure
    · exact (scoping_resolveLocal keyword true).bind
        (fun k' => Scoping.pure fun _ hk' => .this hk'.2) s
  | .unary op t e, _, he => by
    cases he with
    | unary he =>
      rw [resolveExpr]
      refine (scoping_resolveExpr e he).bind fun e' => ?_
      exact Scoping.pure fun _ he' => .unary he'
  | .variable r, _, _ => by
    rw [resolveExpr]
    exact (scoping_resolveLocal r true).bind fun r' => Scoping.pure fun _ hr' => .variable hr'.2

theorem scoping_resolveExprs : ∀ (es : List Expr) {k : Nat}, (∀ e ∈ es, Expr.Scoped .parsed k e) →
    Scoping (resolveExprs es) fun d es' => ∀ e ∈ es', Expr.Scoped .resolved d e
  | [], _, _ => by
    rw [resolveExprs]
    exact Scoping.pure fun _ e he => by cases he
  | e :: es, _, hes => by
    rw [resolveExprs]
    refine (scoping_resolveExpr e (hes e List.mem_cons_self)).bind fun e' =>
      (scoping_resolveExprs es fun x hx => hes x (List.mem_cons_of_mem _ hx)).bind fun es' => ?_
    refine Scoping.pure fun _ hes' he' x hx => ?_
    rcases List.mem_cons.1 hx with rfl | hx
    · exact he'
    · exact hes' x hx

theorem scoping_resolveOptExpr : ∀ (o : Option Expr) {k : Nat},
    (∀ e, o = some e → Expr.Scoped .parsed k e) →
    Scoping (resolveOptExpr o) fun d o' => ∀ e, o' = some e → Expr.Scoped .resolved d e
  | none, _, _ => by
    rw [resolveOptExpr]
    exact Scoping.pure fun _ e he => by cases he
  | some e, _, ho => by
    rw [resolveOptExpr]
    refine (scoping_resolveExpr e (ho e rfl)).bind fun e' => ?_
    exact Scoping.pure fun _ he x hx => by cases hx; exact he

theorem scoping_resolveMembers (instanceMethods : Bool) : ∀ (ds : List FunDecl) {k : Nat},
    (∀ f ∈ ds, Params f.params) → (∀ f ∈ ds, ∀ s ∈ f.body, Stmt.Scoped .parsed k s) →
    Scoping (resolveMembers instanceMethods ds) fun d ds' => MembersScoped d ds'
  | [], _, _, _ => by
    rw [resolveMembers]
    exact Scoping.pure fun _ => ⟨fun f hf => (by cases hf), fun f hf => (by cases hf)⟩
  | .mk name params body :: rest, _, hp, hb => by
    rw [resolveMembers]
    refine (Scoping.function _ (hp _ List.mem_cons_self)
      (scoping_resolveStmts body (hb _ List.mem_cons_self))).bind fun b' => ?_
    refine (scoping_resolveMembers instanceMethods rest (fun f hf => hp f (List.mem_cons_of_mem _ hf))
      fun f hf => hb f (List.mem_cons_of_mem _ hf)).bind fun rest' => ?_
    refine Scoping.pure fun _ hrest hb' => ⟨fun f hf => ?_, fun f hf => ?_⟩
    · rcases List.mem_cons.1 hf with rfl | hf
      · exact (hp (.mk name params body) List.mem_cons_self : Params params)
      · exact hrest.1 f hf
    · rcases List.mem_cons.1 hf with rfl | hf
      · exact hb'
      · exact hrest.2 f hf

theorem scoping_resolveStmt : ∀ (s : Stmt) {k : Nat}, Stmt.Scoped .parsed k s →
    Scoping (resolveStmt s) fun d s' => Stmt.Scoped .resolved d s'
  | .block body, _, hs => by
    cases hs with
    | block hb =>
      rw [resolveStmt]
      exact Scoping.scope false (scoping_resolveStmts body hb) fun _ _ hb' => .block hb'
  | .breakLoop keyword, _, _ => by
    rw [resolveStmt]
    refine Scoping.get_bind fun s => ?_
    split
    · exact ScopedAt.report_bind fun _ => Neutral.pure
    · exact Scoping.pure (fun _ => .breakLoop) s
  | .classDecl name sup methods getters statics staticGetters, _, hs => by
    cases hs with
    | classDecl hn _ hp hb =>
      exact scoping_classDecl hn
        (scoping_resolveMembers true methods (fun f hf => hp f (by simp [hf]))
          fun f hf => hb f (by simp [hf]))
        (scoping_resolveMembers false getters (fun f hf => hp f (by simp [hf]))
          fun f hf => hb f (by simp [hf]))
        (scoping_resolveMembers false statics (fun f hf => hp f (by simp [hf]))
          fun f hf => hb f (by simp [hf]))
        (scoping_resolveMembers false staticGetters (fun f hf => hp f (by simp [hf]))
          fun f hf => hb f (by simp [hf]))
  | .expression e, _, hs => by
    cases hs with
    | expression he =>
      rw [resolveStmt]
      refine (scoping_resolveExpr e he).bind fun e' => ?_
      exact Scoping.pure fun _ he' => .expression he'
  | .function (.mk name params body), _, hs => by
    cases hs with
    | function hn hp hb =>
      rw [resolveStmt]
      refine Scoping.after (neutral_declare hn true) fun _ => Scoping.after (neutral_define hn)
        fun _ => ?_
      refine (Scoping.function .function hp (scoping_resolveStmts body hb)).bind fun b' => ?_
      exact Scoping.pure fun _ hb' => .function hn hp hb'
  | .ifElse c t e, _, hs => by
    cases hs with
    | ifElse hc ht he =>
      rw [resolveStmt]
      refine (scoping_resolveExpr c hc).bind fun c' => (scoping_resolveStmt t ht).bind fun t' => ?_
      refine (scoping_resolveOptStmt e he).bind fun e' => ?_
      exact Scoping.pure fun _ he' ht' hc' => .ifElse hc' ht' he'
  | .print e, _, hs => by
    cases hs with
    | print he =>
      rw [resolveStmt]
      refine (scoping_resolveExpr e he).bind fun e' => ?_
      exact Scoping.pure fun _ he' => .print he'
  | .returnFrom keyword none, _, _ => by
    rw [resolveStmt]
    refine Scoping.get_bind fun s => ?_
    extract_lets context tail
    have htail : ∀ a, Scoping (tail a) fun d s' => Stmt.Scoped .resolved d s' := fun a => by
      simp only [tail]
      exact Scoping.pure fun _ => .returnFrom fun e he => by cases he
    clear_value tail
    split
    · exact ScopedAt.report_bind fun a => (htail a).neutral
    · exact htail () s
  | .returnFrom keyword (some e), _, hs => by
    cases hs with
    | returnFrom he =>
      rw [resolveStmt]
      refine Scoping.get_bind fun s => ?_
      extract_lets context tail
      have hvalue : Scoping (resolveExpr e >>= fun e' => Pure.pure (Stmt.returnFrom keyword (some e')))
          fun d s' => Stmt.Scoped .resolved d s' :=
        (scoping_resolveExpr e (he e rfl)).bind fun e' =>
          Scoping.pure fun _ he' => .returnFrom fun x hx => by cases hx; exact he'
      have htail : ∀ a, Scoping (tail a) fun d s' => Stmt.Scoped .resolved d s' := fun a => by
        simp only [tail]
        exact Scoping.ite (Scoping.report_bind _ fun _ => hvalue) hvalue
      clear_value tail
      split
      · exact ScopedAt.report_bind fun a => (htail a).neutral
      · exact htail () s
  | .varDecl name init, _, hs => by
    cases hs with
    | varDecl hn hi =>
      rw [resolveStmt]
      refine Scoping.after (neutral_declare hn true) fun _ => ?_
      refine (scoping_resolveOptExpr init hi).bind fun i' => Scoping.after (neutral_define hn)
        fun _ => ?_
      exact Scoping.pure fun _ hi' => .varDecl hn hi'
  | .whileLoop c body, _, hs => by
    cases hs with
    | whileLoop hc hb =>
      rw [resolveStmt]
      refine (scoping_resolveExpr c hc).bind fun c' => ?_
      refine Scoping.after (neutral_modify (fun _ => rfl) (fun _ => rfl) fun _ => rfl) fun _ => ?_
      refine (scoping_resolveStmt body hb).bind fun b' => ?_
      refine Scoping.after (neutral_modify (fun _ => rfl) (fun _ => rfl) fun _ => rfl) fun _ => ?_
      exact Scoping.pure fun _ hb' hc' => .whileLoop hc' hb'

theorem scoping_resolveStmts : ∀ (ss : List Stmt) {k : Nat}, (∀ s ∈ ss, Stmt.Scoped .parsed k s) →
    Scoping (resolveStmts ss) fun d ss' => ∀ s ∈ ss', Stmt.Scoped .resolved d s
  | [], _, _ => by
    rw [resolveStmts]
    exact Scoping.pure fun _ s hs => by cases hs
  | s :: ss, _, hss => by
    rw [resolveStmts]
    refine (scoping_resolveStmt s (hss s List.mem_cons_self)).bind fun s' =>
      (scoping_resolveStmts ss fun x hx => hss x (List.mem_cons_of_mem _ hx)).bind fun ss' => ?_
    refine Scoping.pure fun _ hss' hs' x hx => ?_
    rcases List.mem_cons.1 hx with rfl | hx
    · exact hs'
    · exact hss' x hx

theorem scoping_resolveOptStmt : ∀ (o : Option Stmt) {k : Nat},
    (∀ s, o = some s → Stmt.Scoped .parsed k s) →
    Scoping (resolveOptStmt o) fun d o' => ∀ s, o' = some s → Stmt.Scoped .resolved d s
  | none, _, _ => by
    rw [resolveOptStmt]
    exact Scoping.pure fun _ s hs => by cases hs
  | some s, _, ho => by
    rw [resolveOptStmt]
    refine (scoping_resolveStmt s (ho s rfl)).bind fun s' => ?_
    exact Scoping.pure fun _ hs x hx => by cases hx; exact hs

end

end Resolution

open Resolution

/-- A parsed program that resolution accepts at the top level comes back with every name found
inside the scopes around it, and `super` outside the innermost. -/
theorem resolveProgram_scoped {globals : List String} {program : List Stmt} {k : Nat}
    (hp : ∀ s ∈ program, Stmt.Scoped .parsed k s) (h : (resolveProgram globals program).isOk) :
    ∀ s ∈ (resolveProgram globals program).tree, Stmt.Scoped .resolved 0 s := by
  obtain ⟨_, hq⟩ := scoping_resolveStmts program hp (State.initial globals) fun f hf => by cases hf
  unfold resolveProgram at h ⊢
  revert hq h
  generalize (resolveStmts program).run (State.initial globals) = r
  obtain ⟨tree, st⟩ := r
  intro h hq
  simp only [Resolved.isOk, List.isEmpty_iff, Array.toList_eq_nil_iff] at h
  exact hq (fun hc => by cases hc) (by simp [h, State.initial])

/-- A parsed expression that resolution accepts at the top level. -/
theorem resolveExpression_scoped {globals : List String} {e : Expr} {k : Nat}
    (he : Expr.Scoped .parsed k e) (h : (resolveExpression globals e).isOk) :
    Expr.Scoped .resolved 0 (resolveExpression globals e).tree := by
  obtain ⟨_, hq⟩ := scoping_resolveExpr e he (State.initial globals) fun f hf => by cases hf
  unfold resolveExpression at h ⊢
  revert hq h
  generalize (resolveExpr e).run (State.initial globals) = r
  obtain ⟨tree, st⟩ := r
  intro h hq
  simp only [Resolved.isOk, List.isEmpty_iff, Array.toList_eq_nil_iff] at h
  exact hq (fun hc => by cases hc) (by simp [h, State.initial])

end Lox
