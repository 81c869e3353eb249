import Lox.Proofs.Scoping
/-!
# Where `this` and `super` are found

Inside a class member, `this` lives in a scope of its own just outside the scope of the
member's parameters, and `super`, when the class has a superclass, one scope further out. Code
nested in the member (blocks, anonymous functions, function declarations) adds scopes on top,
so it finds `this` further out; a class declared inside starts over with its own members.
`Anchor` records how far out `this` is, and whether `super` is there too.

`Stmt.Anchored u a s` says that every `this` and `super` of `s` satisfies `u` at the anchor its
place gives, starting from `a` (`none` outside any class), and that no declaration, parameter
or assignment target is named `this` or `super`. Parsing gives the keywords spelled as keywords
(`KeywordUses.parsed`); resolution gives them the exact distance to their scope
(`KeywordUses.resolved`).
-/

namespace Lox

/-- Where code finds `this`: `hops` scopes out, and `super` one scope further out when `super`
is there, that is, when the class has a superclass. -/
structure Anchor where
  hops : Nat
  super : Bool
  deriving DecidableEq, Repr

/-- The anchor seen from one scope further in. -/
def Anchor.out (a : Anchor) : Anchor := ⟨a.hops + 1, a.super⟩

/-- The anchor of a member's body, which runs in the scope of its parameters: `this` one scope
out, `super` two scopes out when the class has a superclass. -/
def Anchor.member (super : Bool) : Anchor := ⟨1, super⟩

/-- A name that a program may declare or assign: neither `this` nor `super`. -/
def Bindable (x : String) : Prop := x ≠ "this" ∧ x ≠ "super"

theorem not_bindable_this : ¬ Bindable "this" := fun h => h.1 rfl

theorem not_bindable_super : ¬ Bindable "super" := fun h => h.2 rfl

/-- Parameters that a program may declare. -/
def Binders (params : List Token) : Prop := ∀ p ∈ params, Bindable p.lexeme

/-- What each `this` and each `super` must satisfy, at the anchor of its place. -/
structure KeywordUses where
  this : Option Anchor → Reference → Prop
  super : Option Anchor → Reference → Prop

/-- The uses that parsing gives: the keywords are spelled as keywords. -/
def KeywordUses.parsed : KeywordUses :=
  ⟨fun _ r => r.name.lexeme = "this", fun _ r => r.name.lexeme = "super"⟩

/-- The uses that resolution gives: `this` is found exactly at the anchor, and `super` one scope
further out, where it is there. -/
def KeywordUses.resolved : KeywordUses :=
  ⟨fun a r => r.name.lexeme = "this" ∧ ∃ j b, a = some ⟨j, b⟩ ∧ r.hops = some j,
    fun a r => r.name.lexeme = "super" ∧ ∃ j, a = some ⟨j, true⟩ ∧ r.hops = some (j + 1)⟩

mutual

/-- Every `this` and `super` of the expression, at anchor `a`, satisfies `u`, and it declares
and assigns only bindable names. -/
inductive Expr.Anchored (u : KeywordUses) : Option Anchor → Expr → Prop
  | assign {a r v} : Bindable r.name.lexeme → Expr.Anchored u a v →
      Expr.Anchored u a (.assign r v)
  | binary {a l op t r} : Expr.Anchored u a l → Expr.Anchored u a r →
      Expr.Anchored u a (.binary l op t r)
  | call {a callee paren args} : Expr.Anchored u a callee → (∀ e ∈ args, Expr.Anchored u a e) →
      Expr.Anchored u a (.call callee paren args)
  | get {a obj name} : Expr.Anchored u a obj → Expr.Anchored u a (.get obj name)
  | lambda {a keyword params body} : Binders params →
      (∀ s ∈ body, Stmt.Anchored u (a.map Anchor.out) s) →
      Expr.Anchored u a (.lambda keyword params body)
  | grouping {a e} : Expr.Anchored u a e → Expr.Anchored u a (.grouping e)
  | literal {a l} : Expr.Anchored u a (.literal l)
  | logical {a l op t r} : Expr.Anchored u a l → Expr.Anchored u a r →
      Expr.Anchored u a (.logical l op t r)
  | set {a obj name v} : Expr.Anchored u a obj → Expr.Anchored u a v →
      Expr.Anchored u a (.set obj name v)
  | superMember {a keyword member} : u.super a keyword →
      Expr.Anchored u a (.superMember keyword member)
  | conditional {a c q x y} : Expr.Anchored u a c → Expr.Anchored u a x → Expr.Anchored u a y →
      Expr.Anchored u a (.conditional c q x y)
  | this {a r} : u.this a r → Expr.Anchored u a (.this r)
  | unary {a op t e} : Expr.Anchored u a e → Expr.Anchored u a (.unary op t e)
  | «variable» {a r} : Expr.Anchored u a (.variable r)

/-- Every `this` and `super` of the statement, at anchor `a`, satisfies `u`, and it declares
and assigns only bindable names. The members of a class declared in it start over at the anchor
of a member. -/
inductive Stmt.Anchored (u : KeywordUses) : Option Anchor → Stmt → Prop
  | block {a body} : (∀ s ∈ body, Stmt.Anchored u (a.map Anchor.out) s) →
      Stmt.Anchored u a (.block body)
  | breakLoop {a keyword} : Stmt.Anchored u a (.breakLoop keyword)
  | classDecl {a name sup methods getters statics staticGetters} : Bindable name.lexeme →
      (∀ f ∈ methods ++ getters ++ statics ++ staticGetters, Binders f.params) →
      (∀ f ∈ methods ++ getters ++ statics ++ staticGetters, ∀ s ∈ f.body,
        Stmt.Anchored u (some (.member sup.isSome)) s) →
      Stmt.Anchored u a (.classDecl name sup methods getters statics staticGetters)
  | expression {a e} : Expr.Anchored u a e → Stmt.Anchored u a (.expression e)
  | function {a name params body} : Bindable name.lexeme → Binders params →
      (∀ s ∈ body, Stmt.Anchored u (a.map Anchor.out) s) →
      Stmt.Anchored u a (.function (.mk name params body))
  | ifElse {a c t e} : Expr.Anchored u a c → Stmt.Anchored u a t →
      (∀ s, e = some s → Stmt.Anchored u a s) → Stmt.Anchored u a (.ifElse c t e)
  | print {a e} : Expr.Anchored u a e → Stmt.Anchored u a (.print e)
  | returnFrom {a keyword value} : (∀ e, value = some e → Expr.Anchored u a e) →
      Stmt.Anchored u a (.returnFrom keyword value)
  | varDecl {a name init} : Bindable name.lexeme → (∀ e, init = some e → Expr.Anchored u a e) →
      Stmt.Anchored u a (.varDecl name init)
  | whileLoop {a c body} : Expr.Anchored u a c → Stmt.Anchored u a body →
      Stmt.Anchored u a (.whileLoop c body)

end

/-! ## Resolution places the keywords -/

namespace Resolution

variable {α β : Type}

/-- Whether a frame binds `this`. -/
def Frame.holdsThis (f : Frame) : Bool := (f.names.lookup "this").isSome

/-- Whether a frame binds `this`, and whether it binds `super`. -/
def Frame.keys (f : Frame) : Bool × Bool := (f.holdsThis, f.holdsSuper)

/-- A frame that binds `this` or `super` counts it as used, so that no lookup passes it over. -/
def Frame.Keyed (f : Frame) : Prop :=
  ∀ x l, ¬ Bindable x → f.names.lookup x = some l → l.stage = .used

/-- Every frame of the state binds the keywords, if at all, as used. -/
def State.Keyed (s : State) : Prop := ∀ f ∈ s.frames, f.Keyed

/-- The anchor that frames with these keys give, innermost first: the first frame that binds
`this`, with `super` when the frame just outside it binds `super`. -/
def anchorOf : List (Bool × Bool) → Option Anchor
  | [] => none
  | (true, _) :: rest => some ⟨0, (rest.head?.map Prod.snd).getD false⟩
  | (false, _) :: rest => (anchorOf rest).map Anchor.out

/-- No frame up to the first that binds `this` binds `super`. -/
def SuperOutside : List (Bool × Bool) → Prop
  | [] => True
  | (t, s) :: rest => s = false ∧ (t = false → SuperOutside rest)

/-- The anchor of the code a state resolves. -/
def State.anchor (s : State) : Option Anchor := anchorOf (s.frames.map Frame.keys)

/-- The keywords lie where the class context says: inside a class `this` is bound, and inside a
subclass `super` just outside it; no frame inside the frame of `this` binds `super`. -/
def State.Placed (s : State) : Prop :=
  SuperOutside (s.frames.map Frame.keys) ∧ (s.anchor = none → s.classContext = .none) ∧
    (s.classContext = .subclass → ∃ j, s.anchor = some ⟨j, true⟩)

/-- From `s` to `s'` resolution only added faults, left the frames binding `this` and `super`
where they did, as used, and left the class context as it was. -/
structure KeepsKeys (s s' : State) : Prop where
  faults_le : s.faults.size ≤ s'.faults.size
  keys_eq : s'.frames.map Frame.keys = s.frames.map Frame.keys
  classContext_eq : s'.classContext = s.classContext
  keyed : s'.Keyed

theorem KeepsKeys.refl {s : State} (h : s.Keyed) : KeepsKeys s s := ⟨Nat.le_refl _, rfl, rfl, h⟩

theorem KeepsKeys.trans {s s' s'' : State} (h : KeepsKeys s s') (g : KeepsKeys s' s'') :
    KeepsKeys s s'' :=
  ⟨Nat.le_trans h.faults_le g.faults_le, g.keys_eq.trans h.keys_eq,
    g.classContext_eq.trans h.classContext_eq, g.keyed⟩

theorem KeepsKeys.anchor_eq {s s' : State} (h : KeepsKeys s s') : s'.anchor = s.anchor := by
  rw [State.anchor, State.anchor, h.keys_eq]

theorem State.Placed.keeps {s s' : State} (hs : s.Placed) (h : KeepsKeys s s') : s'.Placed := by
  rw [State.Placed, h.anchor_eq, h.keys_eq, h.classContext_eq]
  exact hs

/-- Anchoring as a guard: from states whose frames bind the keywords as used, steps keep the
keys, results are judged where the keywords are placed, at the anchor. -/
def anchorGuard : Guard (Option Anchor) where
  pre := State.Keyed
  keep := KeepsKeys
  ready := State.Placed
  view := State.anchor
  refl := KeepsKeys.refl
  trans := KeepsKeys.trans
  pre_of_keep h := h.keyed
  ready_of_keep h hs := hs.keeps h
  view_of_keep h := h.anchor_eq
  faults_le h := h.faults_le
  reported _ hs := ⟨by simp, rfl, rfl, hs⟩

/-- From a state whose frames bind the keywords as used, `x` keeps the keys, and when it reports
no fault from a state where the keywords are placed, its result satisfies `P` at the state's
anchor. -/
def AnchoredAt (x : ResolveM α) (P : Option Anchor → α → Prop) (s : State) : Prop :=
  s.Keyed → KeepsKeys s (x.run s).2 ∧
    (s.Placed → (x.run s).2.faults.size = s.faults.size → P s.anchor (x.run s).1)

/-- From every state, `x` is anchored at it. -/
def Anchoring (x : ResolveM α) (P : Option Anchor → α → Prop) : Prop := ∀ s, AnchoredAt x P s

/-- A step that keeps the keys of every state whose frames bind the keywords as used. -/
def KeyFree (x : ResolveM α) : Prop := ∀ s, s.Keyed → KeepsKeys s (x.run s).2

/-! The rules of `Guard`, for `anchorGuard`. -/

theorem KeyFree.anchoring {x : ResolveM α} (hx : KeyFree x) : Anchoring x fun _ _ => True :=
  Guard.Steady.holds (G := anchorGuard) hx

theorem Anchoring.pure {P : Option Anchor → α → Prop} {a : α} (h : ∀ b, P b a) :
    Anchoring (Pure.pure a) P :=
  Guard.holds_pure (G := anchorGuard) h

theorem AnchoredAt.bind {Q : Option Anchor → α → Prop} {P : Option Anchor → β → Prop}
    {x : ResolveM α} {f : α → ResolveM β} {s : State} (hx : AnchoredAt x Q s)
    (hf : ∀ a, Anchoring (f a) fun b r => Q b a → P b r) : AnchoredAt (x >>= f) P s :=
  Guard.At.bind (G := anchorGuard) hx hf

theorem Anchoring.bind {Q : Option Anchor → α → Prop} {P : Option Anchor → β → Prop}
    {x : ResolveM α} {f : α → ResolveM β} (hx : Anchoring x Q)
    (hf : ∀ a, Anchoring (f a) fun b r => Q b a → P b r) : Anchoring (x >>= f) P :=
  Guard.Holds.bind (G := anchorGuard) hx hf

theorem Anchoring.keyFree {P : Option Anchor → α → Prop} {x : ResolveM α} (h : Anchoring x P) :
    KeyFree x :=
  Guard.Holds.steady (G := anchorGuard) h

theorem KeyFree.bind {x : ResolveM α} {f : α → ResolveM β} (hx : KeyFree x)
    (hf : ∀ a, KeyFree (f a)) : KeyFree (x >>= f) :=
  Guard.Steady.bind (G := anchorGuard) hx hf

theorem KeyFree.pure {a : α} : KeyFree (Pure.pure a : ResolveM α) :=
  Guard.steady_pure (G := anchorGuard)

theorem Anchoring.mono {P Q : Option Anchor → α → Prop} {x : ResolveM α} (hx : Anchoring x P)
    (h : ∀ b a, P b a → Q b a) : Anchoring x Q :=
  Guard.Holds.mono (G := anchorGuard) hx h

theorem Anchoring.after {P : Option Anchor → β → Prop} {x : ResolveM α} {f : α → ResolveM β}
    (hx : KeyFree x) (hf : ∀ a, Anchoring (f a) P) : Anchoring (x >>= f) P :=
  Guard.Holds.after (G := anchorGuard) hx hf

theorem Anchoring.ite {P : Option Anchor → α → Prop} {c : Prop} [Decidable c] {x y : ResolveM α}
    (hx : Anchoring x P) (hy : Anchoring y P) : Anchoring (if c then x else y) P := by
  split
  · exact hx
  · exact hy

theorem KeyFree.ite {c : Prop} [Decidable c] {x y : ResolveM α} (hx : KeyFree x) (hy : KeyFree y) :
    KeyFree (if c then x else y) := by
  split
  · exact hx
  · exact hy

/-- A fault reported makes every requirement hold vacuously. -/
theorem anchoring_report {P : Option Anchor → Unit → Prop} (f : StaticFault) :
    Anchoring (report f) P :=
  Guard.holds_report (G := anchorGuard) f

theorem keyFree_report (f : StaticFault) : KeyFree (report f) :=
  Guard.steady_report (G := anchorGuard) f

/-- After a fault is reported, nothing more needs to hold. -/
theorem AnchoredAt.report_bind {P : Option Anchor → α → Prop} {s : State} {f : StaticFault}
    {k : Unit → ResolveM α} (hk : ∀ u, KeyFree (k u)) : AnchoredAt (report f >>= k) P s :=
  Guard.At.report_bind (G := anchorGuard) hk

theorem Anchoring.report_bind {P : Option Anchor → α → Prop} {f : StaticFault}
    {k : Unit → ResolveM α} (hk : ∀ u, KeyFree (k u)) : Anchoring (report f >>= k) P :=
  fun _ => AnchoredAt.report_bind hk

theorem Anchoring.get_bind {P : Option Anchor → α → Prop} {f : State → ResolveM α}
    (h : ∀ s, AnchoredAt (f s) P s) : Anchoring (get >>= f) P := h

theorem KeyFree.get_bind {f : State → ResolveM α}
    (h : ∀ s, s.Keyed → KeepsKeys s ((f s).run s).2) : KeyFree (get >>= f) := h

/-- A step that changes neither the faults, the frames nor the class context. -/
theorem keyFree_modify {g : State → State} (hf : ∀ s, (g s).faults = s.faults)
    (hfr : ∀ s, (g s).frames = s.frames) (hc : ∀ s, (g s).classContext = s.classContext) :
    KeyFree (modify g) :=
  fun s hs => ⟨Nat.le_of_eq (congrArg Array.size (hf s)).symm, by rw [run_modify, hfr], hc s,
    fun f hf' => hs f (hfr s ▸ hf')⟩

/-- A frame that binds `this` and `super` as another does has its keys, and binds them as used
when the other does. -/
theorem Frame.keys_of_agree {f g : Frame}
    (h : ∀ x, ¬ Bindable x → g.names.lookup x = f.names.lookup x) :
    g.keys = f.keys ∧ (f.Keyed → g.Keyed) := by
  refine ⟨?_, fun hf x l hx hl => hf x l hx ((h x hx).symm.trans hl)⟩
  simp only [Frame.keys, Frame.holdsThis, Frame.holdsSuper, h "this" not_bindable_this,
    h "super" not_bindable_super]

theorem lookup_setEntry_keyword {γ : Type} {name x : String} (hn : Bindable name) (hx : ¬ Bindable x)
    (v : γ) (l : List (String × γ)) : (setEntry name v l).lookup x = l.lookup x := by
  rw [Scopes.lookup_setEntry, if_neg fun (e : x = name) => hx (e ▸ hn)]

theorem lookup_append_keyword {name x : String} (hn : Bindable name) (hx : ¬ Bindable x)
    (l : List (String × Local)) (v : Local) : (l ++ [(name, v)]).lookup x = l.lookup x := by
  rw [List.lookup_append]
  cases l.lookup x with
  | some _ => rfl
  | none => simp [List.lookup_cons, beq_false_of_ne fun e : x = name => hx (e ▸ hn)]

theorem KeepsKeys.of_frames_eq {s s' : State} (hs : s.Keyed) (h : s'.frames = s.frames)
    (hf : s'.faults = s.faults) (hc : s'.classContext = s.classContext) : KeepsKeys s s' :=
  ⟨Nat.le_of_eq (congrArg Array.size hf).symm, by rw [h], hc, fun f hf' => hs f (h ▸ hf')⟩

/-- A step that changes the innermost frame, but not what it binds to `this` and `super`. -/
theorem KeepsKeys.top {s s' : State} (hs : s.Keyed) {f f' : Frame} {rest : List Frame}
    (h1 : s.frames = f :: rest) (h2 : s'.frames = f' :: rest)
    (h3 : ∀ x, ¬ Bindable x → f'.names.lookup x = f.names.lookup x) (hf : s'.faults = s.faults)
    (hc : s'.classContext = s.classContext) : KeepsKeys s s' := by
  have hk := Frame.keys_of_agree h3
  refine ⟨Nat.le_of_eq (congrArg Array.size hf).symm, by rw [h1, h2, List.map_cons,
    List.map_cons, hk.1], hc, fun g hg => ?_⟩
  rw [h2] at hg
  rcases List.mem_cons.1 hg with rfl | hg
  · exact hk.2 (hs f (h1 ▸ List.mem_cons_self))
  · exact hs g (h1 ▸ List.mem_cons_of_mem _ hg)

theorem keyFree_define {name : Token} (h : Bindable name.lexeme) : KeyFree (define name) := by
  intro s hs
  rw [define, run_modify]
  split
  · exact KeepsKeys.of_frames_eq hs rfl rfl rfl
  · rename_i f rest hfr
    split
    · split
      · exact KeepsKeys.top hs hfr rfl (fun x hx => lookup_setEntry_keyword h hx _ _) rfl rfl
      · exact .refl hs
    · exact .refl hs

theorem keyFree_declare {name : Token} (h : Bindable name.lexeme) (reportUnused : Bool) :
    KeyFree (declare name reportUnused) := by
  refine KeyFree.get_bind fun s hs => ?_
  split
  · split
    · exact KeepsKeys.of_frames_eq hs rfl rfl rfl
    · exact .refl hs
  · rename_i f rest hfr
    split
    · exact keyFree_report _ s hs
    · exact KeepsKeys.top hs hfr rfl (fun x hx => lookup_append_keyword h hx _ _) rfl rfl

/-- Declaring the parameters of a function, all bindable. -/
theorem keyFree_params {params : List Token} (h : Binders params) :
    KeyFree (forIn params PUnit.unit fun p _ => do
      declare p false
      define p
      Pure.pure (ForInStep.yield PUnit.unit) : ResolveM PUnit) := by
  induction params with
  | nil => exact KeyFree.pure
  | cons p ps ih =>
    simp only [List.forIn_cons]
    have hp : Bindable p.lexeme := h p List.mem_cons_self
    refine KeyFree.bind (KeyFree.bind (keyFree_declare hp false) fun _ =>
      KeyFree.bind (keyFree_define hp) fun _ => KeyFree.pure) fun r => ?_
    split
    · exact KeyFree.pure
    · exact ih fun q hq => h q (List.mem_cons_of_mem _ hq)

/-- Looking a name up in the frames leaves them binding `this` and `super` where they did, as
used. -/
theorem lookupFrames_keys {name : String} {read : Bool} :
    ∀ {frames : List Frame} {hops : Nat} {initializing deferred : Bool} {h : Nat}
      {fs : List Frame}, (∀ f ∈ frames, f.Keyed) →
      lookupFrames name read hops initializing deferred frames = .found h fs →
      fs.map Frame.keys = frames.map Frame.keys ∧ ∀ f ∈ fs, f.Keyed
  | [], _, _, _, _, _, _, hl => by simp [lookupFrames] at hl
  | f :: rest, hops, initializing, deferred, h, fs, hc, hl => by
    have hrest : ∀ g ∈ rest, g.Keyed := fun g hg => hc g (List.mem_cons_of_mem _ hg)
    -- a match further out keeps this frame as it is
    have hout : ∀ {i d : Bool} {h' : Nat} {fs' : List Frame},
        lookupFrames name read (hops + 1) i d rest = .found h' fs' →
        (f :: fs').map Frame.keys = (f :: rest).map Frame.keys ∧ ∀ g ∈ f :: fs', g.Keyed := by
      intro i d h' fs' hrec
      obtain ⟨h1, h2⟩ := lookupFrames_keys hrest hrec
      refine ⟨by simp [h1], fun g hg => ?_⟩
      rcases List.mem_cons.1 hg with rfl | hg
      · exact hc g List.mem_cons_self
      · exact h2 g hg
    unfold lookupFrames at hl
    split at hl
    · rename_i l hfl
      split at hl
      · split at hl
        · rename_i hrec
          cases hl
          exact hout hrec
        · rename_i hne
          exact absurd hl (hne _ _)
      · cases hl
        -- the name is found here, and marked as used if it is read
        have hf : ∀ x, ¬ Bindable x → ∀ l', (if read then
            { f with names := setEntry name { l with stage := .used } f.names } else f).names.lookup x
              = some l' → (l'.stage = .used ∨ f.names.lookup x = some l') ∧
              ((f.names.lookup x).isSome = true) := by
          intro x hx l' hl'
          split at hl'
          · rw [Scopes.lookup_setEntry] at hl'
            split at hl'
            · rename_i hxn
              cases hl'
              exact ⟨.inl rfl, by rw [hxn, hfl]; rfl⟩
            · exact ⟨.inr hl', by rw [hl']; rfl⟩
          · exact ⟨.inr hl', by rw [hl']; rfl⟩
        have hsame : ∀ x, ¬ Bindable x → ((if read then
            { f with names := setEntry name { l with stage := .used } f.names } else f).names.lookup
              x).isSome = (f.names.lookup x).isSome := by
          intro x _
          split
          · rw [Scopes.lookup_setEntry]
            split
            · rename_i hxn
              rw [hxn, hfl]
              rfl
            · rfl
          · rfl
        refine ⟨?_, fun g hg => ?_⟩
        · simp only [List.map_cons, Frame.keys, Frame.holdsThis, Frame.holdsSuper,
            hsame "this" not_bindable_this, hsame "super" not_bindable_super]
        · rcases List.mem_cons.1 hg with rfl | hg
          · intro x l' hx hl'
            rcases (hf x hx l' hl').1 with h | h
            · exact h
            · exact hc f List.mem_cons_self x l' hx h
          · exact hrest g hg
    · split at hl
      · rename_i hrec
        cases hl
        exact hout hrec
      · rename_i hne
        exact absurd hl (hne _ _)

/-- Where the keys give an anchor, `this` is found that many frames out. -/
theorem lookupFrames_this {read : Bool} :
    ∀ {frames : List Frame} {hops : Nat} {initializing deferred : Bool} {a : Anchor},
      (∀ f ∈ frames, f.Keyed) → anchorOf (frames.map Frame.keys) = some a →
      ∃ fs, lookupFrames "this" read hops initializing deferred frames = .found (hops + a.hops) fs
  | [], _, _, _, _, _, ha => by cases ha
  | f :: rest, hops, initializing, deferred, a, hc, ha => by
    unfold lookupFrames
    cases hthis : f.holdsThis with
    | true =>
      simp only [List.map_cons, Frame.keys, hthis, anchorOf] at ha
      cases ha
      obtain ⟨l, hl⟩ := Option.isSome_iff_exists.1 hthis
      have hst : l.stage = .used := hc f List.mem_cons_self "this" l not_bindable_this hl
      rw [hl]
      simp only [hst, reduceCtorEq, decide_false, Bool.false_and, Bool.false_eq_true, ↓reduceIte]
      exact ⟨_, rfl⟩
    | false =>
      simp only [List.map_cons, Frame.keys, hthis, anchorOf] at ha
      obtain ⟨a', ha', rfl⟩ := Option.map_eq_some_iff.1 ha
      have hnone : f.names.lookup "this" = none := by simpa [Frame.holdsThis] using hthis
      rw [hnone]
      obtain ⟨fs, hfs⟩ := @lookupFrames_this read rest (hops + 1) initializing
        (deferred || f.isFunction) a' (fun g hg => hc g (List.mem_cons_of_mem _ hg)) ha'
      rw [hfs]
      refine ⟨f :: fs, ?_⟩
      simp only [Anchor.out, Nat.add_assoc, Nat.add_comm 1]

/-- Where the keys give an anchor with `super`, and no frame inside the frame of `this` binds
`super`, the first frame that binds `super` is the one just outside the frame of `this`. -/
theorem superAt_of_anchor :
    ∀ {ks : List (Bool × Bool)} {j : Nat}, SuperOutside ks → anchorOf ks = some ⟨j, true⟩ →
      SuperAt (ks.map Prod.snd) (j + 1)
  | [], _, _, ha => by cases ha
  | (true, s) :: rest, j, ho, ha => by
    obtain ⟨rfl, -⟩ := ho
    simp only [anchorOf, Option.some.injEq, Anchor.mk.injEq] at ha
    obtain ⟨rfl, hs⟩ := ha
    cases rest with
    | nil => cases hs
    | cons k rest =>
      obtain ⟨t', s'⟩ := k
      simp only [List.head?_cons, Option.map_some, Option.getD_some] at hs
      subst hs
      exact .there .here
  | (false, s) :: rest, j, ho, ha => by
    obtain ⟨rfl, ho⟩ := ho
    simp only [anchorOf] at ha
    obtain ⟨⟨j', b⟩, ha', he⟩ := Option.map_eq_some_iff.1 ha
    simp only [Anchor.out, Anchor.mk.injEq] at he
    obtain ⟨rfl, rfl⟩ := he
    exact .there (superAt_of_anchor (ho rfl) ha')

theorem Frame.Keyed.clean {f : Frame} (h : f.Keyed) : f.Clean :=
  fun l hl => h "super" l not_bindable_super hl

/-- Resolving a use of a name keeps the keys, keeps the name, and finds it where `lookupFrames`
does. -/
theorem resolveLocal_keys (r : Reference) (read : Bool) {s : State} (hs : s.Keyed) :
    KeepsKeys s ((resolveLocal r read).run s).2 ∧ ((resolveLocal r read).run s).1.name = r.name ∧
      ∀ h fs, lookupFrames r.name.lexeme read 0 false false s.frames = .found h fs →
        ((resolveLocal r read).run s).1.hops = some h := by
  unfold resolveLocal
  extract_lets name g
  rw [run_get_bind]
  split
  · rename_i hops frames hl
    obtain ⟨h1, h2⟩ := lookupFrames_keys hs hl
    refine ⟨⟨Nat.le_refl _, h1, rfl, h2⟩, rfl, fun h fs hf => ?_⟩
    rw [hl] at hf
    cases hf
    rfl
  · rename_i initializing deferred hl
    have hnot : ∀ h fs, lookupFrames r.name.lexeme read 0 false false s.frames = .found h fs →
        False := fun h fs hf => by rw [hl] at hf; cases hf
    extract_lets known initializing'
    clear_value initializing'
    cases initializing'
    · exact ⟨.refl hs, rfl, fun h fs hf => (hnot h fs hf).elim⟩
    · exact ⟨keyFree_report _ s hs, rfl, fun h fs hf => (hnot h fs hf).elim⟩

theorem anchoring_resolveLocal (r : Reference) (read : Bool) :
    Anchoring (resolveLocal r read) fun _ r' => r'.name = r.name :=
  fun _ hs => ⟨(resolveLocal_keys r read hs).1, fun _ _ => (resolveLocal_keys r read hs).2.1⟩

/-- Inside a class, `this` is found at the anchor. -/
theorem anchoredAt_resolveThis {r : Reference} (hr : r.name.lexeme = "this") {s : State}
    (hc : s.classContext ≠ .none) :
    AnchoredAt (resolveLocal r true) (fun a r' => KeywordUses.resolved.this a r') s := by
  intro hs
  obtain ⟨hk, hname, hfound⟩ := resolveLocal_keys r true hs
  refine ⟨hk, fun hpl _ => ?_⟩
  obtain ⟨⟨j, b⟩, ha⟩ := Option.ne_none_iff_exists'.1 fun h => hc (hpl.2.1 h)
  obtain ⟨fs, hfs⟩ := @lookupFrames_this true s.frames 0 false false _ hs ha
  rw [← hr] at hfs
  exact ⟨hname ▸ hr, j, b, ha, by simpa using hfound _ _ hfs⟩

/-- Inside a subclass, `super` is found one frame outside the frame of `this`. -/
theorem anchoredAt_resolveSuper {r : Reference} (hr : r.name.lexeme = "super") {s : State}
    (hc : s.classContext = .subclass) :
    AnchoredAt (resolveLocal r true) (fun a r' => KeywordUses.resolved.super a r') s := by
  intro hs
  obtain ⟨hk, hname, hfound⟩ := resolveLocal_keys r true hs
  refine ⟨hk, fun hpl _ => ?_⟩
  obtain ⟨j, ha⟩ := hpl.2.2 hc
  have hi : SuperAt (s.frames.map Frame.holdsSuper) (j + 1) := by
    have hcomp : Prod.snd ∘ Frame.keys = Frame.holdsSuper := rfl
    have := superAt_of_anchor hpl.1 ha
    rwa [List.map_map, hcomp] at this
  obtain ⟨fs, hfs⟩ := @lookupFrames_super true s.frames _ 0 false false
    (fun f hf => (hs f hf).clean) hi
  rw [← hr] at hfs
  exact ⟨hname ▸ hr, j, ha, by simpa using hfound _ _ hfs⟩

theorem Anchoring.withinFunction {P : Option Anchor → α → Prop} {x : ResolveM α}
    (kind : FunctionContext) (hx : Anchoring x P) : Anchoring (withinFunction kind x) P := by
  intro s hs
  simp only [Resolution.withinFunction, run_bind, run_get, run_modify, run_pure]
  obtain ⟨hk, hp⟩ := hx { s with functionContext := kind, loopDepth := 0 } hs
  exact ⟨⟨hk.faults_le, hk.keys_eq, hk.classContext_eq, hk.keyed⟩, hp⟩

/-- A new frame binds neither keyword: the anchor lies one frame further out. -/
theorem State.Placed.push {s : State} (hs : s.Placed) (b : Bool) :
    State.Placed { s with frames := ⟨[], b⟩ :: s.frames } := by
  have hkeys : (⟨[], b⟩ : Frame).keys = (false, false) := rfl
  have ha : State.anchor { s with frames := ⟨[], b⟩ :: s.frames } = s.anchor.map Anchor.out := by
    simp only [State.anchor, List.map_cons, hkeys, anchorOf]
  refine ⟨by simpa [hkeys, SuperOutside] using hs.1, fun h => ?_, fun hc => ?_⟩
  · rw [ha, Option.map_eq_none_iff] at h
    exact hs.2.1 h
  · obtain ⟨j, hj⟩ := hs.2.2 hc
    exact ⟨j + 1, by rw [ha, hj]; rfl⟩

theorem State.Keyed.push {s : State} (hs : s.Keyed) (b : Bool) :
    State.Keyed { s with frames := ⟨[], b⟩ :: s.frames } := by
  intro f hf
  rcases List.mem_cons.1 hf with rfl | hf
  · intro x l _ hl
    simp at hl
  · exact hs f hf

/-- A frame opened for `x` and closed after it: what `x` gives lies one scope further in. -/
theorem Anchoring.scope {P : Option Anchor → α → Prop} {Q : Option Anchor → β → Prop}
    {x : ResolveM α} {g : α → β} (b : Bool) (hx : Anchoring x P)
    (hg : ∀ a y, P (a.map Anchor.out) y → Q a (g y)) :
    Anchoring (do beginScope b; let y ← x; endScope; Pure.pure (g y)) Q := by
  intro s hs
  simp only [beginScope, endScope, run_bind, run_modify, run_pure]
  obtain ⟨hk, hp⟩ := hx _ (hs.push b)
  generalize x.run { s with frames := ⟨[], b⟩ :: s.frames } = p at hk hp
  obtain ⟨y, s2⟩ := p
  dsimp only at hk hp ⊢
  obtain ⟨hf, hkeys, hcc, hkd⟩ := hk
  split
  · rename_i hnil
    simp [hnil] at hkeys
  · rename_i f rest hfr
    rw [hfr, List.map_cons, List.map_cons] at hkeys
    refine ⟨⟨hf, (List.cons.inj hkeys).2, hcc, fun g hg => hkd g
      (hfr ▸ List.mem_cons_of_mem _ hg)⟩, fun hpl h => hg _ _ ?_⟩
    have hp := hp (hpl.push b) h
    simpa [State.anchor, anchorOf, Frame.keys, Frame.holdsThis, Frame.holdsSuper] using hp

/-- A function body, resolved in a frame of its parameters, lies one scope further in. -/
theorem Anchoring.function {params : List Token} {body : List Stmt} (kind : FunctionContext)
    (hp : Binders params)
    (h : Anchoring (resolveStmts body) fun a b => ∀ s ∈ b, Stmt.Anchored .resolved a s) :
    Anchoring (resolveFunction params body kind) fun a b =>
      ∀ s ∈ b, Stmt.Anchored .resolved (a.map Anchor.out) s := by
  rw [resolveFunction_eq]
  refine Anchoring.withinFunction kind ?_
  have hx := Anchoring.scope (Q := fun a b => ∀ s ∈ b, Stmt.Anchored .resolved (a.map Anchor.out) s)
    (g := fun b => b) true ((keyFree_params hp).anchoring.bind fun _ => h.mono fun _ _ hb _ => hb)
    fun _ _ hb => hb
  simp only [bind_assoc] at hx ⊢
  exact hx

/-- The members of a class, resolved: their parameters bindable and their bodies one scope
inside. -/
def MembersAnchored (a : Option Anchor) (ds : List FunDecl) : Prop :=
  (∀ f ∈ ds, Binders f.params) ∧
    ∀ f ∈ ds, ∀ s ∈ f.body, Stmt.Anchored .resolved (a.map Anchor.out) s

theorem MembersAnchored.append {a : Option Anchor} {ds es : List FunDecl}
    (hd : MembersAnchored a ds) (he : MembersAnchored a es) : MembersAnchored a (ds ++ es) :=
  ⟨fun f hf => (List.mem_append.1 hf).elim (hd.1 f) (he.1 f),
    fun f hf => (List.mem_append.1 hf).elim (hd.2 f) (he.2 f)⟩

/-- The frame of `this` on top of frames whose innermost binds no `super`: the anchor is right
there, with `super` when the next frame binds it. -/
theorem anchorOf_this {ks : List (Bool × Bool)} (h : SuperOutside ks) (sup : Option Reference) :
    anchorOf ((true, false) :: ((sup.map fun _ => (false, true)).toList ++ ks)) =
      some ⟨0, sup.isSome⟩ := by
  cases sup with
  | some r => rfl
  | none =>
    cases ks with
    | nil => rfl
    | cons k ks =>
      obtain ⟨t, u⟩ := k
      obtain ⟨rfl, -⟩ := h
      rfl

/-- A frame opened for a keyword binds it as used. -/
theorem State.Keyed.keyword {t : State} (ht : t.Keyed) (keyword : String) (name : Token)
    (b : Bool) :
    State.Keyed { t with frames := ⟨[(keyword, ⟨.used, name, false⟩)], b⟩ :: t.frames } := by
  intro g hg
  rcases List.mem_cons.1 hg with rfl | hg
  · intro x l _ hl
    simp only [List.lookup_cons, List.lookup_nil] at hl
    split at hl
    · cases hl
      rfl
    · cases hl
  · exact ht g hg

/-- The four tables of members, resolved one after another, are anchored alike. -/
theorem anchoring_classMembers {methods getters statics staticGetters : List FunDecl}
    (hm : Anchoring (resolveMembers true methods) MembersAnchored)
    (hg : Anchoring (resolveMembers false getters) MembersAnchored)
    (hst : Anchoring (resolveMembers false statics) MembersAnchored)
    (hsg : Anchoring (resolveMembers false staticGetters) MembersAnchored) :
    Anchoring (classMembers methods getters statics staticGetters)
      fun a b => MembersAnchored a (b.1 ++ b.2.1 ++ b.2.2.1 ++ b.2.2.2) :=
  hm.bind fun _ => hg.bind fun _ => hst.bind fun _ => hsg.bind fun _ =>
    Anchoring.pure fun _ h4 h3 h2 h1 => ((h1.append h2).append h3).append h4

/-- Closing the innermost frame of a keyed state leaves it keyed, with the keys of the frames
below. -/
theorem State.Keyed.endScope {u : State} {k : Bool × Bool} {ks : List (Bool × Bool)}
    (hu : u.Keyed) (h : u.frames.map Frame.keys = k :: ks) :
    (endScope.run u).2.Keyed ∧ (endScope.run u).2.frames.map Frame.keys = ks ∧
      (endScope.run u).2.faults = u.faults ∧
      (endScope.run u).2.classContext = u.classContext := by
  obtain ⟨f, rest, hfr, -, hrest⟩ := List.map_eq_cons_iff.1 h
  obtain ⟨e1, e2, e3⟩ := endScope_run hfr
  exact ⟨fun g hg => hu g (hfr ▸ List.mem_cons_of_mem _ (e1 ▸ hg)), by rw [e1, hrest], e2, e3⟩

/-- The frame of `this` around the members keeps the keys; where the keywords are placed once it
is open, every member is anchored at the anchor of that frame. -/
theorem classBody_anchored (name : Token) {methods getters statics staticGetters : List FunDecl}
    (h : Anchoring (classMembers methods getters statics staticGetters)
      fun a b => MembersAnchored a (b.1 ++ b.2.1 ++ b.2.2.1 ++ b.2.2.2))
    {t : State} (ht : t.Keyed) :
    KeepsKeys t ((classBody name methods getters statics staticGetters).run t).2 ∧
      (State.Placed { t with frames := ⟨[("this", ⟨.used, name, false⟩)], false⟩ :: t.frames } →
        ((classBody name methods getters statics staticGetters).run t).2.faults.size =
          t.faults.size →
        MembersAnchored (anchorOf ((true, false) :: t.frames.map Frame.keys))
          (((classBody name methods getters statics staticGetters).run t).1.1 ++
            ((classBody name methods getters statics staticGetters).run t).1.2.1 ++
            ((classBody name methods getters statics staticGetters).run t).1.2.2.1 ++
            ((classBody name methods getters statics staticGetters).run t).1.2.2.2)) := by
  rw [classBody_run]
  dsimp only
  obtain ⟨hk, hp⟩ := h _ (ht.keyword "this" name false)
  generalize (classMembers methods getters statics staticGetters).run
    { t with frames := ⟨[("this", ⟨.used, name, false⟩)], false⟩ :: t.frames } = p at hk hp
  obtain ⟨b, u⟩ := p
  dsimp only at hk hp ⊢
  -- the frame of `this` is still on top, and is closed
  have hkeys := hk.keys_eq
  rw [List.map_cons] at hkeys
  obtain ⟨hu, hrest, e2, e3⟩ := hk.keyed.endScope hkeys
  exact ⟨⟨e2 ▸ hk.faults_le, hrest, e3.trans hk.classContext_eq, hu⟩,
    fun hpl hf => hp hpl (e2 ▸ hf)⟩

/-- The frame of `super`, opened for a superclass, binds it as used just inside the frames it is
opened over, and makes the class context that of a subclass; without a superclass nothing
changes. -/
theorem superFrame_keyed (name : Token) (sup : Option Reference) {v : State} (hv : v.Keyed) :
    v.faults.size ≤ ((superFrame name sup).run v).2.faults.size ∧
      ((superFrame name sup).run v).2.Keyed ∧
      ((superFrame name sup).run v).2.frames.map Frame.keys =
        (sup.map fun _ => (false, true)).toList ++ v.frames.map Frame.keys ∧
      ((superFrame name sup).run v).2.classContext =
        (if sup.isSome then .subclass else v.classContext) ∧
      ((superFrame name sup).run v).1.isSome = sup.isSome := by
  cases sup with
  | none => exact ⟨Nat.le_refl _, hv, rfl, rfl, rfl⟩
  | some r =>
    rw [superFrame_run]
    dsimp only
    -- a class inheriting from itself is reported, and resolution goes on alike
    have h1 := (KeyFree.ite (c := r.name.lexeme = name.lexeme) (y := Pure.pure ())
      (keyFree_report (.inheritsItself r.name)) KeyFree.pure) v hv
    generalize (StateT.run (if r.name.lexeme = name.lexeme then report (.inheritsItself r.name)
      else (Pure.pure () : ResolveM Unit)) v).2 = w at h1 ⊢
    obtain ⟨h2, -, -⟩ :=
      resolveLocal_keys r true (show State.Keyed { w with classContext := .subclass } from h1.keyed)
    generalize (resolveLocal r true).run { w with classContext := .subclass } = p at h2 ⊢
    obtain ⟨r', w2⟩ := p
    dsimp only at h2 ⊢
    refine ⟨Nat.le_trans h1.faults_le h2.faults_le, h2.keyed.keyword "super" name false, ?_,
      h2.classContext_eq, rfl⟩
    rw [List.map_cons, h2.keys_eq]
    exact congrArg _ h1.keys_eq

/-- A class: its members are resolved in a frame of `this`, inside a frame of `super` when it
has a superclass, and the class context is restored afterwards. -/
theorem anchoring_classDecl {name : Token} {sup : Option Reference}
    {methods getters statics staticGetters : List FunDecl} (hn : Bindable name.lexeme)
    (hm : Anchoring (resolveMembers true methods) MembersAnchored)
    (hg : Anchoring (resolveMembers false getters) MembersAnchored)
    (hst : Anchoring (resolveMembers false statics) MembersAnchored)
    (hsg : Anchoring (resolveMembers false staticGetters) MembersAnchored) :
    Anchoring (resolveStmt (.classDecl name sup methods getters statics staticGetters))
      fun a s' => Stmt.Anchored .resolved a s' := by
  rw [resolveStmt_classDecl]
  refine Anchoring.get_bind fun s => ?_
  intro hs
  simp only [setClassContext, run_bind, run_modify]
  -- the class name is declared and defined where the class stands
  have h2 := keyFree_declare hn true _ (show State.Keyed { s with classContext := .plain } from hs)
  generalize (declare name true).run { s with classContext := .plain } = p2 at h2 ⊢
  obtain ⟨_, s2⟩ := p2
  have h3 := keyFree_define hn s2 h2.keyed
  generalize (define name).run s2 = p3 at h3 ⊢
  obtain ⟨_, s3⟩ := p3
  dsimp only at h2 h3 ⊢
  have h23 := h2.trans h3
  obtain ⟨f4, hk4, hkeys4, hcc4, hsome⟩ := superFrame_keyed name sup h23.keyed
  generalize (superFrame name sup).run s3 = p4 at f4 hk4 hkeys4 hcc4 hsome ⊢
  obtain ⟨sup', v⟩ := p4
  dsimp only at f4 hk4 hkeys4 hcc4 hsome ⊢
  rw [h23.keys_eq] at hkeys4
  rw [h23.classContext_eq] at hcc4
  obtain ⟨hk5, hp5⟩ := classBody_anchored name (anchoring_classMembers hm hg hst hsg) hk4
  generalize (classBody name methods getters statics staticGetters).run v = p5 at hk5 hp5 ⊢
  obtain ⟨b, u⟩ := p5
  dsimp only at hk5 hp5 ⊢
  -- where the keywords are placed in the class, the members see `this` just around them
  have hanchored : s.Placed → u.faults.size = s.faults.size →
      ∀ a, Stmt.Anchored .resolved a (.classDecl name sup' b.1 b.2.1 b.2.2.1 b.2.2.2) := by
    intro hpl hfs a
    have hf : u.faults.size = v.faults.size := by
      have e1 := h23.faults_le
      have e2 := hk5.faults_le
      dsimp only at e1
      omega
    have ha : anchorOf ((true, false) :: v.frames.map Frame.keys) = some ⟨0, sup.isSome⟩ := by
      rw [hkeys4]
      exact anchorOf_this hpl.1 sup
    have hpl5 : State.Placed
        { v with frames := ⟨[("this", ⟨.used, name, false⟩)], false⟩ :: v.frames } := by
      refine ⟨⟨rfl, fun h => by cases h⟩, fun h => ?_, fun hc => ⟨0, ?_⟩⟩
      · rw [State.anchor, List.map_cons] at h
        exact absurd (h.symm.trans ha) (by simp)
      · rw [State.anchor, List.map_cons]
        refine ha.trans ?_
        have hc' : v.classContext = .subclass := hc
        rw [hcc4] at hc'
        cases sup with
        | some _ => rfl
        | none => cases hc'
    have hall := hp5 hpl5 hf
    rw [ha, ← hsome] at hall
    exact .classDecl hn hall.1 hall.2
  -- the frame of `super`, if any, is closed, and the class context restored
  have hkeys5 := hk5.keys_eq.trans hkeys4
  have hfinal : ∀ w : State, w.Keyed → w.frames.map Frame.keys = s.frames.map Frame.keys →
      w.faults = u.faults → KeepsKeys s { w with classContext := s.classContext } :=
    fun w hw hwk hwf =>
      ⟨hwf ▸ Nat.le_trans h23.faults_le (Nat.le_trans f4 hk5.faults_le), hwk, rfl, hw⟩
  cases sup with
  | none =>
    have hn' : sup' = none := Option.not_isSome_iff_eq_none.1 (by simp [hsome])
    subst hn'
    simp only [Option.isSome_none, Bool.false_eq_true, reduceIte, run_bind, run_modify, run_pure]
    exact ⟨hfinal u hk5.keyed (by simpa using hkeys5) rfl, fun hpl hfs => hanchored hpl hfs _⟩
  | some r =>
    obtain ⟨r', rfl⟩ := Option.isSome_iff_exists.1 (hsome.trans rfl)
    simp only [Option.isSome_some, reduceIte, run_bind, run_modify, run_pure]
    rw [Option.map_some, Option.toList_some, List.singleton_append] at hkeys5
    obtain ⟨hu, hrest, e2, -⟩ := hk5.keyed.endScope hkeys5
    exact ⟨hfinal _ hu hrest e2, fun hpl hfs => hanchored hpl (e2 ▸ hfs) _⟩

mutual

theorem anchoring_resolveExpr : ∀ (e : Expr) {a : Option Anchor}, Expr.Anchored .parsed a e →
    Anchoring (resolveExpr e) fun b e' => Expr.Anchored .resolved b e'
  | .assign r v, _, he => by
    cases he with
    | assign hr hv =>
      rw [resolveExpr]
      refine (anchoring_resolveExpr v hv).bind fun v' => (anchoring_resolveLocal r false).bind
        fun r' => Anchoring.pure fun _ hr' hv' => .assign (hr' ▸ hr) hv'
  | .binary l op t r, _, he => by
    cases he with
    | binary hl hr =>
      rw [resolveExpr]
      refine (anchoring_resolveExpr l hl).bind fun l' => (anchoring_resolveExpr r hr).bind
        fun r' => ?_
      exact Anchoring.pure fun _ hr' hl' => .binary hl' hr'
  | .call callee paren args, _, he => by
    cases he with
    | call hc ha =>
      rw [resolveExpr]
      refine (anchoring_resolveExpr callee hc).bind fun c' =>
        (anchoring_resolveExprs args ha).bind fun a' => ?_
      exact Anchoring.pure fun _ ha' hc' => .call hc' ha'
  | .get obj name, _, he => by
    cases he with
    | get ho =>
      rw [resolveExpr]
      refine (anchoring_resolveExpr obj ho).bind fun o' => ?_
      exact Anchoring.pure fun _ ho' => .get ho'
  | .lambda keyword params body, _, he => by
    cases he with
    | lambda hp hb =>
      rw [resolveExpr]
      refine (Anchoring.function .function hp (anchoring_resolveStmts body hb)).bind fun b' => ?_
      exact Anchoring.pure fun _ hb' => .lambda hp hb'
  | .grouping e, _, he => by
    cases he with
    | grouping he =>
      rw [resolveExpr]
      refine (anchoring_resolveExpr e he).bind fun e' => ?_
      exact Anchoring.pure fun _ he' => .grouping he'
  | .literal l, _, _ => by
    rw [resolveExpr]
    exact Anchoring.pure fun _ => .literal
  | .logical l op t r, _, he => by
    cases he with
    | logical hl hr =>
      rw [resolveExpr]
      refine (anchoring_resolveExpr l hl).bind fun l' => (anchoring_resolveExpr r hr).bind
        fun r' => ?_
      exact Anchoring.pure fun _ hr' hl' => .logical hl' hr'
  | .set obj name v, _, he => by
    cases he with
    | set ho hv =>
      rw [resolveExpr]
      refine (anchoring_resolveExpr v hv).bind fun v' => (anchoring_resolveExpr obj ho).bind
        fun o' => ?_
      exact Anchoring.pure fun _ ho' hv' => .set ho' hv'
  | .superMember keyword member, _, he => by
    cases he with
    | superMember hk =>
      rw [resolveExpr]
      refine Anchoring.get_bind fun s => ?_
      split
      · exact AnchoredAt.report_bind fun _ => KeyFree.pure
      · exact AnchoredAt.report_bind fun _ => KeyFree.pure
      · rename_i hc
        exact (anchoredAt_resolveSuper hk hc).bind fun k' =>
          Anchoring.pure fun _ hk' => .superMember hk'
  | .conditional c q x y, _, he => by
    cases he with
    | conditional hc hx hy =>
      rw [resolveExpr]
      refine (anchoring_resolveExpr c hc).bind fun c' => (anchoring_resolveExpr x hx).bind
        fun x' => ?_
      refine (anchoring_resolveExpr y hy).bind fun y' => ?_
      exact Anchoring.pure fun _ hy' hx' hc' => .conditional hc' hx' hy'
  | .this keyword, _, he => by
    cases he with
    | this hk =>
      rw [resolveExpr]
      refine Anchoring.get_bind fun s => ?_
      split
      · exact AnchoredAt.report_bind fun _ => KeyFree.pure
      · rename_i hc
        exact (anchoredAt_resolveThis hk hc).bind fun k' => Anchoring.pure fun _ hk' => .this hk'
  | .unary op t e, _, he => by
    cases he with
    | unary he =>
      rw [resolveExpr]
      refine (anchoring_resolveExpr e he).bind fun e' => ?_
      exact Anchoring.pure fun _ he' => .unary he'
  | .variable r, _, _ => by
    rw [resolveExpr]
    exact (anchoring_resolveLocal r true).bind fun r' => Anchoring.pure fun _ _ => .variable

theorem anchoring_resolveExprs : ∀ (es : List Expr) {a : Option Anchor},
    (∀ e ∈ es, Expr.Anchored .parsed a e) →
    Anchoring (resolveExprs es) fun b es' => ∀ e ∈ es', Expr.Anchored .resolved b e
  | [], _, _ => by
    rw [resolveExprs]
    exact Anchoring.pure fun _ e he => by cases he
  | e :: es, _, hes => by
    rw [resolveExprs]
    refine (anchoring_resolveExpr e (hes e List.mem_cons_self)).bind fun e' =>
      (anchoring_resolveExprs es fun x hx => hes x (List.mem_cons_of_mem _ hx)).bind fun es' => ?_
    refine Anchoring.pure fun _ hes' he' x hx => ?_
    rcases List.mem_cons.1 hx with rfl | hx
    · exact he'
    · exact hes' x hx

theorem anchoring_resolveOptExpr : ∀ (o : Option Expr) {a : Option Anchor},
    (∀ e, o = some e → Expr.Anchored .parsed a e) →
    Anchoring (resolveOptExpr o) fun b o' => ∀ e, o' = some e → Expr.Anchored .resolved b e
  | none, _, _ => by
    rw [resolveOptExpr]
    exact Anchoring.pure fun _ e he => by cases he
  | some e, _, ho => by
    rw [resolveOptExpr]
    refine (anchoring_resolveExpr e (ho e rfl)).bind fun e' => ?_
    exact Anchoring.pure fun _ he x hx => by cases hx; exact he

theorem anchoring_resolveMembers (instanceMethods : Bool) : ∀ (ds : List FunDecl) {a : Option Anchor},
    (∀ f ∈ ds, Binders f.params) → (∀ f ∈ ds, ∀ s ∈ f.body, Stmt.Anchored .parsed a s) →
    Anchoring (resolveMembers instanceMethods ds) fun b ds' => MembersAnchored b ds'
  | [], _, _, _ => by
    rw [resolveMembers]
    exact Anchoring.pure fun _ => ⟨fun f hf => (by cases hf), fun f hf => (by cases hf)⟩
  | .mk name params body :: rest, _, hp, hb => by
    rw [resolveMembers]
    refine (Anchoring.function _ (hp _ List.mem_cons_self)
      (anchoring_resolveStmts body (hb _ List.mem_cons_self))).bind fun b' => ?_
    refine (anchoring_resolveMembers instanceMethods rest
      (fun f hf => hp f (List.mem_cons_of_mem _ hf))
      fun f hf => hb f (List.mem_cons_of_mem _ hf)).bind fun rest' => ?_
    refine Anchoring.pure fun _ hrest hb' => ⟨fun f hf => ?_, fun f hf => ?_⟩
    · rcases List.mem_cons.1 hf with rfl | hf
      · exact (hp (.mk name params body) List.mem_cons_self : Binders params)
      · exact hrest.1 f hf
    · rcases List.mem_cons.1 hf with rfl | hf
      · exact hb'
      · exact hrest.2 f hf

theorem anchoring_resolveStmt : ∀ (s : Stmt) {a : Option Anchor}, Stmt.Anchored .parsed a s →
    Anchoring (resolveStmt s) fun b s' => Stmt.Anchored .resolved b s'
  | .block body, _, hs => by
    cases hs with
    | block hb =>
      rw [resolveStmt]
      exact Anchoring.scope false (anchoring_resolveStmts body hb) fun _ _ hb' => .block hb'
  | .breakLoop keyword, _, _ => by
    rw [resolveStmt]
    refine Anchoring.get_bind fun s => ?_
    split
    · exact AnchoredAt.report_bind fun _ => KeyFree.pure
    · exact Anchoring.pure (fun _ => .breakLoop) s
  | .classDecl name sup methods getters statics staticGetters, _, hs => by
    cases hs with
    | classDecl hn hp hb =>
      exact anchoring_classDecl hn
        (anchoring_resolveMembers true methods (fun f hf => hp f (by simp [hf]))
          fun f hf => hb f (by simp [hf]))
        (anchoring_resolveMembers false getters (fun f hf => hp f (by simp [hf]))
          fun f hf => hb f (by simp [hf]))
        (anchoring_resolveMembers false statics (fun f hf => hp f (by simp [hf]))
          fun f hf => hb f (by simp [hf]))
        (anchoring_resolveMembers false staticGetters (fun f hf => hp f (by simp [hf]))
          fun f hf => hb f (by simp [hf]))
  | .expression e, _, hs => by
    cases hs with
    | expression he =>
      rw [resolveStmt]
      refine (anchoring_resolveExpr e he).bind fun e' => ?_
      exact Anchoring.pure fun _ he' => .expression he'
  | .function (.mk name params body), _, hs => by
    cases hs with
    | function hn hp hb =>
      rw [resolveStmt]
      refine Anchoring.after (keyFree_declare hn true) fun _ => Anchoring.after (keyFree_define hn)
        fun _ => ?_
      refine (Anchoring.function .function hp (anchoring_resolveStmts body hb)).bind fun b' => ?_
      exact Anchoring.pure fun _ hb' => .function hn hp hb'
  | .ifElse c t e, _, hs => by
    cases hs with
    | ifElse hc ht he =>
      rw [resolveStmt]
      refine (anchoring_resolveExpr c hc).bind fun c' => (anchoring_resolveStmt t ht).bind
        fun t' => ?_
      refine (anchoring_resolveOptStmt e he).bind fun e' => ?_
      exact Anchoring.pure fun _ he' ht' hc' => .ifElse hc' ht' he'
  | .print e, _, hs => by
    cases hs with
    | print he =>
      rw [resolveStmt]
      refine (anchoring_resolveExpr e he).bind fun e' => ?_
      exact Anchoring.pure fun _ he' => .print he'
  | .returnFrom keyword none, _, _ => by
    rw [resolveStmt]
    refine Anchoring.get_bind fun s => ?_
    extract_lets context tail
    have htail : ∀ u, Anchoring (tail u) fun b s' => Stmt.Anchored .resolved b s' := fun u => by
      simp only [tail]
      exact Anchoring.pure fun _ => .returnFrom fun e he => by cases he
    clear_value tail
    split
    · exact AnchoredAt.report_bind fun u => (htail u).keyFree
    · exact htail () s
  | .returnFrom keyword (some e), _, hs => by
    cases hs with
    | returnFrom he =>
      rw [resolveStmt]
      refine Anchoring.get_bind fun s => ?_
      extract_lets context tail
      have hvalue : Anchoring (resolveExpr e >>= fun e' => Pure.pure (Stmt.returnFrom keyword (some e')))
          fun b s' => Stmt.Anchored .resolved b s' :=
        (anchoring_resolveExpr e (he e rfl)).bind fun e' =>
          Anchoring.pure fun _ he' => .returnFrom fun x hx => by cases hx; exact he'
      have htail : ∀ u, Anchoring (tail u) fun b s' => Stmt.Anchored .resolved b s' := fun u => by
        simp only [tail]
        exact Anchoring.ite (Anchoring.report_bind fun _ => hvalue.keyFree) hvalue
      clear_value tail
      split
      · exact AnchoredAt.report_bind fun u => (htail u).keyFree
      · exact htail () s
  | .varDecl name init, _, hs => by
    cases hs with
    | varDecl hn hi =>
      rw [resolveStmt]
      refine Anchoring.after (keyFree_declare hn true) fun _ => ?_
      refine (anchoring_resolveOptExpr init hi).bind fun i' => Anchoring.after (keyFree_define hn)
        fun _ => ?_
      exact Anchoring.pure fun _ hi' => .varDecl hn hi'
  | .whileLoop c body, _, hs => by
    cases hs with
    | whileLoop hc hb =>
      rw [resolveStmt]
      refine (anchoring_resolveExpr c hc).bind fun c' => ?_
      refine Anchoring.after (keyFree_modify (fun _ => rfl) (fun _ => rfl) fun _ => rfl) fun _ => ?_
      refine (anchoring_resolveStmt body hb).bind fun b' => ?_
      refine Anchoring.after (keyFree_modify (fun _ => rfl) (fun _ => rfl) fun _ => rfl) fun _ => ?_
      exact Anchoring.pure fun _ hb' hc' => .whileLoop hc' hb'

theorem anchoring_resolveStmts : ∀ (ss : List Stmt) {a : Option Anchor},
    (∀ s ∈ ss, Stmt.Anchored .parsed a s) →
    Anchoring (resolveStmts ss) fun b ss' => ∀ s ∈ ss', Stmt.Anchored .resolved b s
  | [], _, _ => by
    rw [resolveStmts]
    exact Anchoring.pure fun _ s hs => by cases hs
  | s :: ss, _, hss => by
    rw [resolveStmts]
    refine (anchoring_resolveStmt s (hss s List.mem_cons_self)).bind fun s' =>
      (anchoring_resolveStmts ss fun x hx => hss x (List.mem_cons_of_mem _ hx)).bind fun ss' => ?_
    refine Anchoring.pure fun _ hss' hs' x hx => ?_
    rcases List.mem_cons.1 hx with rfl | hx
    · exact hs'
    · exact hss' x hx

theorem anchoring_resolveOptStmt : ∀ (o : Option Stmt) {a : Option Anchor},
    (∀ s, o = some s → Stmt.Anchored .parsed a s) →
    Anchoring (resolveOptStmt o) fun b o' => ∀ s, o' = some s → Stmt.Anchored .resolved b s
  | none, _, _ => by
    rw [resolveOptStmt]
    exact Anchoring.pure fun _ s hs => by cases hs
  | some s, _, ho => by
    rw [resolveOptStmt]
    refine (anchoring_resolveStmt s (ho s rfl)).bind fun s' => ?_
    exact Anchoring.pure fun _ hs x hx => by cases hx; exact hs

end

end Resolution

open Resolution

/-- A parsed program that resolution accepts at the top level comes back with every `this` found
at the anchor of its place and every `super` one scope further out. -/
theorem resolveProgram_anchored {globals : List String} {program : List Stmt}
    {a : Option Anchor} (hp : ∀ s ∈ program, Stmt.Anchored .parsed a s)
    (h : (resolveProgram globals program).isOk) :
    ∀ s ∈ (resolveProgram globals program).tree, Stmt.Anchored .resolved none s := by
  obtain ⟨_, hq⟩ := anchoring_resolveStmts program hp (State.initial globals) fun f hf => by cases hf
  unfold resolveProgram at h ⊢
  revert hq h
  generalize (resolveStmts program).run (State.initial globals) = r
  obtain ⟨tree, st⟩ := r
  intro h hq
  simp only [Resolved.isOk, List.isEmpty_iff, Array.toList_eq_nil_iff] at h
  exact hq ⟨trivial, fun _ => rfl, fun hc => by cases hc⟩ (by simp [h, State.initial])

/-- A parsed expression that resolution accepts at the top level. -/
theorem resolveExpression_anchored {globals : List String} {e : Expr} {a : Option Anchor}
    (he : Expr.Anchored .parsed a e) (h : (resolveExpression globals e).isOk) :
    Expr.Anchored .resolved none (resolveExpression globals e).tree := by
  obtain ⟨_, hq⟩ := anchoring_resolveExpr e he (State.initial globals) fun f hf => by cases hf
  unfold resolveExpression at h ⊢
  revert hq h
  generalize (resolveExpr e).run (State.initial globals) = r
  obtain ⟨tree, st⟩ := r
  intro h hq
  simp only [Resolved.isOk, List.isEmpty_iff, Array.toList_eq_nil_iff] at h
  exact hq ⟨trivial, fun _ => rfl, fun hc => by cases hc⟩ (by simp [h, State.initial])

end Lox
