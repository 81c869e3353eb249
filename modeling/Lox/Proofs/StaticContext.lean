import Lox.Proofs.Initializers
import Mathlib.Data.List.Forall2
/-!
# Where the static rules report faults

Most static faults depend only on where a piece of code stands: whether a loop of its own
function body encloses it, which kind of body it is part of, which class it is in, and which
names its innermost local scope already declares. A `Place` records exactly that, and
`Stmt.contextFaultsAll` reads the faults off the syntax tree with it: `break` outside a loop,
`return` at the top level or with a value from an initializer, `this` or `super` outside a
class or `super` without a superclass, a class inheriting from itself, and a second
declaration of a name in one local scope. The one fault left out is reading a local in its own
initializer, which depends on how a name resolves.

The resolver keeps this context in four fields that functions, lambdas, members and classes
save and restore at different points. `State.At s p o` says that a resolver state stands at
place `p` inside the outer scopes `o`; `Places x p o out p' o'` says that, from every such
state, the step `x` reports the faults `out` and ends at `p'` inside `o'`. Each primitive step
gets one such lemma, they compose along `bind`, and one mutual induction over the syntax
carries them through the whole resolver.

## Main statements

* `Lox.resolveProgram_contextFaults`: the contextual faults of resolving a program are those
  the rules give, in the order of the code.
-/

namespace Lox

/-- Whether the fault is decided by where the code stands: every static fault but reading a
local in its own initializer, which depends on how a name resolves. -/
def StaticFault.isContextual : StaticFault → Bool
  | .ownInitializer _ => false
  | _ => true

/-- Where a piece of code stands, as far as the static rules care: whether a loop of its own
function body encloses it, which body it is part of, which class it is in, and the names
already declared in its innermost local scope (none at the top level, where names are
globals). -/
structure Place where
  inLoop : Bool
  body : Body
  cls : Resolution.ClassContext
  scope : Option (List String)

namespace Place

def topLevel : Place := ⟨false, .topLevel, .none, none⟩

/-- The place of a function body of the given kind, in class context `c`: no loop around it,
and a scope of its own. -/
def function (c : Resolution.ClassContext) (kind : Body) : Place := ⟨false, kind, c, some []⟩

/-- Declare names in the innermost local scope; at the top level they are globals. -/
def declareAll (p : Place) (ns : List String) : Place :=
  { p with scope := p.scope.map (· ++ ns) }

/-- Declaring `name` here is a second declaration in one local scope. -/
def declaring (p : Place) (name : Token) : List StaticFault :=
  match p.scope with
  | some sc => if name.lexeme ∈ sc then [.alreadyDeclared name] else []
  | none => []

/-- Declaring the tokens one after another. -/
def declaringAll : Place → List Token → List StaticFault
  | _, [] => []
  | p, t :: ts => p.declaring t ++ (p.declareAll [t.lexeme]).declaringAll ts

/-- The faults of a function's parameters, declared one after another in its scope. -/
def paramFaults (c : Resolution.ClassContext) (kind : Body) (params : List Token) :
    List StaticFault :=
  (function c kind).declaringAll params

/-- The place of a function's statements: its scope holds its parameters. -/
def inBody (c : Resolution.ClassContext) (kind : Body) (params : List Token) : Place :=
  (function c kind).declareAll (params.map (·.lexeme))

end Place

/-- The names a statement declares in the scope it stands in: a declaration's name, and those
its branches and loop body declare, which stand in the same scope. -/
def Stmt.declaring : Stmt → List String
  | .varDecl name _ => [name.lexeme]
  | .function (.mk name _ _) => [name.lexeme]
  | .classDecl name .. => [name.lexeme]
  | .ifElse _ t none => t.declaring
  | .ifElse _ t (some e) => t.declaring ++ e.declaring
  | .whileLoop _ b => b.declaring
  | .block _ | .breakLoop _ | .expression _ | .print _ | .returnFrom .. => []

/-- The kind of body a class member has: an instance method named `init` is the initializer. -/
def memberBody (instanceMethods : Bool) (name : Token) : Body :=
  if instanceMethods && name.lexeme = "init" then .initializer else .function

/-- A class that names itself as its superclass. -/
def selfInheritance (name : Token) : Option Reference → List StaticFault
  | some r => if r.name.lexeme = name.lexeme then [.inheritsItself r.name] else []
  | none => []

mutual

/-- The contextual faults of an expression at place `p`, in the order of the code. -/
def Expr.contextFaults (p : Place) : Expr → List StaticFault
  | .assign _ v => v.contextFaults p
  | .binary l _ _ r => l.contextFaults p ++ r.contextFaults p
  | .call callee _ args => callee.contextFaults p ++ Expr.contextFaultsAll p args
  | .get obj _ => obj.contextFaults p
  | .lambda _ params body =>
    Place.paramFaults p.cls .function params ++
      Stmt.contextFaultsAll (Place.inBody p.cls .function params) body
  | .grouping e => e.contextFaults p
  | .literal _ => []
  | .logical l _ _ r => l.contextFaults p ++ r.contextFaults p
  | .set obj _ v => v.contextFaults p ++ obj.contextFaults p
  | .superMember k _ =>
    match p.cls with
    | .none => [.superOutsideClass k.name]
    | .plain => [.superWithoutSuperclass k.name]
    | .subclass => []
  | .conditional c _ a b => c.contextFaults p ++ a.contextFaults p ++ b.contextFaults p
  | .this k => if p.cls = .none then [.thisOutsideClass k.name] else []
  | .unary _ _ e => e.contextFaults p
  | .variable _ => []

def Expr.contextFaultsAll (p : Place) : List Expr → List StaticFault
  | [] => []
  | e :: es => e.contextFaults p ++ Expr.contextFaultsAll p es

def FunDecl.contextFaultsAll (c : Resolution.ClassContext) (instanceMethods : Bool) :
    List FunDecl → List StaticFault
  | [] => []
  | .mk name params body :: rest =>
    Place.paramFaults c (memberBody instanceMethods name) params ++
      Stmt.contextFaultsAll (Place.inBody c (memberBody instanceMethods name) params) body ++
      FunDecl.contextFaultsAll c instanceMethods rest

/-- The contextual faults of a statement at place `p`, in the order of the code. -/
def Stmt.contextFaults (p : Place) : Stmt → List StaticFault
  | .block body => Stmt.contextFaultsAll { p with scope := some [] } body
  | .breakLoop k => if p.inLoop then [] else [.breakOutsideLoop k]
  | .classDecl name sup methods getters statics staticGetters =>
    let c : Resolution.ClassContext := if sup.isSome then .subclass else .plain
    p.declaring name ++ selfInheritance name sup ++
      FunDecl.contextFaultsAll c true methods ++ FunDecl.contextFaultsAll c false getters ++
      FunDecl.contextFaultsAll c false statics ++ FunDecl.contextFaultsAll c false staticGetters
  | .expression e => e.contextFaults p
  | .function (.mk name params body) =>
    p.declaring name ++ Place.paramFaults p.cls .function params ++
      Stmt.contextFaultsAll (Place.inBody p.cls .function params) body
  | .ifElse c t none => c.contextFaults p ++ t.contextFaults p
  | .ifElse c t (some e) =>
    c.contextFaults p ++ t.contextFaults p ++ e.contextFaults (p.declareAll t.declaring)
  | .print e => e.contextFaults p
  | .returnFrom k none => if p.body = .topLevel then [.returnAtTopLevel k] else []
  | .returnFrom k (some e) =>
    (if p.body = .topLevel then [.returnAtTopLevel k] else []) ++
      (if p.body = .initializer then [.returnValueFromInitializer k] else []) ++ e.contextFaults p
  | .varDecl name none => p.declaring name
  | .varDecl name (some e) => p.declaring name ++ e.contextFaults (p.declareAll [name.lexeme])
  | .whileLoop c b => c.contextFaults p ++ b.contextFaults { p with inLoop := true }

/-- The contextual faults of statements in sequence from place `p`: each stands where those
before it have declared their names. -/
def Stmt.contextFaultsAll (p : Place) : List Stmt → List StaticFault
  | [] => []
  | s :: ss => s.contextFaults p ++ Stmt.contextFaultsAll (p.declareAll s.declaring) ss

end


/-- The scopes of place `p` inside the scopes `o`, innermost first: its own innermost scope,
if it has one, around the outer ones. -/
def Place.stack (p : Place) (o : List (List String)) : List (List String) :=
  match p.scope with
  | some sc => sc :: o
  | none => o

namespace Resolution

/-- Whether a frame declares the name. -/
def Frame.declares (f : Frame) (n : String) : Bool := (f.names.lookup n).isSome

/-- The frames are the scopes: each declares exactly the names of its scope. -/
def FramesAre (frames : List Frame) (st : List (List String)) : Prop :=
  List.Forall₂ (fun f sc => ∀ n, f.declares n = true ↔ n ∈ sc) frames st

/-- The state stands at place `p` inside the scopes `o`; at the top level there are none. -/
structure State.At (s : State) (p : Place) (o : List (List String)) : Prop where
  inLoop : s.inLoop = p.inLoop
  body : Body.ofContext s.functionContext = p.body
  cls : s.classContext = p.cls
  frames : FramesAre s.frames (p.stack o)
  topLevel : p.scope = none → o = []

/-- The contextual faults reported so far, in order. -/
def State.contextual (s : State) : List StaticFault :=
  s.faults.toList.filter StaticFault.isContextual

variable {α β : Type}

/-- From every state at place `p` inside scopes `o`, `x` reports the contextual faults `out`, in
order, and ends at place `p'` inside scopes `o'`. -/
def Places (x : ResolveM α) (p : Place) (o : List (List String)) (out : List StaticFault)
    (p' : Place) (o' : List (List String)) : Prop :=
  ∀ s, s.At p o → (x.run s).2.At p' o' ∧ (x.run s).2.contextual = s.contextual ++ out

theorem Places.pure (a : α) (p : Place) (o : List (List String)) :
    Places (Pure.pure a) p o [] p o :=
  fun _ hs => ⟨hs, (List.append_nil _).symm⟩

theorem Places.bind {x : ResolveM α} {f : α → ResolveM β} {p₁ p₂ p₃ : Place}
    {o₁ o₂ o₃ : List (List String)} {out₁ out₂ : List StaticFault} (hx : Places x p₁ o₁ out₁ p₂ o₂)
    (hf : ∀ a, Places (f a) p₂ o₂ out₂ p₃ o₃) :
    Places (x >>= f) p₁ o₁ (out₁ ++ out₂) p₃ o₃ := by
  intro s hs
  obtain ⟨h₂, e₂⟩ := hx s hs
  obtain ⟨h₃, e₃⟩ := hf (x.run s).1 (x.run s).2 h₂
  rw [run_bind]
  exact ⟨h₃, by rw [e₃, e₂, List.append_assoc]⟩

theorem Places.ite {c : Prop} [Decidable c] {x y : ResolveM α} {p p' : Place}
    {o o' : List (List String)} {out : List StaticFault} (hx : Places x p o out p' o')
    (hy : Places y p o out p' o') : Places (if c then x else y) p o out p' o' := by
  split
  · exact hx
  · exact hy

theorem Places.post {x : ResolveM α} {p p' p'' : Place} {o o' : List (List String)}
    {out : List StaticFault} (h : Places x p o out p' o') (he : p' = p'') :
    Places x p o out p'' o' :=
  he ▸ h

theorem Places.faults {x : ResolveM α} {p p' : Place} {o o' : List (List String)}
    {out out' : List StaticFault} (h : Places x p o out p' o') (he : out = out') :
    Places x p o out' p' o' :=
  he ▸ h

/-- A step that leaves the loop depth, the contexts and the frames stays where it is. -/
theorem State.At.of_same {s s' : State} {p : Place} {o : List (List String)} (h : s.At p o)
    (hl : s'.loopDepth = s.loopDepth) (hf : s'.functionContext = s.functionContext)
    (hc : s'.classContext = s.classContext) (hfr : s'.frames = s.frames) : s'.At p o where
  inLoop := by simp only [State.inLoop, hl]; exact h.inLoop
  body := hf ▸ h.body
  cls := hc ▸ h.cls
  frames := hfr ▸ h.frames
  topLevel := h.topLevel

theorem places_report (f : StaticFault) (p : Place) (o : List (List String)) :
    Places (report f) p o (if f.isContextual then [f] else []) p o := by
  intro s hs
  refine ⟨hs.of_same rfl rfl rfl rfl, ?_⟩
  show (s.faults.push f).toList.filter _ = _
  simp only [Array.toList_push, List.filter_append, State.contextual]
  cases h : f.isContextual <;> simp [h]

/-- A fault reported when `c` holds, before the same step either way. -/
theorem Places.report_if {c : Prop} [Decidable c] (f : StaticFault) (hf : f.isContextual = true)
    {x : ResolveM α} {p p' : Place} {o o' : List (List String)} {out : List StaticFault}
    (hx : Places x p o out p' o') :
    Places (if c then (report f >>= fun _ => x) else x) p o ((if c then [f] else []) ++ out)
      p' o' := by
  split
  · have h := (places_report f p o).bind fun _ => hx
    rwa [if_pos hf] at h
  · exact hx

theorem places_beginScope (b : Bool) (p : Place) (o : List (List String)) :
    Places (beginScope b) p o [] { p with scope := some [] } (p.stack o) := by
  intro s hs
  refine ⟨⟨hs.inLoop, hs.body, hs.cls, ?_, by simp⟩, (List.append_nil _).symm⟩
  exact List.Forall₂.cons (fun n => by simp [Frame.declares]) hs.frames

/-- Below the innermost frame of a place lie the scopes around it. -/
theorem FramesAre.tail {frames : List Frame} {q : Place} {st : List (List String)}
    (h : FramesAre frames (q.stack st)) (ht : q.scope = none → st = []) :
    FramesAre frames.tail st := by
  unfold Place.stack at h
  split at h
  · cases h with
    | cons _ hrest => exact hrest
  · rename_i hq
    rw [ht hq] at h ⊢
    cases h
    exact .nil

theorem endScope_run_tail (s : State) :
    (endScope.run s).2.frames = s.frames.tail ∧ (endScope.run s).2.faults = s.faults ∧
      (endScope.run s).2.loopDepth = s.loopDepth ∧
      (endScope.run s).2.functionContext = s.functionContext ∧
      (endScope.run s).2.classContext = s.classContext := by
  unfold endScope
  rw [run_modify]
  split <;> rename_i h <;> simp [h]

/-- Leaving a scope opened at place `p` inside `o` goes back to `p`'s scopes. -/
theorem places_endScope (p q : Place) (o : List (List String)) (hp : p.scope = none → o = []) :
    Places endScope q (p.stack o) [] { q with scope := p.scope } o := by
  intro s hs
  obtain ⟨hfr, hf, hl, hfc, hc⟩ := endScope_run_tail s
  -- the frames outside the innermost are the scopes `p` stands in
  have htail : FramesAre s.frames.tail (p.stack o) := hs.frames.tail hs.topLevel
  refine ⟨⟨?_, ?_, ?_, ?_, hp⟩, ?_⟩
  · simp only [State.inLoop, hl]
    exact hs.inLoop
  · rw [hfc]
    exact hs.body
  · rw [hc]
    exact hs.cls
  · rw [hfr]
    exact htail
  · simp [State.contextual, hf]

theorem Place.declareAll_of_none {p : Place} (h : p.scope = none) (ns : List String) :
    p.declareAll ns = p := by
  cases p
  simp_all [Place.declareAll]

theorem Place.declaring_of_none {p : Place} (h : p.scope = none) (t : Token) :
    p.declaring t = [] := by
  simp [Place.declaring, h]

theorem FramesAre.nil_of_none {frames : List Frame} {p : Place} {o : List (List String)}
    (h : FramesAre frames (p.stack o)) (hp : p.scope = none) (ho : o = []) : frames = [] := by
  simp only [Place.stack, hp, ho] at h
  exact List.forall₂_nil_right_iff.1 h

theorem FramesAre.cons_of_some {frames : List Frame} {p : Place} {o : List (List String)}
    {sc : List String} (h : FramesAre frames (p.stack o)) (hp : p.scope = some sc) :
    ∃ f rest, frames = f :: rest ∧ (∀ n, f.declares n = true ↔ n ∈ sc) ∧
      FramesAre rest o := by
  simp only [Place.stack, hp] at h
  cases h with
  | cons hf hr => exact ⟨_, _, rfl, hf, hr⟩

theorem Place.declareAll_of_some {p : Place} {sc : List String} (h : p.scope = some sc)
    (ns : List String) : p.declareAll ns = { p with scope := some (sc ++ ns) } := by
  cases p
  simp_all [Place.declareAll]

/-- A step that changes only the innermost frame, to one declaring the names of `sc'`. -/
theorem State.At.top {s s' : State} {p : Place} {o : List (List String)} {sc sc' : List String}
    {f f' : Frame} {rest : List Frame} (hs : s.At p o) (hsc : p.scope = some sc)
    (hfr : s.frames = f :: rest) (hfr' : s'.frames = f' :: rest)
    (hf' : ∀ n, f'.declares n = true ↔ n ∈ sc') (hl : s'.loopDepth = s.loopDepth)
    (hfc : s'.functionContext = s.functionContext) (hc : s'.classContext = s.classContext) :
    s'.At { p with scope := some sc' } o where
  inLoop := by simp only [State.inLoop, hl]; exact hs.inLoop
  body := hfc ▸ hs.body
  cls := hc ▸ hs.cls
  frames := by
    obtain ⟨g, rest', hg, -, hrest⟩ := hs.frames.cons_of_some hsc
    rw [hfr] at hg
    cases hg
    rw [hfr']
    exact .cons hf' hrest
  topLevel := by simp

theorem declares_append (f : Frame) (n : String) (l : Local) (m : String) :
    Frame.declares ⟨f.names ++ [(n, l)], f.isFunction⟩ m = (f.declares m || m == n) := by
  simp only [Frame.declares, List.lookup_append]
  cases h : f.names.lookup m with
  | some _ => simp
  | none => cases hb : m == n <;> simp [List.lookup_cons, hb]

theorem places_declare (name : Token) (ru : Bool) (p : Place) (o : List (List String)) :
    Places (declare name ru) p o (p.declaring name) (p.declareAll [name.lexeme]) o := by
  intro s hs
  unfold declare
  rw [run_get_bind]
  cases hsc : p.scope with
  | none =>
    -- at the top level the name becomes a global, if it is not one
    have hfr := hs.frames.nil_of_none hsc (hs.topLevel hsc)
    rw [Place.declareAll_of_none hsc, Place.declaring_of_none hsc]
    simp only [hfr]
    split
    · exact ⟨hs.of_same rfl rfl rfl hfr.symm, (List.append_nil _).symm⟩
    · exact ⟨hs, (List.append_nil _).symm⟩
  | some sc =>
    obtain ⟨f, rest, hfr, hf, hrest⟩ := hs.frames.cons_of_some hsc
    rw [Place.declareAll_of_some hsc]
    simp only [hfr, Place.declaring, hsc]
    by_cases hn : name.lexeme ∈ sc
    · have hd : (f.names.lookup name.lexeme).isSome = true := (hf _).2 hn
      rw [if_pos hd, if_pos hn]
      -- a second declaration is reported and leaves the scope as it was
      obtain ⟨-, h₂⟩ := places_report (.alreadyDeclared name) p o s hs
      refine ⟨hs.top hsc hfr hfr (fun m => ?_) rfl rfl rfl, h₂⟩
      rw [hf m, List.mem_append, List.mem_singleton]
      constructor
      · exact .inl
      · rintro (h | rfl)
        · exact h
        · exact hn
    · have hn' : ¬(f.names.lookup name.lexeme).isSome = true := fun h => hn ((hf _).1 h)
      rw [if_neg hn', if_neg hn]
      refine ⟨hs.top hsc hfr rfl (fun m => ?_) rfl rfl rfl, (List.append_nil _).symm⟩
      rw [declares_append]
      simp [hf m]

theorem Place.with_scope_self {p : Place} {sc : List String} (h : p.scope = some sc) :
    { p with scope := some sc } = p := by
  cases p
  simp_all

theorem declares_setEntry (f : Frame) (k : String) (l : Local) (m : String) :
    Frame.declares ⟨setEntry k l f.names, f.isFunction⟩ m = (m == k || f.declares m) := by
  simp only [Frame.declares, Scopes.lookup_setEntry]
  by_cases h : m = k <;> simp [h]

theorem places_define (name : Token) (p : Place) (o : List (List String)) :
    Places (define name) p o [] p o := by
  intro s hs
  unfold define
  rw [run_modify]
  cases hsc : p.scope with
  | none =>
    have hfr := hs.frames.nil_of_none hsc (hs.topLevel hsc)
    simp only [hfr]
    exact ⟨hs.of_same rfl rfl rfl hfr.symm, (List.append_nil _).symm⟩
  | some sc =>
    obtain ⟨f, rest, hfr, hf, -⟩ := hs.frames.cons_of_some hsc
    simp only [hfr]
    split
    · rename_i l hl
      split
      · -- the name was declared here, so marking it defined declares nothing new
        rw [← Place.with_scope_self hsc]
        refine ⟨hs.top hsc hfr rfl (fun m => ?_) rfl rfl rfl, (List.append_nil _).symm⟩
        rw [declares_setEntry, ← hf m]
        by_cases hm : m = name.lexeme
        · subst hm
          simp [Frame.declares, hl]
        · simp [hm]
      · exact ⟨hs, (List.append_nil _).symm⟩
    · exact ⟨hs, (List.append_nil _).symm⟩

theorem places_insertKeyword (keyword : String) (token : Token) (p : Place)
    (o : List (List String)) :
    Places (insertKeyword keyword token) p o [] (p.declareAll [keyword]) o := by
  intro s hs
  unfold insertKeyword
  rw [run_modify]
  cases hsc : p.scope with
  | none =>
    have hfr := hs.frames.nil_of_none hsc (hs.topLevel hsc)
    rw [Place.declareAll_of_none hsc]
    simp only [hfr]
    exact ⟨hs, (List.append_nil _).symm⟩
  | some sc =>
    obtain ⟨f, rest, hfr, hf, -⟩ := hs.frames.cons_of_some hsc
    rw [Place.declareAll_of_some hsc]
    simp only [hfr]
    refine ⟨hs.top hsc hfr rfl (fun m => ?_) rfl rfl rfl, (List.append_nil _).symm⟩
    rw [declares_setEntry]
    by_cases hm : m = keyword <;> simp [hm, hf m]

theorem places_setClassContext (c : ClassContext) (p : Place) (o : List (List String)) :
    Places (setClassContext c) p o [] { p with cls := c } o :=
  fun _ hs => ⟨⟨hs.inLoop, hs.body, rfl, hs.frames, hs.topLevel⟩, (List.append_nil _).symm⟩

/-- Frames that declare the same names as the scopes' frames are the scopes' frames too. -/
theorem FramesAre.of_declaresOf {fs fs' : List Frame} {st : List (List String)}
    (he : ∀ y, declaresOf y fs' = declaresOf y fs) (h : FramesAre fs st) : FramesAre fs' st := by
  induction h generalizing fs' with
  | nil =>
    have h₀ := he ""
    rw [declaresOf, declaresOf, List.map_nil, List.map_eq_nil_iff] at h₀
    rw [h₀]
    exact .nil
  | @cons f sc rest st hf _ ih =>
    cases fs' with
    | nil => exact absurd (he "").symm (List.cons_ne_nil _ _)
    | cons f' rest' =>
      simp only [declaresOf_cons, List.cons.injEq] at he
      refine .cons (fun n => ?_) (ih fun y => (he y).2)
      rw [← hf n, Frame.declares, Frame.declares, (he n).1]

/-- Resolving a use of a name reports no contextual fault and declares nothing. -/
theorem places_resolveLocal (r : Reference) (read : Bool) (p : Place) (o : List (List String)) :
    Places (resolveLocal r read) p o [] p o := by
  intro s hs
  unfold resolveLocal
  rw [run_get_bind]
  dsimp only
  split
  · rename_i hops fs hl
    have hfr := FramesAre.of_declaresOf (lookupFrames_declares hl).2 hs.frames
    exact ⟨⟨hs.inLoop, hs.body, hs.cls, hfr, hs.topLevel⟩, (List.append_nil _).symm⟩
  · -- reading a local in its own initializer is not a contextual fault
    exact Places.ite (Places.bind (places_report _ p o) fun _ => Places.pure _ p o)
      (Places.pure _ p o) s hs

/-- A step that reads the state first is placed from each state it may read. -/
theorem Places.get_bind {f : State → ResolveM α} {p p' : Place} {o o' : List (List String)}
    {out : List StaticFault} (h : ∀ s, s.At p o → Places (f s) p o out p' o') :
    Places (get >>= f) p o out p' o' := by
  intro s hs
  rw [run_get_bind]
  exact h s hs s hs

/-- A function body is resolved with no loop around it and its own function context; both are
given back afterwards. -/
theorem Places.withinFunction {x : ResolveM α} {p q : Place} {o o' : List (List String)}
    {out : List StaticFault} (kind : FunctionContext)
    (hx : Places x { p with inLoop := false, body := Body.ofContext kind } o out q o') :
    Places (withinFunction kind x) p o out { q with inLoop := p.inLoop, body := p.body } o' := by
  intro s hs
  simp only [Resolution.withinFunction, run_bind, run_get, run_modify, run_pure]
  obtain ⟨h₁, h₂⟩ := hx { s with functionContext := kind, loopDepth := 0 }
    ⟨by simp [State.inLoop], rfl, hs.cls, hs.frames, hs.topLevel⟩
  exact ⟨⟨hs.inLoop, hs.body, h₁.cls, h₁.frames, h₁.topLevel⟩, h₂⟩

/-- The body of a loop is resolved one loop deeper; the depth is given back afterwards. -/
theorem Places.loop {x : ResolveM α} {p q : Place} {o o' : List (List String)}
    {out : List StaticFault} (k : α → β) (hq : Quiet x)
    (hx : Places x { p with inLoop := true } o out q o') :
    Places (do
      modify fun s => { s with loopDepth := s.loopDepth + 1 }
      let a ← x
      modify fun s => { s with loopDepth := s.loopDepth - 1 }
      Pure.pure (k a)) p o out { q with inLoop := p.inLoop } o' := by
  intro s hs
  simp only [run_bind, run_modify, run_pure]
  have hs₁ : State.At { s with loopDepth := s.loopDepth + 1 } { p with inLoop := true } o :=
    ⟨by simp [State.inLoop], hs.body, hs.cls, hs.frames, hs.topLevel⟩
  obtain ⟨h₁, h₂⟩ := hx _ hs₁
  have hd := (hq { s with loopDepth := s.loopDepth + 1 }).loopDepth_eq
  refine ⟨⟨?_, h₁.body, h₁.cls, h₁.frames, h₁.topLevel⟩, h₂⟩
  simp only [State.inLoop, hd, Nat.add_sub_cancel]
  exact hs.inLoop

/-- A block: its statements in a scope of their own, which is left afterwards. -/
theorem Places.block {x : ResolveM α} {g : α → β} {p q : Place} {o : List (List String)}
    {out : List StaticFault} (b : Bool)
    (hx : Places x { p with scope := some [] } (p.stack o) out q (p.stack o)) :
    Places (do beginScope b; let a ← x; endScope; Pure.pure (g a)) p o out
      { q with scope := p.scope } o := by
  intro s hs
  have h := (places_beginScope b p o).bind fun _ => hx.bind fun a =>
    (places_endScope p q o hs.topLevel).bind fun _ => Places.pure (g a) _ o
  simpa using h s hs

theorem Place.declareAll_nil (p : Place) : p.declareAll [] = p := by
  cases p
  simp [Place.declareAll]

theorem Place.declareAll_append (p : Place) (ns ms : List String) :
    (p.declareAll ns).declareAll ms = p.declareAll (ns ++ ms) := by
  cases p
  simp [Place.declareAll, Option.map_map, Function.comp_def]

/-- Declaring the parameters of a function, one after another. -/
theorem places_params (params : List Token) : ∀ (q : Place) (o : List (List String)),
    Places (forIn params PUnit.unit fun p _ => do
      declare p false
      define p
      Pure.pure (ForInStep.yield PUnit.unit) : ResolveM PUnit) q o (q.declaringAll params)
      (q.declareAll (params.map (·.lexeme))) o := by
  induction params with
  | nil =>
    intro q o
    rw [List.map_nil, Place.declareAll_nil]
    exact Places.pure _ q o
  | cons t ts ih =>
    intro q o
    simp only [List.forIn_cons, bind_assoc, pure_bind]
    have h := (places_declare t false q o).bind fun _ =>
      (places_define t _ o).bind fun _ => ih (q.declareAll [t.lexeme]) o
    refine (h.faults ?_).post ?_
    · simp [Place.declaringAll]
    · rw [Place.declareAll_append]
      rfl

/-- A function body: no loop around it, its parameters declared in a scope of their own, then
its statements there; everything is given back afterwards. -/
theorem Places.function {body : List Stmt} {p : Place} {o : List (List String)}
    (params : List Token) (kind : FunctionContext) {out : List StaticFault} {ns : List String}
    (hbody : Places (resolveStmts body) (Place.inBody p.cls (Body.ofContext kind) params) (p.stack o)
      out ((Place.inBody p.cls (Body.ofContext kind) params).declareAll ns) (p.stack o)) :
    Places (resolveFunction params body kind) p o
      (Place.paramFaults p.cls (Body.ofContext kind) params ++ out) p o := by
  intro s hs
  rw [resolveFunction_eq]
  let q : Place := { p with inLoop := false, body := Body.ofContext kind }
  have hin := (places_beginScope true q o).bind fun _ => (places_params params _ _).bind fun _ =>
    hbody.bind fun b => (places_endScope q _ o hs.topLevel).bind fun _ => Places.pure b _ o
  have h := Places.withinFunction kind hin s hs
  refine ⟨?_, ?_⟩
  · have he : p = { ({ ((Place.inBody p.cls (Body.ofContext kind) params).declareAll ns) with
        scope := q.scope }) with inLoop := p.inLoop, body := p.body } := by
      cases p
      simp [Place.inBody, Place.function, Place.declareAll, q]
    rw [he]
    exact h.1
  · rw [h.2]
    simp [Place.paramFaults, Place.function, q]

theorem ofContext_eq_topLevel (c : FunctionContext) :
    Body.ofContext c = .topLevel ↔ c = .none := by
  cases c <;> simp [Body.ofContext]

theorem ofContext_eq_initializer (c : FunctionContext) :
    Body.ofContext c = .initializer ↔ c = .initializer := by
  cases c <;> simp [Body.ofContext]

/-- The four tables of members, resolved one after another in one place. -/
theorem places_classMembers {methods getters statics staticGetters : List FunDecl} {p : Place}
    {o : List (List String)} {om og os osg : List StaticFault}
    (hm : Places (resolveMembers true methods) p o om p o)
    (hg : Places (resolveMembers false getters) p o og p o)
    (hs : Places (resolveMembers false statics) p o os p o)
    (hsg : Places (resolveMembers false staticGetters) p o osg p o) :
    Places (classMembers methods getters statics staticGetters) p o (om ++ og ++ os ++ osg) p o :=
  (hm.bind fun _ => hg.bind fun _ => hs.bind fun _ => hsg.bind fun _ => Places.pure _ p o).faults
    (by simp)

/-- The frame of `this` around the members: they stand in a scope of their own that declares
`this`, and the place is as it was afterwards. -/
theorem places_classBody (name : Token) {methods getters statics staticGetters : List FunDecl}
    {p : Place} {o : List (List String)} {out : List StaticFault}
    (h : Places (classMembers methods getters statics staticGetters)
      (({ p with scope := some [] } : Place).declareAll ["this"]) (p.stack o) out
      (({ p with scope := some [] } : Place).declareAll ["this"]) (p.stack o)) :
    Places (classBody name methods getters statics staticGetters) p o out p o := by
  have hb := Places.block (g := fun b => b) false
    ((places_insertKeyword "this" name _ _).bind fun _ => h)
  simp only [List.nil_append, bind_assoc] at hb
  refine hb.post ?_
  cases p
  simp [Place.declareAll]

/-- The frame of `super`: a class that inherits from itself is reported, and what follows
stands in a subclass, in a scope of its own that declares `super`. -/
theorem places_superFrame_bind (name : Token) (r : Reference) {k : Option Reference → ResolveM β}
    {p p' : Place} {o o' : List (List String)} {out : List StaticFault}
    (hk : ∀ r', Places (k (some r'))
      (({ p with cls := .subclass, scope := some [] } : Place).declareAll ["super"]) (p.stack o)
      out p' o') :
    Places (superFrame name (some r) >>= k) p o (selfInheritance name (some r) ++ out) p' o' := by
  have hopen : Places (do
      setClassContext .subclass
      let r ← resolveLocal r true
      beginScope false
      insertKeyword "super" name
      k (some r)) p o out p' o' :=
    (((places_setClassContext .subclass p o).bind fun _ =>
      (places_resolveLocal r true _ o).bind fun _ =>
      (places_beginScope false _ o).bind fun _ =>
      (places_insertKeyword "super" name _ _).bind fun _ => hk _).faults (by simp))
  by_cases h : r.name.lexeme = name.lexeme
  · simp only [superFrame, h, if_true, bind_assoc, pure_bind]
    exact ((places_report (.inheritsItself r.name) p o).bind fun _ => hopen).faults
      (by simp [selfInheritance, h, StaticFault.isContextual])
  · simp only [superFrame, h, if_false, bind_assoc, pure_bind]
    exact hopen.faults (by simp [selfInheritance, h])

mutual

theorem places_resolveExpr : ∀ (e : Expr) (p : Place) (o : List (List String)),
    Places (resolveExpr e) p o (e.contextFaults p) p o
  | .assign r v, p, o => by
    rw [resolveExpr]
    refine ((places_resolveExpr v p o).bind fun _ => (places_resolveLocal r false p o).bind fun _ =>
      Places.pure _ p o).faults ?_
    simp [Expr.contextFaults]
  | .binary l op t r, p, o => by
    rw [resolveExpr]
    refine ((places_resolveExpr l p o).bind fun _ => (places_resolveExpr r p o).bind fun _ =>
      Places.pure _ p o).faults ?_
    simp [Expr.contextFaults]
  | .call callee paren args, p, o => by
    rw [resolveExpr]
    refine ((places_resolveExpr callee p o).bind fun _ =>
      (places_resolveExprs args p o).bind fun _ => Places.pure _ p o).faults ?_
    simp [Expr.contextFaults]
  | .get obj name, p, o => by
    rw [resolveExpr]
    refine ((places_resolveExpr obj p o).bind fun _ => Places.pure _ p o).faults ?_
    simp [Expr.contextFaults]
  | .lambda keyword params body, p, o => by
    rw [resolveExpr]
    refine ((Places.function params .function (places_resolveStmts body _ _)).bind fun _ =>
      Places.pure _ p o).faults ?_
    simp [Expr.contextFaults, Body.ofContext]
  | .grouping e, p, o => by
    rw [resolveExpr]
    refine ((places_resolveExpr e p o).bind fun _ => Places.pure _ p o).faults ?_
    simp [Expr.contextFaults]
  | .literal l, p, o => by
    rw [resolveExpr]
    exact Places.pure _ p o
  | .logical l op t r, p, o => by
    rw [resolveExpr]
    refine ((places_resolveExpr l p o).bind fun _ => (places_resolveExpr r p o).bind fun _ =>
      Places.pure _ p o).faults ?_
    simp [Expr.contextFaults]
  | .set obj name v, p, o => by
    rw [resolveExpr]
    refine ((places_resolveExpr v p o).bind fun _ => (places_resolveExpr obj p o).bind fun _ =>
      Places.pure _ p o).faults ?_
    simp [Expr.contextFaults]
  | .superMember keyword member, p, o => by
    rw [resolveExpr]
    refine Places.get_bind fun s hs => ?_
    rw [hs.cls]
    cases hc : p.cls
    · exact ((places_report _ p o).bind fun _ => Places.pure _ p o).faults
        (by simp [Expr.contextFaults, hc, StaticFault.isContextual])
    · exact ((places_report _ p o).bind fun _ => Places.pure _ p o).faults
        (by simp [Expr.contextFaults, hc, StaticFault.isContextual])
    · exact ((places_resolveLocal keyword true p o).bind fun _ => Places.pure _ p o).faults
        (by simp [Expr.contextFaults, hc])
  | .conditional c q a b, p, o => by
    rw [resolveExpr]
    refine ((places_resolveExpr c p o).bind fun _ => (places_resolveExpr a p o).bind fun _ =>
      (places_resolveExpr b p o).bind fun _ => Places.pure _ p o).faults ?_
    simp [Expr.contextFaults]
  | .this keyword, p, o => by
    rw [resolveExpr]
    refine Places.get_bind fun s hs => ?_
    rw [hs.cls]
    by_cases hc : p.cls = .none
    · rw [if_pos hc]
      exact ((places_report _ p o).bind fun _ => Places.pure _ p o).faults
        (by simp [Expr.contextFaults, hc, StaticFault.isContextual])
    · rw [if_neg hc]
      exact ((places_resolveLocal keyword true p o).bind fun _ => Places.pure _ p o).faults
        (by simp [Expr.contextFaults, hc])
  | .unary op t e, p, o => by
    rw [resolveExpr]
    refine ((places_resolveExpr e p o).bind fun _ => Places.pure _ p o).faults ?_
    simp [Expr.contextFaults]
  | .variable r, p, o => by
    rw [resolveExpr]
    exact ((places_resolveLocal r true p o).bind fun _ => Places.pure _ p o).faults
      (by simp [Expr.contextFaults])

theorem places_resolveExprs : ∀ (es : List Expr) (p : Place) (o : List (List String)),
    Places (resolveExprs es) p o (Expr.contextFaultsAll p es) p o
  | [], p, o => by
    rw [resolveExprs]
    exact Places.pure _ p o
  | e :: es, p, o => by
    rw [resolveExprs]
    refine ((places_resolveExpr e p o).bind fun _ => (places_resolveExprs es p o).bind fun _ =>
      Places.pure _ p o).faults ?_
    simp [Expr.contextFaultsAll]

theorem places_resolveMembers (instanceMethods : Bool) : ∀ (ds : List FunDecl) (p : Place)
    (o : List (List String)),
    Places (resolveMembers instanceMethods ds) p o
      (FunDecl.contextFaultsAll p.cls instanceMethods ds) p o
  | [], p, o => by
    rw [resolveMembers]
    exact Places.pure _ p o
  | .mk name params body :: rest, p, o => by
    rw [resolveMembers]
    refine ((Places.function params _ (places_resolveStmts body _ _)).bind fun _ =>
      (places_resolveMembers instanceMethods rest p o).bind fun _ => Places.pure _ p o).faults ?_
    rw [ofContext_member]
    simp [FunDecl.contextFaultsAll, memberBody]

theorem places_resolveStmt : ∀ (s : Stmt) (p : Place) (o : List (List String)),
    Places (resolveStmt s) p o (s.contextFaults p) (p.declareAll s.declaring) o
  | .block body, p, o => by
    rw [resolveStmt]
    refine (Places.block false (places_resolveStmts body _ _)).post ?_
    cases p
    simp [Place.declareAll, Stmt.declaring]
  | .breakLoop keyword, p, o => by
    rw [resolveStmt, show (Stmt.breakLoop keyword).declaring = [] from rfl, Place.declareAll_nil]
    refine Places.get_bind fun s hs => ?_
    have hl := hs.inLoop
    by_cases hp : p.inLoop
    · have hd : ¬s.loopDepth = 0 := by simpa [State.inLoop, hp] using hl
      rw [if_neg hd]
      exact ((Places.pure () p o).bind fun _ => Places.pure _ p o).faults
        (by simp [Stmt.contextFaults, hp])
    · have hd : s.loopDepth = 0 := by simpa [State.inLoop, hp] using hl
      rw [if_pos hd]
      exact ((places_report _ p o).bind fun _ => Places.pure _ p o).faults
        (by simp [Stmt.contextFaults, hp, StaticFault.isContextual])
  | .classDecl name none methods getters statics staticGetters, p, o => by
    rw [resolveStmt_classDecl]
    refine Places.get_bind fun s hs => ?_
    simp only [superFrame, pure_bind, Option.isSome_none, Bool.false_eq_true, if_false]
    rw [hs.cls]
    -- the class name is declared where the class stands, its members inside the scope of `this`
    let p₂ : Place := ({ p with cls := .plain } : Place).declareAll [name.lexeme]
    refine (((places_setClassContext .plain p o).bind fun _ =>
      (places_declare name true _ o).bind fun _ => (places_define name _ o).bind fun _ =>
      (places_classBody name (p := p₂) (places_classMembers
        (places_resolveMembers true methods _ _) (places_resolveMembers false getters _ _)
        (places_resolveMembers false statics _ _)
        (places_resolveMembers false staticGetters _ _))).bind fun _ =>
      (places_setClassContext p.cls _ o).bind fun _ => Places.pure _ _ o).faults ?_).post ?_
    · simp [Stmt.contextFaults, selfInheritance, Place.declaring, p₂, Place.declareAll]
    · cases p
      simp [Place.declareAll, Stmt.declaring, p₂]
  | .classDecl name (some r) methods getters statics staticGetters, p, o => by
    rw [resolveStmt_classDecl]
    refine Places.get_bind fun s hs => ?_
    rw [hs.cls]
    -- with a superclass, the scope of `super` lies between the class and the scope of `this`
    let p₂ : Place := ({ p with cls := .plain } : Place).declareAll [name.lexeme]
    let p₄ : Place := ({ p₂ with cls := .subclass, scope := some [] } : Place).declareAll ["super"]
    have htop : p₂.scope = none → o = [] := fun h =>
      hs.topLevel (by simpa [p₂, Place.declareAll] using h)
    have hsuper : p₄.scope = none → p₂.stack o = [] := by simp [p₄, Place.declareAll]
    refine (((places_setClassContext .plain p o).bind fun _ =>
      (places_declare name true _ o).bind fun _ => (places_define name _ o).bind fun _ =>
      places_superFrame_bind name r fun _ =>
        (places_classBody name (p := p₄) (places_classMembers
          (places_resolveMembers true methods _ _) (places_resolveMembers false getters _ _)
          (places_resolveMembers false statics _ _)
          (places_resolveMembers false staticGetters _ _))).bind fun _ =>
        (places_endScope p₂ p₄ o htop).bind fun _ =>
        (places_setClassContext p.cls _ o).bind fun _ => Places.pure _ _ o).faults ?_).post ?_
    · simp [Stmt.contextFaults, selfInheritance, Place.declaring, p₂, p₄, Place.declareAll]
    · cases p
      simp [Place.declareAll, Stmt.declaring, p₂, p₄]
  | .expression e, p, o => by
    rw [resolveStmt, show (Stmt.expression e).declaring = [] from rfl, Place.declareAll_nil]
    refine ((places_resolveExpr e p o).bind fun _ => Places.pure _ p o).faults ?_
    simp [Stmt.contextFaults]
  | .function (.mk name params body), p, o => by
    rw [resolveStmt]
    refine ((places_declare name true p o).bind fun _ => (places_define name _ o).bind fun _ =>
      (Places.function params .function (places_resolveStmts body _ _)).bind fun _ =>
        Places.pure _ _ o).faults ?_
    simp [Stmt.contextFaults, Body.ofContext, Place.declareAll]
  | .ifElse c t none, p, o => by
    rw [resolveStmt, resolveOptStmt]
    refine (((places_resolveExpr c p o).bind fun _ => (places_resolveStmt t p o).bind fun _ =>
      (Places.pure none _ o).bind fun _ => Places.pure _ _ o).faults ?_).post ?_
    · simp [Stmt.contextFaults]
    · simp [Stmt.declaring]
  | .ifElse c t (some e), p, o => by
    rw [resolveStmt, resolveOptStmt]
    refine (((places_resolveExpr c p o).bind fun _ => (places_resolveStmt t p o).bind fun _ =>
      ((places_resolveStmt e _ o).bind fun _ => Places.pure _ _ o).bind fun _ =>
        Places.pure _ _ o).faults ?_).post ?_
    · simp [Stmt.contextFaults]
    · simp [Stmt.declaring, Place.declareAll_append]
  | .print e, p, o => by
    rw [resolveStmt, show (Stmt.print e).declaring = [] from rfl, Place.declareAll_nil]
    refine ((places_resolveExpr e p o).bind fun _ => Places.pure _ p o).faults ?_
    simp [Stmt.contextFaults]
  | .returnFrom keyword none, p, o => by
    rw [resolveStmt, show (Stmt.returnFrom keyword none).declaring = [] from rfl,
      Place.declareAll_nil]
    refine Places.get_bind fun s hs => ?_
    dsimp only
    have hb := hs.body
    by_cases ht : p.body = .topLevel
    · have hc : s.functionContext = .none := (ofContext_eq_topLevel _).1 (hb.trans ht)
      rw [if_pos hc]
      exact ((places_report _ p o).bind fun _ => Places.pure _ p o).faults
        (by simp [Stmt.contextFaults, ht, StaticFault.isContextual])
    · have hc : ¬s.functionContext = .none := fun h => ht (hb ▸ (ofContext_eq_topLevel _).2 h)
      rw [if_neg hc]
      exact ((Places.pure () p o).bind fun _ => Places.pure _ p o).faults
        (by simp [Stmt.contextFaults, ht])
  | .returnFrom keyword (some e), p, o => by
    rw [resolveStmt, show (Stmt.returnFrom keyword (some e)).declaring = [] from rfl,
      Place.declareAll_nil]
    refine Places.get_bind fun s hs => ?_
    dsimp only
    have hb := hs.body
    -- what is reported depends only on the kind of body the statement stands in
    cases hp : p.body with
    | topLevel =>
      have h₀ : s.functionContext = .none := (ofContext_eq_topLevel _).1 (hb.trans hp)
      have h₁ : ¬s.functionContext = .initializer := by rw [h₀]; decide
      rw [if_pos h₀, if_neg h₁]
      refine ((places_report _ p o).bind fun _ => (places_resolveExpr e p o).bind fun _ =>
        Places.pure _ p o).faults ?_
      simp [Stmt.contextFaults, hp, StaticFault.isContextual]
    | function =>
      have h₀ : ¬s.functionContext = .none := fun h => by
        rw [(ofContext_eq_topLevel _).2 h, hp] at hb
        cases hb
      have h₁ : ¬s.functionContext = .initializer := fun h => by
        rw [(ofContext_eq_initializer _).2 h, hp] at hb
        cases hb
      rw [if_neg h₀, if_neg h₁]
      refine ((places_resolveExpr e p o).bind fun _ => Places.pure _ p o).faults ?_
      simp [Stmt.contextFaults, hp]
    | initializer =>
      have h₁ : s.functionContext = .initializer := (ofContext_eq_initializer _).1 (hb.trans hp)
      have h₀ : ¬s.functionContext = .none := by rw [h₁]; decide
      rw [if_neg h₀, if_pos h₁]
      refine ((places_report _ p o).bind fun _ => (places_resolveExpr e p o).bind fun _ =>
        Places.pure _ p o).faults ?_
      simp [Stmt.contextFaults, hp, StaticFault.isContextual]
  | .varDecl name none, p, o => by
    rw [resolveStmt, resolveOptExpr]
    refine ((places_declare name true p o).bind fun _ => (Places.pure none _ o).bind fun _ =>
      (places_define name _ o).bind fun _ => Places.pure _ _ o).faults ?_
    simp [Stmt.contextFaults]
  | .varDecl name (some e), p, o => by
    rw [resolveStmt, resolveOptExpr]
    refine ((places_declare name true p o).bind fun _ =>
      ((places_resolveExpr e _ o).bind fun _ => Places.pure _ _ o).bind fun _ =>
        (places_define name _ o).bind fun _ => Places.pure _ _ o).faults ?_
    simp [Stmt.contextFaults]
  | .whileLoop c body, p, o => by
    rw [resolveStmt]
    refine (((places_resolveExpr c p o).bind fun c' =>
      Places.loop (Stmt.whileLoop c') (checks_resolveStmt body).quiet
        (places_resolveStmt body _ o)).faults ?_).post ?_
    · simp [Stmt.contextFaults]
    · cases p
      simp [Place.declareAll, Stmt.declaring]

theorem places_resolveStmts : ∀ (ss : List Stmt) (p : Place) (o : List (List String)),
    Places (resolveStmts ss) p o (Stmt.contextFaultsAll p ss)
      (p.declareAll (ss.flatMap Stmt.declaring)) o
  | [], p, o => by
    rw [resolveStmts]
    exact (Places.pure _ p o).post (Place.declareAll_nil p).symm
  | s :: ss, p, o => by
    rw [resolveStmts]
    refine (((places_resolveStmt s p o).bind fun _ => (places_resolveStmts ss _ o).bind fun _ =>
      Places.pure _ _ o).faults ?_).post ?_
    · simp [Stmt.contextFaultsAll]
    · rw [Place.declareAll_append, List.flatMap_cons]

end

/-- The state a program starts in stands at the top level. -/
theorem State.initial_at (globals : List String) : (State.initial globals).At Place.topLevel [] :=
  ⟨rfl, rfl, rfl, .nil, fun _ => rfl⟩

end Resolution

open Resolution in
/-- The static faults that depend only on where code stands are reported exactly at the places
the rules give, in the order of the code: every one that `Stmt.contextFaultsAll` reads off the
program at the top level, and no other. -/
theorem resolveProgram_contextFaults (globals : List String) (program : List Stmt) :
    (resolveProgram globals program).faults.filter StaticFault.isContextual =
      Stmt.contextFaultsAll Place.topLevel program := by
  have h := (places_resolveStmts program Place.topLevel [] _ (State.initial_at globals)).2
  unfold resolveProgram
  revert h
  generalize (resolveStmts program).run (State.initial globals) = r
  obtain ⟨tree, st⟩ := r
  intro h
  simpa [State.contextual, State.initial] using h

-- a lambda's body has no loop of its own, even when the lambda stands in one
example (f b : Token) :
    Stmt.contextFaultsAll Place.topLevel
      [.whileLoop (.literal (.bool true)) (.expression (.lambda f [] [.breakLoop b]))] =
      [.breakOutsideLoop b] := rfl

-- only the instance method named init is the initializer, not a getter of that name
example (c r : Token) :
    let init : Token := ⟨.identifier, "init", none, 1, 9⟩
    let body : List Stmt := [.returnFrom r (some (.literal .nil))]
    Stmt.contextFaultsAll Place.topLevel
        [.classDecl c none [.mk init [] body] [.mk init [] body] [] []] =
      [.returnValueFromInitializer r] := rfl

end Lox
