import Lox.Proofs.StaticContext
import Lox.Proofs.Spelling
import Mathlib
/-!
# Which locals are reported as never read

Resolution warns about a local variable, function or class when it leaves the scope that
declares it and no read of a variable was bound to that declaration. This module says which
declarations those are, reading them off the resolved tree alone.

A scope's declarations are the first of their names in it (`firstDeclared`): a second
declaration of a name is rejected and not recorded, and a function's parameters come first and
are never reported. Of those, the ones whose names do not begin with `_` are reported, unless a
variable read of the scope's statements was bound to the scope (`Stmt.readsAtAll 0`); reads
are told apart by the number of scopes out that resolution recorded for them. Assignments,
`this` and `super` do not count. The warnings of one scope are ordered by line and column,
and scopes are reported as they close, inner before outer (`Stmt.unusedLocalsAll`).

The proof follows resolution step by step. `Advances adds reads out s s'` says that from
`s` to `s'` resolution declared `adds` in the innermost frame, marked as read in frame `i` the
names `reads i`, and warned about `out`; `Tracks x P` says that `x` keeps the frames sound and
relates the states before and after by `P` of its result. Each primitive step gets one lemma,
they compose along `bind`, and one mutual induction over the syntax carries them through the
whole resolver.

## Main statements

* `Lox.resolveProgram_warnings`: resolving a program whose names are spelled as parsing spells
  them warns about exactly the declarations that `Stmt.unusedLocalsAll` lists.
* `Lox.analyze_warns_unread_locals`: so does every program read from a source text, with the
  message `Local variable 'x' is never used.` at each declaring token.
-/

namespace Lox

/-- A declared name that is reported when never read: one that does not begin with `_`. -/
def Token.reportable (t : Token) : Bool := !t.lexeme.startsWith "_"

/-- The declarations among `ts` that are the first of their name in a scope where the names
`known` are declared already; the others are second declarations, which are not recorded. -/
def firstDeclared (known : String → Bool) : List Token → List Token
  | [] => []
  | t :: ts =>
    if known t.lexeme then firstDeclared known ts
    else t :: firstDeclared (fun x => known x || t.lexeme == x) ts

/-- The names declared by parameters, which come first in a function's scope. -/
def paramNames (params : List Token) (x : String) : Bool := params.any (·.lexeme == x)

/-- The names a statement declares in the scope it stands in, in order: a declaration's own
name, and those its branches and loop body declare without a block of their own. -/
def Stmt.declared : Stmt → List Token
  | .varDecl name _ => [name]
  | .function (.mk name _ _) => [name]
  | .classDecl name .. => [name]
  | .ifElse _ t none => t.declared
  | .ifElse _ t (some e) => t.declared ++ e.declared
  | .whileLoop _ b => b.declared
  | .block _ | .breakLoop _ | .expression _ | .print _ | .returnFrom .. => []

/-- The name of a use, if resolution found it `d` scopes out. -/
def Reference.readAt (d : Nat) (r : Reference) : List String :=
  if r.hops = some d then [r.name.lexeme] else []

mutual

/-- The names that variable reads in the expression were found at, `d` scopes out from where
the expression stands. -/
def Expr.readsAt (d : Nat) : Expr → List String
  | .assign _ v => v.readsAt d
  | .binary l _ _ r => l.readsAt d ++ r.readsAt d
  | .call callee _ args => callee.readsAt d ++ Expr.readsAtAll d args
  | .get obj _ => obj.readsAt d
  | .lambda _ _ body => Stmt.readsAtAll (d + 1) body
  | .grouping e => e.readsAt d
  | .literal _ => []
  | .logical l _ _ r => l.readsAt d ++ r.readsAt d
  | .set obj _ v => v.readsAt d ++ obj.readsAt d
  | .superMember _ _ => []
  | .conditional c _ a b => c.readsAt d ++ a.readsAt d ++ b.readsAt d
  | .this _ => []
  | .unary _ _ e => e.readsAt d
  | .variable r => r.readAt d

def Expr.readsAtAll (d : Nat) : List Expr → List String
  | [] => []
  | e :: es => e.readsAt d ++ Expr.readsAtAll d es

/-- The reads of class members, whose bodies stand one scope inside `d`. -/
def FunDecl.readsAtAll (d : Nat) : List FunDecl → List String
  | [] => []
  | .mk _ _ body :: rest => Stmt.readsAtAll (d + 1) body ++ FunDecl.readsAtAll d rest

/-- The names that variable reads in the statement were found at, `d` scopes out from where
the statement stands. A class's members stand inside the scope of `this`, and of `super` when
the class has a superclass; the superclass is read where the class stands. -/
def Stmt.readsAt (d : Nat) : Stmt → List String
  | .block body => Stmt.readsAtAll (d + 1) body
  | .breakLoop _ => []
  | .classDecl _ none methods getters statics staticGetters =>
    FunDecl.readsAtAll (d + 1) methods ++ FunDecl.readsAtAll (d + 1) getters ++
      FunDecl.readsAtAll (d + 1) statics ++ FunDecl.readsAtAll (d + 1) staticGetters
  | .classDecl _ (some r) methods getters statics staticGetters =>
    r.readAt d ++ FunDecl.readsAtAll (d + 2) methods ++ FunDecl.readsAtAll (d + 2) getters ++
      FunDecl.readsAtAll (d + 2) statics ++ FunDecl.readsAtAll (d + 2) staticGetters
  | .expression e => e.readsAt d
  | .function (.mk _ _ body) => Stmt.readsAtAll (d + 1) body
  | .ifElse c t none => c.readsAt d ++ t.readsAt d
  | .ifElse c t (some e) => c.readsAt d ++ t.readsAt d ++ e.readsAt d
  | .print e => e.readsAt d
  | .returnFrom _ none => []
  | .returnFrom _ (some e) => e.readsAt d
  | .varDecl _ none => []
  | .varDecl _ (some e) => e.readsAt d
  | .whileLoop c body => c.readsAt d ++ body.readsAt d

def Stmt.readsAtAll (d : Nat) : List Stmt → List String
  | [] => []
  | s :: ss => s.readsAt d ++ Stmt.readsAtAll d ss

end

/-- What is reported when the scope of `body` is left, where the names `known` were declared
first: the first declarations of its statements that are reported when unread and that no read
of the body found in this scope, ordered by line and column. -/
def scopeUnread (known : String → Bool) (body : List Stmt) : List Token :=
  (((firstDeclared known (body.flatMap Stmt.declared)).filter Token.reportable).filter
    fun t => t.lexeme ∉ Stmt.readsAtAll 0 body).mergeSort Resolution.Token.precedes

mutual

/-- The locals reported as never read in the scopes inside the expression, scope by scope in
the order they close. -/
def Expr.unusedLocals : Expr → List Token
  | .assign _ v => v.unusedLocals
  | .binary l _ _ r => l.unusedLocals ++ r.unusedLocals
  | .call callee _ args => callee.unusedLocals ++ Expr.unusedLocalsAll args
  | .get obj _ => obj.unusedLocals
  | .lambda _ params body => Stmt.unusedLocalsAll body ++ scopeUnread (paramNames params) body
  | .grouping e => e.unusedLocals
  | .literal _ => []
  | .logical l _ _ r => l.unusedLocals ++ r.unusedLocals
  | .set obj _ v => v.unusedLocals ++ obj.unusedLocals
  | .superMember _ _ => []
  | .conditional c _ a b => c.unusedLocals ++ a.unusedLocals ++ b.unusedLocals
  | .this _ => []
  | .unary _ _ e => e.unusedLocals
  | .variable _ => []

def Expr.unusedLocalsAll : List Expr → List Token
  | [] => []
  | e :: es => e.unusedLocals ++ Expr.unusedLocalsAll es

def FunDecl.unusedLocalsAll : List FunDecl → List Token
  | [] => []
  | .mk _ params body :: rest =>
    Stmt.unusedLocalsAll body ++ scopeUnread (paramNames params) body ++
      FunDecl.unusedLocalsAll rest

/-- The locals reported as never read in the scopes inside the statement, scope by scope in
the order they close. -/
def Stmt.unusedLocals : Stmt → List Token
  | .block body => Stmt.unusedLocalsAll body ++ scopeUnread (fun _ => false) body
  | .breakLoop _ => []
  | .classDecl _ _ methods getters statics staticGetters =>
    FunDecl.unusedLocalsAll methods ++ FunDecl.unusedLocalsAll getters ++
      FunDecl.unusedLocalsAll statics ++ FunDecl.unusedLocalsAll staticGetters
  | .expression e => e.unusedLocals
  | .function (.mk _ params body) =>
    Stmt.unusedLocalsAll body ++ scopeUnread (paramNames params) body
  | .ifElse c t none => c.unusedLocals ++ t.unusedLocals
  | .ifElse c t (some e) => c.unusedLocals ++ t.unusedLocals ++ e.unusedLocals
  | .print e => e.unusedLocals
  | .returnFrom _ none => []
  | .returnFrom _ (some e) => e.unusedLocals
  | .varDecl _ none => []
  | .varDecl _ (some e) => e.unusedLocals
  | .whileLoop c body => c.unusedLocals ++ body.unusedLocals

def Stmt.unusedLocalsAll : List Stmt → List Token
  | [] => []
  | s :: ss => s.unusedLocals ++ Stmt.unusedLocalsAll ss

end

/-! ## First declarations -/

theorem firstDeclared_append (known : String → Bool) (ts us : List Token) :
    firstDeclared known (ts ++ us) =
      firstDeclared known ts ++ firstDeclared (fun x => known x || ts.any (·.lexeme == x)) us := by
  induction ts generalizing known with
  | nil => simp [firstDeclared]
  | cons t ts ih =>
    by_cases ht : known t.lexeme
    · -- a name declared before is declared again in vain, so `t` changes nothing
      have hk : (fun x => known x || (t :: ts).any (·.lexeme == x)) =
          fun x => known x || ts.any (·.lexeme == x) := by
        funext x
        by_cases hx : t.lexeme = x
        · subst hx
          simp [ht]
        · simp [beq_false_of_ne hx]
      simp only [List.cons_append, firstDeclared, ht, if_true, ih, hk]
    · have hk : (fun x => (known x || t.lexeme == x) || ts.any (·.lexeme == x)) =
          fun x => known x || (t :: ts).any (·.lexeme == x) := by
        funext x
        simp [Bool.or_assoc]
      simp only [List.cons_append, firstDeclared, ht, Bool.false_eq_true, if_false, ih, hk]

theorem mem_firstDeclared {known : String → Bool} {ts : List Token} {t : Token}
    (h : t ∈ firstDeclared known ts) : known t.lexeme = false ∧ t ∈ ts := by
  induction ts generalizing known with
  | nil => simp [firstDeclared] at h
  | cons u us ih =>
    unfold firstDeclared at h
    split at h
    · exact (ih h).imp_right (List.mem_cons_of_mem u)
    · rename_i hu
      rcases List.mem_cons.1 h with rfl | h
      · exact ⟨by simpa using hu, List.mem_cons_self⟩
      · obtain ⟨hk, hm⟩ := ih h
        simp only [Bool.or_eq_false_iff] at hk
        exact ⟨hk.1, List.mem_cons_of_mem u hm⟩

theorem firstDeclared_of_known {known : String → Bool} {t : Token} (h : known t.lexeme = true) :
    firstDeclared known [t] = [] := by
  simp [firstDeclared, h]

theorem firstDeclared_of_unknown {known : String → Bool} {t : Token} (h : known t.lexeme = false) :
    firstDeclared known [t] = [t] := by
  simp [firstDeclared, h]

namespace Resolution

variable {α β γ : Type}

/-! ## Frames -/

/-- Whether a name of a frame is reported if the frame is left now: it reports when unread, and
it has not been read. -/
def unreadEntry (e : String × Local) : Option Token :=
  if e.2.reportUnused && e.2.stage ≠ .used then some e.2.token else none

/-- The names a frame would report if it were left now, in the order they were declared. -/
def Frame.unread (f : Frame) : List Token := f.names.filterMap unreadEntry

/-- A frame declares each name at most once, and a name that it reports when unread is the
text of its token and bindable. -/
structure Frame.Sound (f : Frame) : Prop where
  nodup : (f.names.map Prod.fst).Nodup
  reported : ∀ x l, (x, l) ∈ f.names → l.reportUnused = true → l.token.lexeme = x ∧ Bindable x

theorem Frame.Sound.unread_bindable {f : Frame} (h : f.Sound) {t : Token} (ht : t ∈ f.unread) :
    Bindable t.lexeme := by
  obtain ⟨⟨x, l⟩, hm, he⟩ := List.mem_filterMap.1 ht
  simp only [unreadEntry, Option.ite_none_right_eq_some, Option.some.injEq, Bool.and_eq_true] at he
  obtain ⟨⟨hr, -⟩, rfl⟩ := he
  obtain ⟨hx, hb⟩ := h.reported x l hm hr
  exact hx ▸ hb

/-- Every name that a list of entries reports unread is the name it is declared under. -/
theorem unread_lexeme {names : List (String × Local)}
    (hr : ∀ x l, (x, l) ∈ names → l.reportUnused = true → l.token.lexeme = x) {t : Token}
    (ht : t ∈ names.filterMap unreadEntry) : t.lexeme ∈ names.map Prod.fst := by
  obtain ⟨⟨x, l⟩, hm, he⟩ := List.mem_filterMap.1 ht
  simp only [unreadEntry, Option.ite_none_right_eq_some, Option.some.injEq, Bool.and_eq_true] at he
  obtain ⟨⟨hrep, -⟩, rfl⟩ := he
  rw [hr x l hm hrep]
  exact List.mem_map.2 ⟨(x, l), hm, rfl⟩

/-- Setting a name to an entry that is not reported drops that name from what is reported. -/
theorem unread_setEntry {x : String} {v : Local} (hv : unreadEntry (x, v) = none) :
    ∀ {names : List (String × Local)}, (names.map Prod.fst).Nodup →
      (∀ y l, (y, l) ∈ names → l.reportUnused = true → l.token.lexeme = y) →
      (setEntry x v names).filterMap unreadEntry =
        (names.filterMap unreadEntry).filter fun t => t.lexeme ≠ x
  | [], _, _ => by simp [setEntry, hv]
  | (k, m) :: rest, hnd, hr => by
    simp only [List.map_cons, List.nodup_cons] at hnd
    have hr' : ∀ y l, (y, l) ∈ rest → l.reportUnused = true → l.token.lexeme = y :=
      fun y l h => hr y l (List.mem_cons_of_mem _ h)
    -- the entry itself is reported under its own name `k`
    have hk : ∀ t, unreadEntry (k, m) = some t → t.lexeme = k := by
      intro t ht
      simp only [unreadEntry, Option.ite_none_right_eq_some, Option.some.injEq,
        Bool.and_eq_true] at ht
      obtain ⟨⟨hrep, -⟩, rfl⟩ := ht
      exact hr k m List.mem_cons_self hrep
    unfold setEntry
    by_cases hkx : k = x
    · subst hkx
      -- the rest declares other names, so nothing of it is dropped
      have hrest : (rest.filterMap unreadEntry).filter (fun t => t.lexeme ≠ k) =
          rest.filterMap unreadEntry := by
        rw [List.filter_eq_self]
        intro t ht
        have := unread_lexeme hr' ht
        simp only [ne_eq, decide_eq_true_eq]
        rintro rfl
        exact hnd.1 this
      rw [if_pos rfl, List.filterMap_cons_none hv]
      cases he : unreadEntry (k, m) with
      | none => rw [List.filterMap_cons_none he, hrest]
      | some t =>
        rw [List.filterMap_cons_some he, List.filter_cons_of_neg (by simp [hk t he]), hrest]
    · rw [if_neg hkx, List.filterMap_cons, List.filterMap_cons, unread_setEntry hv hnd.2 hr']
      cases he : unreadEntry (k, m) with
      | none => rfl
      | some t =>
        have : t.lexeme ≠ x := hk t he ▸ hkx
        simp [this]

/-- Setting a name to an entry that is reported exactly when the old one was keeps what is
reported. -/
theorem unread_setEntry_same {x : String} {l v : Local} (hv : unreadEntry (x, v) = unreadEntry (x, l)) :
    ∀ {names : List (String × Local)}, names.lookup x = some l →
      (setEntry x v names).filterMap unreadEntry = names.filterMap unreadEntry
  | [], h => by simp at h
  | (k, m) :: rest, h => by
    unfold setEntry
    by_cases hkx : k = x
    · subst hkx
      simp only [List.lookup_cons, beq_self_eq_true, Option.some.injEq] at h
      subst h
      rw [if_pos rfl, List.filterMap_cons, List.filterMap_cons, hv]
    · have h' : rest.lookup x = some l := by
        simpa [List.lookup_cons, beq_false_of_ne (Ne.symm hkx)] using h
      rw [if_neg hkx, List.filterMap_cons, List.filterMap_cons, unread_setEntry_same hv h']

/-- The frames of the state are sound. -/
def State.Sound (s : State) : Prop := ∀ f ∈ s.frames, f.Sound

theorem keys_setEntry {x : String} {v : Local} :
    ∀ {names : List (String × Local)}, (names.lookup x).isSome →
      (setEntry x v names).map Prod.fst = names.map Prod.fst
  | [], h => by simp at h
  | (k, m) :: rest, h => by
    unfold setEntry
    by_cases hkx : k = x
    · rw [if_pos hkx, hkx]
      rfl
    · have h' : (rest.lookup x).isSome := by
        simpa [List.lookup_cons, beq_false_of_ne (Ne.symm hkx)] using h
      rw [if_neg hkx, List.map_cons, List.map_cons, keys_setEntry h']

theorem not_mem_keys {names : List (String × Local)} {x : String}
    (h : (names.lookup x).isSome = false) : x ∉ names.map Prod.fst := by
  intro hx
  obtain ⟨⟨k, l⟩, hm, rfl⟩ := List.mem_map.1 hx
  have : (names.lookup k).isSome = true := by
    cases hl : names.lookup k with
    | none => simpa using List.lookup_eq_none_iff.1 hl _ hm
    | some _ => rfl
  rw [this] at h
  cases h

/-- Setting a declared name to an entry with the same token, reported alike, keeps a frame
sound. -/
theorem Frame.Sound.setEntry {f : Frame} (hf : f.Sound) {x : String} {l v : Local}
    (hl : f.names.lookup x = some l) (ht : v.token = l.token)
    (hr : v.reportUnused = l.reportUnused) (b : Bool) : Frame.Sound ⟨setEntry x v f.names, b⟩ where
  nodup := by
    rw [keys_setEntry (by simp [hl])]
    exact hf.nodup
  reported y m hm hrep := by
    rcases Scopes.mem_setEntry hm with he | hm
    · cases he
      rw [ht]
      exact hf.reported x l (Scopes.mem_of_lookup hl) (hr ▸ hrep)
    · exact hf.reported y m hm hrep

/-! ## How one frame changes -/

/-- Frame `f'` is frame `f` after declaring `adds` and reading the names `reads` in it: it
declares the new names as well, it reports the first new declarations that report when
unread, it no longer reports what was read, and it declares everything that was read. -/
structure Frame.Grown (adds : List Token) (reads : List String) (f f' : Frame) : Prop where
  declares : ∀ x, f'.declares x = (f.declares x || adds.any (·.lexeme == x))
  unread : f'.unread =
    (f.unread ++ (firstDeclared f.declares adds).filter Token.reportable).filter
      fun t => t.lexeme ∉ reads
  read : ∀ x ∈ reads, f'.declares x = true

theorem Frame.Grown.refl (f : Frame) : f.Grown [] [] f where
  declares x := by simp
  unread := by simp [firstDeclared]
  read x hx := by simp at hx

theorem filter_not_mem_append (l : List Token) (r₁ r₂ : List String) :
    l.filter (fun t => t.lexeme ∉ r₁ ++ r₂) =
      (l.filter fun t => t.lexeme ∉ r₁).filter fun t => t.lexeme ∉ r₂ := by
  rw [List.filter_filter]
  congr 1
  funext t
  simp [Bool.and_comm]

theorem Frame.Grown.trans {f f₁ f₂ : Frame} {a₁ a₂ : List Token} {r₁ r₂ : List String}
    (h₁ : f.Grown a₁ r₁ f₁) (h₂ : f₁.Grown a₂ r₂ f₂) : f.Grown (a₁ ++ a₂) (r₁ ++ r₂) f₂ where
  declares x := by rw [h₂.declares, h₁.declares, List.any_append, Bool.or_assoc]
  unread := by
    have hd : f₁.declares = fun x => f.declares x || a₁.any (·.lexeme == x) :=
      funext h₁.declares
    -- the first declarations of `a₂` are new to `f₁`, so none of them was read before
    have hnew : ((firstDeclared f₁.declares a₂).filter Token.reportable).filter
        (fun t => t.lexeme ∉ r₁) = (firstDeclared f₁.declares a₂).filter Token.reportable := by
      rw [List.filter_eq_self]
      intro t ht
      have hk := (mem_firstDeclared (List.mem_filter.1 ht).1).1
      simp only [decide_eq_true_eq]
      intro hm
      rw [h₁.read _ hm] at hk
      cases hk
    have hsplit : (firstDeclared f.declares (a₁ ++ a₂)).filter Token.reportable =
        (firstDeclared f.declares a₁).filter Token.reportable ++
          (firstDeclared f₁.declares a₂).filter Token.reportable := by
      rw [firstDeclared_append, ← hd, List.filter_append]
    rw [h₂.unread, h₁.unread, hsplit, ← List.append_assoc, filter_not_mem_append,
      List.filter_append (f.unread ++ (firstDeclared f.declares a₁).filter Token.reportable), hnew]
  read x hx := by
    rcases List.mem_append.1 hx with hx | hx
    · rw [h₂.declares, h₁.read x hx, Bool.true_or]
    · exact h₂.read x hx

/-- Reading a name marks it read in the frame that declares it. -/
theorem Frame.grown_mark {f : Frame} (hf : f.Sound) {x : String} {l : Local}
    (hl : f.names.lookup x = some l) :
    f.Grown [] [x] { f with names := setEntry x { l with stage := .used } f.names } where
  declares y := by
    simp only [Frame.declares, Scopes.lookup_setEntry, List.any_nil, Bool.or_false]
    split
    · rename_i hy
      rw [hy, hl]
      rfl
    · rfl
  unread := by
    simp only [Frame.unread, firstDeclared, List.filter_nil, List.append_nil,
      List.mem_singleton]
    exact unread_setEntry (by simp [unreadEntry]) hf.nodup fun y m hm hr =>
      (hf.reported y m hm hr).1
  read y hy := by
    rw [List.mem_singleton] at hy
    subst hy
    simp [Frame.declares, Scopes.lookup_setEntry]

/-- A name declared again in the same frame leaves it as it is. -/
theorem Frame.grown_redeclare {f : Frame} {t : Token} (h : f.declares t.lexeme = true) :
    f.Grown [t] [] f where
  declares x := by
    by_cases hx : t.lexeme = x
    · subst hx
      simp [h]
    · simp [beq_false_of_ne hx]
  unread := by simp [firstDeclared_of_known h]
  read x hx := by simp at hx

/-- A name declared for the first time in a frame is added to it, and reported until it is
read if it is reported when unread. -/
theorem Frame.grown_declare {f : Frame} {t : Token} (h : f.declares t.lexeme = false) :
    f.Grown [t] [] ⟨f.names ++ [(t.lexeme, ⟨.declared, t, t.reportable⟩)], f.isFunction⟩ where
  declares x := by
    rw [declares_append]
    by_cases hx : t.lexeme = x
    · subst hx
      simp
    · simp [beq_false_of_ne hx, beq_false_of_ne (Ne.symm hx)]
  unread := by
    simp only [Frame.unread, List.filterMap_append, firstDeclared_of_unknown h]
    cases hr : t.reportable <;> simp [unreadEntry, hr]
  read x hx := by simp at hx

theorem Frame.Sound.declare {f : Frame} (hf : f.Sound) {t : Token}
    (h : f.declares t.lexeme = false) {ru : Bool} (hb : ru = true → Bindable t.lexeme) :
    Frame.Sound ⟨f.names ++ [(t.lexeme, ⟨.declared, t, ru⟩)], f.isFunction⟩ where
  nodup := by
    rw [List.map_append, List.nodup_append]
    refine ⟨hf.nodup, by simp, fun a ha b hb' => ?_⟩
    simp only [List.map_cons, List.map_nil, List.mem_singleton] at hb'
    subst hb'
    rintro rfl
    exact not_mem_keys h ha
  reported x l hm hr := by
    rcases List.mem_append.1 hm with hm | hm
    · exact hf.reported x l hm hr
    · rw [List.mem_singleton] at hm
      cases hm
      exact ⟨rfl, hb hr⟩

/-! ## How the frames change -/

/-- Frames `fs'` are the frames `fs` after declaring `adds` in the innermost one and reading
the names `reads i` in the frame `i` scopes out. -/
def Grows (adds : List Token) (reads : Nat → List String) : List Frame → List Frame → Prop
  | [], fs' => fs' = []
  | f :: fs, fs' => ∃ f' rest, fs' = f' :: rest ∧ f.Grown adds (reads 0) f' ∧
      Grows [] (fun i => reads (i + 1)) fs rest

theorem Grows.refl : ∀ fs : List Frame, Grows [] (fun _ => []) fs fs
  | [] => rfl
  | f :: fs => ⟨f, fs, rfl, .refl f, Grows.refl fs⟩

theorem Grows.congr {adds : List Token} {reads reads' : Nat → List String} {fs fs' : List Frame}
    (h : Grows adds reads fs fs') (he : ∀ i, reads i = reads' i) : Grows adds reads' fs fs' :=
  funext he ▸ h

theorem Grows.trans : ∀ {fs fs₁ fs₂ : List Frame} {a₁ a₂ : List Token} {r₁ r₂ : Nat → List String},
    Grows a₁ r₁ fs fs₁ → Grows a₂ r₂ fs₁ fs₂ → Grows (a₁ ++ a₂) (fun i => r₁ i ++ r₂ i) fs fs₂
  | [], _, _, _, _, _, _, h₁, h₂ => by
    subst h₁
    exact h₂
  | _ :: _, _, _, _, _, _, _, ⟨f₁, rest₁, he₁, hf₁, hr₁⟩, h₂ => by
    subst he₁
    obtain ⟨f₂, rest₂, he₂, hf₂, hr₂⟩ := h₂
    exact ⟨f₂, rest₂, he₂, hf₁.trans hf₂, Grows.trans hr₁ hr₂⟩

/-- Replacing the frame `k` scopes out by one grown from it without declarations. -/
theorem grows_set {r : List String} {f f' : Frame} (h : f.Grown [] r f') :
    ∀ {fs : List Frame} {k : Nat}, fs[k]? = some f →
      Grows [] (fun i => if i = k then r else []) fs (fs.set k f')
  | [], _, hk => by simp at hk
  | g :: fs, 0, hk => by
    simp only [List.getElem?_cons_zero, Option.some.injEq] at hk
    subst hk
    exact ⟨f', fs, rfl, h, (Grows.refl fs).congr fun i => by simp⟩
  | g :: fs, k + 1, hk => by
    simp only [List.getElem?_cons_succ] at hk
    refine ⟨g, fs.set k f', rfl, ?_, (grows_set h hk).congr fun i => by simp⟩
    simpa using Frame.Grown.refl g

/-! ## How resolution advances -/

/-- From `s` to `s'` resolution declared `adds` in the innermost frame, marked as read the
names `reads i` in the frame `i` scopes out, and warned about `out`, in this order. -/
structure Advances (adds : List Token) (reads : Nat → List String) (out : List Token)
    (s s' : State) : Prop where
  grows : Grows adds reads s.frames s'.frames
  warnings : s'.warnings.toList = s.warnings.toList ++ out.map UnusedLocal.mk

/-- A step that leaves the frames and the warnings. -/
theorem Advances.of_eq {s s' : State} (hf : s'.frames = s.frames)
    (hw : s'.warnings = s.warnings) : Advances [] (fun _ => []) [] s s' :=
  ⟨hf ▸ Grows.refl s.frames, by simp [hw]⟩

theorem Advances.trans {a₁ a₂ : List Token} {r₁ r₂ : Nat → List String} {o₁ o₂ : List Token}
    {s s₁ s₂ : State} (h₁ : Advances a₁ r₁ o₁ s s₁) (h₂ : Advances a₂ r₂ o₂ s₁ s₂) :
    Advances (a₁ ++ a₂) (fun i => r₁ i ++ r₂ i) (o₁ ++ o₂) s s₂ :=
  ⟨h₁.grows.trans h₂.grows, by rw [h₂.warnings, h₁.warnings, List.map_append, List.append_assoc]⟩

theorem Advances.congr {a a' : List Token} {r r' : Nat → List String} {o o' : List Token}
    {s s' : State} (h : Advances a r o s s') (ha : a = a') (hr : ∀ i, r i = r' i) (ho : o = o') :
    Advances a' r' o' s s' :=
  ha ▸ ho ▸ ⟨h.grows.congr hr, h.warnings⟩

/-! ## Entering and leaving a frame -/

/-- `s'` is `s` with a frame pushed that declares the names `known` and reports nothing yet;
the frames outside changed without declaring, reading or reporting anything. -/
def Pushed (known : String → Bool) (s s' : State) : Prop :=
  ∃ f rest, s'.frames = f :: rest ∧ Grows [] (fun _ => []) s.frames rest ∧ f.unread = [] ∧
    f.declares = known ∧ s'.warnings.toList = s.warnings.toList

/-- Leaving the innermost frame of `s` gives `s'`, with a warning for each name that frame
reports, in order of line and column. -/
def Popped (s s' : State) : Prop :=
  ∀ f rest, s.frames = f :: rest → s'.frames = rest ∧
    s'.warnings.toList = s.warnings.toList ++ (f.unread.mergeSort Token.precedes).map UnusedLocal.mk

theorem Pushed.advance {known : String → Bool} {s₀ s₁ s₂ : State} (hp : Pushed known s₀ s₁)
    (ha : Advances [] (fun _ => []) [] s₁ s₂) : Pushed known s₀ s₂ := by
  obtain ⟨f, rest, hfr, hg, hu, hd, hw⟩ := hp
  have hg₂ := ha.grows
  rw [hfr] at hg₂
  obtain ⟨f', rest', he, hf', hr'⟩ := hg₂
  refine ⟨f', rest', he, hg.trans hr', ?_, ?_, ?_⟩
  · rw [hf'.unread, hu]
    simp [firstDeclared]
  · funext x
    rw [hf'.declares, hd]
    simp
  · rw [ha.warnings, List.map_nil, List.append_nil, hw]

/-- A frame pushed, grown and left: the frames outside advance by the reads that reached past
it, and the warnings are those of the code inside followed by the frame's own. -/
theorem Advances.within {known : String → Bool} {A : List Token} {R : Nat → List String}
    {O : List Token} {s₀ s₁ s₂ s₃ : State} (hp : Pushed known s₀ s₁) (ha : Advances A R O s₁ s₂)
    (hq : Popped s₂ s₃) :
    Advances [] (fun i => R (i + 1))
      (O ++ (((firstDeclared known A).filter Token.reportable).filter
        fun t => t.lexeme ∉ R 0).mergeSort Token.precedes) s₀ s₃ := by
  obtain ⟨f, rest, hfr, hg, hu, hd, hw⟩ := hp
  have hg₂ := ha.grows
  rw [hfr] at hg₂
  obtain ⟨f', rest', he, hf', hr'⟩ := hg₂
  obtain ⟨hfr₃, hw₃⟩ := hq f' rest' he
  refine ⟨?_, ?_⟩
  · rw [hfr₃]
    exact hg.trans hr'
  · rw [hw₃, ha.warnings, hw, hf'.unread, hu, hd, List.nil_append, List.map_append,
      List.append_assoc]

/-! ## Resolution steps -/

/-- From every state with sound frames, `x` ends in a state with sound frames, and `P` of its
result relates the two states. -/
def Tracks (x : ResolveM α) (P : α → State → State → Prop) : Prop :=
  ∀ s, s.Sound → (x.run s).2.Sound ∧ P (x.run s).1 s (x.run s).2

theorem Tracks.pure {P : α → State → State → Prop} {a : α} (h : ∀ s, P a s s) :
    Tracks (Pure.pure a) P :=
  fun s hs => ⟨hs, h s⟩

theorem Tracks.bind {x : ResolveM α} {f : α → ResolveM β} {Q : α → State → State → Prop}
    {P : β → State → State → Prop} (hx : Tracks x Q)
    (hf : ∀ a, Tracks (f a) fun b s₁ s₂ => ∀ s₀, Q a s₀ s₁ → P b s₀ s₂) :
    Tracks (x >>= f) P := by
  intro s hs
  obtain ⟨h₁, hq⟩ := hx s hs
  obtain ⟨h₂, hp⟩ := hf (x.run s).1 (x.run s).2 h₁
  rw [run_bind]
  exact ⟨h₂, hp s hq⟩

theorem Tracks.get_bind {f : State → ResolveM α} {P : α → State → State → Prop}
    (h : ∀ t, Tracks (f t) P) : Tracks (get >>= f) P := by
  intro s hs
  rw [run_get_bind]
  exact h s s hs

theorem Tracks.ite {c : Prop} [Decidable c] {x y : ResolveM α} {P : α → State → State → Prop}
    (hx : Tracks x P) (hy : Tracks y P) : Tracks (if c then x else y) P := by
  split
  · exact hx
  · exact hy

theorem Tracks.weaken {x : ResolveM α} {P Q : α → State → State → Prop} (hx : Tracks x P)
    (h : ∀ a s s', s.Sound → P a s s' → Q a s s') : Tracks x Q :=
  fun s hs => ⟨(hx s hs).1, h _ _ _ hs (hx s hs).2⟩

/-- A step that advances by nothing, followed by `x`, advances as `x` does. -/
theorem Tracks.after {q : ResolveM β} {x : β → ResolveM α} {A : α → List Token}
    {R : α → Nat → List String} {O : α → List Token}
    (hq : Tracks q fun _ => Advances [] (fun _ => []) [])
    (hx : ∀ b, Tracks (x b) fun a => Advances (A a) (R a) (O a)) :
    Tracks (q >>= x) fun a => Advances (A a) (R a) (O a) :=
  hq.bind fun b => (hx b).weaken fun _ _ _ _ h₂ _ h₁ => h₁.trans h₂

/-- A step that keeps the frames and the warnings advances by nothing. -/
theorem tracks_modify {g : State → State} (hf : ∀ s, (g s).frames = s.frames)
    (hw : ∀ s, (g s).warnings = s.warnings) :
    Tracks (modify g) fun _ => Advances [] (fun _ => []) [] := by
  intro s hs
  rw [run_modify]
  exact ⟨fun f hm => hs f (hf s ▸ hm), .of_eq (hf s) (hw s)⟩

theorem tracks_report (f : StaticFault) :
    Tracks (report f) fun _ => Advances [] (fun _ => []) [] :=
  tracks_modify (fun _ => rfl) fun _ => rfl

theorem tracks_setClassContext (c : ClassContext) :
    Tracks (setClassContext c) fun _ => Advances [] (fun _ => []) [] :=
  tracks_modify (fun _ => rfl) fun _ => rfl

/-- Entering or leaving a loop advances by nothing. -/
theorem tracks_setLoopDepth (k : Nat → Nat) :
    Tracks (modify fun s => { s with loopDepth := k s.loopDepth } : ResolveM Unit)
      fun _ => Advances [] (fun _ => []) [] :=
  tracks_modify (fun _ => rfl) fun _ => rfl

/-- A step that may report a fault advances by nothing. -/
theorem tracks_reportIf {c : Prop} [Decidable c] (f : StaticFault) :
    Tracks (if c then report f else Pure.pure ()) fun _ => Advances [] (fun _ => []) [] :=
  Tracks.ite (tracks_report f) (Tracks.pure fun _ => .of_eq rfl rfl)

/-! ## Declaring, defining and reading -/

/-- A step that keeps the warnings. -/
theorem Advances.keep {a : List Token} {r : Nat → List String} {s s' : State}
    (hg : Grows a r s.frames s'.frames) (hw : s'.warnings = s.warnings) : Advances a r [] s s' :=
  ⟨hg, by simp [hw]⟩

/-- Declaring a bindable name that reports when unread. -/
theorem tracks_declare (name : Token) (hb : Bindable name.lexeme) :
    Tracks (declare name true) fun _ => Advances [name] (fun _ => []) [] := by
  intro s hs
  unfold declare
  rw [run_get_bind]
  split
  · -- at the top level the name is a global, and no frame changes
    rename_i hfr
    have hg : Grows [name] (fun _ => []) s.frames s.frames := by
      rw [hfr]
      rfl
    split
    · exact ⟨hs, .keep hg rfl⟩
    · exact ⟨hs, .keep hg rfl⟩
  · rename_i f rest hfr
    have hf : f.Sound := hs f (by simp [hfr])
    split
    · rename_i h
      refine ⟨hs, .keep ?_ rfl⟩
      show Grows [name] _ s.frames s.frames
      rw [hfr]
      exact ⟨f, rest, rfl, Frame.grown_redeclare h, Grows.refl rest⟩
    · rename_i h
      have h' : f.declares name.lexeme = false := by
        simpa only [Frame.declares, Bool.not_eq_true] using h
      dsimp only
      rw [run_set]
      refine ⟨?_, .keep ?_ rfl⟩
      · intro g hg
        rcases List.mem_cons.1 hg with rfl | hg
        · exact hf.declare h' fun _ => hb
        · exact hs g (by simp [hfr, hg])
      · show Grows [name] _ s.frames _
        rw [hfr]
        exact ⟨_, rest, rfl, Frame.grown_declare h', Grows.refl rest⟩

/-- Declaring a parameter in the frame just pushed: it is declared there, and never
reported. -/
theorem tracks_declareParam (p : Token) :
    Tracks (declare p false) fun _ s s' => ∀ known s₀, Pushed known s₀ s →
      Pushed (fun x => known x || p.lexeme == x) s₀ s' := by
  intro s hs
  unfold declare
  rw [run_get_bind]
  split
  · rename_i hfr
    -- a pushed frame is never missing
    refine ⟨by split <;> exact hs, fun known s₀ ⟨f, rest, he, _⟩ => ?_⟩
    rw [hfr] at he
    cases he
  · rename_i f rest hfr
    have hf : f.Sound := hs f (by simp [hfr])
    split
    · rename_i h
      rw [run_report]
      refine ⟨hs, fun known s₀ hp => ?_⟩
      obtain ⟨f₀, rest₀, he, hg, hu, hd, hw⟩ := hp
      rw [hfr, List.cons.injEq] at he
      obtain ⟨rfl, rfl⟩ := he
      refine ⟨f, rest, hfr, hg, hu, ?_, hw⟩
      -- the parameter was declared already, so the names declared stay the same
      funext x
      rw [← hd]
      by_cases hx : p.lexeme = x
      · subst hx
        simp [Frame.declares, h]
      · simp [beq_false_of_ne hx]
    · rename_i h
      have h' : f.declares p.lexeme = false := by
        simpa only [Frame.declares, Bool.not_eq_true] using h
      dsimp only
      rw [run_set]
      refine ⟨?_, fun known s₀ hp => ?_⟩
      · intro g hg
        rcases List.mem_cons.1 hg with rfl | hg
        · exact hf.declare h' fun h => by cases h
        · exact hs g (by simp [hfr, hg])
      · obtain ⟨f₀, rest₀, he, hg, hu, hd, hw⟩ := hp
        rw [hfr, List.cons.injEq] at he
        obtain ⟨rfl, rfl⟩ := he
        refine ⟨_, rest, rfl, hg, ?_, ?_, hw⟩
        · have hu' : f.names.filterMap unreadEntry = [] := hu
          simp [Frame.unread, List.filterMap_append, hu', unreadEntry]
        · funext x
          rw [declares_append, ← hd, BEq.comm]

/-- Giving a declared name its value changes nothing that is declared or reported. -/
theorem Frame.grown_setEntry_same {f : Frame} {x : String} {l v : Local}
    (hl : f.names.lookup x = some l) (hv : unreadEntry (x, v) = unreadEntry (x, l)) :
    f.Grown [] [] { f with names := setEntry x v f.names } where
  declares y := by
    simp only [Frame.declares, Scopes.lookup_setEntry, List.any_nil, Bool.or_false]
    split
    · rename_i hy
      rw [hy, hl]
      rfl
    · rfl
  unread := by
    simp only [Frame.unread, firstDeclared, List.filter_nil, List.append_nil, List.not_mem_nil,
      not_false_eq_true, decide_true, List.filter_true]
    exact unread_setEntry_same hv hl
  read y hy := by simp at hy

theorem tracks_define (name : Token) :
    Tracks (define name) fun _ => Advances [] (fun _ => []) [] := by
  intro s hs
  unfold define
  rw [run_modify]
  split
  · exact ⟨hs, .of_eq rfl rfl⟩
  · rename_i f rest hfr
    split
    · rename_i l hl
      split
      · have hf : f.Sound := hs f (by simp [hfr])
        refine ⟨?_, .keep ?_ rfl⟩
        · intro g hg
          rcases List.mem_cons.1 hg with rfl | hg
          · refine hf.setEntry hl ?_ ?_ f.isFunction <;> rfl
          · exact hs g (by simp [hfr, hg])
        · show Grows [] _ s.frames _
          rw [hfr]
          refine ⟨_, rest, rfl, Frame.grown_setEntry_same hl ?_, Grows.refl rest⟩
          simp [unreadEntry, *]
      · exact ⟨hs, .of_eq rfl rfl⟩
    · exact ⟨hs, .of_eq rfl rfl⟩

/-- Reading names that are not bindable marks nothing that is reported. -/
theorem Frame.Grown.forget {f f' : Frame} {r : List String} (h : f.Grown [] r f') (hf : f.Sound)
    (hr : ∀ x ∈ r, ¬ Bindable x) : f.Grown [] [] f' where
  declares := h.declares
  unread := by
    rw [h.unread]
    simp only [firstDeclared, List.filter_nil, List.append_nil, List.not_mem_nil,
      not_false_eq_true, decide_true, List.filter_true]
    rw [List.filter_eq_self]
    intro t ht
    simp only [decide_eq_true_eq]
    intro hm
    exact hr _ hm (hf.unread_bindable ht)
  read x hx := by simp at hx

theorem Grows.forget : ∀ {fs fs' : List Frame} {reads : Nat → List String},
    (∀ f ∈ fs, f.Sound) → (∀ i, ∀ x ∈ reads i, ¬ Bindable x) → Grows [] reads fs fs' →
      Grows [] (fun _ => []) fs fs'
  | [], _, _, _, _, h => h
  | f :: _, _, _, hs, hr, ⟨f', rest, he, hf, hrest⟩ =>
    ⟨f', rest, he, hf.forget (hs f List.mem_cons_self) (hr 0),
      Grows.forget (fun g hg => hs g (List.mem_cons_of_mem f hg)) (fun i => hr (i + 1)) hrest⟩

theorem run_reportThen {c : Prop} [Decidable c] (f : StaticFault) (a : α) (s : State) :
    (if c then report f >>= fun _ => Pure.pure a else Pure.pure a : ResolveM α).run s =
      (a, { s with faults := if c then s.faults.push f else s.faults }) := by
  split <;> rfl

/-- Looking a name up marks it read, if it is read, in the frame that declares it, which the
reference found counts scopes out to. -/
theorem tracks_resolveLocal (r : Reference) (read : Bool) :
    Tracks (resolveLocal r read) fun r' s s' => r'.name = r.name ∧
      Advances [] (fun i => if read then r'.readAt i else []) [] s s' := by
  intro s hs
  unfold resolveLocal
  rw [run_get_bind]
  dsimp only
  split
  · rename_i hops frames hl
    obtain ⟨k, f, l, rfl, hk, hfl, rfl⟩ := lookupFrames_found_eq hl
    have hf : f.Sound := hs f (List.mem_of_getElem? hk)
    rw [run_bind, run_set, run_pure]
    refine ⟨?_, rfl, .keep ?_ rfl⟩
    · intro g hg
      rcases List.mem_or_eq_of_mem_set hg with hg | rfl
      · exact hs g hg
      · cases read
        · exact hf
        · rw [if_pos rfl]
          refine hf.setEntry hfl ?_ ?_ f.isFunction <;> rfl
    · cases read
      · obtain ⟨hlt, rfl⟩ := List.getElem_of_getElem? hk
        simp only [Bool.false_eq_true, if_false, List.set_getElem_self hlt]
        exact Grows.refl s.frames
      · refine (grows_set (Frame.grown_mark hf hfl) hk).congr fun i => ?_
        simp [Reference.readAt, eq_comm]
  · -- a name not found locally is not marked anywhere
    have hg : Grows [] (fun i => if read then Reference.readAt i { r with hops := none } else [])
        s.frames s.frames :=
      (Grows.refl s.frames).congr fun i => by simp [Reference.readAt]
    rw [run_reportThen]
    exact ⟨hs, rfl, .keep hg rfl⟩

/-- Looking up `this` or `super` marks nothing that is reported. -/
theorem tracks_resolveKeyword (r : Reference) (hr : ¬ Bindable r.name.lexeme) :
    Tracks (resolveLocal r true) fun _ => Advances [] (fun _ => []) [] :=
  (tracks_resolveLocal r true).weaken fun r' _ _ hs ⟨hn, ha⟩ => by
    refine ⟨ha.grows.forget hs fun i x hx => ?_, ha.warnings⟩
    simp only [if_true, Reference.readAt] at hx
    split at hx
    · rw [List.mem_singleton] at hx
      rw [hx, hn]
      exact hr
    · simp at hx

/-! ## Frames entered and left -/

theorem tracks_beginScope (b : Bool) :
    Tracks (beginScope b) fun _ => Pushed (fun _ => false) := by
  intro s hs
  refine ⟨?_, ⟨⟨[], b⟩, s.frames, rfl, Grows.refl s.frames, rfl, rfl, rfl⟩⟩
  intro f hf
  rcases List.mem_cons.1 hf with rfl | hf
  · exact ⟨List.nodup_nil, fun _ _ h => by cases h⟩
  · exact hs f hf

theorem tracks_endScope : Tracks endScope fun _ => Popped := by
  intro s hs
  unfold endScope
  rw [run_modify]
  split
  · rename_i hfr
    refine ⟨hs, fun f rest h => ?_⟩
    rw [hfr] at h
    cases h
  · rename_i f rest hfr
    refine ⟨fun g hg => hs g (by simp [hfr, hg]), fun f' rest' h => ?_⟩
    rw [hfr, List.cons.injEq] at h
    obtain ⟨rfl, rfl⟩ := h
    refine ⟨rfl, ?_⟩
    rw [Array.toList_append]
    rfl

theorem Pushed.congr {known known' : String → Bool} {s s' : State} (h : Pushed known s s')
    (he : ∀ x, known x = known' x) : Pushed known' s s' :=
  funext he ▸ h

/-- Entering a frame of a class that binds `this` or `super`, which is never reported. -/
theorem tracks_pushKeyword (kw : String) (t : Token) :
    Tracks (do beginScope false; insertKeyword kw t) fun _ => Pushed (fun x => x == kw) := by
  intro s hs
  refine ⟨?_, ⟨⟨[(kw, ⟨.used, t, false⟩)], false⟩, s.frames, rfl, Grows.refl s.frames, rfl, ?_, rfl⟩⟩
  · intro f hf
    rcases List.mem_cons.1 hf with rfl | hf
    · refine ⟨by simp [setEntry], fun _ _ hm hr => ?_⟩
      simp only [setEntry, List.mem_singleton, Prod.mk.injEq] at hm
      rw [hm.2] at hr
      cases hr
    · exact hs f hf
  · funext x
    cases h : x == kw <;> simp [Frame.declares, List.lookup_cons, h]

/-- Entering the frame of a function: its parameters, declared and defined in order. -/
def enterFunction (params : List Token) : ResolveM Unit := do
  beginScope true
  for p in params do
    declare p false
    define p

/-- Run `x` in a frame entered by `enter`, and leave the frame. -/
def inFrame (enter : ResolveM Unit) (x : ResolveM α) : ResolveM α := do
  enter
  let a ← x
  endScope
  Pure.pure a

theorem resolveFunction_inFrame (params : List Token) (body : List Stmt) (kind : FunctionContext) :
    resolveFunction params body kind =
      withinFunction kind (inFrame (enterFunction params) (resolveStmts body)) := by
  rw [resolveFunction_eq]
  simp only [inFrame, enterFunction, bind_assoc, pure_bind]

/-- Declaring the parameters of a function in the frame just pushed, one after another. -/
theorem tracks_params (params : List Token) :
    Tracks (forIn params PUnit.unit fun p _ => do
      declare p false
      define p
      Pure.pure (ForInStep.yield PUnit.unit) : ResolveM PUnit)
      fun _ s s' => ∀ known s₀, Pushed known s₀ s →
        Pushed (fun x => known x || paramNames params x) s₀ s' := by
  induction params with
  | nil =>
    exact Tracks.pure fun _ known s₀ hp => hp.congr fun x => by simp [paramNames]
  | cons t ts ih =>
    simp only [List.forIn_cons, bind_assoc, pure_bind]
    refine (tracks_declareParam t).bind fun _ => (tracks_define t).bind fun _ =>
      ih.weaken fun _ s₂ s₃ _ h₃ s₁ h₂ s₀ h₁ known s hp => ?_
    refine (h₃ _ s ((h₁ known s hp).advance h₂)).congr fun x => ?_
    simp [paramNames, Bool.or_assoc]

theorem tracks_enterFunction (params : List Token) :
    Tracks (enterFunction params) fun _ => Pushed (paramNames params) := by
  unfold enterFunction
  refine (tracks_beginScope true).bind fun _ => (tracks_params params).weaken
    fun _ s₁ s₂ _ h₂ s₀ h₁ => ?_
  exact (h₂ _ s₀ h₁).congr fun x => by simp

section Advancing

variable {x : ResolveM α} {A : α → List Token} {R : α → Nat → List String} {O : α → List Token}

theorem Tracks.withinFunction (kind : FunctionContext)
    (hx : Tracks x fun a => Advances (A a) (R a) (O a)) :
    Tracks (withinFunction kind x) fun a => Advances (A a) (R a) (O a) := by
  intro s hs
  simp only [Resolution.withinFunction, run_bind, run_get, run_modify, run_pure]
  obtain ⟨h₁, h₂⟩ := hx { s with functionContext := kind, loopDepth := 0 } hs
  exact ⟨h₁, h₂.grows, h₂.warnings⟩

/-- Code run in a frame of its own declares nothing outside it, reaches one frame less far
out, and the frame reports, when left, its first declarations that no read of its own
reached. -/
theorem Tracks.inFrame {enter : ResolveM Unit} {known : String → Bool}
    (henter : Tracks enter fun _ => Pushed known)
    (hx : Tracks x fun a => Advances (A a) (R a) (O a)) :
    Tracks (inFrame enter x) fun a => Advances [] (fun i => R a (i + 1))
      (O a ++ (((firstDeclared known (A a)).filter Token.reportable).filter
        fun t => t.lexeme ∉ R a 0).mergeSort Token.precedes) :=
  henter.bind fun _ => hx.bind fun _ => tracks_endScope.bind fun _ =>
    Tracks.pure fun _ _ h₃ _ h₂ _ h₁ => Advances.within h₁ h₂ h₃

end Advancing

theorem tracks_resolveFunction (params : List Token) (body : List Stmt) (kind : FunctionContext)
    (hb : Tracks (resolveStmts body) fun body' => Advances (body'.flatMap Stmt.declared)
      (fun i => Stmt.readsAtAll i body') (Stmt.unusedLocalsAll body')) :
    Tracks (resolveFunction params body kind) fun body' => Advances []
      (fun i => Stmt.readsAtAll (i + 1) body')
      (Stmt.unusedLocalsAll body' ++ scopeUnread (paramNames params) body') := by
  rw [resolveFunction_inFrame]
  exact .withinFunction kind (.inFrame (tracks_enterFunction params) hb)

/-! ## Statements that open frames -/

/-- The members of a class, resolved in the order they are declared. -/
def resolveClassBody (methods getters statics staticGetters : List FunDecl) :
    ResolveM (List FunDecl × List FunDecl × List FunDecl × List FunDecl) := do
  let methods ← resolveMembers true methods
  let getters ← resolveMembers false getters
  let statics ← resolveMembers false statics
  let staticGetters ← resolveMembers false staticGetters
  Pure.pure (methods, getters, statics, staticGetters)

theorem resolveStmt_block (body : List Stmt) :
    resolveStmt (.block body) =
      inFrame (beginScope false) (resolveStmts body) >>= fun body => Pure.pure (.block body) := by
  rw [resolveStmt]
  simp only [inFrame, bind_assoc, pure_bind]

/-- A class without a superclass resolves its members in a frame of `this`. -/
theorem resolveStmt_classDecl_none (name : Token) (ms gs ss sgs : List FunDecl) :
    resolveStmt (.classDecl name none ms gs ss sgs) = (do
      let enclosing := (← get).classContext
      setClassContext .plain
      declare name true
      define name
      let body ← inFrame (do beginScope false; insertKeyword "this" name)
        (resolveClassBody ms gs ss sgs)
      setClassContext enclosing
      Pure.pure (.classDecl name none body.1 body.2.1 body.2.2.1 body.2.2.2)) := by
  rw [resolveStmt]
  simp only [inFrame, resolveClassBody, bind_assoc, pure_bind, Option.isSome_none,
    Bool.false_eq_true, if_false]

/-- A class with a superclass reads it, then resolves its members in a frame of `this` inside
a frame of `super`. -/
theorem resolveStmt_classDecl_some (name : Token) (r : Reference) (ms gs ss sgs : List FunDecl) :
    resolveStmt (.classDecl name (some r) ms gs ss sgs) = (do
      let enclosing := (← get).classContext
      setClassContext .plain
      declare name true
      define name
      (if r.name.lexeme = name.lexeme then report (.inheritsItself r.name) else Pure.pure () :
        ResolveM Unit)
      setClassContext .subclass
      let r ← resolveLocal r true
      let body ← inFrame (do beginScope false; insertKeyword "super" name)
        (inFrame (do beginScope false; insertKeyword "this" name) (resolveClassBody ms gs ss sgs))
      setClassContext enclosing
      Pure.pure (.classDecl name (some r) body.1 body.2.1 body.2.2.1 body.2.2.2)) := by
  rw [resolveStmt]
  simp only [inFrame, resolveClassBody, bind_assoc, pure_bind, Option.isSome_some, if_true]
  by_cases h : r.name.lexeme = name.lexeme <;> simp only [h, if_true, if_false, pure_bind]

section Classes

variable {ms gs ss sgs : List FunDecl}

theorem tracks_resolveClassBody
    (hm : Tracks (resolveMembers true ms) fun ds =>
      Advances [] (fun i => FunDecl.readsAtAll i ds) (FunDecl.unusedLocalsAll ds))
    (hg : Tracks (resolveMembers false gs) fun ds =>
      Advances [] (fun i => FunDecl.readsAtAll i ds) (FunDecl.unusedLocalsAll ds))
    (hs : Tracks (resolveMembers false ss) fun ds =>
      Advances [] (fun i => FunDecl.readsAtAll i ds) (FunDecl.unusedLocalsAll ds))
    (hsg : Tracks (resolveMembers false sgs) fun ds =>
      Advances [] (fun i => FunDecl.readsAtAll i ds) (FunDecl.unusedLocalsAll ds)) :
    Tracks (resolveClassBody ms gs ss sgs) fun b => Advances []
      (fun i => FunDecl.readsAtAll i b.1 ++ FunDecl.readsAtAll i b.2.1 ++
        FunDecl.readsAtAll i b.2.2.1 ++ FunDecl.readsAtAll i b.2.2.2)
      (FunDecl.unusedLocalsAll b.1 ++ FunDecl.unusedLocalsAll b.2.1 ++
        FunDecl.unusedLocalsAll b.2.2.1 ++ FunDecl.unusedLocalsAll b.2.2.2) :=
  hm.bind fun _ => hg.bind fun _ => hs.bind fun _ => hsg.bind fun _ =>
    Tracks.pure fun _ _ h₄ _ h₃ _ h₂ _ h₁ => (h₁.trans h₂).trans h₃ |>.trans h₄

/-- A class declares its name where it stands; the frames of `this` and `super` around its
members declare nothing that is reported, so they only shift the members' reads outwards. -/
theorem tracks_classDecl {name : Token} (sup : Option Reference) (hn : Bindable name.lexeme)
    (hbody : Tracks (resolveClassBody ms gs ss sgs) fun b => Advances []
      (fun i => FunDecl.readsAtAll i b.1 ++ FunDecl.readsAtAll i b.2.1 ++
        FunDecl.readsAtAll i b.2.2.1 ++ FunDecl.readsAtAll i b.2.2.2)
      (FunDecl.unusedLocalsAll b.1 ++ FunDecl.unusedLocalsAll b.2.1 ++
        FunDecl.unusedLocalsAll b.2.2.1 ++ FunDecl.unusedLocalsAll b.2.2.2)) :
    Tracks (resolveStmt (.classDecl name sup ms gs ss sgs))
      fun st => Advances st.declared (fun i => st.readsAt i) st.unusedLocals := by
  cases sup with
  | none =>
    rw [resolveStmt_classDecl_none]
    refine Tracks.get_bind fun _ => ?_
    refine (tracks_setClassContext _).bind fun _ => (tracks_declare name hn).bind fun _ =>
      (tracks_define name).bind fun _ =>
        (Tracks.inFrame (tracks_pushKeyword "this" name) hbody).bind fun _ =>
          (tracks_setClassContext _).bind fun _ => Tracks.pure fun _ _ h₅ _ h₄ _ h₃ _ h₂ _ h₁ => ?_
    refine ((((h₁.trans h₂).trans h₃).trans h₄).trans h₅).congr rfl (fun i => ?_) ?_
    · simp [Stmt.readsAt]
    · simp [Stmt.unusedLocals, firstDeclared]
  | some r =>
    rw [resolveStmt_classDecl_some]
    refine Tracks.get_bind fun _ => ?_
    refine (tracks_setClassContext _).bind fun _ => (tracks_declare name hn).bind fun _ =>
      (tracks_define name).bind fun _ => (tracks_reportIf _).bind fun _ =>
        (tracks_setClassContext _).bind fun _ => (tracks_resolveLocal r true).bind fun _ =>
          (Tracks.inFrame (tracks_pushKeyword "super" name)
            (Tracks.inFrame (tracks_pushKeyword "this" name) hbody)).bind fun _ =>
            (tracks_setClassContext _).bind fun _ =>
              Tracks.pure fun _ _ h₈ _ h₇ _ h₆ _ h₅ _ h₄ _ h₃ _ h₂ _ h₁ => ?_
    refine (((((((h₁.trans h₂).trans h₃).trans h₄).trans h₅).trans h₆.2).trans h₇).trans
      h₈).congr rfl (fun i => ?_) ?_
    · simp [Stmt.readsAt]
    · simp [Stmt.unusedLocals, firstDeclared]

end Classes

/-! ## Resolution, node by node -/

mutual

theorem tracks_resolveExpr : ∀ (e : Expr) {a : Option Anchor}, Expr.Anchored .parsed a e →
    Tracks (resolveExpr e) fun e' => Advances [] (fun i => e'.readsAt i) e'.unusedLocals
  | .assign r v, _, he => by
    cases he with
    | assign _ hv =>
      rw [resolveExpr]
      refine (tracks_resolveExpr v hv).bind fun _ => (tracks_resolveLocal r false).bind fun _ =>
        Tracks.pure fun _ _ h₂ _ h₁ => ?_
      -- an assignment does not count as a read
      exact (h₁.trans h₂.2).congr rfl (fun i => by simp [Expr.readsAt])
        (by simp [Expr.unusedLocals])
  | .binary l op t r, _, he => by
    cases he with
    | binary hl hr =>
      rw [resolveExpr]
      exact (tracks_resolveExpr l hl).bind fun _ => (tracks_resolveExpr r hr).bind fun _ =>
        Tracks.pure fun _ _ h₂ _ h₁ => h₁.trans h₂
  | .call callee paren args, _, he => by
    cases he with
    | call hc ha =>
      rw [resolveExpr]
      exact (tracks_resolveExpr callee hc).bind fun _ => (tracks_resolveExprs args ha).bind
        fun _ => Tracks.pure fun _ _ h₂ _ h₁ => h₁.trans h₂
  | .get obj name, _, he => by
    cases he with
    | get ho =>
      rw [resolveExpr]
      exact (tracks_resolveExpr obj ho).bind fun _ => Tracks.pure fun _ _ h => h
  | .lambda keyword params body, _, he => by
    cases he with
    | lambda _ hb =>
      rw [resolveExpr]
      exact (tracks_resolveFunction params body .function (tracks_resolveStmts body hb)).bind
        fun _ => Tracks.pure fun _ _ h => h
  | .grouping e, _, he => by
    cases he with
    | grouping he =>
      rw [resolveExpr]
      exact (tracks_resolveExpr e he).bind fun _ => Tracks.pure fun _ _ h => h
  | .literal l, _, _ => by
    rw [resolveExpr]
    exact Tracks.pure fun _ => .of_eq rfl rfl
  | .logical l op t r, _, he => by
    cases he with
    | logical hl hr =>
      rw [resolveExpr]
      exact (tracks_resolveExpr l hl).bind fun _ => (tracks_resolveExpr r hr).bind fun _ =>
        Tracks.pure fun _ _ h₂ _ h₁ => h₁.trans h₂
  | .set obj name v, _, he => by
    cases he with
    | set ho hv =>
      rw [resolveExpr]
      exact (tracks_resolveExpr v hv).bind fun _ => (tracks_resolveExpr obj ho).bind fun _ =>
        Tracks.pure fun _ _ h₂ _ h₁ => h₁.trans h₂
  | .superMember keyword member, _, he => by
    cases he with
    | superMember hk =>
      rw [resolveExpr]
      refine Tracks.get_bind fun _ => ?_
      split
      · exact (tracks_report _).after fun _ => Tracks.pure fun _ => .of_eq rfl rfl
      · exact (tracks_report _).after fun _ => Tracks.pure fun _ => .of_eq rfl rfl
      · exact (tracks_resolveKeyword keyword fun hb => hb.2 hk).bind fun _ =>
          Tracks.pure fun _ _ h => h
  | .conditional c q x y, _, he => by
    cases he with
    | conditional hc hx hy =>
      rw [resolveExpr]
      exact (tracks_resolveExpr c hc).bind fun _ => (tracks_resolveExpr x hx).bind fun _ =>
        (tracks_resolveExpr y hy).bind fun _ =>
          Tracks.pure fun _ _ h₃ _ h₂ _ h₁ => (h₁.trans h₂).trans h₃
  | .this keyword, _, he => by
    cases he with
    | this hk =>
      rw [resolveExpr]
      refine Tracks.get_bind fun _ => ?_
      split
      · exact (tracks_report _).after fun _ => Tracks.pure fun _ => .of_eq rfl rfl
      · exact (tracks_resolveKeyword keyword fun hb => hb.1 hk).bind fun _ =>
          Tracks.pure fun _ _ h => h
  | .unary op t e, _, he => by
    cases he with
    | unary he =>
      rw [resolveExpr]
      exact (tracks_resolveExpr e he).bind fun _ => Tracks.pure fun _ _ h => h
  | .variable r, _, _ => by
    rw [resolveExpr]
    exact (tracks_resolveLocal r true).bind fun _ => Tracks.pure fun _ _ h => h.2

theorem tracks_resolveExprs : ∀ (es : List Expr) {a : Option Anchor},
    (∀ e ∈ es, Expr.Anchored .parsed a e) →
    Tracks (resolveExprs es) fun es' =>
      Advances [] (fun i => Expr.readsAtAll i es') (Expr.unusedLocalsAll es')
  | [], _, _ => by
    rw [resolveExprs]
    exact Tracks.pure fun _ => .of_eq rfl rfl
  | e :: es, _, hes => by
    rw [resolveExprs]
    exact (tracks_resolveExpr e (hes e List.mem_cons_self)).bind fun _ =>
      (tracks_resolveExprs es fun x hx => hes x (List.mem_cons_of_mem _ hx)).bind fun _ =>
        Tracks.pure fun _ _ h₂ _ h₁ => h₁.trans h₂

theorem tracks_resolveMembers (instanceMethods : Bool) : ∀ (ds : List FunDecl) {a : Option Anchor},
    (∀ f ∈ ds, ∀ s ∈ f.body, Stmt.Anchored .parsed a s) →
    Tracks (resolveMembers instanceMethods ds) fun ds' =>
      Advances [] (fun i => FunDecl.readsAtAll i ds') (FunDecl.unusedLocalsAll ds')
  | [], _, _ => by
    rw [resolveMembers]
    exact Tracks.pure fun _ => .of_eq rfl rfl
  | .mk name params body :: rest, _, hb => by
    rw [resolveMembers]
    exact (tracks_resolveFunction params body _
      (tracks_resolveStmts body (hb _ List.mem_cons_self))).bind fun _ =>
      (tracks_resolveMembers instanceMethods rest
        fun f hf => hb f (List.mem_cons_of_mem _ hf)).bind fun _ =>
        Tracks.pure fun _ _ h₂ _ h₁ => h₁.trans h₂

theorem tracks_resolveStmt : ∀ (s : Stmt) {a : Option Anchor}, Stmt.Anchored .parsed a s →
    Tracks (resolveStmt s) fun s' => Advances s'.declared (fun i => s'.readsAt i) s'.unusedLocals
  | .block body, _, hs => by
    cases hs with
    | block hb =>
      rw [resolveStmt_block]
      exact (Tracks.inFrame (tracks_beginScope false) (tracks_resolveStmts body hb)).bind
        fun _ => Tracks.pure fun _ _ h => h
  | .breakLoop keyword, _, _ => by
    rw [resolveStmt]
    refine Tracks.get_bind fun _ => ?_
    split
    · exact (tracks_report _).after fun _ => Tracks.pure fun _ => .of_eq rfl rfl
    · exact Tracks.pure fun _ => .of_eq rfl rfl
  | .classDecl name sup methods getters statics staticGetters, _, hs => by
    cases hs with
    | classDecl hn _ hb =>
      exact tracks_classDecl sup hn (tracks_resolveClassBody
        (tracks_resolveMembers true methods fun f hf => hb f (by simp [hf]))
        (tracks_resolveMembers false getters fun f hf => hb f (by simp [hf]))
        (tracks_resolveMembers false statics fun f hf => hb f (by simp [hf]))
        (tracks_resolveMembers false staticGetters fun f hf => hb f (by simp [hf])))
  | .expression e, _, hs => by
    cases hs with
    | expression he =>
      rw [resolveStmt]
      exact (tracks_resolveExpr e he).bind fun _ => Tracks.pure fun _ _ h => h
  | .function (.mk name params body), _, hs => by
    cases hs with
    | function hn _ hb =>
      rw [resolveStmt]
      exact (tracks_declare name hn).bind fun _ => (tracks_define name).bind fun _ =>
        (tracks_resolveFunction params body .function (tracks_resolveStmts body hb)).bind fun _ =>
          Tracks.pure fun _ _ h₃ _ h₂ _ h₁ => (h₁.trans h₂).trans h₃
  | .ifElse c t none, _, hs => by
    cases hs with
    | ifElse hc ht _ =>
      rw [resolveStmt, resolveOptStmt]
      simp only [pure_bind]
      exact (tracks_resolveExpr c hc).bind fun _ => (tracks_resolveStmt t ht).bind fun _ =>
        Tracks.pure fun _ _ h₂ _ h₁ => h₁.trans h₂
  | .ifElse c t (some e), _, hs => by
    cases hs with
    | ifElse hc ht he =>
      rw [resolveStmt, resolveOptStmt]
      simp only [bind_assoc, pure_bind]
      exact (tracks_resolveExpr c hc).bind fun _ => (tracks_resolveStmt t ht).bind fun _ =>
        (tracks_resolveStmt e (he e rfl)).bind fun _ =>
          Tracks.pure fun _ _ h₃ _ h₂ _ h₁ => (h₁.trans h₂).trans h₃
  | .print e, _, hs => by
    cases hs with
    | print he =>
      rw [resolveStmt]
      exact (tracks_resolveExpr e he).bind fun _ => Tracks.pure fun _ _ h => h
  | .returnFrom keyword none, _, _ => by
    rw [resolveStmt]
    refine Tracks.get_bind fun _ => ?_
    extract_lets context tail
    have htail : ∀ u, Tracks (tail u) fun s' =>
        Advances s'.declared (fun i => s'.readsAt i) s'.unusedLocals := fun u => by
      simp only [tail]
      exact Tracks.pure fun _ => .of_eq rfl rfl
    clear_value tail
    split
    · exact (tracks_report _).after htail
    · exact htail ()
  | .returnFrom keyword (some e), _, hs => by
    cases hs with
    | returnFrom he =>
      rw [resolveStmt]
      refine Tracks.get_bind fun _ => ?_
      extract_lets context tail
      have hvalue : Tracks (resolveExpr e >>= fun e' => Pure.pure (Stmt.returnFrom keyword (some e')))
          fun s' => Advances s'.declared (fun i => s'.readsAt i) s'.unusedLocals :=
        (tracks_resolveExpr e (he e rfl)).bind fun _ => Tracks.pure fun _ _ h => h
      have htail : ∀ u, Tracks (tail u) fun s' =>
          Advances s'.declared (fun i => s'.readsAt i) s'.unusedLocals := fun u => by
        simp only [tail]
        exact Tracks.ite ((tracks_report _).after fun _ => hvalue) hvalue
      clear_value tail
      split
      · exact (tracks_report _).after htail
      · exact htail ()
  | .varDecl name none, _, hs => by
    cases hs with
    | varDecl hn _ =>
      rw [resolveStmt, resolveOptExpr]
      simp only [pure_bind]
      exact (tracks_declare name hn).bind fun _ => (tracks_define name).bind fun _ =>
        Tracks.pure fun _ _ h₂ _ h₁ => h₁.trans h₂
  | .varDecl name (some e), _, hs => by
    cases hs with
    | varDecl hn hi =>
      rw [resolveStmt, resolveOptExpr]
      simp only [bind_assoc, pure_bind]
      refine (tracks_declare name hn).bind fun _ => (tracks_resolveExpr e (hi e rfl)).bind fun _ =>
        (tracks_define name).bind fun _ => Tracks.pure fun _ _ h₃ _ h₂ _ h₁ => ?_
      exact ((h₁.trans h₂).trans h₃).congr rfl (fun i => by simp [Stmt.readsAt])
        (by simp [Stmt.unusedLocals])
  | .whileLoop c body, _, hs => by
    cases hs with
    | whileLoop hc hb =>
      rw [resolveStmt]
      refine (tracks_resolveExpr c hc).bind fun _ => (tracks_setLoopDepth (· + 1)).bind fun _ =>
          (tracks_resolveStmt body hb).bind fun _ => (tracks_setLoopDepth (· - 1)).bind fun _ =>
              Tracks.pure fun _ _ h₄ _ h₃ _ h₂ _ h₁ => ?_
      exact (((h₁.trans h₂).trans h₃).trans h₄).congr (by simp [Stmt.declared])
        (fun i => by simp [Stmt.readsAt]) (by simp [Stmt.unusedLocals])

theorem tracks_resolveStmts : ∀ (ss : List Stmt) {a : Option Anchor},
    (∀ s ∈ ss, Stmt.Anchored .parsed a s) →
    Tracks (resolveStmts ss) fun ss' => Advances (ss'.flatMap Stmt.declared)
      (fun i => Stmt.readsAtAll i ss') (Stmt.unusedLocalsAll ss')
  | [], _, _ => by
    rw [resolveStmts]
    exact Tracks.pure fun _ => .of_eq rfl rfl
  | s :: ss, _, hss => by
    rw [resolveStmts]
    exact (tracks_resolveStmt s (hss s List.mem_cons_self)).bind fun _ =>
      (tracks_resolveStmts ss fun x hx => hss x (List.mem_cons_of_mem _ hx)).bind fun _ =>
        Tracks.pure fun _ _ h₂ _ h₁ => (h₁.trans h₂).congr (by simp) (fun _ => rfl) rfl

end

end Resolution

open Resolution

/-! ## Programs -/

/-- Resolving a program whose names are spelled as parsing spells them warns about exactly the
declarations that `Stmt.unusedLocalsAll` lists of the resolved program, in that order. -/
theorem resolveProgram_warnings {globals : List String} {program : List Stmt}
    {a : Option Anchor} (hp : ∀ s ∈ program, Stmt.Anchored .parsed a s) :
    (resolveProgram globals program).warnings =
      (Stmt.unusedLocalsAll (resolveProgram globals program).tree).map UnusedLocal.mk := by
  -- the top level has no frame, so resolution starts and ends with none
  obtain ⟨_, h⟩ := tracks_resolveStmts program hp (State.initial globals) fun f hf => by cases hf
  unfold resolveProgram
  revert h
  generalize (resolveStmts program).run (State.initial globals) = r
  obtain ⟨tree, st⟩ := r
  intro h
  exact h.warnings

example : Stmt.unusedLocalsAll (resolveProgram []
    [.block [.varDecl ⟨.identifier, "a", none, 1, 7⟩ none,
      .varDecl ⟨.identifier, "_b", none, 1, 14⟩ none, .varDecl ⟨.identifier, "c", none, 1, 22⟩ none,
      .print (.variable ⟨⟨.identifier, "c", none, 1, 31⟩, none⟩)]]).tree =
    [⟨.identifier, "a", none, 1, 7⟩] := by
  cbv

/-- Every program read from a source text is warned about exactly the declarations that
`Stmt.unusedLocalsAll` lists, each at its declaring token, saying that it is never used. -/
theorem analyze_warns_unread_locals {globals : List String} {source : String}
    {r : Resolved (List Stmt)} (h : analyze globals source = .parsed r) :
    r.warnings.map UnusedLocal.toDiagnostic = (Stmt.unusedLocalsAll r.tree).map fun t =>
      .language (.ofToken t) ("Local variable '" ++ t.lexeme ++ "' is never used.")
        "Remove the declaration, or prefix it with an underscore if it is intentionally unused." := by
  obtain ⟨stmts, hread, rfl⟩ := analyze_read h
  rw [resolveProgram_warnings (readProgram_anchored hread none), List.map_map]
  rfl

/-- Of three locals of a block, the one read and the one named with `_` are not reported. -/
theorem analyze_warns_unread_in_block :
    analyze [] "{ var a; var _b; var c; print c; }" = .parsed (resolveProgram []
      [.block [.varDecl ⟨.identifier, "a", none, 1, 7⟩ none,
        .varDecl ⟨.identifier, "_b", none, 1, 14⟩ none, .varDecl ⟨.identifier, "c", none, 1, 22⟩ none,
        .print (.variable ⟨⟨.identifier, "c", none, 1, 31⟩, none⟩)]]) ∧
    (resolveProgram []
      [.block [.varDecl ⟨.identifier, "a", none, 1, 7⟩ none,
        .varDecl ⟨.identifier, "_b", none, 1, 14⟩ none, .varDecl ⟨.identifier, "c", none, 1, 22⟩ none,
        .print (.variable ⟨⟨.identifier, "c", none, 1, 31⟩, none⟩)]]).warnings.map
      UnusedLocal.toDiagnostic =
      [.language (.ofToken ⟨.identifier, "a", none, 1, 7⟩) "Local variable 'a' is never used."
        "Remove the declaration, or prefix it with an underscore if it is intentionally unused."] := by
  have h : analyze [] "{ var a; var _b; var c; print c; }" = .parsed (resolveProgram []
      [.block [.varDecl ⟨.identifier, "a", none, 1, 7⟩ none,
        .varDecl ⟨.identifier, "_b", none, 1, 14⟩ none, .varDecl ⟨.identifier, "c", none, 1, 22⟩ none,
        .print (.variable ⟨⟨.identifier, "c", none, 1, 31⟩, none⟩)]]) := by
    cbv
  refine ⟨h, ?_⟩
  rw [analyze_warns_unread_locals h]
  cbv

end Lox
