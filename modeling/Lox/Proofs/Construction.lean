import Mathlib
import Lox.Proofs.ArityFaults
import Lox.Proofs.Members
/-!
# Calling a class

A class is called with as many arguments as its initializer takes: the initializer is the
first method named `init` along its chain of classes, and a class with none takes no argument.
A call with another number of arguments fails at once, and only such a call fails that way. A
call with the right number, unless a thousand calls are active, makes one new instance, with no
fields, and runs the initializer bound to it as part of the same call: the initializer adds no
call of its own. The call gives the instance, whatever the initializer returns, unless the
initializer is interrupted.

Class declarations make their methods named `init` initializers, and an initializer called any
other way (read from an instance or through `super`, called at once or kept and called later)
gives back its receiver.

## Main statements

* `ClassDef.arity_of_firstDeclares`, `ClassDef.arity_of_noneDeclares`: the arity of a class.
* `Eval.constructs_invoke`: what a call of a class that passes its checks does.
* `class_call_constructs`: calls of classes and of initializers.
-/

namespace Lox

namespace ClassDef

variable {c : ClassDef} {init : Callable}

theorem arity_of_firstDeclares (h : c.FirstDeclares .method "init" init) :
    c.arity = init.arity := by
  rw [arity, find_eq_some_iff.2 h]

theorem arity_of_noneDeclares (h : c.NoneDeclares .method "init") : c.arity = 0 := by
  rw [arity, find_eq_none_iff.2 h]

end ClassDef

namespace Eval

open Machine (exec_invoke runCallee)

/-- Each entry of a member table is a declaration closed over the table's scope, under its own
name, and it is an initializer when initializers are asked for and its name is `init`. -/
theorem memberTable_entry {scope : Nat} {init : Bool} {decls : List FunDecl}
    {e : String × Callable} (he : e ∈ memberTable scope init decls) :
    ∃ d ∈ decls, e = (d.name.lexeme, .closure (some d.name.lexeme) d.params d.body scope none
      (init && d.name.lexeme = "init")) := by
  unfold memberTable at he
  -- the fold adds one entry per declaration to a table whose entries already are such
  suffices ∀ (ds : List FunDecl) (table : List (String × Callable)),
      (∀ e ∈ table, ∃ d ∈ decls, e = (d.name.lexeme, .closure (some d.name.lexeme) d.params
        d.body scope none (init && d.name.lexeme = "init"))) → (∀ d ∈ ds, d ∈ decls) →
      ∀ e ∈ ds.foldl (fun table d => setEntry d.name.lexeme (.closure (some d.name.lexeme)
        d.params d.body scope none (init && d.name.lexeme = "init")) table) table,
      ∃ d ∈ decls, e = (d.name.lexeme, .closure (some d.name.lexeme) d.params d.body scope none
        (init && d.name.lexeme = "init")) from
    this decls [] (by simp) (fun _ h => h) e he
  intro ds
  induction ds with
  | nil => intro table ht _; exact ht
  | cons d ds ih =>
    intro table ht hds
    refine ih _ (fun e he => ?_) fun d' hd' => hds d' (List.mem_cons_of_mem _ hd')
    rcases Scopes.mem_setEntry he with rfl | he
    · exact ⟨d, hds d List.mem_cons_self, rfl⟩
    · exact ht e he

/-- A class declaration makes its method named `init` an initializer. -/
theorem memberTable_init {scope : Nat} {decls : List FunDecl} {f : Callable}
    (h : (memberTable scope true decls).lookup "init" = some f) :
    ∃ params body, f = .closure (some "init") params body scope none true := by
  obtain ⟨d, -, he⟩ := memberTable_entry (Scopes.mem_of_lookup h)
  obtain ⟨hname, rfl⟩ := Prod.mk.inj he
  exact ⟨d.params, d.body, by simp [← hname]⟩

/-- An initializer, run to the end, gives back its receiver; run unbound, it fails. -/
theorem callFunction_initializer {n : Nat} {name : Option String} {params : List Token}
    {body : List Stmt} {scope : Nat} {receiver : Option Value} {args : List Value} {m : Machine}
    {v : Value}
    (h : (exec (callFunction n (.closure name params body scope receiver true) args) m).1 = .ok v) :
    receiver = some v := by
  cases n with
  | zero => simp [callFunction] at h
  | succ n =>
    cases receiver with
    | none => simp [callFunction] at h
    | some this =>
      simp only [callFunction, if_true, exec_bind] at h
      split at h
      · cases h; rfl
      · cases h

/-- A call of the class `c` on `args` that passed its checks goes from `m` to `r`. It makes the
instance numbered `m.fields.size`, with no fields, one call deeper than `m`. If no class along
the chain declares an initializer, that is all. Otherwise the first initializer runs from there,
bound to the instance, on `args`, and the call gives the instance unless the initializer is
interrupted; if it is, the call passes the interruption on. Either way the call then counts
itself out. -/
def Constructs (n : Nat) (c : ClassDef) (args : List Value) (m : Machine)
    (r : Except Interrupt Value × Machine) : Prop :=
  (c.NoneDeclares .method "init" ∧
    r = (.ok (.instanceRef m.fields.size c), { m with fields := m.fields.push [] })) ∨
  ∃ init, c.FirstDeclares .method "init" init ∧
    let R := exec (callFunction n (init.bind (.instanceRef m.fields.size c)) args)
      { m with depth := m.depth + 1, fields := m.fields.push [] }
    r = ((match R.1 with
      | .ok _ => .ok (.instanceRef m.fields.size c)
      | .error e => .error e), { R.2 with depth := R.2.depth - 1 })

/-- A call of a class with the right number of arguments, while fewer than a thousand calls are
active, constructs. -/
theorem constructs_invoke (n : Nat) (c : ClassDef) (paren : Token) (args : List Value)
    (m : Machine) (harity : args.length = c.arity) (hdepth : m.depth < RuntimeFault.maxDepth) :
    Constructs n c args m (exec (invoke (n + 2) (.classOf c) paren args) m) := by
  have hcheck : ¬ args.length ≠ (Callee.classOf c).arity := fun h => h harity
  rw [exec_invoke, if_neg hcheck, if_neg (Nat.not_le.2 hdepth)]
  simp only [runCallee, Eval.construct, exec_bind, exec_newInstance]
  split
  · rename_i init hinit
    refine .inr ⟨init, ClassDef.find_eq_some_iff.1 hinit, ?_⟩
    simp only [exec_bind]
    split <;> rename_i heq <;> simp [heq]
  · rename_i hnone
    exact .inl ⟨ClassDef.find_eq_none_iff.1 hnone, by simp⟩

/-- A call of a class fails with the arity fault exactly when the counts differ: a fault of the
initializer's run that names equal counts never arises. -/
theorem class_call_arity_fault_iff (n : Nat) (c : ClassDef) (paren : Token) (args : List Value)
    (m : Machine) :
    (exec (invoke (n + 1) (.classOf c) paren args) m).1 =
        .error (.fault (.wrongArity paren c.arity args.length)) ↔ args.length ≠ c.arity := by
  constructor
  · intro h heq
    exact (honesty (n + 1)).invoke (.classOf c) paren args m _ h heq.symm
  · intro hne
    rw [exec_invoke, if_pos (show args.length ≠ (Callee.classOf c).arity from hne)]
    rfl

/-- A completed call of an initializer gives its receiver. -/
theorem invoke_initializer {n : Nat} {name : Option String} {params : List Token}
    {body : List Stmt} {scope : Nat} {receiver : Option Value} {paren : Token}
    {args : List Value} {m : Machine} {v : Value}
    (h : (exec (invoke n (.function (.closure name params body scope receiver true)) paren args)
      m).1 = .ok v) : receiver = some v := by
  cases n with
  | zero => simp [invoke] at h
  | succ n =>
    rw [exec_invoke] at h
    split at h
    · cases h
    split at h
    · cases h
    exact callFunction_initializer h

end Eval

open Eval in
/-- Calls of classes and of initializers. The arity of a class is that of the first method named
`init` along its chain, or zero. A call of a class fails with the arity fault, changing nothing,
exactly when the number of arguments differs from the arity. With the right number it overflows
when a thousand calls are active, and otherwise it makes one new instance and runs the first
initializer bound to it within the same call, giving the instance unless the initializer is
interrupted. Class declarations make their methods named `init` initializers, and every
completed call of an initializer gives its receiver. -/
theorem class_call_constructs :
    (∀ (c : ClassDef) (init : Callable), c.FirstDeclares .method "init" init →
      c.arity = init.arity) ∧
    (∀ c : ClassDef, c.NoneDeclares .method "init" → c.arity = 0) ∧
    (∀ (n : Nat) (c : ClassDef) (paren : Token) (args : List Value) (m : Machine),
      args.length ≠ c.arity → exec (invoke (n + 1) (.classOf c) paren args) m =
        (.error (.fault (.wrongArity paren c.arity args.length)), m)) ∧
    (∀ (n : Nat) (c : ClassDef) (paren : Token) (args : List Value) (m : Machine),
      (exec (invoke (n + 1) (.classOf c) paren args) m).1 =
        .error (.fault (.wrongArity paren c.arity args.length)) ↔ args.length ≠ c.arity) ∧
    (∀ (n : Nat) (c : ClassDef) (paren : Token) (args : List Value) (m : Machine),
      args.length = c.arity → RuntimeFault.maxDepth ≤ m.depth →
      exec (invoke (n + 1) (.classOf c) paren args) m = (.error (.fault (.stackOverflow paren)), m)) ∧
    (∀ (n : Nat) (c : ClassDef) (paren : Token) (args : List Value) (m : Machine),
      args.length = c.arity → m.depth < RuntimeFault.maxDepth →
      Constructs n c args m (exec (invoke (n + 2) (.classOf c) paren args) m)) ∧
    (∀ (scope : Nat) (decls : List FunDecl) (f : Callable),
      (memberTable scope true decls).lookup "init" = some f →
      ∃ params body, f = .closure (some "init") params body scope none true) ∧
    (∀ (n : Nat) (name : Option String) (params : List Token) (body : List Stmt) (scope : Nat)
      (receiver : Option Value) (paren : Token) (args : List Value) (m : Machine) (v : Value),
      (exec (invoke n (.function (.closure name params body scope receiver true)) paren args)
        m).1 = .ok v → receiver = some v) := by
  refine ⟨fun _ _ h => ClassDef.arity_of_firstDeclares h, fun _ h => ClassDef.arity_of_noneDeclares h,
    ?_, class_call_arity_fault_iff, ?_, constructs_invoke, fun _ _ _ h => memberTable_init h,
    fun _ _ _ _ _ _ _ _ _ _ h => invoke_initializer h⟩
  · intro n c paren args m hne
    rw [Machine.exec_invoke, if_pos (show args.length ≠ (Callee.classOf c).arity from hne)]
    rfl
  · intro n c paren args m harity hdepth
    have hcheck : ¬ args.length ≠ (Callee.classOf c).arity := fun h => h harity
    rw [Machine.exec_invoke, if_neg hcheck, if_pos hdepth]

namespace Construction

/-- `init(x) {}` -/
def initOfOne : FunDecl := .mk (Token.name "init" 1 11) [Token.name "x" 1 16] []

/-- `class P { init(x) {} }`, as its declaration makes it over the globals. -/
def pointClass : ClassDef := .mk "P" none (Eval.memberTable 0 true [initOfOne]) [] [] []

/-- The closing parenthesis of a call. -/
def paren : Token := ⟨.rightParen, ")", none, 2, 4⟩

end Construction

open Construction Eval in
/-- `P`, whose initializer takes one argument, takes one: a call with none fails for its arity;
a call with one from a fresh machine constructs, and fails a thousand calls deep; its `init` is
an initializer; a class with no methods takes no argument. -/
theorem point_class_calls :
    pointClass.arity = 1 ∧ (ClassDef.mk "E" none [] [] [] []).arity = 0 ∧
    exec (invoke 1 (.classOf pointClass) paren []) (Machine.initial 0) =
      (.error (.fault (.wrongArity paren pointClass.arity 0)), Machine.initial 0) ∧
    exec (invoke 1 (.classOf pointClass) paren [.nil]) { Machine.initial 0 with depth := 1000 } =
      (.error (.fault (.stackOverflow paren)), { Machine.initial 0 with depth := 1000 }) ∧
    Constructs 0 pointClass [.nil] (Machine.initial 0)
      (exec (invoke 2 (.classOf pointClass) paren [.nil]) (Machine.initial 0)) ∧
    ∃ f, (memberTable 0 true [initOfOne]).lookup "init" = some f ∧
      ∃ params body, f = .closure (some "init") params body 0 none true := by
  have hinit : pointClass.FirstDeclares .method "init"
      (.closure (some "init") [Token.name "x" 1 16] [] 0 none true) :=
    ⟨[], pointClass, [], rfl, by cbv, fun _ h => by cases h⟩
  have harity : pointClass.arity = 1 := class_call_constructs.1 _ _ hinit
  refine ⟨harity, class_call_constructs.2.1 _ fun _ hk => ?_,
    class_call_constructs.2.2.1 0 _ paren [] _ (by rw [harity]; decide),
    class_call_constructs.2.2.2.2.1 0 _ paren [.nil] _ (by rw [harity]; rfl) (by decide),
    class_call_constructs.2.2.2.2.2.1 0 _ paren [.nil] _ (by rw [harity]; rfl) (by decide), ?_⟩
  · rw [ClassDef.chain, List.mem_singleton] at hk
    subst hk
    rfl
  · have hl : (memberTable 0 true [initOfOne]).lookup "init" =
        some (.closure (some "init") [Token.name "x" 1 16] [] 0 none true) := by cbv
    exact ⟨_, hl, class_call_constructs.2.2.2.2.2.2.1 0 [initOfOne] _ hl⟩

end Lox
