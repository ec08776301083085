import Lox.Proofs.Scoping.Steps

/-!
# Functions and classes

A closure is made in front of the chain of its declaration, and called in front of it later. A
declaration of a function or a class makes closures that are known: the chain fits the declaration,
because it agrees with the scopes around it once the name is bound. A call of a known closure puts
the scopes of its body in front of that chain, and these agree with the scopes in which the body was
resolved.

## Contents
- `exists_bodyChain`: the scopes of a call.
- `fits_function`, `Runs.functionDecl`: declarations of functions.
- `Runs.superclassOf`: the class that a class inherits from.
- `ClassMemory`, `exists_classMemory`, `exists_classMachine`: the machine behind a class.
- `fits_method`, `Runs.classDecl`: declarations of classes.
-/

namespace Lox.Scoping

variable {h : History} {k : Nat} {m : Machine}

/-! ## Calls -/

theorem Origin.params_resolved (o : Origin) : o.resolved.value.params = o.decl.params := by
  obtain ⟨around, scopes, kind, decl⟩ := o
  cases decl
  rfl

/-- **The scopes of a call.** In front of a chain that fits, they agree with the scopes in which the
body was resolved. -/
theorem exists_bodyChain {o : Origin} {chain : Chain} {args : List Value}
    {receiver : Option Instance} (hknown : KnownMemory h m.memory)
    (hfits : Fits m.memory chain o) (hreceiver : receiver.isSome = o.isMethod)
    (hargs : KnownValues h m.memory args)
    (hclass : ∀ i ∈ receiver, KnownClass h m.memory i.ofClass) :
    ∃ i rest m', Eval.bodyChain (o.closure chain) args receiver m = .ok (i :: rest) m' ∧
      m.memory.scopes.size ≤ i ∧ After h none m m' ∧
      Sees m'.memory (i :: rest) (Param.resolveAll o.outer.enter o.decl.params).value := by
  have hparams := FunctionDecl.params_not_reserved hfits.ordinary
  -- the last scope is made the same way for functions and for methods
  have hbody {m₁ : Machine} {seen : Chain} (hafter : After h none m m₁)
      (hagrees : Agrees m₁.memory seen o.outer) :
      ∃ i rest m', Eval.enter (Table.ofList (Eval.bindParams o.resolved.value.params args)) seen m₁ =
          .ok (i :: rest) m' ∧
        m.memory.scopes.size ≤ i ∧ After h none m m' ∧
        Sees m'.memory (i :: rest) (Param.resolveAll o.outer.enter o.decl.params).value := by
    rw [o.params_resolved]
    refine ⟨m₁.memory.scopes.size, seen, _, rfl, hafter.grows.size_le, ?_,
      Sees.body hagrees hparams args⟩
    refine hafter.trans ⟨grows_newScope _ _, rfl, hafter.known.newScope ?_⟩
    exact (hargs.later hafter.later).bindParams
  cases receiver with
  | none =>
      have houter : o.outer = o.scopes := by
        unfold Origin.outer
        rw [← hreceiver]
        rfl
      exact hbody (After.same hknown rfl rfl) (houter ▸ hfits.agrees)
  | some r =>
      have houter : o.outer = o.scopes.enterWith "this" := by
        unfold Origin.outer
        rw [← hreceiver]
        rfl
      have hagrees : Agrees (m.memory.newScope (Table.ofList [("this", .instance r)])).2
          (m.memory.scopes.size :: chain) (o.scopes.enterWith "this") :=
        hfits.agrees.pushOne (fun _ => ⟨r, rfl⟩) nofun
      have hafter : After h none m { m with
          memory := (m.memory.newScope (Table.ofList [("this", .instance r)])).2 } := by
        refine ⟨grows_newScope _ _, rfl, hknown.newScope ?_⟩
        intro e he
        cases List.mem_singleton.1 he
        exact hclass r rfl
      exact hbody hafter (houter ▸ hagrees)

/-! ## Functions -/

/-- A declaration of a function makes a new object and binds its name to it. -/
theorem executeDecl_function (setting : Setting) (n : Nat) (a : Surroundings) (s : Scopes)
    (d : FunctionDecl) (m : Machine) :
    executeDecl setting (n + 1) ((Decl.function d).resolve a s).value m = .ok .normal { m with
      memory := m.memory.newId.2.define m.chain d.name (.function m.memory.nextId
        ((⟨a, s.define d.name, .function, d⟩ : Origin).closure m.chain)) } := by
  cases d
  rfl

theorem sees_function {s : Scopes} {name : String} (hsees : Sees m.memory m.chain s)
    (hname : ¬Reserved name) (v : Value) :
    Sees (m.memory.newId.2.define m.chain name v) m.chain (s.define name) := by
  have hid : Grows none m.memory m.memory.newId.2 := grows_of_scopes_eq rfl
  exact (hsees.later hid).define hname v

/-- The chain of a function fits it once its name is bound. -/
theorem fits_function {setting : Setting} {n : Nat} {a : Surroundings} {s : Scopes}
    {d : FunctionDecl} {m' : Machine} (hsees : Sees m.memory m.chain s) (hcomplete : s.Complete)
    (hplaced : Scopes.Placed a.enclosingClass s) (hordinary : d.Ordinary)
    (herrors : ((Decl.function d).resolve a s).errors = [])
    (heq : executeDecl setting (n + 1) ((Decl.function d).resolve a s).value m = .ok .normal m') :
    Fits m'.memory m.chain ⟨a, s.define d.name, .function, d⟩ := by
  have hname := FunctionDecl.name_not_reserved hordinary
  rw [executeDecl_function] at heq
  cases heq
  refine ⟨(sees_function hsees hname _).agrees, hcomplete.define _, hplaced.mark hname true, ?_,
    hordinary⟩
  unfold Decl.resolve at herrors
  simp only [Checked.errors_bind_eq_nil, Checked.errors_pure, and_true] at herrors
  exact herrors.2

/-- **A declaration of a function** binds its name to a closure that is known. -/
theorem Runs.functionDecl {n : Nat} {a : Surroundings} {s : Scopes} {d : FunctionDecl}
    (hreached : Reached h k ⟨n + 1, .decl a s (.function d), m⟩)
    (hknown : KnownMemory h m.memory) (hsees : Sees m.memory m.chain s)
    (hcomplete : s.Complete) (hplaced : Scopes.Placed a.enclosingClass s)
    (hordinary : d.Ordinary) (herrors : ((Decl.function d).resolve a s).errors = []) :
    Runs h k m.chain.head?
      (executeDecl h.session.setting (n + 1) ((Decl.function d).resolve a s).value) m
      (fun flow memory => flow = .normal ∧ Sees memory m.chain (s.define d.name)) := by
  have hname := FunctionDecl.name_not_reserved hordinary
  have heq := executeDecl_function h.session.setting n a s d m
  have hfits := fits_function hsees hcomplete hplaced hordinary herrors heq
  have hid : Grows none m.memory m.memory.newId.2 := grows_of_scopes_eq rfl
  refine Runs.of_ok heq ⟨hid.weaken.trans (grows_define _ m.chain _ hname), rfl, ?_⟩
    ⟨rfl, sees_function hsees hname _⟩
  exact hknown.newId.define hname
    ⟨_, m.chain, k, _, _, rfl, rfl, hreached, .function heq, Later.refl _, hfits⟩

/-! ## Classes -/

/-- Binding a name that the scope in front binds already adds nothing. -/
theorem grows_redefine {memory : Memory} {chain : Chain} {x : String} (v : Value)
    (hx : ¬Reserved x) (hbound : ∀ i ∈ chain.head?, (memory.scope i).has x = true) :
    Grows none memory (memory.define chain x v) := by
  cases chain with
  | nil => exact Grows.refl _ _
  | cons i rest => exact grows_rebind v hx (hbound i rfl)

/-- A name that is defined is bound in front. -/
theorem has_define {memory : Memory} {chain : Chain} {scopes : Scopes}
    (hagrees : Agrees memory chain scopes) (x : String) (v : Value) :
    ∀ i ∈ chain.head?, i < memory.scopes.size ∧
      ((memory.define chain x v).scope i).has x = true := by
  have hfront {i : Nat} {rest : Chain} (hi : i < memory.scopes.size) :
      ((memory.define (i :: rest) x v).scope i).has x = true := by
    show ((memory.bind i x v).scope i).has x = true
    rw [scope_bind, if_pos ⟨rfl, hi⟩, Table.has_put, decide_eq_true rfl, Bool.true_or]
  intro i hmem
  cases hagrees with
  | globals hi => cases hmem; exact ⟨hi, hfront hi⟩
  | scope hi => cases hmem; exact ⟨hi, hfront hi⟩

/-- The class that a class inherits from is found in front of the declaration. -/
theorem Runs.superclassOf {s : Scopes} {name : String} {superclass : Option NameUse}
    (hknown : KnownMemory h m.memory) (hagrees : Agrees m.memory m.chain s)
    (hcomplete : s.Complete)
    (herrors : (resolveSuperclass (s.define name) name superclass).errors = []) :
    Runs h k none
      (Eval.superclassOf (resolveSuperclass (s.define name) name superclass).value) m
      (fun c memory => (∀ d ∈ c, KnownClass h memory d) ∧ c.isSome = superclass.isSome) := by
  cases superclass with
  | none => exact Runs.pure hknown ⟨nofun, rfl⟩
  | some use =>
      unfold resolveSuperclass at herrors
      simp only [Checked.errors_bind_eq_nil] at herrors
      have hne : name ≠ use.name :=
        Ne.symm (beq_eq_false_iff_ne.1 (Checked.eq_false_of_reportIf herrors.1))
      -- the name of the class is marked already, but it is not the one that is looked up
      have hdistance : (s.define name).distance? use.name = s.distance? use.name :=
        Scopes.distance?_mark_of_ne s true hne
      have hread : s.isIncomplete use.name = false := hcomplete.isIncomplete_eq_false _
      unfold Eval.superclassOf
      simp only [resolveSuperclass, NameUse.resolve, Checked.value_bind, Checked.value_pure,
        hdistance]
      refine Runs.bind (Runs.lookUp hknown hagrees hcomplete.tail hread use.span.start) ?_
      intro v m' _ hafter hv
      cases v with
      | «class» c =>
          refine Runs.pure hafter.known ⟨?_, rfl⟩
          intro d hd
          cases hd
          exact hv
      | nil | bool | number | string | function | method | native | «instance» =>
          exact Runs.raiseAt hafter.known use.span.start .superclassNotClass

/-- Looking up the class to inherit from changes nothing. -/
theorem eq_of_superclassOf {superclass : Option NameUse} {c : Option Class} {m' : Machine}
    (heq : Eval.superclassOf superclass m = .ok c m') : m' = m := by
  cases superclass with
  | none =>
      cases heq
      rfl
  | some use =>
      obtain ⟨v, m₁, hres, heq⟩ := ok_of_bind heq
      cases eq_of_lookUp hres
      cases v with
      | «class» c =>
          cases heq
          rfl
      | nil | bool | number | string | function | method | native | «instance» =>
          exact nomatch heq

/-- The chain that the methods of a class see, by the machine in front of its declaration. -/
def methodChain (m : Machine) (derived : Bool) : Chain :=
  if derived then m.memory.scopes.size :: m.chain else m.chain

/-- The methods that a declaration of a class makes. -/
theorem exists_of_find?_makeMethods {chain : Chain} {methods : List FunctionDecl} {name : String}
    {closure : Closure}
    (hfind : Table.find? name (Eval.makeMethods chain methods) = some closure) :
    ∃ f ∈ methods, closure = ⟨f, chain, f.name == initializerName⟩ := by
  obtain ⟨f, hf, heq⟩ := List.mem_map.1 (Table.mem_of_get?_ofList hfind)
  injection heq with _ heq
  exact ⟨f, hf, heq.symm⟩

/-- A method is an initializer by its name. -/
theorem initializer_iff (name : String) :
    (methodKind name == .initializer) = (name == initializerName) := by
  unfold methodKind
  split
  · rename_i heq
    rw [heq, beq_self_eq_true]
    rfl
  · rename_i hne
    rw [beq_eq_false_iff_ne.2 hne]
    rfl

theorem isMethod_methodKind (name : String) : (methodKind name != .function) = true := by
  unfold methodKind
  split <;> rfl

/-- The origin of a method, by the scopes around its class. -/
def methodOrigin (a : Surroundings) (s : Scopes) (derived : Bool) (f : FunctionDecl) : Origin :=
  ⟨{ a with enclosingClass := if derived then .derived else .base }, s.enterSuper derived,
    methodKind f.name, f⟩

theorem outer_methodOrigin (a : Surroundings) (s : Scopes) (derived : Bool) (f : FunctionDecl) :
    (methodOrigin a s derived f).outer = s.enterClass derived := by
  unfold Origin.outer
  rw [show (methodOrigin a s derived f).isMethod = true from isMethod_methodKind f.name]
  rfl

/-- The closure of a method is an initializer by the name of the method. -/
theorem closure_methodOrigin (a : Surroundings) (s : Scopes) (derived : Bool) (f : FunctionDecl)
    (chain : Chain) :
    (methodOrigin a s derived f).closure chain = ⟨(methodOrigin a s derived f).resolved.value, chain,
      (methodOrigin a s derived f).resolved.value.name == initializerName⟩ := by
  have hname : (methodOrigin a s derived f).resolved.value.name = f.name := by
    cases f
    rfl
  rw [hname, ← initializer_iff]
  rfl

/-- The methods of a class as they are executed. -/
def resolvedMethods (a : Surroundings) (s : Scopes) (derived : Bool)
    (methods : List FunctionDecl) : List FunctionDecl :=
  methods.map fun f => (methodOrigin a s derived f).resolved.value

theorem resolve_class (a : Surroundings) (s : Scopes) (name : String)
    (superclass : Option NameUse) (methods : List FunctionDecl) (span : Span) :
    ((Decl.class name superclass methods span).resolve a s).value =
      .class name (resolveSuperclass (s.define name) name superclass).value
        (resolvedMethods a (s.define name) superclass.isSome methods) span := by
  have hmethods : resolvedMethods a (s.define name) superclass.isSome methods =
      (FunctionDecl.resolveAll
        { a with enclosingClass := if superclass.isSome then .derived else .base }
        ((s.define name).enterClass superclass.isSome) methods).value := by
    rw [FunctionDecl.resolveAll_value]
    unfold resolvedMethods Origin.resolved
    simp only [outer_methodOrigin]
    rfl
  rw [hmethods]
  cases superclass <;> rfl

/-- Each method of a class without static errors has none. -/
theorem errors_of_resolve_class {a : Surroundings} {s : Scopes} {name : String}
    {superclass : Option NameUse} {methods : List FunctionDecl} {span : Span}
    (herrors : ((Decl.class name superclass methods span).resolve a s).errors = []) :
    (resolveSuperclass (s.define name) name superclass).errors = [] ∧
      ∀ f ∈ methods, (methodOrigin a (s.define name) superclass.isSome f).resolved.errors = [] := by
  unfold Decl.resolve at herrors
  simp only [Checked.errors_bind_eq_nil, Checked.errors_pure, and_true] at herrors
  obtain ⟨_, hsuper, hmethods⟩ := herrors
  refine ⟨hsuper, fun f hf => ?_⟩
  unfold Origin.resolved
  rw [outer_methodOrigin]
  cases superclass with
  | none => exact FunctionDecl.errors_resolveAll hmethods f hf
  | some use => exact FunctionDecl.errors_resolveAll hmethods f hf

/-- A memory in which the methods of a class can be made: the name of the class is bound in front, and
behind the name there is a scope that holds its superclass, if it has one. -/
structure ClassMemory (h : History) (m : Machine) (s : Scopes) (name : String) (derived : Bool)
    (memory : Memory) : Prop where
  grows : Grows m.chain.head? m.memory memory
  known : KnownMemory h memory
  bound : ∀ i ∈ m.chain.head?, (memory.scope i).has name = true
  sees : Sees memory m.chain (s.define name)
  agrees : Agrees memory (methodChain m derived) ((s.define name).enterSuper derived)

/-- What is added once the name of a class is bound disturbs nothing. -/
theorem classMemory_of_grows {s : Scopes} {name : String} {derived : Bool} {memory : Memory}
    (hsees : Sees m.memory m.chain s) (hname : ¬Reserved name)
    (hgrows : Grows none (m.memory.define m.chain name .nil) memory)
    (hknown : KnownMemory h memory)
    (hagrees : Agrees memory (methodChain m derived) ((s.define name).enterSuper derived)) :
    ClassMemory h m s name derived memory where
  grows := (grows_define _ m.chain .nil hname).trans hgrows.weaken
  known := hknown
  bound := by
    intro i hi
    obtain ⟨hlt, hbound⟩ := has_define hsees.agrees name .nil i hi
    have hsize : i < (m.memory.define m.chain name .nil).scopes.size := by
      rw [size_define]
      exact hlt
    exact hgrows.keeps i name hsize hbound
  sees := (hsees.define hname .nil).later hgrows
  agrees := hagrees

/-- **The scopes of a class.** Its name is bound twice, and in between the scope is made that holds
its superclass, if there is one. -/
theorem exists_classMemory {s : Scopes} {name : String} {superclass : Option NameUse}
    {c : Option Class} (methods : List FunctionDecl) (hknown : KnownMemory h m.memory)
    (hsees : Sees m.memory m.chain s) (hname : ¬Reserved name)
    (hsuper : Eval.superclassOf superclass m = .ok c m)
    (hclass : ∀ d ∈ c, KnownClass h m.memory d) :
    ∃ id memory, Eval.declareClass name superclass methods m = .ok () { m with
        memory := memory.define m.chain name
          (.class ⟨id, name, c, Eval.makeMethods (methodChain m c.isSome) methods⟩) } ∧
      ClassMemory h m s name c.isSome memory := by
  let named : Memory := m.memory.define m.chain name .nil
  have hknownNamed : KnownMemory h named := hknown.define hname trivial
  have hseesNamed : Sees named m.chain (s.define name) := hsees.define hname .nil
  cases c with
  | none =>
      have hid : Grows none named named.newId.2 := grows_of_scopes_eq rfl
      refine ⟨named.nextId, named.newId.2, ?_, classMemory_of_grows hsees hname hid
        hknownNamed.newId (hseesNamed.later hid).agrees⟩
      exact bind_of_ok hsuper
  | some d =>
      let memory : Memory := (named.newScope (Table.ofList [("super", .class d)])).2
      have hscope : Grows none named memory := grows_newScope _ _
      have hid : Grows none memory memory.newId.2 := grows_of_scopes_eq rfl
      have hknownScope : KnownMemory h memory := by
        refine hknownNamed.newScope ?_
        intro e he
        cases List.mem_singleton.1 he
        exact (hclass d rfl).later (grows_define _ m.chain .nil hname).toLater
      have hagrees : Agrees memory (named.scopes.size :: m.chain)
          ((s.define name).enterWith "super") :=
        hseesNamed.agrees.pushOne nofun (fun _ => ⟨d, rfl⟩)
      -- binding the name has made no scope
      have hchain : named.scopes.size :: m.chain = methodChain m true := by
        rw [show named.scopes.size = m.memory.scopes.size from size_define _ _ _ _]
        rfl
      refine ⟨memory.nextId, memory.newId.2, ?_, classMemory_of_grows hsees hname
        (hscope.trans hid) hknownScope.newId (hchain ▸ hagrees.later hid.toLater)⟩
      refine (bind_of_ok hsuper).trans ?_
      show _ = EStateM.Result.ok () { m with memory := Memory.define _ _ _ (.class ⟨_, _, _,
        Eval.makeMethods (methodChain m true) _⟩) }
      rw [← hchain]
      rfl

/-- A declaration of a class fails with the lookup of its superclass. -/
theorem executeDecl_class_error {setting : Setting} {n : Nat} {a : Surroundings} {s : Scopes}
    {name : String} {superclass : Option NameUse} {methods : List FunctionDecl} {span : Span}
    {stop : Stop} {m' : Machine}
    (hsuper : Eval.superclassOf (resolveSuperclass (s.define name) name superclass).value m =
      .error stop m') :
    executeDecl setting (n + 1) ((Decl.class name superclass methods span).resolve a s).value m =
      .error stop m' := by
  rw [resolve_class]
  have hdeclare : Eval.declareClass name
      (resolveSuperclass (s.define name) name superclass).value
      (resolvedMethods a (s.define name) superclass.isSome methods) m = .error stop m' :=
    bind_of_error hsuper
  exact bind_of_error hdeclare

/-- **The machine behind a class.** -/
theorem exists_classMachine {setting : Setting} {n : Nat} {a : Surroundings} {s : Scopes}
    {name : String} {superclass : Option NameUse} {methods : List FunctionDecl} {span : Span}
    {c : Option Class} (hknown : KnownMemory h m.memory) (hsees : Sees m.memory m.chain s)
    (hname : ¬Reserved name)
    (hsuper : Eval.superclassOf (resolveSuperclass (s.define name) name superclass).value m =
      .ok c m)
    (hclass : ∀ d ∈ c, KnownClass h m.memory d) (hsome : c.isSome = superclass.isSome) :
    ∃ id memory, executeDecl setting (n + 1)
        ((Decl.class name superclass methods span).resolve a s).value m = .ok .normal { m with
          memory := memory.define m.chain name (.class ⟨id, name, c,
            Eval.makeMethods (methodChain m superclass.isSome)
              (resolvedMethods a (s.define name) superclass.isSome methods)⟩) } ∧
      ClassMemory h m s name superclass.isSome memory := by
  obtain ⟨id, memory, hdeclare, hmemory⟩ :=
    exists_classMemory (resolvedMethods a (s.define name) superclass.isSome methods) hknown hsees
      hname hsuper hclass
  rw [hsome] at hdeclare hmemory
  refine ⟨id, memory, ?_, hmemory⟩
  rw [resolve_class]
  exact bind_of_ok hdeclare

/-- What a declaration of a class that ends well has done: it has found its superclass, and bound its
name to a class with the methods that are written in it. -/
theorem exists_of_executeDecl_class {setting : Setting} {n : Nat} {a : Surroundings} {s : Scopes}
    {name : String} {superclass : Option NameUse} {methods : List FunctionDecl} {span : Span}
    {m' : Machine} (hknown : KnownMemory h m.memory) (hsees : Sees m.memory m.chain s)
    (hcomplete : s.Complete) (hname : ¬Reserved name)
    (herrors : ((Decl.class name superclass methods span).resolve a s).errors = [])
    (heq : executeDecl setting (n + 1)
      ((Decl.class name superclass methods span).resolve a s).value m = .ok .normal m') :
    ∃ id c memory,
      Eval.superclassOf (resolveSuperclass (s.define name) name superclass).value m = .ok c m ∧
      m' = { m with memory := memory.define m.chain name (.class ⟨id, name, c,
        Eval.makeMethods (methodChain m superclass.isSome)
          (resolvedMethods a (s.define name) superclass.isSome methods)⟩) } ∧
      ClassMemory h m s name superclass.isSome memory := by
  have hsuper := Runs.superclassOf (k := 0) hknown hsees.agrees hcomplete
    (errors_of_resolve_class herrors).1
  unfold Runs at hsuper
  cases hres : Eval.superclassOf (resolveSuperclass (s.define name) name superclass).value m with
  | error stop m₁ => exact nomatch (executeDecl_class_error hres).symm.trans heq
  | ok c m₁ =>
      cases eq_of_superclassOf hres
      rw [hres] at hsuper
      obtain ⟨_, hclass, hsome⟩ := hsuper
      obtain ⟨id, memory, heq', hmemory⟩ :=
        exists_classMachine hknown hsees hname hres hclass hsome
      cases heq'.symm.trans heq
      exact ⟨id, c, memory, rfl, rfl, hmemory⟩

/-- The chain of a method fits it once its class is bound. -/
theorem fits_method {setting : Setting} {n : Nat} {a : Surroundings} {s : Scopes} {name : String}
    {superclass : Option NameUse} {methods : List FunctionDecl} {span : Span} {m' : Machine}
    (hknown : KnownMemory h m.memory) (hsees : Sees m.memory m.chain s) (hcomplete : s.Complete)
    (hordinary : (Decl.class name superclass methods span).Ordinary)
    (herrors : ((Decl.class name superclass methods span).resolve a s).errors = [])
    (heq : executeDecl setting (n + 1)
      ((Decl.class name superclass methods span).resolve a s).value m = .ok .normal m')
    {f : FunctionDecl} (hf : f ∈ methods) :
    Fits m'.memory (methodChain m superclass.isSome)
      (methodOrigin a (s.define name) superclass.isSome f) := by
  obtain ⟨hname, hmethods⟩ := hordinary
  obtain ⟨_, _, _, _, rfl, hmemory⟩ :=
    exists_of_executeDecl_class hknown hsees hcomplete hname herrors heq
  refine ⟨?_, (hcomplete.define name).enterSuper _, ?_, (errors_of_resolve_class herrors).2 f hf,
    FunctionDecl.ordinary_of_mem hmethods f hf⟩
  · exact hmemory.agrees.later (grows_redefine _ hname hmemory.bound).toLater
  · rw [outer_methodOrigin]
    exact Scopes.placed_enterClass _ _

/-- **A declaration of a class** binds its name to a class that is known. -/
theorem Runs.classDecl {n : Nat} {a : Surroundings} {s : Scopes} {name : String}
    {superclass : Option NameUse} {methods : List FunctionDecl} {span : Span}
    (hreached : Reached h k ⟨n + 1, .decl a s (.class name superclass methods span), m⟩)
    (hknown : KnownMemory h m.memory) (hsees : Sees m.memory m.chain s) (hcomplete : s.Complete)
    (hordinary : (Decl.class name superclass methods span).Ordinary)
    (herrors : ((Decl.class name superclass methods span).resolve a s).errors = []) :
    Runs h k m.chain.head?
      (executeDecl h.session.setting (n + 1)
        ((Decl.class name superclass methods span).resolve a s).value) m
      (fun flow memory => flow = .normal ∧ Sees memory m.chain (s.define name)) := by
  have hname := hordinary.1
  have hsuper := Runs.superclassOf (k := k) hknown hsees.agrees hcomplete
    (errors_of_resolve_class herrors).1
  unfold Runs at hsuper
  cases hres : Eval.superclassOf (resolveSuperclass (s.define name) name superclass).value m with
  | error stop m₁ =>
      rw [hres] at hsuper
      exact Runs.of_error (executeDecl_class_error hres) hsuper.1.weaken hsuper.2
  | ok c m₁ =>
      cases eq_of_superclassOf hres
      rw [hres] at hsuper
      obtain ⟨_, hclass, hsome⟩ := hsuper
      obtain ⟨id, memory, heq, hmemory⟩ := exists_classMachine hknown hsees hname hres hclass hsome
      have hgrows := grows_redefine (.class ⟨id, name, c, Eval.makeMethods
        (methodChain m superclass.isSome)
        (resolvedMethods a (s.define name) superclass.isSome methods)⟩)
        hname hmemory.bound
      refine Runs.of_ok heq ⟨hmemory.grows.trans hgrows.weaken, rfl, hmemory.known.define hname ?_⟩
        ⟨rfl, hmemory.sees.later hgrows⟩
      -- the methods are made by this declaration; those that are inherited are known already
      refine .intro ?_ ?_
      · intro x closure hfind
        obtain ⟨f', hf', rfl⟩ := exists_of_find?_makeMethods hfind
        obtain ⟨f, hf, rfl⟩ := List.mem_map.1 hf'
        rw [← closure_methodOrigin]
        exact ⟨_, _, k, _, _, rfl, isMethod_methodKind f.name, hreached, .method hf heq,
          Later.refl _, fits_method hknown hsees hcomplete hordinary herrors heq hf⟩
      · intro d hd
        exact ((hclass d hd).later hmemory.grows.toLater).later hgrows.toLater

end Lox.Scoping
