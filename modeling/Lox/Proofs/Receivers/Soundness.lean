import Lox.Proofs.Receivers.Enclosing
import Lox.Proofs.Scoping.Jumps

/-!
# Receivers and superclasses are what they should be

What a program can rely on about `this` and `super`, in every state of every session: chains of
superclasses descend, so none of them is endless or returns to itself; a bound method belongs to
exactly one class of its receiver; no method runs without a receiver, so that initializers yield
instances; and wherever `this` or `super` is written in a class, it is about the value of that very
class, whatever the class of the receiver is.

## Contents
- `Proper`: values whose classes descend and whose methods belong to their receivers.
- `Occurs`: the values of a moment.
- `eq_of_callValue_class`, `eq_of_callValue_initializer`: what calls of initializers yield.
- `AtHome.lookUp_this`, `AtHome.lookUp_super`: what `this` and `super` are found to be.
- `SoundReceivers`, `receivers_sound`: every session.
-/

namespace Lox.Receivers

open Scoping

/-! ## Values -/

/-- Along the chain of superclasses each class is newer than all that come behind it. -/
def Descends (c : Class) : Prop := c.ancestry.Pairwise fun d e => e.id < d.id

/-- The classes of a value descend, and the function of a bound method stands in the table of exactly
one class of the receiver. -/
def Proper : Value → Prop
  | .class c => Descends c
  | .instance i => Descends i.ofClass
  | .method _ closure r =>
    Descends r.ofClass ∧ ∃ d ∈ r.ofClass.ancestry, d.Defines closure ∧
      ∀ e ∈ r.ofClass.ancestry, e.Defines closure → e = d
  | .nil | .bool _ | .number _ | .string _ | .function _ _ | .native _ => True

theorem SoundValue.proper {m : Memory} {v : Value} (hv : SoundValue m v) : Proper v := by
  cases v with
  | «class» c => exact SoundClass.descends hv
  | «instance» i => exact SoundClass.descends hv
  | method _ closure r =>
      obtain ⟨hclass, d, hd, hdefines⟩ := hv
      exact ⟨hclass.descends, d, hd, hdefines,
        fun e he hdefines' => unique_home hclass he hd hdefines' hdefines⟩
  | nil | bool | number | string | function | native => trivial

/-- The machine that a computation leaves behind, and the values that it hands on. -/
def leftBy {α : Type} (values : α → List Value) :
    EStateM.Result Stop Machine α → Machine × List Value
  | .ok a m => (m, values a)
  | .error _ m => (m, [])

/-- The value that a statement hands on when it ends. -/
def flowValues : Flow → List Value
  | .normal | .break | .continue => []
  | .return v => [v]

/-- What the call of the evaluator at a moment leaves behind and hands on, however it ends. -/
def leaves (setting : Setting) (p : Moment) : Machine × List Value :=
  match p.work with
  | .expr kind scopes e =>
    leftBy (fun v => [v]) (evaluate setting p.fuel (e.resolve kind scopes).value p.machine)
  | .exprs kind scopes es =>
    leftBy id (evaluateAll setting p.fuel (Expr.resolveAll kind scopes es).value p.machine)
  | .stmt a scopes s =>
    leftBy flowValues (execute setting p.fuel (s.resolve a scopes).value p.machine)
  | .loop a scopes condition body increment =>
    leftBy flowValues (executeLoop setting p.fuel (condition.resolve a.enclosingClass scopes).value
      (body.resolve { a with inLoop := true } scopes).value
      (Expr.resolveOption a.enclosingClass scopes increment).value p.machine)
  | .decl a scopes d =>
    leftBy flowValues (executeDecl setting p.fuel (d.resolve a scopes).value p.machine)
  | .decls a scopes ds =>
    leftBy flowValues (executeAll setting p.fuel (Decl.resolveAll a scopes ds).value p.machine)
  | .call callee args location =>
    leftBy (fun v => [v]) (callValue setting p.fuel callee args location p.machine)
  | .invoke callee args location =>
    leftBy (fun v => [v]) (invoke setting p.fuel callee args location p.machine)
  | .function closure args receiver =>
    leftBy (fun v => [v]) (callFunction setting p.fuel closure args receiver p.machine)
  | .construct c args => leftBy (fun v => [v]) (instantiate setting p.fuel c args p.machine)

/-- The values that a call works on. -/
def workValues : Work → List Value
  | .call callee args _ => callee :: args
  | .invoke _ args _ => args
  | .function _ args receiver => (receiver.map Value.instance).toList ++ args
  | .construct c args => .class c :: args
  | .expr _ _ _ | .exprs _ _ _ | .stmt _ _ _ | .loop _ _ _ _ _ | .decl _ _ _ | .decls _ _ _ => []

/-- The values of a moment: those in memory before and behind it, those that it works on, and those
that it hands on. -/
inductive Occurs (setting : Setting) (p : Moment) (v : Value) : Prop
  | before : p.machine.memory.Holds v → Occurs setting p v
  | work : v ∈ workValues p.work → Occurs setting p v
  | behind : (leaves setting p).1.memory.Holds v → Occurs setting p v
  | handedOn : v ∈ (leaves setting p).2 → Occurs setting p v

/-- What a call works on is sound. -/
theorem SoundWork.values {p : Moment} (hp : SoundWork p) :
    SoundValues p.machine.memory (workValues p.work) := by
  obtain ⟨n, work, m⟩ := p
  have hcons {v : Value} {vs : List Value} (hv : SoundValue m.memory v)
      (hvs : SoundValues m.memory vs) : SoundValues m.memory (v :: vs) := by
    intro w hw
    rcases List.mem_cons.1 hw with rfl | hw
    · exact hv
    · exact hvs w hw
  cases work with
  | expr | exprs | stmt | loop | decl | decls => exact nofun
  | call | construct => exact hcons hp.2.1 hp.2.2
  | invoke => exact hp.2.2
  | function closure args receiver =>
      cases receiver with
      | none => exact hp.2.2
      | some r => exact hcons hp.2.1.1 hp.2.2

/-- What a computation leaves behind and hands on is sound. -/
theorem Keeps.left {α : Type} {x : Eval α} {m : Machine} {Q : Memory → α → Prop}
    {values : α → List Value} (hx : Keeps x m Q)
    (hvalues : ∀ memory a, Q memory a → SoundValues memory (values a)) :
    SoundMemory (leftBy values (x m)).1.memory ∧
      SoundValues (leftBy values (x m)).1.memory (leftBy values (x m)).2 := by
  unfold Keeps at hx
  cases hres : x m with
  | ok a m' =>
      rw [hres] at hx
      exact ⟨hx.1.sound, hvalues _ a hx.2⟩
  | error stop m' =>
      rw [hres] at hx
      exact ⟨hx.sound, nofun⟩

theorem SoundValue.single {m : Memory} {v : Value} (hv : SoundValue m v) : SoundValues m [v] := by
  intro w hw
  cases List.mem_singleton.1 hw
  exact hv

theorem SoundFlow.values {m : Memory} {flow : Flow} (h : SoundFlow m flow) :
    SoundValues m (flowValues flow) := by
  cases flow with
  | normal | «break» | «continue» => exact nofun
  | «return» v => exact SoundValue.single h

/-- **What a moment leaves behind and hands on is sound.** -/
theorem sound_leaves {h : History} {p : Moment} (hhonest : h.session.setting.host.Honest)
    (hbinds : h.session.setting.host.BindsOwn) (hvalid : Valid h p) (hp : SoundWork p) :
    SoundMemory (leaves h.session.setting p).1.memory ∧
      SoundValues (leaves h.session.setting p).1.memory (leaves h.session.setting p).2 := by
  obtain ⟨n, work, m⟩ := p
  have hcalls := sustains hhonest hbinds n
  have hvalue (memory : Memory) (v : Value) (hv : SoundValue memory v) := hv.single
  have hflow (memory : Memory) (flow : Flow) (hflow : SoundFlow memory flow) := hflow.values
  cases work with
  | expr kind scopes e =>
      have he := e.ordinary_resolve kind scopes hvalid.2.1
      exact (hcalls.evaluate _ m he hp).left hvalue
  | exprs kind scopes es =>
      have hes := Expr.ordinaryAll_resolve kind scopes es hvalid.2.1
      exact (hcalls.evaluateAll _ m hes hp).left fun _ _ hvs => hvs
  | stmt a scopes s =>
      have hs := s.ordinary_resolve a scopes hvalid.2.2.1
      exact (hcalls.execute _ m hs hp).left hflow
  | loop a scopes c b i =>
      obtain ⟨hc, hb, hi⟩ := hvalid.2.2.1
      have hc' := c.ordinary_resolve a.enclosingClass scopes hc
      have hb' := b.ordinary_resolve { a with inLoop := true } scopes hb
      have hi' := Expr.ordinaryOption_resolve a.enclosingClass scopes hi
      exact (hcalls.executeLoop _ _ _ m hc' hb' hi' hp).left hflow
  | decl a scopes d =>
      have hd := d.ordinary_resolve a scopes hvalid.2.2.1
      exact (hcalls.executeDecl _ m hd hp).left hflow
  | decls a scopes ds =>
      have hds := Decl.ordinaryAll_resolve a scopes ds hvalid.2.2.1
      exact (hcalls.executeAll _ m hds hp).left hflow
  | call callee args location =>
      exact (hcalls.callValue _ _ location m hp.1 hp.2.1 hp.2.2).left hvalue
  | invoke callee args location =>
      exact (hcalls.invoke _ _ location m hp.1 hp.2.1 hp.2.2).left hvalue
  | function closure args receiver =>
      exact (hcalls.callFunction _ _ _ m hp.1 hp.2.1 hp.2.2).left hvalue
  | construct c args => exact (hcalls.instantiate _ _ m hp.1 hp.2.1 hp.2.2).left hvalue

/-! ## Calls -/

/-- A call of an initializer yields its receiver. -/
theorem yields_initializer {setting : Setting} {n : Nat} {closure : Closure} {args : List Value}
    {r : Instance} (hinit : closure.isInitializer = true) :
    Yields (callFunction setting n closure args (some r)) fun v => v = .instance r := by
  cases n with
  | zero => exact .outOfFuel
  | succ n =>
      unfold callFunction
      refine .after fun seen => .after fun flow => ?_
      unfold Eval.callResult
      rw [if_pos hinit]
      exact .pure rfl

/-- A class yields the instance that it makes. -/
theorem eq_of_instantiate {setting : Setting} {n : Nat} {c : Class} {args : List Value}
    {m m' : Machine} {v : Value} (heq : instantiate setting n c args m = .ok v m') :
    v = .instance (m.memory.newInstance c).1 := by
  cases n with
  | zero => exact nomatch heq
  | succ n =>
      unfold instantiate at heq
      cases hfind : c.findMethod? initializerName with
      | none =>
          have hyields (i : Instance) :
              Yields (Pure.pure (Value.instance i)) fun v => v = .instance i := .pure rfl
          rw [hfind] at heq
          exact hyields (m.memory.newInstance c).1 _ v m' heq
      | some closure =>
          have hyields (i : Instance) :
              Yields (callFunction setting n closure args (some i) >>= fun _ =>
                Pure.pure (Value.instance i)) fun v => v = .instance i := .after fun _ => .pure rfl
          rw [hfind] at heq
          exact hyields (m.memory.newInstance c).1 _ v m' heq

theorem eq_of_inCall {maxCallDepth : Nat} {location : Location} {α : Type} {x : Eval α}
    {m m' : Machine} {a : α} (heq : Eval.inCall maxCallDepth location x m = .ok a m') :
    ∃ m'', x (deeper m) = .ok a m'' := by
  obtain ⟨m'', hres, -⟩ := Eval.ok_of_inCall heq
  exact ⟨m'', hres⟩

/-- What a call yields, the callable yields inside it. -/
theorem exists_of_callValue {setting : Setting} {n : Nat} {callee : Value} {c : Callable}
    {args : List Value} {location : Location} {m m' : Machine} {v : Value}
    (hc : callee.callable? = some c)
    (heq : callValue setting (n + 1) callee args location m = .ok v m') :
    ∃ m'', invoke setting n c args location (deeper m) = .ok v m'' := by
  unfold callValue at heq
  rw [hc] at heq
  dsimp only at heq
  split at heq
  · exact eq_of_inCall heq
  · cases heq

/-- **A class that is called yields the instance that it makes.** -/
theorem eq_of_callValue_class {setting : Setting} {n : Nat} {c : Class} {args : List Value}
    {location : Location} {m m' : Machine} {v : Value}
    (heq : callValue setting n (.class c) args location m = .ok v m') :
    v = .instance (m.memory.newInstance c).1 := by
  cases n with
  | zero => exact nomatch heq
  | succ n =>
      obtain ⟨m'', hinvoke⟩ := exists_of_callValue rfl heq
      cases n with
      | zero => exact nomatch hinvoke
      | succ n =>
          have hmade : instantiate setting n c args (deeper m) = .ok v m'' := hinvoke
          -- one level of calls deeper the memory is the same
          have hsame : (deeper m).memory = m.memory := rfl
          rw [← hsame]
          exact eq_of_instantiate hmade

/-- **An initializer that is called directly yields its receiver.** -/
theorem eq_of_callValue_initializer {setting : Setting} {n id : Nat} {closure : Closure}
    {r : Instance} {args : List Value} {location : Location} {m m' : Machine} {v : Value}
    (hinit : closure.isInitializer = true)
    (heq : callValue setting n (.method id closure r) args location m = .ok v m') :
    v = .instance r := by
  cases n with
  | zero => exact nomatch heq
  | succ n =>
      obtain ⟨m'', hinvoke⟩ := exists_of_callValue rfl heq
      cases n with
      | zero => exact nomatch hinvoke
      | succ n => exact yields_initializer hinit _ v m'' hinvoke

/-- A closure that is no method is no initializer. -/
theorem isInitializer_of_known {h : History} {m : Memory} {closure : Closure}
    (hknown : Known h m closure false) : closure.isInitializer = false := by
  obtain ⟨o, chain, _, _, _, rfl, hmethod, _⟩ := hknown
  obtain ⟨around, scopes, kind, decl⟩ := o
  cases kind with
  | function => rfl
  | method | initializer | none => exact nomatch hmethod

/-! ## Uses of receivers and superclasses -/

/-- A method of a class, bound to a receiver. -/
def selectMethod (c : Class) (r : Instance) (name : String) (location : Location) : Eval Value :=
  match c.findMethod? name with
  | some closure => do
    let id ← Eval.take (·.newId)
    pure (.method id closure r)
  | none => Eval.raiseAt location (.undefinedProperty name)

/-- What programs can rely on about receivers and superclasses, in every state of a session. -/
structure SoundReceivers (h : History) : Prop where
  /-- Between the inputs. -/
  between : ∀ k v, (h.session.after (h.inputs.take k)).machine.memory.Holds v → Proper v
  /-- While an input runs. -/
  during : ∀ k p v, Reached h k p → Occurs h.session.setting p v → Proper v
  /-- A declaration of a class binds its name to a class with the superclass that was found and the
  methods that are written in it. -/
  declared : ∀ k n a scopes name superclass methods span m m',
    Reached h k ⟨n + 1, .decl a scopes (.class name superclass methods span), m⟩ →
    executeDecl h.session.setting (n + 1)
      ((Decl.class name superclass methods span).resolve a scopes).value m = .ok .normal m' →
    ∃ c i outer, m.chain = i :: outer ∧ (m'.memory.scope i).get? name = some (.class c) ∧
      Eval.superclassOf (resolveSuperclass (scopes.define name) name superclass).value m =
        .ok c.superclass m ∧
      c.methods = Eval.makeMethods (methodChain m superclass.isSome)
        (resolvedMethods a (scopes.define name) superclass.isSome methods)
  /-- A function that runs is a method if and only if it has a receiver, and then it is a method of
  that receiver; an initializer has one, and yields it. -/
  invoked : ∀ k n closure args receiver m,
    Reached h k ⟨n, .function closure args receiver, m⟩ →
    (∃ o chain k' maker memory, closure = o.closure chain ∧ o.isMethod = receiver.isSome ∧
      Reached h k' maker ∧ Makes h.session.setting maker o chain memory) ∧
    (∀ r, receiver = some r → ∃ d ∈ r.ofClass.ancestry, d.Defines closure) ∧
    (closure.isInitializer = true → ∃ r, receiver = some r ∧ ∀ v m',
      callFunction h.session.setting n closure args receiver m = .ok v m' → v = .instance r)
  /-- A class that is called yields the instance that it makes, and a bound initializer its receiver.
  No other value is an initializer. -/
  called : ∀ k n callee args location m, Reached h k ⟨n, .call callee args location, m⟩ →
    (∀ v m', callValue h.session.setting n callee args location m = .ok v m' →
      (∀ c, callee = .class c → v = .instance (m.memory.newInstance c).1) ∧
      ∀ id closure r, callee = .method id closure r → closure.isInitializer = true →
        v = .instance r) ∧
    ∀ id closure, callee = .function id closure → closure.isInitializer = false
  /-- `this` is an instance of the class that it is written in. -/
  this : ∀ k n kind scopes depth span m,
    Reached h k ⟨n + 1, .expr kind scopes (.this depth span), m⟩ →
    ∃ r, evaluate h.session.setting (n + 1) ((Expr.this depth span).resolve kind scopes).value m =
        .ok (.instance r) m ∧
      (∃ c, Around h k ⟨n + 1, .expr kind scopes (.this depth span), m⟩ c) ∧
      ∀ c, Around h k ⟨n + 1, .expr kind scopes (.this depth span), m⟩ c → c ∈ r.ofClass.ancestry
  /-- `super` selects from the superclass of the class that it is written in, for the instance that
  `this` is in its place. -/
  super : ∀ k n kind scopes depth name span m,
    Reached h k ⟨n + 1, .expr kind scopes (.super depth name span), m⟩ →
    ∃ b r, evaluate h.session.setting (n + 1)
        ((Expr.super depth name span).resolve kind scopes).value m =
          selectMethod b r name span.start m ∧
      evaluate h.session.setting (n + 1) ((Expr.this depth span).resolve kind scopes).value m =
        .ok (.instance r) m ∧
      (∃ c, Around h k ⟨n + 1, .expr kind scopes (.super depth name span), m⟩ c) ∧
      ∀ c, Around h k ⟨n + 1, .expr kind scopes (.super depth name span), m⟩ c →
        c.superclass = some b ∧ c ∈ r.ofClass.ancestry

/-- In a class, `this` looks up the receiver. -/
theorem evaluate_this {setting : Setting} {n : Nat} {kind : ClassKind} (hkind : kind ≠ .none)
    (scopes : Scopes) (depth : Option Nat) (span : Span) :
    evaluate setting (n + 1) ((Expr.this depth span).resolve kind scopes).value =
      Eval.lookUp "this" (scopes.distance? "this") span.start := by
  cases kind with
  | none => exact absurd rfl hkind
  | base | derived => rfl

/-- `super` looks up the superclass and the receiver. -/
theorem superMethod_eq {m : Machine} {d : Nat} {location : Location} {b : Class} {r : Instance}
    (hthis : Eval.lookUp "this" (some d) location m = .ok (.instance r) m)
    (hsuper : Eval.lookUp "super" (some (d + 1)) location m = .ok (.class b) m) (name : String) :
    Eval.superMethod (some (d + 1)) name location m = selectMethod b r name location m := by
  refine (bind_of_ok hsuper).trans ?_
  exact bind_of_ok hthis

/-- In a class, `this` is found to be an instance of that class. -/
theorem AtHome.lookUp_this {n : Nat} {kind : ClassKind} {scopes : Scopes} {e : Expr} {m : Machine}
    {c : Class} (h : AtHome ⟨n, .expr kind scopes e, m⟩ c) (location : Location) :
    ∃ r, Eval.lookUp "this" (scopes.distance? "this") location m = .ok (.instance r) m ∧
      c ∈ r.ofClass.ancestry := by
  obtain ⟨d, i, rest, r, hd, hancestor, _, hr, hc, _⟩ := h
  change scopes.distance? "this" = some d at hd
  refine ⟨r, ?_, hc⟩
  rw [hd]
  exact lookUp_at hancestor hr location

/-- In a class with a superclass, `super` is found to be that one, one scope behind `this`. -/
theorem AtHome.lookUp_super {n : Nat} {scopes : Scopes} {e : Expr} {m : Machine} {c : Class}
    (h : AtHome ⟨n, .expr .derived scopes e, m⟩ c) (location : Location) :
    ∃ d b, scopes.distance? "this" = some d ∧ scopes.distance? "super" = some (d + 1) ∧
      Eval.lookUp "super" (some (d + 1)) location m = .ok (.class b) m ∧ c.superclass = some b := by
  obtain ⟨d, i, rest, r, hd, hancestor, _, _, _, hsuper⟩ := h
  obtain ⟨hd', j, outer, b, rfl, _, hb, hcb⟩ := hsuper rfl
  exact ⟨d, b, hd, hd', lookUp_at (ancestor?_of_succ hancestor) hb location, hcb⟩

/-- **A declaration of a class** that ends well binds the class that is written there. -/
theorem exists_bound_class {h : History} {setting : Setting} {n : Nat} {a : Surroundings}
    {scopes : Scopes} {name : String} {superclass : Option NameUse} {methods : List FunctionDecl}
    {span : Span} {m m' : Machine}
    (hvalid : Valid h ⟨n + 1, .decl a scopes (.class name superclass methods span), m⟩)
    (hwork : SoundWork ⟨n + 1, .decl a scopes (.class name superclass methods span), m⟩)
    (heq : executeDecl setting (n + 1)
      ((Decl.class name superclass methods span).resolve a scopes).value m = .ok .normal m') :
    ∃ c i outer, m.chain = i :: outer ∧ (m'.memory.scope i).get? name = some (.class c) ∧
      Eval.superclassOf (resolveSuperclass (scopes.define name) name superclass).value m =
        .ok c.superclass m ∧
      c.methods = Eval.makeMethods (methodChain m superclass.isSome)
        (resolvedMethods a (scopes.define name) superclass.isSome methods) := by
  obtain ⟨hcontext, hcomplete, hordinary, herrors⟩ := hvalid
  obtain ⟨id, c, memory, hsuper, rfl, hmemory⟩ := exists_of_executeDecl_class hcontext.known
    hcontext.sees hcomplete hordinary.1 herrors heq
  obtain ⟨i, outer, hchain, hi, _⟩ := hwork.plain
  refine ⟨⟨id, name, c, Eval.makeMethods (methodChain m superclass.isSome)
    (resolvedMethods a (scopes.define name) superclass.isSome methods)⟩,
    i, outer, hchain, ?_, hsuper, rfl⟩
  -- the name is bound in front, in a scope that was there before
  have hi' := Nat.lt_of_lt_of_le hi hmemory.grows.size_le
  rw [hchain]
  show ((memory.bind i name _).scope i).get? name = _
  rw [scope_bind, if_pos ⟨rfl, hi'⟩, Table.get?_put_self]

/-- **Receivers and superclasses are what they should be**, in a session with a host that makes up no
objects and binds methods only where they belong. -/
theorem receivers_sound (options : Options) (session : Session) (inputs : List (Nat × List Char))
    (hcreate : Session.create options = .ok session) (hhonest : options.host.Honest)
    (hbinds : options.host.BindsOwn) : SoundReceivers ⟨session, inputs⟩ := by
  have hhonest' : session.setting.host.Honest := by
    rw [Session.host_of_create hcreate]
    exact hhonest
  have hbinds' : session.setting.host.BindsOwn := by
    rw [Session.host_of_create hcreate]
    exact hbinds
  have hready : Ready ⟨session, inputs⟩ session.machine := ready_create hcreate
  have hsound : SoundMachine session.machine := soundMachine_create hcreate
  have hvalid {k : Nat} {p : Moment} (hreached : Reached ⟨session, inputs⟩ k p) :
      Valid ⟨session, inputs⟩ p := valid_of_reached hhonest' hready hreached
  have hwork {k : Nat} {p : Moment} (hreached : Reached ⟨session, inputs⟩ k p) : SoundWork p :=
    soundWork_of_reached hhonest' hbinds' hready hsound hreached
  have hhome {k : Nat} {p : Moment} {c : Class} (haround : Around ⟨session, inputs⟩ k p c) :
      AtHome p c := atHome_of_around hhonest' hbinds' hready hsound haround
  constructor
  case between =>
    intro k v hv
    have hs := soundMachine_after hhonest' hbinds' rfl hsound (inputs.take k)
    exact (hs.memory v hv).proper
  case during =>
    intro k p v hreached hv
    have hp := hwork hreached
    obtain ⟨hmemory, hvalues⟩ := sound_leaves hhonest' hbinds' (hvalid hreached) hp
    cases hv with
    | before hv => exact (hp.memory v hv).proper
    | work hv => exact (hp.values v hv).proper
    | behind hv => exact (hmemory v hv).proper
    | handedOn hv => exact (hvalues v hv).proper
  case declared =>
    intro k n a scopes name superclass methods span m m' hreached heq
    exact exists_bound_class (hvalid hreached) (hwork hreached) heq
  case invoked =>
    intro k n closure args receiver m hreached
    obtain ⟨_, hknown, _, _⟩ := hvalid hreached
    obtain ⟨_, hcall, _⟩ := hwork hreached
    refine ⟨?_, ?_, fun hinit => ?_⟩
    · obtain ⟨o, chain, k', maker, memory, hclosure, hmethod, hmaker, hmakes, _⟩ := hknown
      exact ⟨o, chain, k', maker, memory, hclosure, hmethod, hmaker, hmakes⟩
    · rintro r rfl
      exact hcall.2
    · cases receiver with
      | none => exact nomatch (isInitializer_of_known hknown).symm.trans hinit
      | some r => exact ⟨r, rfl, yields_initializer hinit m⟩
  case called =>
    intro k n callee args location m hreached
    obtain ⟨_, hknown, _⟩ := hvalid hreached
    refine ⟨fun v m' heq => ⟨?_, ?_⟩, ?_⟩
    · rintro c rfl
      exact eq_of_callValue_class heq
    · rintro id closure r rfl hinit
      exact eq_of_callValue_initializer hinit heq
    · rintro id closure rfl
      exact isInitializer_of_known hknown
  case this =>
    intro k n kind scopes depth span m hreached
    have hkind : kind ≠ .none := by
      rintro rfl
      obtain ⟨_, _, herrors⟩ := hvalid hreached
      exact absurd herrors (List.cons_ne_nil _ _)
    obtain ⟨c, haround⟩ := exists_around hhonest' hbinds' hready hsound hreached hkind
    obtain ⟨r, hr, _⟩ := (hhome haround).lookUp_this span.start
    refine ⟨r, ?_, ⟨c, haround⟩, fun c' haround' => ?_⟩
    · rw [evaluate_this hkind]
      exact hr
    · -- there is one instance that is found
      obtain ⟨r', hr', hc'⟩ := (hhome haround').lookUp_this span.start
      cases hr.symm.trans hr'
      exact hc'
  case super =>
    intro k n kind scopes depth name span m hreached
    have hkind : kind = .derived := by
      obtain ⟨_, _, herrors⟩ := hvalid hreached
      cases kind with
      | none | base => exact absurd herrors (List.cons_ne_nil _ _)
      | derived => rfl
    subst hkind
    obtain ⟨c, haround⟩ := exists_around hhonest' hbinds' hready hsound hreached nofun
    obtain ⟨r, hr, _⟩ := (hhome haround).lookUp_this span.start
    obtain ⟨d, b, hd, hd₂, hb, _⟩ := (hhome haround).lookUp_super span.start
    refine ⟨b, r, ?_, ?_, ⟨c, haround⟩, fun c' haround' => ?_⟩
    · show Eval.superMethod (scopes.distance? "super") name span.start m = _
      rw [hd] at hr
      rw [hd₂]
      exact superMethod_eq hr hb name
    · have hkind : ClassKind.derived ≠ .none := nofun
      rw [evaluate_this hkind]
      exact hr
    · -- there is one instance and one superclass that is found
      obtain ⟨r', hr', hc'⟩ := (hhome haround').lookUp_this span.start
      obtain ⟨d', b', _, hd₂', hb', hcb'⟩ := (hhome haround').lookUp_super span.start
      cases hr.symm.trans hr'
      cases hd₂.symm.trans hd₂'
      cases hb.symm.trans hb'
      exact ⟨hcb', hc'⟩

/-- A method of a superclass, bound to an instance and kept in a global:
`class B { m() { } } class A < B { n() { return super.m; } } var x = A().n();` -/
def superSource : List Char :=
  ("class B \x7b m() \x7b \x7d \x7d class A < B \x7b n() \x7b return super.m; \x7d \x7d " ++
    "var x = A().n();").toList

/-- The bound method that a global holds. -/
def boundMethod? (s : Session) (name : String) : Option (Nat × Closure × Instance) :=
  match s.globals.get? name with
  | some (.method id closure r) => some (id, closure, r)
  | _ => none

theorem holds_of_boundMethod? {s : Session} {name : String} {id : Nat} {closure : Closure}
    {r : Instance} (h : boundMethod? s name = some (id, closure, r)) :
    s.machine.memory.Holds (.method id closure r) := by
  unfold boundMethod? at h
  split at h
  · rename_i heq
    cases h
    exact .bound globalScope name heq
  · cases h

/-- In a session that exists: the method that `super` bound belongs to one class of the receiver, the
chain of which descends. -/
theorem receivers_sound_for_super :
    ∃ id closure r, Session.create (Options.standard Host.plain) = .ok plainSession ∧
      (plainSession.after [(30, superSource)]).machine.memory.Holds (.method id closure r) ∧
      r.ofClass.ancestry.map (·.name) = ["A", "B"] ∧ Proper (.method id closure r) := by
  have hrun : ((boundMethod? (plainSession.after [(30, superSource)]) "x").filter
      fun found => found.2.2.ofClass.ancestry.map (·.name) == ["A", "B"]).isSome = true := by
    decide +kernel
  obtain ⟨⟨id, closure, r⟩, hfound⟩ := Option.isSome_iff_exists.1 hrun
  obtain ⟨hbound, hnames⟩ := Option.filter_eq_some_iff.1 hfound
  have hholds := holds_of_boundMethod? hbound
  have hsound := receivers_sound (Options.standard Host.plain) plainSession [(30, superSource)]
    create_plainSession Host.honest_plain Host.bindsOwn_plain
  exact ⟨id, closure, r, create_plainSession, hholds, eq_of_beq hnames, hsound.between 1 _ hholds⟩

end Lox.Receivers
