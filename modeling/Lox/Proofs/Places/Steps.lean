import Lox.Proofs.Places.Values

/-!
# Evaluation at other places

The evaluator copies places from the program into functions, classes and failures, and does nothing
else with them. So a program at other places runs like the one that was moved, and everything that it
leaves is what that one leaves, moved in the same way. A host may spoil this: its functions are told
where they were called. It does not when it only passes places on.

The same induction says what more fuel does. A computation with more fuel does the same, except where
the one with less had to stop for want of it.

## Contents
- `Host.PassesOn`: a host that only passes places on.
- `Host.PassesTo`, `Setting.PassesTo`: a host that does at other places what another one does.
- `Follows`: a computation does what another one does, at other places.
- `Follows.bind`, `Follows.within`, `Follows.inCall`, `Follows.lookUp` and the others: the steps.
- `Follows.superMethod` to `Follows.callNative`: the parts of constructs.
- `Alike`, `alike`: every call of the evaluator.
-/

namespace Lox

/-- What a host does with a place is the same for all places: it passes on those that it was given,
and none of its own. The callbacks are not given any. -/
structure Host.PassesOn (host : Host) (move : Location → Location) : Prop where
  call : ∀ (name : String) (c : Host.Call),
    host.call name (c.relocate move) = (host.call name c).relocate move
  onPrint : ∀ (history : Array Event) (text : String) (f : Failure),
    host.onPrint history text = some f → f.relocate move = f
  onExit : ∀ (history : Array Event) (code : Float) (f : Failure),
    host.onExit history code = some f → f.relocate move = f

/-- What one host does with places, the other one does with the moved places. In everything else the
two are alike. -/
structure Host.PassesTo (host host' : Host) (move : Location → Location) : Prop where
  call : ∀ (name : String) (c : Host.Call),
    host'.call name (c.relocate move) = (host.call name c).relocate move
  onPrint : ∀ (history : Array Event) (text : String),
    host'.onPrint history text = (host.onPrint history text).map (·.relocate move)
  onExit : ∀ (history : Array Event) (code : Float),
    host'.onExit history code = (host.onExit history code).map (·.relocate move)
  clock : host'.clock = host.clock
  random : host'.random = host.random

/-- A host that only passes places on does so at all places alike. -/
theorem Host.PassesOn.passesTo {host : Host} {move : Location → Location} (h : host.PassesOn move) :
    host.PassesTo host move where
  call := h.call
  onPrint history text := by
    cases hprint : host.onPrint history text with
    | none => rfl
    | some f => exact congrArg some (h.onPrint history text f hprint).symm
  onExit history code := by
    cases hexit : host.onExit history code with
    | none => rfl
    | some f => exact congrArg some (h.onExit history code f hexit).symm
  clock := rfl
  random := rfl

/-- The same for settings, which limit the calls in progress alike. -/
structure Setting.PassesTo (setting setting' : Setting) (move : Location → Location) : Prop where
  host : setting.host.PassesTo setting'.host move
  maxCallDepth : setting'.maxCallDepth = setting.maxCallDepth

theorem Setting.PassesTo.ofPassesOn {setting : Setting} {move : Location → Location}
    (h : setting.host.PassesOn move) : setting.PassesTo setting move := ⟨h.passesTo, rfl⟩

/-- Nothing is moved. -/
theorem Host.passesOn_id (host : Host) : host.PassesOn id where
  call name c := by
    have hcall : c.relocate id = c := by
      unfold Host.Call.relocate
      simp
    have hreply (r : Host.Reply) : r.relocate id = r := by
      obtain ⟨printed, result⟩ := r
      cases result <;> simp [Host.Reply.relocate]
    rw [hcall, hreply]
  onPrint _ _ f _ := f.relocate_id
  onExit _ _ f _ := f.relocate_id

namespace Places

/-- The end of a computation at another place, when `f` moves its value there. -/
def relocateEnd {α β : Type} (move : Location → Location) (f : α → β) :
    EStateM.Result Stop Machine α → EStateM.Result Stop Machine β
  | .ok a m => .ok (f a) (m.relocate move)
  | .error stop m => .error (stop.relocate move) (m.relocate move)

/-- A computation stopped for want of fuel. -/
def OutOfFuel {α : Type} (r : EStateM.Result Stop Machine α) : Prop := ∃ m, r = .error .outOfFuel m

/-- From a machine at other places, `y` does what `x` does, at these places. When it is `late`, it has
more fuel than `x`, and may go on where `x` stopped for want of it. -/
def Follows {α β : Type} (late : Prop) (move : Location → Location) (f : α → β) (x : Eval α)
    (y : Eval β) : Prop :=
  ∀ m, y (m.relocate move) = relocateEnd move f (x m) ∨ late ∧ OutOfFuel (x m)

namespace Follows

variable {α β γ δ : Type} {late : Prop} {move : Location → Location}

/-! ## Steps of a machine -/

theorem of_eq {f : α → β} {x : Eval α} {y : Eval β}
    (h : ∀ m, y (m.relocate move) = relocateEnd move f (x m)) : Follows late move f x y := by
  intro m
  exact .inl (h m)

theorem pure {f : α → β} {a : α} {b : β} (h : f a = b) :
    Follows late move f (Pure.pure a) (Pure.pure b) := by
  subst h
  exact of_eq fun m => rfl

/-- **Sequencing.** -/
theorem bind {f : α → β} {g : γ → δ} {x : Eval α} {y : Eval β} {k : α → Eval γ} {l : β → Eval δ}
    (hx : Follows late move f x y) (hk : ∀ a, Follows late move g (k a) (l (f a))) :
    Follows late move g (x >>= k) (y >>= l) := by
  intro m
  rw [bind_apply, bind_apply]
  rcases hx m with hsame | ⟨hlate, m', hstop⟩
  · rw [hsame]
    cases x m with
    | ok a m' => exact hk a m'
    | error stop m' => exact .inl rfl
  · rw [hstop]
    exact .inr ⟨hlate, m', rfl⟩

theorem raise {g : α → β} (f : Failure) :
    Follows late move g (Eval.raise f) (Eval.raise (f.relocate move)) :=
  of_eq fun _ => rfl

theorem raiseAt {g : α → β} (location : Location) (cause : RuntimeError.Cause) :
    Follows late move g (Eval.raiseAt location cause) (Eval.raiseAt (move location) cause) :=
  raise _

theorem defect {g : α → β} (d : Defect) (location : Option Location) :
    Follows late move g (Eval.defect d location) (Eval.defect d (location.map move)) :=
  raise _

theorem liftAt {g : α → β} (location : Location) (result : Except RuntimeError.Cause α) :
    Follows late move g (Eval.liftAt location result) (Eval.liftAt (move location) (result.map g)) := by
  cases result with
  | ok a => exact pure rfl
  | error cause => exact raiseAt location cause

theorem machine : Follows late move (Machine.relocate move) get get := of_eq fun _ => rfl

theorem chain : Follows late move id Eval.chain Eval.chain := of_eq fun _ => rfl

theorem draw : Follows late move id Eval.draw Eval.draw := of_eq fun _ => rfl

theorem take {f : α → α} {g : Memory → α × Memory}  {h : Memory → α × Memory}
    (hg : ∀ m, h (m.relocate move) = (f (g m).1, (g m).2.relocate move)) :
    Follows late move f (Eval.take g) (Eval.take h) := by
  refine of_eq fun m => ?_
  show EStateM.Result.ok (h (m.memory.relocate move)).1
    { m with memory := (h (m.memory.relocate move)).2 } = _
  rw [hg m.memory]
  rfl

theorem newScope (bindings : Table Value) :
    Follows late move id (Eval.take (·.newScope bindings))
      (Eval.take (·.newScope (bindings.map (·.relocate move)))) :=
  take fun m => m.newScope_relocate move bindings

theorem newInstance (c : Class) :
    Follows late move (Instance.relocate move) (Eval.take (·.newInstance c))
      (Eval.take (·.newInstance (c.relocate move))) :=
  take fun m => m.newInstance_relocate move c

theorem newId : Follows late move id (Eval.take (·.newId)) (Eval.take (·.newId)) :=
  take fun _ => rfl

theorem modifyMemory {g h : Memory → Memory}
    (hg : ∀ m, h (m.relocate move) = (g m).relocate move) :
    Follows late move id (Eval.modifyMemory g) (Eval.modifyMemory h) := by
  refine of_eq fun m => ?_
  show EStateM.Result.ok () { m with memory := h (m.memory.relocate move) } = _
  rw [hg m.memory]
  rfl

theorem setField (i : Instance) (name : String) (v : Value) :
    Follows late move id (Eval.modifyMemory (·.setField i name v))
      (Eval.modifyMemory (·.setField (i.relocate move) name (v.relocate move))) :=
  modifyMemory fun m => m.setField_relocate move i name v

theorem bindIn (i : Nat) (name : String) (v : Value) :
    Follows late move id (Eval.bindIn i name v) (Eval.bindIn i name (v.relocate move)) :=
  modifyMemory fun m => m.bind_relocate move i name v

theorem define (name : String) (v : Value) :
    Follows late move id (Eval.define name v) (Eval.define name (v.relocate move)) := by
  refine of_eq fun m => ?_
  show EStateM.Result.ok ()
    { m with memory := (m.memory.relocate move).define m.chain name (v.relocate move) } = _
  rw [Memory.define_relocate]
  rfl

theorem lookUp (name : String) (depth : Option Nat) (location : Location) :
    Follows late move (Value.relocate move) (Eval.lookUp name depth location)
      (Eval.lookUp name depth (move location)) := by
  refine of_eq fun m => ?_
  unfold Eval.lookUp
  cases depth with
  | none =>
      have hget : (m.relocate move).memory.get? name globalChain = _ :=
        m.memory.get?_relocate move name globalChain
      dsimp only
      rw [hget]
      cases m.memory.get? name globalChain <;> rfl
  | some depth =>
      have hget : (m.relocate move).memory.getAt (m.relocate move).chain depth name = _ :=
        m.memory.getAt_relocate move m.chain depth name
      dsimp only
      rw [hget]
      cases m.memory.getAt m.chain depth name <;> rfl

theorem assign (name : String) (depth : Option Nat) (v : Value) (location : Location) :
    Follows late move id (Eval.assign name depth v location)
      (Eval.assign name depth (v.relocate move) (move location)) := by
  intro m
  unfold Eval.assign
  cases depth with
  | none =>
      have howner : (m.relocate move).memory.owner? name globalChain = _ :=
        m.memory.owner?_relocate move name globalChain
      dsimp only
      rw [howner]
      cases m.memory.owner? name globalChain with
      | none => exact .inl rfl
      | some i => exact bindIn i name v m
  | some depth =>
      have howner : (m.relocate move).memory.ownerAt (m.relocate move).chain depth name = _ :=
        m.memory.ownerAt_relocate move m.chain depth name
      dsimp only
      rw [howner]
      cases m.memory.ownerAt m.chain depth name with
      | error d => exact .inl rfl
      | ok i => exact bindIn i name v m

theorem within {f : α → β} (c : Chain) {x : Eval α} {y : Eval β}
    (h : Follows late move f x y) :
    Follows late move f (Eval.within c x) (Eval.within c y) := by
  intro m
  unfold Eval.within
  have hbody : y { m.relocate move with chain := c } = _ ∨ _ := h { m with chain := c }
  rcases hbody with hsame | ⟨hlate, m', hstop⟩
  · rw [hsame]
    cases x { m with chain := c } <;> exact .inl rfl
  · rw [hstop]
    exact .inr ⟨hlate, _, rfl⟩

/-- A host without stack is a stack overflow at the place of the call, wherever that is. -/
theorem relocate_inCallAt (location : Location) (stop : Stop) :
    (stop.relocate move).inCallAt (move location) = (stop.inCallAt location).relocate move := by
  cases stop with
  | outOfFuel => rfl
  | failure f => cases f <;> rfl

theorem inCall {f : α → β} (maxCallDepth : Nat) (location : Location) {x : Eval α} {y : Eval β}
    (h : Follows late move f x y) :
    Follows late move f (Eval.inCall maxCallDepth location x)
      (Eval.inCall maxCallDepth (move location) y) := by
  intro m
  unfold Eval.inCall
  have hdepth : (m.relocate move).callDepth = m.callDepth := rfl
  rw [hdepth]
  split
  · exact .inl rfl
  · have hbody : y { m.relocate move with callDepth := m.callDepth + 1 } = _ ∨ _ :=
      h { m with callDepth := m.callDepth + 1 }
    rcases hbody with hsame | ⟨hlate, m', hstop⟩
    · rw [hsame]
      cases x { m with callDepth := m.callDepth + 1 } with
      | ok a m' => exact .inl rfl
      | error stop m' =>
          refine .inl ?_
          show EStateM.Result.error ((stop.relocate move).inCallAt (move location)) _ = _
          rw [relocate_inCallAt]
          rfl
    · rw [hstop]
      exact .inr ⟨hlate, _, rfl⟩

theorem enter (bindings : Table Value) (outer : Chain) :
    Follows late move id (Eval.enter bindings outer)
      (Eval.enter (bindings.map (·.relocate move)) outer) := by
  refine (newScope bindings).bind fun i => ?_
  exact pure rfl

/-! ## Parts of constructs -/

/-- A new method value. -/
theorem method (closure : Closure) (i : Instance) :
    Follows late move (Value.relocate move)
      (Eval.take (·.newId) >>= fun id => Pure.pure (Value.method id closure i))
      (Eval.take (·.newId) >>= fun id =>
        Pure.pure (Value.method id (closure.relocate move) (i.relocate move))) := by
  refine newId.bind fun id => ?_
  exact pure rfl

/-- A method that is looked up in a class, for an instance. -/
theorem methodOf (c : Class) (i : Instance) (name : String) (location : Location) :
    Follows late move (Value.relocate move)
      (match c.findMethod? name with
        | some closure => do
          let id ← Eval.take (·.newId)
          Pure.pure (.method id closure i)
        | none => Eval.raiseAt location (.undefinedProperty name))
      (match (c.relocate move).findMethod? name with
        | some closure => do
          let id ← Eval.take (·.newId)
          Pure.pure (.method id closure (i.relocate move))
        | none => Eval.raiseAt (move location) (.undefinedProperty name)) := by
  rw [c.findMethod?_relocate]
  cases c.findMethod? name with
  | none => exact raiseAt _ _
  | some closure => exact method closure i

theorem superMethod (depth : Option Nat) (name : String) (location : Location) :
    Follows late move (Value.relocate move) (Eval.superMethod depth name location)
      (Eval.superMethod depth name (move location)) := by
  unfold Eval.superMethod
  match depth with
  | none => exact defect _ _
  | some 0 => exact defect _ _
  | some (depth + 1) =>
      refine (lookUp _ _ _).bind fun superclass => (lookUp _ _ _).bind fun receiver => ?_
      cases superclass with
      | «class» c =>
          cases receiver with
          | «instance» i => exact methodOf c i name location
          | nil | bool | number | string | function | «class» | method | native =>
              exact defect _ _
      | nil | bool | number | string | function | «instance» | method | native =>
          exact defect _ _

theorem property (object : Value) (name : String) (location : Location) :
    Follows late move (Value.relocate move) (Eval.property object name location)
      (Eval.property (object.relocate move) name (move location)) := by
  cases object with
  | «instance» i =>
      refine machine.bind fun m => ?_
      have hfield : ((m.relocate move).memory.fieldsOf (i.relocate move)).get? name =
          ((m.memory.fieldsOf i).get? name).map (·.relocate move) := by
        show ((m.memory.relocate move).fieldsOf (i.relocate move)).get? name = _
        rw [Memory.fieldsOf_relocate, Table.get?_map]
      rw [hfield]
      cases (m.memory.fieldsOf i).get? name with
      | some v => exact pure rfl
      | none => exact methodOf i.ofClass i name location
  | nil | bool | number | string | function | «class» | method | native => exact raiseAt _ _

theorem fieldOwner (object : Value) (location : Location) :
    Follows late move (Instance.relocate move) (Eval.fieldOwner object location)
      (Eval.fieldOwner (object.relocate move) (move location)) := by
  cases object with
  | «instance» i => exact pure rfl
  | nil | bool | number | string | function | «class» | method | native => exact raiseAt _ _

theorem superclassOf (superclass : Option NameUse) :
    Follows late move (Option.map (Class.relocate move)) (Eval.superclassOf superclass)
      (Eval.superclassOf (superclass.map (·.relocate move))) := by
  cases superclass with
  | none => exact pure rfl
  | some use =>
      refine (lookUp use.name use.depth use.span.start).bind fun v => ?_
      cases v with
      | «class» c => exact pure rfl
      | nil | bool | number | string | function | «instance» | method | native =>
          exact raiseAt _ _

theorem methodChain (superclass : Option Class) :
    Follows late move id (Eval.methodChain superclass)
      (Eval.methodChain (superclass.map (·.relocate move))) := by
  cases superclass with
  | none => exact chain
  | some c =>
      refine chain.bind fun outer => ?_
      exact enter (Table.ofList [("super", .class c)]) outer

theorem makeMethods_relocate (seen : Chain) (methods : List FunctionDecl) :
    Eval.makeMethods seen (FunctionDecl.relocateAll move methods) =
      (Eval.makeMethods seen methods).map fun m => (m.1, m.2.relocate move) := by
  have hmap (t : Table Closure) :
      t.entries.map (fun m => (m.1, m.2.relocate move)) = (t.map (·.relocate move)).entries := rfl
  unfold Eval.makeMethods
  rw [hmap, Table.map_ofList, FunctionDecl.relocateAll_eq_map, List.map_map, List.map_map]
  congr 3
  funext f
  simp only [Function.comp_apply, FunctionDecl.name_relocate, Closure.relocate]

theorem declareClass (name : String) (superclass : Option NameUse) (methods : List FunctionDecl) :
    Follows late move id (Eval.declareClass name superclass methods)
      (Eval.declareClass name (superclass.map (·.relocate move))
        (FunctionDecl.relocateAll move methods)) := by
  refine (superclassOf superclass).bind fun c => (define name .nil).bind fun _ => ?_
  refine (methodChain c).bind fun seen => newId.bind fun id => ?_
  rw [makeMethods_relocate]
  have hclass : (Value.class ⟨id, name, c, Eval.makeMethods seen methods⟩).relocate move =
      .class ⟨id, name, c.map (·.relocate move),
        (Eval.makeMethods seen methods).map fun m => (m.1, m.2.relocate move)⟩ := by
    cases c <;> rfl
  exact hclass ▸ define name _

theorem bindParams_relocate (params : List Param) (args : List Value) :
    Eval.bindParams (params.map (·.relocate move)) (args.map (·.relocate move)) =
      (Eval.bindParams params args).map fun e => (e.1, e.2.relocate move) := by
  induction params generalizing args with
  | nil => rfl
  | cons p ps ih =>
      simp only [List.map_cons, Eval.bindParams]
      rw [headD_relocate, ← List.map_drop, ih]
      rfl

theorem bodyChain (closure : Closure) (args : List Value) (receiver : Option Instance) :
    Follows late move id (Eval.bodyChain closure args receiver)
      (Eval.bodyChain (closure.relocate move) (args.map (·.relocate move))
        (receiver.map (·.relocate move))) := by
  have hbody (outer : Chain) : Follows late move id
      (Eval.enter (Table.ofList (Eval.bindParams closure.declaration.params args)) outer)
      (Eval.enter (Table.ofList (Eval.bindParams (closure.relocate move).declaration.params
        (args.map (·.relocate move)))) outer) := by
    have hparams : (closure.relocate move).declaration.params =
        closure.declaration.params.map (·.relocate move) := closure.declaration.params_relocate move
    rw [hparams, bindParams_relocate, ← Table.map_ofList]
    exact enter _ outer
  cases receiver with
  | none =>
      refine bind (f := id) (pure rfl) fun outer => ?_
      exact hbody outer
  | some i =>
      refine (enter (Table.ofList [("this", .instance i)]) closure.chain).bind fun outer => ?_
      exact hbody outer

theorem callResult (closure : Closure) (receiver : Option Instance) (flow : Flow) :
    Follows late move (Value.relocate move) (Eval.callResult closure receiver flow)
      (Eval.callResult (closure.relocate move) (receiver.map (·.relocate move))
        (flow.relocate move)) := by
  unfold Eval.callResult
  have hinit : (closure.relocate move).isInitializer = closure.isInitializer := rfl
  rw [hinit]
  split
  · cases receiver <;> exact pure rfl
  · cases flow with
    | normal => exact pure rfl
    | «return» v => exact pure rfl
    | «break» | «continue» =>
        dsimp only [Flow.relocate]
        rw [closure.name_relocate]
        exact defect _ none

/-! ## The host -/

/-- A check of the arguments of a built-in function, which yields no value of the language. -/
theorem checked (b : Builtin) (location : Location) (result : Except String α) :
    Follows late move id (b.checked location result) (b.checked (move location) result) := by
  cases result with
  | ok a => exact pure rfl
  | error reason => exact raiseAt location (.rejectedArguments b.name reason)

section Host

variable {host host' : Host} (hhost : host.PassesTo host' move)

include hhost

theorem print (text : String) :
    Follows late move id (Eval.print host text) (Eval.print host' text) := by
  refine of_eq fun m => ?_
  unfold Eval.print
  have hevents : (m.relocate move).events = m.events := rfl
  rw [hevents, hhost.onPrint]
  cases host.onPrint m.events text with
  | none => rfl
  | some f => rfl

theorem printAll (texts : List String) :
    Follows late move id (Eval.printAll host texts) (Eval.printAll host' texts) := by
  induction texts with
  | nil => exact pure rfl
  | cons text texts ih => exact (print hhost text).bind fun _ => ih

theorem exit (code : Float) :
    Follows late move id (Eval.exit host code) (Eval.exit host' code) := by
  refine of_eq fun m => ?_
  unfold Eval.exit
  have hevents : (m.relocate move).events = m.events := rfl
  dsimp only
  rw [hevents, hhost.onExit]
  cases host.onExit m.events code with
  | none => rfl
  | some f => rfl

theorem builtin (b : Builtin) (args : List Value) (location : Location) :
    Follows late move (Value.relocate move) (b.call host args location)
      (b.call host' (args.map (·.relocate move)) (move location)) := by
  unfold Builtin.call
  rw [headD_relocate, headD_drop_relocate, hhost.clock, hhost.random]
  cases b with
  | clock | rand => exact draw.bind fun _ => pure rfl
  | type =>
      dsimp only
      rw [Value.typeName_relocate]
      exact pure rfl
  | round =>
      dsimp only
      rw [Builtin.rounded_relocate]
      exact (checked _ _ _).bind fun _ => pure rfl
  | randint =>
      dsimp only
      rw [Builtin.bounds_relocate]
      exact (checked _ _ _).bind fun _ => draw.bind fun _ => pure rfl
  | help =>
      dsimp only
      rw [Builtin.helpText_relocate]
      exact (print hhost _).bind fun _ => pure rfl
  | exit =>
      dsimp only
      rw [Builtin.exitCode_relocate]
      exact (checked _ _ _).bind fun code => (exit hhost code).bind fun _ => pure rfl
  | quit => exact (exit hhost 0).bind fun _ => pure rfl
  | dir =>
      refine machine.bind fun m => ?_
      have hnames : ((m.relocate move).memory.scope globalScope).names =
          (m.memory.scope globalScope).names := by
        show ((m.memory.relocate move).scope globalScope).names = _
        rw [Memory.scope_relocate, Table.names_map]
      rw [hnames]
      exact (printAll hhost _).bind fun _ => pure rfl

theorem callNative (n : Native) (args : List Value) (location : Location) :
    Follows late move (Value.relocate move) (Eval.callNative host n args location)
      (Eval.callNative host' n (args.map (·.relocate move)) (move location)) := by
  unfold Eval.callNative
  cases n.body with
  | builtin b => exact builtin hhost b args location
  | host =>
      refine machine.bind fun m => draw.bind fun turn => ?_
      have hreply : host'.call n.name
          ⟨args.map (·.relocate move), move location, m.callDepth, m.events, turn⟩ = _ :=
        hhost.call n.name ⟨args, location, m.callDepth, m.events, turn⟩
      dsimp only [Machine.relocate, id]
      rw [hreply]
      refine (printAll hhost _).bind fun _ => ?_
      dsimp only [Host.Reply.relocate]
      cases (host.call n.name ⟨args, location, m.callDepth, m.events, turn⟩).result with
      | ok v => exact pure rfl
      | error f => exact raise f

end Host

end Follows

/-! ## Every call of the evaluator -/

/-- The calls of the evaluator with the bound `n` on the recursion, and those with the bound `n'` at
other places. -/
structure Alike (setting setting' : Setting) (late : Prop) (move : Location → Location)
    (n n' : Nat) : Prop where
  evaluate : ∀ e, Follows late move (Value.relocate move) (evaluate setting n e)
    (evaluate setting' n' (e.relocate move))
  evaluateAll : ∀ es, Follows late move (List.map (Value.relocate move)) (evaluateAll setting n es)
    (evaluateAll setting' n' (Expr.relocateAll move es))
  callValue : ∀ callee args location, Follows late move (Value.relocate move)
    (callValue setting n callee args location)
    (callValue setting' n' (callee.relocate move) (args.map (Value.relocate move)) (move location))
  invoke : ∀ callee args location, Follows late move (Value.relocate move)
    (invoke setting n callee args location)
    (invoke setting' n' (callee.relocate move) (args.map (Value.relocate move)) (move location))
  callFunction : ∀ closure args receiver, Follows late move (Value.relocate move)
    (callFunction setting n closure args receiver)
    (callFunction setting' n' (closure.relocate move) (args.map (Value.relocate move))
      (receiver.map (Instance.relocate move)))
  instantiate : ∀ c args, Follows late move (Value.relocate move) (instantiate setting n c args)
    (instantiate setting' n' (c.relocate move) (args.map (Value.relocate move)))
  execute : ∀ s, Follows late move (Flow.relocate move) (execute setting n s)
    (execute setting' n' (s.relocate move))
  executeLoop : ∀ condition body increment, Follows late move (Flow.relocate move)
    (executeLoop setting n condition body increment)
    (executeLoop setting' n' (condition.relocate move) (body.relocate move)
      (increment.map (Expr.relocate move)))
  executeDecl : ∀ d, Follows late move (Flow.relocate move) (executeDecl setting n d)
    (executeDecl setting' n' (d.relocate move))
  executeAll : ∀ ds, Follows late move (Flow.relocate move) (executeAll setting n ds)
    (executeAll setting' n' (Decl.relocateAll move ds))

namespace Follows

variable {late : Prop} {move : Location → Location} {setting setting' : Setting} {n n' : Nat}
  (inside : Alike setting setting' late move n n')

include inside

/-- **An expression**, when its parts and the calls in it follow. -/
theorem evaluate (e : Expr) : Follows late move (Value.relocate move)
    (evaluate setting (n + 1) e) (evaluate setting' (n' + 1) (e.relocate move)) := by
  cases e with
  | literal value span => exact pure (Value.relocate_ofLiteral move value)
  | grouping inner span => exact inside.evaluate inner
  | unary op operand span =>
      refine (inside.evaluate operand).bind fun v => ?_
      rw [op.apply_relocate]
      exact liftAt span.start _
  | binary op left right span =>
      refine (inside.evaluate left).bind fun v => (inside.evaluate right).bind fun w => ?_
      rw [op.apply_relocate]
      exact liftAt span.start _
  | logical op left right span =>
      refine (inside.evaluate left).bind fun v => ?_
      rw [op.decides_relocate]
      split
      · exact pure rfl
      · exact inside.evaluate right
  | «variable» use => exact lookUp use.name use.depth use.span.start
  | assign name depth value span =>
      refine (inside.evaluate value).bind fun v => ?_
      exact (assign name depth v span.start).bind fun _ => pure rfl
  | call callee args span =>
      refine (inside.evaluate callee).bind fun f => (inside.evaluateAll args).bind fun vs => ?_
      exact inside.callValue f vs span.start
  | get object name span =>
      refine (inside.evaluate object).bind fun o => ?_
      exact property o name span.start
  | set object name value span =>
      refine (inside.evaluate object).bind fun o => (fieldOwner o span.start).bind fun i => ?_
      refine (inside.evaluate value).bind fun v => ?_
      exact (setField i name v).bind fun _ => pure rfl
  | this depth span => exact lookUp "this" depth span.start
  | super depth method span => exact superMethod depth method span.start

theorem evaluateAll (es : List Expr) : Follows late move (List.map (Value.relocate move))
    (evaluateAll setting (n + 1) es) (evaluateAll setting' (n' + 1) (Expr.relocateAll move es)) := by
  cases es with
  | nil => exact pure rfl
  | cons e es =>
      refine (inside.evaluate e).bind fun v => (inside.evaluateAll es).bind fun vs => ?_
      exact pure rfl

theorem callValue (hlimit : setting'.maxCallDepth = setting.maxCallDepth) (callee : Value)
    (args : List Value) (location : Location) :
    Follows late move (Value.relocate move) (callValue setting (n + 1) callee args location)
      (callValue setting' (n' + 1) (callee.relocate move) (args.map (Value.relocate move))
        (move location)) := by
  unfold Lox.callValue
  rw [callee.callable?_relocate]
  cases callee.callable? with
  | none => exact raiseAt location _
  | some c =>
      dsimp only [Option.map_some]
      rw [c.arity_relocate, List.length_map]
      split
      · rw [hlimit]
        exact inCall _ location (inside.invoke c args location)
      · exact raiseAt location _

variable (hhost : setting.host.PassesTo setting'.host move)

include hhost in
theorem invoke (callee : Callable) (args : List Value) (location : Location) :
    Follows late move (Value.relocate move) (invoke setting (n + 1) callee args location)
      (invoke setting' (n' + 1) (callee.relocate move) (args.map (Value.relocate move))
        (move location)) := by
  cases callee with
  | function closure => exact inside.callFunction closure args none
  | method closure receiver => exact inside.callFunction closure args (some receiver)
  | «class» c => exact inside.instantiate c args
  | native native => exact callNative hhost native args location

/-- **A function**, when its body follows. -/
theorem callFunction (closure : Closure) (args : List Value) (receiver : Option Instance) :
    Follows late move (Value.relocate move)
      (callFunction setting (n + 1) closure args receiver)
      (callFunction setting' (n' + 1) (closure.relocate move) (args.map (Value.relocate move))
        (receiver.map (Instance.relocate move))) := by
  refine (bodyChain closure args receiver).bind fun seen => ?_
  have hbody : (closure.relocate move).declaration.body =
      Decl.relocateAll move closure.declaration.body := closure.declaration.body_relocate move
  rw [hbody]
  refine (within seen (inside.executeAll closure.declaration.body)).bind fun flow => ?_
  exact callResult closure receiver flow

theorem instantiate (c : Class) (args : List Value) :
    Follows late move (Value.relocate move) (instantiate setting (n + 1) c args)
      (instantiate setting' (n' + 1) (c.relocate move) (args.map (Value.relocate move))) := by
  refine (newInstance c).bind fun i => ?_
  rw [c.findMethod?_relocate]
  cases c.findMethod? initializerName with
  | none => exact pure rfl
  | some closure =>
      refine (inside.callFunction closure args (some i)).bind fun _ => ?_
      exact pure rfl

include hhost in
/-- **A statement**, when its parts follow. -/
theorem execute (s : Stmt) : Follows late move (Flow.relocate move)
    (execute setting (n + 1) s) (execute setting' (n' + 1) (s.relocate move)) := by
  cases s with
  | expression value span =>
      refine (inside.evaluate value).bind fun _ => ?_
      exact pure rfl
  | print value span =>
      refine (inside.evaluate value).bind fun v => ?_
      rw [v.text_relocate]
      exact (print hhost v.text).bind fun _ => pure rfl
  | block body span =>
      refine chain.bind fun outer => (enter Table.empty outer).bind fun inner => ?_
      exact within inner (inside.executeAll body)
  | ifThenElse condition thenBranch elseBranch span =>
      cases elseBranch with
      | none =>
          refine (inside.evaluate condition).bind fun v => ?_
          rw [v.isTruthy_relocate]
          split
          · exact inside.execute thenBranch
          · exact pure rfl
      | some s =>
          refine (inside.evaluate condition).bind fun v => ?_
          rw [v.isTruthy_relocate]
          split
          · exact inside.execute thenBranch
          · exact inside.execute s
  | whileLoop condition body increment span => exact inside.executeLoop condition body increment
  | «break» span => exact pure rfl
  | «continue» span => exact pure rfl
  | «return» value span =>
      cases value with
      | none => exact pure rfl
      | some e =>
          refine (inside.evaluate e).bind fun v => ?_
          exact pure rfl

/-- **A round of a loop and those that follow.** -/
theorem executeLoop (condition : Expr) (body : Stmt) (increment : Option Expr) :
    Follows late move (Flow.relocate move)
      (executeLoop setting (n + 1) condition body increment)
      (executeLoop setting' (n' + 1) (condition.relocate move) (body.relocate move)
        (increment.map (Expr.relocate move))) := by
  refine (inside.evaluate condition).bind fun v => ?_
  rw [v.isTruthy_relocate]
  split
  · refine (inside.execute body).bind fun flow => ?_
    cases flow with
    | normal | «continue» =>
        cases increment with
        | none => exact inside.executeLoop condition body none
        | some e =>
            refine (inside.evaluate e).bind fun _ => ?_
            exact inside.executeLoop condition body (some e)
    | «break» => exact pure rfl
    | «return» v => exact pure rfl
  · exact pure rfl

/-- **A declaration**, when its parts follow. -/
theorem executeDecl (d : Decl) : Follows late move (Flow.relocate move)
    (executeDecl setting (n + 1) d) (executeDecl setting' (n' + 1) (d.relocate move)) := by
  cases d with
  | var name initial span =>
      cases initial with
      | none => exact (define name .nil).bind fun _ => pure rfl
      | some e =>
          refine (inside.evaluate e).bind fun v => ?_
          exact (define name v).bind fun _ => pure rfl
  | function decl =>
      refine newId.bind fun id => chain.bind fun seen => ?_
      rw [decl.name_relocate]
      exact (define decl.name (.function id ⟨decl, seen, false⟩)).bind fun _ => pure rfl
  | «class» name superclass methods span =>
      exact (declareClass name superclass methods).bind fun _ => pure rfl
  | stmt s => exact inside.execute s

theorem executeAll (ds : List Decl) : Follows late move (Flow.relocate move)
    (executeAll setting (n + 1) ds) (executeAll setting' (n' + 1) (Decl.relocateAll move ds)) := by
  cases ds with
  | nil => exact pure rfl
  | cons d ds =>
      refine (inside.executeDecl d).bind fun flow => ?_
      cases flow with
      | normal => exact inside.executeAll ds
      | «break» | «continue» | «return» v => exact pure rfl

end Follows

variable {late : Prop} {move : Location → Location} {setting setting' : Setting}

/-- A call without fuel. -/
theorem Follows.exhausted {α β : Type} {f : α → β} {y : Eval β}
    (h : ∀ m, late ∨ y m = .error .outOfFuel m) :
    Follows late move f (throw .outOfFuel) y := by
  intro m
  rcases h (m.relocate move) with hlate | hy
  · exact .inr ⟨hlate, m, rfl⟩
  · exact .inl hy

/-- **Every call of the evaluator follows** a call with the same fuel, or with less when it is late. -/
theorem alike (hpasses : setting.PassesTo setting' move) {n n' : Nat} (hle : n ≤ n')
    (hlate : n < n' → late) : Alike setting setting' late move n n' := by
  induction n generalizing n' with
  | zero =>
      -- without fuel the first call stops at once, and the second one too unless it is late
      cases n' with
      | zero =>
          constructor <;> intros <;> exact .exhausted fun _ => .inr rfl
      | succ n' =>
          constructor <;> intros <;> exact .exhausted fun _ => .inl (hlate (Nat.succ_pos n'))
  | succ n ih =>
      obtain ⟨n', rfl⟩ : ∃ k, n' = k + 1 := ⟨n' - 1, by omega⟩
      have inside : Alike setting setting' late move n n' := ih (by omega) fun h => hlate (by omega)
      exact ⟨.evaluate inside, .evaluateAll inside, .callValue inside hpasses.maxCallDepth,
        .invoke inside hpasses.host,
        .callFunction inside, .instantiate inside, .execute inside hpasses.host, .executeLoop inside,
        .executeDecl inside, .executeAll inside⟩

end Places

end Lox
