import Lox.Proofs.Evaluation.Contracts
import Lox.Proofs.Reachability.Places
import Lox.Proofs.Scoping.Runs

/-!
# Steps that stay within reach

A set of places that is closed, and that holds the globals and all that is still to come, is not left
by any step of the machine that starts from values and scopes of the set: what is read are values of
the set, what is written are such values, into places of the set, and new places belong to it.

## Contents
- `Stays`: computations that stay in a set of places.
- `Stays.lookUp` to `Stays.draw`: the steps of a machine.
- `Stays.superMethod` to `Stays.callResult`: the parts of constructs.
- `Host.StaysInReach`, `Stays.silent`: native functions.
-/

namespace Lox

namespace Reachability

open Evaluation

variable {S : Place → Prop} {before : Memory} {chain : Chain} {α β : Type}

/-- A computation changes the memory in places of the set alone, and yields something of the set. -/
abbrev Stays (S : Place → Prop) (before : Memory) (chain : Chain) (x : Eval α) (Q : α → Prop) : Prop :=
  Ensures (Confined S before) chain x Q

/-- What a statement ends with leads to places of a set. -/
def FlowIn (S : Place → Prop) (flow : Flow) : Prop := ∀ v, flow = .return v → ValueIn S v

theorem FlowIn.normal : FlowIn S .normal := nofun

theorem FlowIn.of_value {v : Value} (hv : ValueIn S v) : FlowIn S (.return v) := by
  intro w heq
  cases heq
  exact hv

namespace Stays

/-! ## The steps of a machine -/

/-- A step that yields something of the set and changes the memory in the set. -/
theorem of_ok {x : Eval α} {Q : α → Prop} (value : Machine → α) (memory : Machine → Memory)
    (hx : ∀ m, ∃ m', x m = .ok (value m) m' ∧ m'.memory = memory m ∧ m'.chain = m.chain)
    (h : ∀ m, Confined S before m.memory → m.chain = chain →
      Confined S before (memory m) ∧ Q (value m)) : Stays S before chain x Q := by
  intro m hm hchain
  obtain ⟨m', heq, hmemory, hsame⟩ := hx m
  obtain ⟨hconfined, hQ⟩ := h m hm hchain
  rw [heq]
  refine ⟨hmemory ▸ hconfined, hsame.trans hchain, fun a m'' h => ?_⟩
  cases h
  exact hQ

theorem machine : Stays S before chain (get : Eval Machine) fun m => Confined S before m.memory :=
  of_ok id (·.memory) (fun m => ⟨m, rfl, rfl, rfl⟩) fun _ hm _ => ⟨hm, hm⟩

theorem seen (hchain : ChainIn S chain) : Stays S before chain Eval.chain (ChainIn S) :=
  of_ok (·.chain) (·.memory) (fun m => ⟨m, rfl, rfl, rfl⟩) fun _ hm h => ⟨hm, h ▸ hchain⟩

theorem draw : Stays S before chain Eval.draw fun _ => True :=
  of_ok (·.draws) (·.memory) (fun _ => ⟨_, rfl, rfl, rfl⟩) fun _ hm _ => ⟨hm, trivial⟩

theorem newId : Stays S before chain (Eval.take (·.newId)) fun _ => True :=
  of_ok (·.memory.nextId) (·.memory.newId.2) (fun _ => ⟨_, rfl, rfl, rfl⟩) fun _ hm _ =>
    ⟨hm.newId, trivial⟩

/-- A new scope in front of others. -/
theorem enter {bindings : Table Value} (hbindings : TableIn S bindings) {outer : Chain}
    (houter : ChainIn S outer) : Stays S before chain (Eval.enter bindings outer) (ChainIn S) := by
  refine of_ok (·.memory.scopes.size :: outer) (·.memory.newScope bindings |>.2)
    (fun _ => ⟨_, rfl, rfl, rfl⟩) fun m hm _ => ⟨hm.newScope hbindings, fun i hi => ?_⟩
  obtain rfl | hi := List.mem_cons.1 hi
  · exact hm.newScopes _ (Nat.le_refl _)
  · exact houter i hi

theorem newInstance {c : Class} (hc : ClassIn S c) :
    Stays S before chain (Eval.take (·.newInstance c)) (InstanceIn S) :=
  of_ok (fun m => ⟨m.memory.fields.size, c⟩) (·.memory.newInstance c |>.2)
    (fun _ => ⟨_, rfl, rfl, rfl⟩) fun _ hm _ =>
      ⟨hm.newInstance c, hm.newObjects _ (Nat.le_refl _), hc⟩

theorem define (hchain : ChainIn S chain) (name : String) {v : Value} (hv : ValueIn S v) :
    Stays S before chain (Eval.define name v) fun _ => True :=
  of_ok (fun _ => ()) (fun m => m.memory.define m.chain name v) (fun _ => ⟨_, rfl, rfl, rfl⟩)
    fun _ hm h => ⟨hm.define (h ▸ hchain) name hv, trivial⟩

theorem setField {i : Instance} (hi : InstanceIn S i) (name : String) {v : Value}
    (hv : ValueIn S v) :
    Stays S before chain (Eval.modifyMemory (·.setField i name v)) fun _ => True :=
  of_ok (fun _ => ()) (·.memory.setField i name v) (fun _ => ⟨_, rfl, rfl, rfl⟩)
    fun _ hm _ => ⟨hm.setField hi name hv, trivial⟩

/-- The scopes further out are scopes of the chain. -/
theorem mem_of_ancestor? {chain outer : Chain} {depth i : Nat}
    (h : Chain.ancestor? chain depth = some (i :: outer)) : i ∈ chain := by
  induction chain generalizing depth with
  | nil => exact nomatch h
  | cons j chain ih =>
      cases depth with
      | zero =>
          cases h
          exact List.mem_cons_self
      | succ depth => exact List.mem_cons_of_mem _ (ih h)

/-- What a use of a name leads to is a scope of the set. -/
theorem scope_mem (hchain : ChainIn S chain) {m : Machine} (hm : Confined S before m.memory)
    (hsees : m.chain = chain) {depth : Option Nat} {i : Nat} (h : m.IsScopeAt depth i) :
    S (.scope i) := by
  cases depth with
  | none =>
      cases h
      exact hm.globals
  | some d =>
      obtain ⟨rest, hancestor⟩ := h
      exact hchain i (hsees ▸ mem_of_ancestor? hancestor)

/-- **A use of a name** yields a value of the set. -/
theorem lookUp (hchain : ChainIn S chain) (name : String) (depth : Option Nat)
    (location : Location) : Stays S before chain (Eval.lookUp name depth location) (ValueIn S) := by
  intro m hm hsees
  obtain ⟨i, v, hi, hv, heq⟩ | ⟨_, heq, _⟩ := Eval.lookUp_cases name depth location m
  · rw [heq]
    refine ⟨hm, hsees, fun a m' hok => ?_⟩
    cases hok
    exact hm.closed (.scope i) (scope_mem hchain hm hsees hi) name v hv
  · rw [heq]
    exact ⟨hm, hsees, nofun⟩

/-- **An assignment** binds a name again in a scope of the set. -/
theorem assign (hchain : ChainIn S chain) (name : String) (depth : Option Nat) {v : Value}
    (hv : ValueIn S v) (location : Location) :
    Stays S before chain (Eval.assign name depth v location) fun _ => True := by
  intro m hm hsees
  obtain ⟨i, hi, _, heq⟩ | ⟨_, heq, _⟩ := Eval.assign_cases name depth v location m
  · rw [heq]
    exact ⟨hm.bind (scope_mem hchain hm hsees hi) name hv, hsees, fun _ _ _ => trivial⟩
  · rw [heq]
    exact ⟨hm, hsees, nofun⟩

/-! ## The parts of constructs -/

theorem liftAt {Q : α → Prop} {location : Location} {result : Except RuntimeError.Cause α}
    (h : ∀ a, result = .ok a → Q a) : Stays S before chain (Eval.liftAt location result) Q := by
  cases result with
  | ok a => exact .pure (h a rfl)
  | error cause => exact .raise _

/-- A method that is bound to a receiver. -/
theorem method {closure : Closure} (hclosure : ClosureIn S closure) {i : Instance}
    (hi : InstanceIn S i) :
    Stays S before chain (Eval.take (·.newId) >>= fun id => pure (Value.method id closure i))
      (ValueIn S) :=
  newId.bind fun _ _ => .pure ⟨hclosure, hi⟩

theorem superMethod (hchain : ChainIn S chain) (depth : Option Nat) (name : String)
    (location : Location) :
    Stays S before chain (Eval.superMethod depth name location) (ValueIn S) := by
  unfold Eval.superMethod
  split
  · exact .raise _
  · exact .raise _
  · refine (lookUp hchain _ _ _).bind fun superclass hsuper =>
      (lookUp hchain _ _ _).bind fun receiver hreceiver => ?_
    split
    · split
      · rename_i hfind
        exact method (ClassIn.findMethod? hsuper hfind) hreceiver
      · exact .raise _
    · exact .raise _

/-- **A property** is a field of an instance of the set, or a method of its class. -/
theorem property {object : Value} (hobject : ValueIn S object) (name : String)
    (location : Location) :
    Stays S before chain (Eval.property object name location) (ValueIn S) := by
  unfold Eval.property
  split
  · rename_i i
    refine machine.bind fun m hm => ?_
    split
    · rename_i v hv
      exact .pure (hm.closed (.object i.id) hobject.1 name v hv)
    · split
      · rename_i hfind
        exact method (ClassIn.findMethod? hobject.2 hfind) hobject
      · exact .raise _
  · exact .raise _

theorem fieldOwner {object : Value} (hobject : ValueIn S object) (location : Location) :
    Stays S before chain (Eval.fieldOwner object location) (InstanceIn S) := by
  unfold Eval.fieldOwner
  split
  · exact .pure hobject
  · exact .raise _

theorem superclassOf (hchain : ChainIn S chain) (superclass : Option NameUse) :
    Stays S before chain (Eval.superclassOf superclass) fun found =>
      ∀ c, found = some c → ClassIn S c := by
  cases superclass with
  | none => exact .pure nofun
  | some use =>
      refine (lookUp hchain _ _ _).bind fun v hv => ?_
      split
      · refine .pure fun c heq => ?_
        cases heq
        exact hv
      · exact .raise _

theorem methodChain (hchain : ChainIn S chain) {superclass : Option Class}
    (hsuper : ∀ c, superclass = some c → ClassIn S c) :
    Stays S before chain (Eval.methodChain superclass) (ChainIn S) := by
  cases superclass with
  | none => exact seen hchain
  | some c =>
      refine (seen hchain).bind fun outer houter => enter (.ofList fun e he => ?_) houter
      obtain rfl := List.mem_singleton.1 he
      exact hsuper c rfl

/-- The methods of a new class see scopes of the set. -/
theorem classIn_makeMethods {id : Nat} {name : String} {superclass : Option Class}
    (hsuper : ∀ c, superclass = some c → ClassIn S c) {seen : Chain} (hseen : ChainIn S seen)
    (methods : List FunctionDecl) :
    ClassIn S ⟨id, name, superclass, Eval.makeMethods seen methods⟩ := by
  intro d hd closure hdefines
  obtain rfl | ⟨e, he, hde⟩ := Class.mem_ancestry.1 hd
  · obtain ⟨x, hmem⟩ := hdefines
    obtain ⟨f, _, heq⟩ := List.mem_map.1 (Table.mem_of_mem_ofList hmem)
    cases heq
    exact hseen
  · exact hsuper e he d hde closure hdefines

theorem declareClass (hchain : ChainIn S chain) (name : String) (superclass : Option NameUse)
    (methods : List FunctionDecl) :
    Stays S before chain (Eval.declareClass name superclass methods) fun _ => True := by
  refine (superclassOf hchain superclass).bind fun found hfound => ?_
  -- the name is bound before the methods are made, so that they can see it
  refine (define hchain name (show ValueIn S .nil from trivial)).bind fun _ _ => ?_
  refine (methodChain hchain hfound).bind fun seen hseen => newId.bind fun id _ => ?_
  exact define hchain name (classIn_makeMethods hfound hseen methods)

/-- **The scopes of a body** are those of its function, with new ones in front. -/
theorem bodyChain {closure : Closure} (hclosure : ClosureIn S closure) {args : List Value}
    (hargs : ValuesIn S args) {receiver : Option Instance}
    (hreceiver : ∀ i, receiver = some i → InstanceIn S i) :
    Stays S before chain (Eval.bodyChain closure args receiver) (ChainIn S) := by
  have hparams := TableIn.bindParams hargs closure.declaration.params
  cases receiver with
  | none => exact (Ensures.pure hclosure).bind fun outer houter => enter hparams houter
  | some i =>
      refine (enter (.ofList fun e he => ?_) hclosure).bind fun outer houter => enter hparams houter
      obtain rfl := List.mem_singleton.1 he
      exact hreceiver i rfl

theorem callResult (closure : Closure) {receiver : Option Instance}
    (hreceiver : ∀ i, receiver = some i → InstanceIn S i) {flow : Flow} (hflow : FlowIn S flow) :
    Stays S before chain (Eval.callResult closure receiver flow) (ValueIn S) := by
  unfold Eval.callResult
  split
  · cases receiver with
    | none => exact .pure trivial
    | some i => exact .pure (hreceiver i rfl)
  · cases flow with
    | normal => exact .pure trivial
    | «return» v => exact .pure (hflow v rfl)
    | «break» | «continue» => exact .raise _

end Stays

end Reachability

/-! ## Native functions -/

/-- A host whose functions yield only what leads to the globals, or where one of the arguments leads. -/
def Host.StaysInReach (host : Host) : Prop :=
  ∀ name c v, (host.call name c).result = .ok v → ∀ p, v.LeadsTo p →
    p = .scope globalScope ∨ ∃ a ∈ c.args, a.LeadsTo p

namespace Reachability

open Evaluation

variable {S : Place → Prop} {before : Memory} {chain : Chain} {args : List Value}

/-- What is made out of arguments leads where they lead. -/
theorem ValuesIn.offered (hargs : ValuesIn S args) {v : Value} (hv : Host.Offered args v) :
    ValueIn S v := by
  induction hv with
  | nil | bool | number | string | native => trivial
  | arg hmem => exact hargs _ hmem
  | classOf _ ih => exact ih.2
  | superclass _ hd ih => exact ClassIn.superclass ih hd
  | receiver _ ih => exact ih.2
  | method _ _ hfind ihc ihi => exact ⟨ClassIn.findMethod? ihc hfind, ihi⟩

/-- An honest host stays in reach. -/
theorem staysInReach_of_honest {host : Host} (h : host.Honest) : host.StaysInReach := by
  intro name c v hresult
  refine valueIn_iff.1 (ValuesIn.offered (fun a ha => ?_) (h name c v hresult))
  exact valueIn_iff.2 fun p hleads => .inr ⟨a, ha, hleads⟩

/-- **The answer of a host** that stays in reach leads to places of the set. -/
theorem valueIn_of_call {host : Host} (hhost : host.StaysInReach) {m : Memory}
    (hm : Confined S before m) {name : String} {c : Host.Call} (hargs : ValuesIn S c.args) {v : Value}
    (hresult : (host.call name c).result = .ok v) : ValueIn S v := by
  refine valueIn_iff.2 fun p hleads => ?_
  obtain rfl | ⟨a, ha, hleads⟩ := hhost name c v hresult p hleads
  · exact hm.globals
  · exact valueIn_iff.1 (hargs a ha) p hleads

/-- A built-in function that shows nothing yields a plain value. -/
theorem Stays.silent (host : Host) (b : Builtin) (hb : b.Silent) (args : List Value)
    (location : Location) : Stays S before chain (b.call host args location) (ValueIn S) := by
  cases b with
  | clock | rand => exact draw.bind fun _ _ => .pure trivial
  | type => exact .pure trivial
  | round =>
      exact (liftAt (Q := fun _ => True) fun _ _ => trivial).bind fun _ _ => .pure trivial
  | randint =>
      exact (liftAt (Q := fun _ => True) fun _ _ => trivial).bind fun _ _ =>
        draw.bind fun _ _ => .pure trivial
  | help | exit | quit | dir => exact hb.elim

end Reachability

end Lox
