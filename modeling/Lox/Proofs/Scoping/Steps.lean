import Lox.Proofs.Scoping.Runs

/-!
# Single steps of the evaluator

What is done with memory in one go: uses of names, assignments, properties, methods of superclasses,
new objects, and calls of native functions. A use of a name that is resolved finds its binding,
because the chain agrees with the scopes in which it was resolved; and it finds an instance under
`this` and a class under `super`.

## Contents
- `lookUp_at`, `lookUp_this`, `lookUp_super`: uses that find their bindings.
- `Runs.lookUp`, `Runs.assign`, `assign_own`: uses of names and assignments.
- `Runs.superMethod`, `Runs.property`, `Runs.setField`: methods and fields.
- `Runs.callNative`: native functions.
-/

namespace Lox.Scoping

variable {h : History} {k : Nat} {head : Option Nat} {m : Machine} {scopes : Scopes}

/-! ## Uses of names -/

theorem lookUp_at {d i : Nat} {rest : Chain} {x : String} {v : Value}
    (hancestor : m.chain.ancestor? d = some (i :: rest))
    (hv : (m.memory.scope i).get? x = some v) (location : Location) :
    Eval.lookUp x (some d) location m = .ok v m := by
  unfold Eval.lookUp Memory.getAt
  simp only [hancestor, hv]

/-- A use of a name changes nothing. -/
theorem eq_of_lookUp {x : String} {depth : Option Nat} {location : Location} {v : Value}
    {m' : Machine} (heq : Eval.lookUp x depth location m = .ok v m') : m' = m := by
  obtain ⟨_, _, _, _, hok⟩ | ⟨_, herror, _⟩ := Eval.lookUp_cases x depth location m
  · cases hok.symm.trans heq
    rfl
  · exact nomatch herror.symm.trans heq

/-- A name that is read is bound where its distance leads. -/
theorem exists_binding (hagrees : Agrees m.memory m.chain scopes)
    (hcomplete : Scopes.Complete scopes.tail) {x : String} {d : Nat}
    (hd : scopes.distance? x = some d) (hread : scopes.isIncomplete x = false) :
    ∃ i rest v, m.chain.ancestor? d = some (i :: rest) ∧ i < m.memory.scopes.size ∧
      (m.memory.scope i).get? x = some v := by
  obtain ⟨i, rest, scope, hancestor, hi, hscope, hx, hshows⟩ := hagrees.at_distance hd
  have hmark : scope.get? x = some true := Scopes.get?_of_distance? hcomplete hd hread hscope hx
  obtain ⟨v, hv⟩ := Option.isSome_iff_exists.1 (hshows.bound x hmark)
  exact ⟨i, rest, v, hancestor, hi, hv⟩

/-- Under `this` lies an instance. -/
theorem lookUp_this (hagrees : Agrees m.memory m.chain scopes) {d : Nat}
    (hd : scopes.distance? "this" = some d) (location : Location) :
    ∃ i r, (m.memory.scope i).get? "this" = some (.instance r) ∧
      Eval.lookUp "this" (some d) location m = .ok (.instance r) m := by
  obtain ⟨i, rest, scope, hancestor, _, _, hx, hshows⟩ := hagrees.at_distance hd
  obtain ⟨r, hr⟩ := hshows.receiver hx
  exact ⟨i, r, hr, lookUp_at hancestor hr location⟩

/-- Under `super` lies a class. -/
theorem lookUp_super (hagrees : Agrees m.memory m.chain scopes) {d : Nat}
    (hd : scopes.distance? "super" = some d) (location : Location) :
    ∃ i c, (m.memory.scope i).get? "super" = some (.class c) ∧
      Eval.lookUp "super" (some d) location m = .ok (.class c) m := by
  obtain ⟨i, rest, scope, hancestor, _, _, hx, hshows⟩ := hagrees.at_distance hd
  obtain ⟨c, hc⟩ := hshows.superclass hx
  exact ⟨i, c, hc, lookUp_at hancestor hc location⟩

/-- **A use of a name that is not in its own initializer** finds its binding, or is the use of a
global that is not there. -/
theorem Runs.lookUp (hknown : KnownMemory h m.memory) (hagrees : Agrees m.memory m.chain scopes)
    (hcomplete : Scopes.Complete scopes.tail) {x : String}
    (hread : scopes.isIncomplete x = false) (location : Location) :
    Runs h k head (Eval.lookUp x (scopes.distance? x) location) m
      (fun v memory => KnownValue h memory v) := by
  have hsame : After h head m m := (After.same hknown rfl rfl).weaken
  cases hd : scopes.distance? x with
  | none =>
      obtain ⟨i, v, _, hv, heq⟩ | ⟨f, heq, hmissing⟩ := Eval.lookUp_cases x none location m
      · exact Runs.of_ok heq hsame (hknown.scopes i x v hv)
      · cases hmissing rfl
        exact Runs.of_error heq hsame trivial
  | some d =>
      obtain ⟨i, rest, v, hancestor, _, hv⟩ := exists_binding hagrees hcomplete hd hread
      exact Runs.of_ok (lookUp_at hancestor hv location) hsame (hknown.scopes i x v hv)

/-! ## Assignments -/

/-- A name that is bound may be bound again. -/
theorem Runs.bindIn (hknown : KnownMemory h m.memory) {i : Nat} {x : String} {v : Value}
    (hx : ¬Reserved x) (hbound : (m.memory.scope i).has x = true)
    (hv : KnownValue h m.memory v) :
    Runs h k none (Eval.bindIn i x v) m (fun _ _ => True) := by
  have hgrows : Grows none m.memory (m.memory.bind i x v) := grows_rebind v hx hbound
  exact Runs.of_ok rfl
    ⟨hgrows, rfl, hknown.bind hgrows.toLater (hv.later hgrows.toLater)⟩ trivial

/-- **An assignment to a name that is not in its own initializer** finds the binding to change, or
is one to a global that is not there. -/
theorem Runs.assign (hknown : KnownMemory h m.memory) (hagrees : Agrees m.memory m.chain scopes)
    (hcomplete : Scopes.Complete scopes.tail) {x : String} (hx : ¬Reserved x)
    (hread : scopes.isIncomplete x = false) {v : Value} (hv : KnownValue h m.memory v)
    (location : Location) :
    Runs h k none (Eval.assign x (scopes.distance? x) v location) m (fun _ _ => True) := by
  cases hd : scopes.distance? x with
  | none =>
      unfold Runs
      -- a global is assigned to where it is bound, and never bound by an assignment
      obtain ⟨i, _, hbound, heq⟩ | ⟨f, heq, hmissing⟩ := Eval.assign_cases x none v location m
      · rw [heq]
        exact Runs.bindIn hknown hx hbound hv
      · rw [heq]
        cases hmissing rfl
        exact Runs.raiseAt hknown location (.undefinedVariable x)
  | some d =>
      obtain ⟨i, rest, w, hancestor, _, hw⟩ := exists_binding hagrees hcomplete hd hread
      have hbound : (m.memory.scope i).has x = true := Option.isSome_iff_exists.2 ⟨w, hw⟩
      unfold Runs Eval.assign Memory.ownerAt
      simp only [hancestor, hbound, if_true]
      exact Runs.bindIn hknown hx hbound hv

/-- **An assignment to a local variable in its own initializer fails**: the scope in front is known
exactly, and does not bind the variable yet. -/
theorem assign_own (hsees : Sees m.memory m.chain scopes) {x : String}
    (hown : scopes.isIncomplete x = true) (v : Value) (location : Location) :
    Eval.assign x (scopes.distance? x) v location m = .error (.failure (ownFailure x)) m := by
  rw [Scopes.distance?_of_isIncomplete hown]
  obtain ⟨hagrees, hexact⟩ := hsees
  generalize hchain : m.chain = chain at hagrees hexact
  cases hagrees with
  | globals => exact nomatch hown
  | @scope i rest scope _ hi _ _ =>
      have hmark : scope.get? x = some false := eq_of_beq hown
      -- what the scope in front binds is marked as complete, and `x` is not
      have hfree : (m.memory.scope i).has x = false := by
        cases hhas : (m.memory.scope i).has x with
        | false => rfl
        | true => exact nomatch hmark.symm.trans (hexact x hhas)
      unfold Eval.assign Memory.ownerAt
      rw [hchain]
      simp only [Chain.ancestor?, hfree]
      rfl

/-! ## Properties -/

/-- A new method value. -/
theorem Runs.method (hknown : KnownMemory h m.memory) {closure : Closure} {i : Instance}
    (hclosure : Known h m.memory closure true) (hi : KnownClass h m.memory i.ofClass) :
    Runs h k none (Eval.take (·.newId) >>= fun id => Pure.pure (Value.method id closure i)) m
      (fun v memory => KnownValue h memory v) := by
  have hgrows : Grows none m.memory m.memory.newId.2 := grows_of_scopes_eq rfl
  refine Runs.of_ok rfl ⟨hgrows, rfl, hknown.newId⟩ ?_
  exact ⟨hclosure.later hgrows.toLater, hi.later hgrows.toLater⟩

/-- The methods of a superclass, selected where there is one, never miss what they need. -/
theorem Runs.superMethod (hknown : KnownMemory h m.memory)
    (hagrees : Agrees m.memory m.chain scopes) (hplaced : Scopes.Placed .derived scopes)
    (name : String) (location : Location) :
    Runs h k none (Eval.superMethod (scopes.distance? "super") name location) m
      (fun v memory => KnownValue h memory v) := by
  obtain ⟨d, hthis, hsuper⟩ := hplaced
  obtain ⟨i, c, hc, hclass⟩ := lookUp_super hagrees hsuper location
  obtain ⟨j, r, hr, hreceiver⟩ := lookUp_this hagrees hthis location
  have hknownClass : KnownClass h m.memory c := hknown.scopes i _ _ hc
  have hknownReceiver : KnownClass h m.memory r.ofClass := hknown.scopes j _ _ hr
  rw [hsuper]
  unfold Eval.superMethod
  refine Runs.bind_ok hclass ?_
  refine Runs.bind_ok hreceiver ?_
  simp only
  cases hfind : c.findMethod? name with
  | none => exact Runs.raiseAt hknown location (.undefinedProperty name)
  | some closure => exact Runs.method hknown (hknownClass.known hfind) hknownReceiver

theorem Runs.property (hknown : KnownMemory h m.memory) {object : Value}
    (hobject : KnownValue h m.memory object) (name : String) (location : Location) :
    Runs h k none (Eval.property object name location) m
      (fun v memory => KnownValue h memory v) := by
  cases object with
  | «instance» i =>
      unfold Eval.property
      simp only
      have hget : (get : Eval Machine) m = .ok m m := rfl
      refine Runs.bind_ok hget ?_
      -- fields hide methods
      cases hfield : (m.memory.fieldsOf i).get? name with
      | some v => exact Runs.pure hknown (hknown.fields i name v hfield)
      | none =>
          cases hfind : i.ofClass.findMethod? name with
          | none => exact Runs.raiseAt hknown location (.undefinedProperty name)
          | some closure => exact Runs.method hknown (KnownClass.known hobject hfind) hobject
  | nil | bool | number | string | function | «class» | method | native =>
      exact Runs.raiseAt hknown location .propertyOfNonInstance

theorem Runs.setField (hknown : KnownMemory h m.memory) (i : Instance) (name : String) {v : Value}
    (hv : KnownValue h m.memory v) :
    Runs h k none (Eval.modifyMemory (·.setField i name v)) m (fun _ _ => True) := by
  have hgrows : Grows none m.memory (m.memory.setField i name v) := grows_of_scopes_eq rfl
  exact Runs.of_ok rfl ⟨hgrows, rfl, hknown.setField i name hv⟩ trivial

/-! ## Native functions -/

theorem Runs.print (hknown : KnownMemory h m.memory) (text : String) :
    Runs h k none (Eval.print h.session.setting.host text) m (fun _ _ => True) := by
  unfold Runs Eval.print
  cases hanswer : h.session.setting.host.onPrint m.events text with
  | none => exact ⟨After.same hknown rfl rfl, trivial⟩
  | some f =>
      exact ⟨After.same hknown rfl rfl, Allowed.of_raises (.inr (.inl ⟨_, _, hanswer⟩))⟩

theorem Runs.printAll (hknown : KnownMemory h m.memory) (texts : List String) :
    Runs h k none (Eval.printAll h.session.setting.host texts) m (fun _ _ => True) := by
  induction texts generalizing m with
  | nil => exact Runs.pure hknown trivial
  | cons text texts ih =>
      exact Runs.bind (Runs.print hknown text) fun _ _ _ hafter _ => ih hafter.known

theorem Runs.exit (hknown : KnownMemory h m.memory) (code : Float) :
    Runs h k none (Eval.exit h.session.setting.host code) m (fun _ _ => True) := by
  unfold Runs Eval.exit
  cases hanswer : h.session.setting.host.onExit m.events code with
  | none => exact ⟨After.same hknown rfl rfl, trivial⟩
  | some f =>
      exact ⟨After.same hknown rfl rfl, Allowed.of_raises (.inr (.inr ⟨_, _, hanswer⟩))⟩

theorem Runs.draw (hknown : KnownMemory h m.memory) :
    Runs h k none Eval.draw m (fun _ _ => True) :=
  Runs.of_ok rfl (After.same hknown rfl rfl) trivial

theorem Runs.builtin (hknown : KnownMemory h m.memory) (b : Builtin) (args : List Value)
    (location : Location) :
    Runs h k none (b.call h.session.setting.host args location) m
      (fun v memory => KnownValue h memory v) := by
  cases b with
  | clock | rand =>
      exact Runs.bind (Runs.draw hknown) fun _ _ _ hafter _ => Runs.pure hafter.known trivial
  | type => exact Runs.pure hknown trivial
  | round =>
      refine Runs.bind (Q := fun _ _ => True) (Runs.liftAt hknown fun _ _ => trivial) ?_
      exact fun _ _ _ hafter _ => Runs.pure hafter.known trivial
  | randint =>
      refine Runs.bind (Q := fun _ _ => True) (Runs.liftAt hknown fun _ _ => trivial) ?_
      intro _ _ _ hafter _
      exact Runs.bind (Runs.draw hafter.known) fun _ _ _ hafter' _ =>
        Runs.pure hafter'.known trivial
  | help =>
      exact Runs.bind (Runs.print hknown _) fun _ _ _ hafter _ => Runs.pure hafter.known trivial
  | exit =>
      refine Runs.bind (Q := fun _ _ => True) (Runs.liftAt hknown fun _ _ => trivial) ?_
      intro _ _ _ hafter _
      exact Runs.bind (Runs.exit hafter.known _) fun _ _ _ hafter' _ =>
        Runs.pure hafter'.known trivial
  | quit =>
      exact Runs.bind (Runs.exit hknown 0) fun _ _ _ hafter _ => Runs.pure hafter.known trivial
  | dir =>
      have hget : (get : Eval Machine) m = .ok m m := rfl
      refine Runs.bind_ok hget ?_
      exact Runs.bind (Runs.printAll hknown _) fun _ _ _ hafter _ =>
        Runs.pure hafter.known trivial

/-- **Native functions** yield what is known, when the host is honest. -/
theorem Runs.callNative (hhonest : h.session.setting.host.Honest)
    (hknown : KnownMemory h m.memory) {args : List Value}
    (hargs : KnownValues h m.memory args) (n : Native) (location : Location) :
    Runs h k none (Eval.callNative h.session.setting.host n args location) m
      (fun v memory => KnownValue h memory v) := by
  unfold Eval.callNative
  cases n.body with
  | builtin b => exact Runs.builtin hknown b args location
  | host =>
      have hget : (get : Eval Machine) m = .ok m m := rfl
      refine Runs.bind_ok hget ?_
      refine Runs.bind (Runs.draw hknown) ?_
      intro turn m₁ _ hafter₁ _
      refine Runs.bind (Runs.printAll hafter₁.known _) ?_
      intro _ m' _ hafter₂ _
      have hafter := hafter₁.trans hafter₂
      cases hresult : (h.session.setting.host.call n.name
          ⟨args, location, m.callDepth, m.events, turn⟩).result with
      | ok v =>
          simp only
          exact Runs.pure hafter.known ((hargs.later hafter.later).offered (hhonest _ _ _ hresult))
      | error f =>
          simp only
          exact Runs.of_error rfl (After.same hafter.known rfl rfl)
            (Allowed.of_raises (.inl ⟨_, _, hresult⟩))

end Lox.Scoping
