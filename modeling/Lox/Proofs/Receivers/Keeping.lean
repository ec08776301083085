import Lox.Proofs.Receivers.Classes
import Lox.Proofs.Scoping.Steps

/-!
# Steps that keep methods where they belong

A step of the evaluator, on a machine whose memory is sound, leaves a sound memory behind and yields a
sound value. For this it does not matter how the names of a program were resolved; it is enough that
the program binds no reserved name. These are the steps of which the evaluator is made.

## Contents
- `Host.BindsOwn`: hosts that bind methods only to instances of classes that have them.
- `SoundMachine`, `Leads`, `Keeps`: machines, and what a computation leaves behind.
- `Keeps.bind`, `Keeps.within`, `Keeps.inCall`: composition.
- `Keeps.superMethod`, `Keeps.property`: where methods are bound to receivers.
- `SoundValues.offered`, `Keeps.callNative`: native functions.
-/

namespace Lox

/-- A host binds methods only where they belong: a method that it answers with is an argument, or was
found by a class of the receiver. -/
def Host.BindsOwn (host : Host) : Prop :=
  ∀ name c id closure receiver,
    (host.call name c).result = .ok (.method id closure receiver) →
    .method id closure receiver ∈ c.args ∨
      ∃ d ∈ receiver.ofClass.ancestry, ∃ x, d.findMethod? x = some closure

theorem Host.bindsOwn_plain : Host.plain.BindsOwn := nofun

namespace Receivers

/-! ## Computations -/

/-- A machine whose memory is sound, and which sees an aligned chain with a plain scope in front. -/
structure SoundMachine (m : Machine) : Prop where
  memory : SoundMemory m.memory
  aligned : Aligned m.memory m.chain
  plain : Plain m.memory m.chain

/-- What a computation leaves behind. -/
structure Leads (m m' : Machine) : Prop where
  settles : Settles m.memory m'.memory
  sound : SoundMemory m'.memory
  chain : m'.chain = m.chain

theorem Leads.same {m m' : Machine} (hm : SoundMemory m.memory) (hmemory : m'.memory = m.memory)
    (hchain : m'.chain = m.chain) : Leads m m' := by
  refine ⟨?_, ?_, hchain⟩
  · rw [hmemory]
    exact Settles.refl _
  · rw [hmemory]
    exact hm

theorem Leads.trans {m m' m'' : Machine} (h : Leads m m') (h' : Leads m' m'') : Leads m m'' :=
  ⟨h.settles.trans h'.settles, h'.sound, h'.chain.trans h.chain⟩

theorem SoundMachine.after {m m' : Machine} (hm : SoundMachine m) (h : Leads m m') :
    SoundMachine m' where
  memory := h.sound
  aligned := by
    rw [h.chain]
    exact hm.aligned.settles h.settles
  plain := by
    rw [h.chain]
    exact hm.plain.settles h.settles

/-- How a computation from a machine may end. -/
def Kept {α : Type} (m : Machine) (Q : Memory → α → Prop) :
    EStateM.Result Stop Machine α → Prop
  | .ok a m' => Leads m m' ∧ Q m'.memory a
  | .error _ m' => Leads m m'

/-- A computation keeps memory sound, and its result is as described. -/
def Keeps {α : Type} (x : Eval α) (m : Machine) (Q : Memory → α → Prop) : Prop := Kept m Q (x m)

namespace Keeps

variable {α β : Type} {m m' : Machine} {Q : Memory → α → Prop} {R : Memory → β → Prop}

theorem of_ok {x : Eval α} {a : α} (heq : x m = .ok a m') (hleads : Leads m m')
    (hQ : Q m'.memory a) : Keeps x m Q := by
  unfold Keeps
  rw [heq]
  exact ⟨hleads, hQ⟩

theorem of_error {x : Eval α} {stop : Stop} (heq : x m = .error stop m') (hleads : Leads m m') :
    Keeps x m Q := by
  unfold Keeps
  rw [heq]
  exact hleads

/-- What is kept by a computation that ended well. -/
theorem of_eq {x : Eval α} {a : α} (h : Keeps x m Q) (heq : x m = .ok a m') :
    Leads m m' ∧ Q m'.memory a := by
  unfold Keeps at h
  rw [heq] at h
  exact h

theorem pure {a : α} (hm : SoundMemory m.memory) (hQ : Q m.memory a) :
    Keeps (Pure.pure a) m Q := of_ok rfl (.same hm rfl rfl) hQ

theorem raise (hm : SoundMemory m.memory) (f : Failure) : Keeps (Eval.raise f : Eval α) m Q :=
  of_error rfl (.same hm rfl rfl)

theorem raiseAt (hm : SoundMemory m.memory) (location : Location) (cause : RuntimeError.Cause) :
    Keeps (Eval.raiseAt location cause : Eval α) m Q := raise hm _

theorem outOfFuel (hm : SoundMemory m.memory) : Keeps (throw .outOfFuel : Eval α) m Q :=
  of_error rfl (.same hm rfl rfl)

theorem liftAt {location : Location} {result : Except RuntimeError.Cause α}
    (hm : SoundMemory m.memory) (hQ : ∀ a, result = .ok a → Q m.memory a) :
    Keeps (Eval.liftAt location result) m Q := by
  cases result with
  | ok a => exact pure hm (hQ a rfl)
  | error cause => exact raiseAt hm location cause

/-- **Computations one after the other.** The second one may use how the first one ended. -/
theorem bind {x : Eval α} {f : α → Eval β} (hx : Keeps x m Q)
    (hf : ∀ a m', x m = .ok a m' → Leads m m' → Q m'.memory a → Keeps (f a) m' R) :
    Keeps (x >>= f) m R := by
  unfold Keeps at hx ⊢
  cases hres : x m with
  | error stop m' =>
      rw [bind_of_error hres]
      rw [hres] at hx
      exact hx
  | ok a m' =>
      rw [bind_of_ok hres]
      rw [hres] at hx
      have hnext := hf a m' hres hx.1 hx.2
      unfold Keeps at hnext
      cases hres' : f a m' with
      | ok b m'' =>
          rw [hres'] at hnext
          exact ⟨hx.1.trans hnext.1, hnext.2⟩
      | error stop m'' =>
          rw [hres'] at hnext
          exact hx.1.trans hnext

/-- A computation in other scopes. -/
theorem within {c : Chain} {x : Eval α} (hx : Keeps x { m with chain := c } Q) :
    Keeps (Eval.within c x) m Q := by
  unfold Keeps at hx ⊢
  cases hres : x { m with chain := c } with
  | ok a m' =>
      rw [Eval.within_of_ok hres]
      rw [hres] at hx
      exact ⟨⟨hx.1.settles, hx.1.sound, rfl⟩, hx.2⟩
  | error stop m' =>
      rw [Eval.within_of_error hres]
      rw [hres] at hx
      exact ⟨hx.settles, hx.sound, rfl⟩

/-- A computation one level of calls deeper. -/
theorem inCall {maxCallDepth : Nat} {location : Location} {x : Eval α}
    (hm : SoundMemory m.memory) (hx : Keeps x (Scoping.deeper m) Q) :
    Keeps (Eval.inCall maxCallDepth location x) m Q := by
  by_cases hroom : m.callDepth < maxCallDepth
  · unfold Keeps at hx ⊢
    cases hres : x (Scoping.deeper m) with
    | ok a m' =>
        rw [Eval.inCall_of_ok hroom hres]
        rw [hres] at hx
        exact ⟨⟨hx.1.settles, hx.1.sound, hx.1.chain⟩, hx.2⟩
    | error stop m' =>
        rw [Eval.inCall_of_error hroom hres]
        rw [hres] at hx
        exact ⟨hx.settles, hx.sound, hx.chain⟩
  · unfold Keeps
    rw [Eval.inCall_of_le (Nat.not_lt.1 hroom)]
    exact raiseAt hm location .stackOverflow

end Keeps

/-! ## Names -/

/-- A use of a name that is resolved reads the scope at its depth. -/
theorem binding_of_lookUp {m m' : Machine} {x : String} {d : Nat} {location : Location} {v : Value}
    (heq : Eval.lookUp x (some d) location m = .ok v m') :
    ∃ i rest, m.chain.ancestor? d = some (i :: rest) ∧ (m.memory.scope i).get? x = some v := by
  obtain ⟨i, w, ⟨rest, hancestor⟩, hw, hok⟩ | ⟨_, herror, _⟩ :=
    Eval.lookUp_cases x (some d) location m
  · cases hok.symm.trans heq
    exact ⟨i, rest, hancestor, hw⟩
  · exact nomatch herror.symm.trans heq

namespace Keeps

variable {m : Machine} (hm : SoundMemory m.memory)

include hm

theorem lookUp (x : String) (depth : Option Nat) (location : Location) :
    Keeps (Eval.lookUp x depth location) m SoundValue := by
  obtain ⟨i, v, _, hv, heq⟩ | ⟨_, heq, _⟩ := Eval.lookUp_cases x depth location m
  · exact of_ok heq (.same hm rfl rfl) (hm v (.bound i x hv))
  · exact of_error heq (.same hm rfl rfl)

theorem define {x : String} {v : Value} (hx : ¬Reserved x) (hv : SoundValue m.memory v) :
    Keeps (Eval.define x v) m (fun _ _ => True) :=
  of_ok rfl ⟨Settles.define _ _ v hx, hm.define _ hx hv, rfl⟩ trivial

theorem bindIn (i : Nat) {x : String} {v : Value} (hx : ¬Reserved x)
    (hv : SoundValue m.memory v) : Keeps (Eval.bindIn i x v) m (fun _ _ => True) :=
  of_ok rfl ⟨Settles.bind _ i v hx, hm.bind i hx hv, rfl⟩ trivial

theorem assign {x : String} (hx : ¬Reserved x) (depth : Option Nat) {v : Value}
    (hv : SoundValue m.memory v) (location : Location) :
    Keeps (Eval.assign x depth v location) m (fun _ _ => True) := by
  obtain ⟨i, _, _, heq⟩ | ⟨f, heq, _⟩ := Eval.assign_cases x depth v location m
  · unfold Keeps
    rw [heq]
    exact bindIn hm i hx hv
  · exact of_error heq (.same hm rfl rfl)

/-! ## Properties and methods -/

theorem setField (i : Instance) (name : String) {v : Value} (hv : SoundValue m.memory v) :
    Keeps (Eval.modifyMemory (·.setField i name v)) m (fun _ _ => True) :=
  of_ok rfl ⟨Settles.of_scopes_eq rfl (Nat.le_refl _), hm.setField i name hv, rfl⟩ trivial

/-- A method that is bound to a receiver to which it belongs. -/
theorem method {closure : Closure} {i : Instance} (hi : SoundClass m.memory i.ofClass)
    (howns : Owns i closure) :
    Keeps (Eval.take (·.newId) >>= fun id => Pure.pure (Value.method id closure i)) m
      SoundValue := by
  refine of_ok rfl ⟨Settles.newId _, hm.newId, rfl⟩ ?_
  exact ⟨hi.settles (Settles.newId _), howns⟩

theorem property {object : Value} (hobject : SoundValue m.memory object) (name : String)
    (location : Location) : Keeps (Eval.property object name location) m SoundValue := by
  cases object with
  | «instance» i =>
      have hget : Keeps (get : Eval Machine) m fun _ _ => True := of_ok rfl (.same hm rfl rfl) trivial
      refine bind hget ?_
      intro s m' heq _ _
      cases heq
      cases hfield : (m.memory.fieldsOf i).get? name with
      | some v => exact pure hm (hm v (.field i name hfield))
      | none =>
          cases hfind : i.ofClass.findMethod? name with
          | none => exact raiseAt hm location (.undefinedProperty name)
          | some closure => exact method hm hobject (Class.exists_of_findMethod? hfind)
  | nil | bool | number | string | function | «class» | method | native =>
      exact raiseAt hm location .propertyOfNonInstance

omit hm

/-- **The methods of a superclass.** The superclass lies in the scope right outside that of the
receiver, so it is one of the classes of the receiver, and what it finds belongs to the receiver. -/
theorem superMethod (hm : SoundMachine m) (depth : Option Nat) (name : String)
    (location : Location) : Keeps (Eval.superMethod depth name location) m SoundValue := by
  unfold Eval.superMethod
  split
  · exact raise hm.memory _
  · exact raise hm.memory _
  · rename_i d
    refine bind (lookUp hm.memory "super" (some (d + 1)) location) ?_
    intro superclass m₁ hsuper _ _
    cases Scoping.eq_of_lookUp hsuper
    refine bind (lookUp hm.memory "this" (some d) location) ?_
    intro receiver m₂ hthis _ hreceiver
    cases Scoping.eq_of_lookUp hthis
    split
    · rename_i c i _
      cases hfind : c.findMethod? name with
      | none => exact raiseAt hm.memory location (.undefinedProperty name)
      | some closure =>
          obtain ⟨j, outer, hj, hc⟩ := binding_of_lookUp hsuper
          obtain ⟨k, rest, hk, hi⟩ := binding_of_lookUp hthis
          cases ancestor?_succ hk hj
          have hinherits : c ∈ i.ofClass.ancestry := by
            cases hm.aligned.ancestor hk with
            | cons _ hinherits _ => exact hinherits i j outer c rfl hi hc
          obtain ⟨e, he, hdefines⟩ := Class.exists_of_findMethod? hfind
          exact method hm.memory hreceiver ⟨e, Class.mem_ancestry_trans hinherits he, hdefines⟩
    · exact raise hm.memory _

end Keeps

/-! ## Native functions -/

section Native

variable {m : Machine} (hm : SoundMemory m.memory) (host : Host)

include hm

theorem Keeps.print (text : String) : Keeps (Eval.print host text) m (fun _ _ => True) := by
  unfold Keeps Eval.print
  cases host.onPrint m.events text with
  | none => exact ⟨.same hm rfl rfl, trivial⟩
  | some f => exact .same hm rfl rfl

theorem Keeps.exit (code : Float) : Keeps (Eval.exit host code) m (fun _ _ => True) := by
  unfold Keeps Eval.exit
  cases host.onExit m.events code with
  | none => exact ⟨.same hm rfl rfl, trivial⟩
  | some f => exact .same hm rfl rfl

theorem Keeps.draw : Keeps Eval.draw m (fun _ _ => True) := .of_ok rfl (.same hm rfl rfl) trivial

omit hm in
theorem Keeps.printAll {m : Machine} (hm : SoundMemory m.memory) (texts : List String) :
    Keeps (Eval.printAll host texts) m (fun _ _ => True) := by
  induction texts generalizing m with
  | nil => exact .pure hm trivial
  | cons text texts ih => exact .bind (.print hm host text) fun _ _ _ hleads _ => ih hleads.sound

theorem Keeps.builtin (b : Builtin) (args : List Value) (location : Location) :
    Keeps (b.call host args location) m SoundValue := by
  cases b with
  | clock | rand => exact .bind (.draw hm) fun _ _ _ hleads _ => .pure hleads.sound trivial
  | type => exact .pure hm trivial
  | round =>
      refine .bind (Q := fun _ _ => True) (.liftAt hm fun _ _ => trivial) ?_
      exact fun _ _ _ hleads _ => .pure hleads.sound trivial
  | randint =>
      refine .bind (Q := fun _ _ => True) (.liftAt hm fun _ _ => trivial) ?_
      intro _ _ _ hleads _
      exact .bind (.draw hleads.sound) fun _ _ _ hleads' _ => .pure hleads'.sound trivial
  | help => exact .bind (.print hm host _) fun _ _ _ hleads _ => .pure hleads.sound trivial
  | exit =>
      refine .bind (Q := fun _ _ => True) (.liftAt hm fun _ _ => trivial) ?_
      intro _ _ _ hleads _
      exact .bind (.exit hleads.sound host _) fun _ _ _ hleads' _ => .pure hleads'.sound trivial
  | quit => exact .bind (.exit hm host 0) fun _ _ _ hleads _ => .pure hleads.sound trivial
  | dir =>
      refine .bind (Q := fun _ _ => True) (.of_ok rfl (.same hm rfl rfl) trivial) ?_
      intro _ _ _ hleads _
      exact .bind (.printAll host hleads.sound _) fun _ _ _ hleads' _ =>
        .pure hleads'.sound trivial

end Native

/-- What a host can make out of sound arguments has sound classes. A method may yet be bound to an
instance to which it does not belong. -/
theorem SoundValues.offered {m : Memory} {args : List Value} (hargs : SoundValues m args)
    {v : Value} (hv : Host.Offered args v) :
    SoundValue m v ∨ ∃ id closure receiver,
      v = .method id closure receiver ∧ SoundClass m receiver.ofClass := by
  induction hv with
  | nil | bool | number | string | native => exact .inl trivial
  | arg hmem => exact .inl (hargs _ hmem)
  | classOf _ ih =>
      rcases ih with h | ⟨_, _, _, heq, _⟩
      · exact .inl h
      · exact nomatch heq
  | superclass _ hd ih =>
      rcases ih with h | ⟨_, _, _, heq, _⟩
      · exact .inl (SoundClass.ancestor h (Class.mem_ancestry_superclass hd))
      · exact nomatch heq
  | receiver _ ih =>
      rcases ih with h | ⟨_, _, _, heq, hclass⟩
      · exact .inl h.1
      · cases heq
        exact .inl hclass
  | method _ _ _ _ ih =>
      rcases ih with h | ⟨_, _, _, heq, _⟩
      · exact .inr ⟨_, _, _, rfl, h⟩
      · exact nomatch heq

/-- **Native functions** yield what is sound, when the host binds methods only where they belong. -/
theorem Keeps.callNative {m : Machine} {host : Host} (hhonest : host.Honest)
    (hbinds : host.BindsOwn) (hm : SoundMemory m.memory) {args : List Value}
    (hargs : SoundValues m.memory args) (n : Native) (location : Location) :
    Keeps (Eval.callNative host n args location) m SoundValue := by
  unfold Eval.callNative
  cases n.body with
  | builtin b => exact .builtin hm host b args location
  | host =>
      have hget : Keeps (get : Eval Machine) m fun _ _ => True := .of_ok rfl (.same hm rfl rfl) trivial
      refine .bind hget ?_
      intro s m₁ heq _ _
      cases heq
      refine .bind (.draw hm) ?_
      intro turn m₂ _ hleads₂ _
      refine .bind (.printAll host hleads₂.sound _) ?_
      intro _ m' _ hleads₃ _
      have hleads := hleads₂.trans hleads₃
      cases hresult : (host.call n.name ⟨args, location, m.callDepth, m.events, turn⟩).result with
      | error f => exact .raise hleads.sound f
      | ok v =>
          have hargs' := hargs.settles hleads.settles
          refine .pure hleads.sound ?_
          rcases hargs'.offered (hhonest _ _ _ hresult) with hv | ⟨id, closure, receiver, rfl, hclass⟩
          · exact hv
          · rcases hbinds _ _ _ _ _ hresult with hmem | ⟨d, hd, x, hfind⟩
            · exact hargs' _ hmem
            · obtain ⟨e, he, hdefines⟩ := Class.exists_of_findMethod? hfind
              exact ⟨hclass, e, Class.mem_ancestry_trans hd he, hdefines⟩

end Receivers

end Lox
