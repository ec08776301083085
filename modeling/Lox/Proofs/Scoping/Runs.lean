import Lox.Proofs.Evaluation.Primitives
import Lox.Proofs.Scoping.Objects

/-!
# What a run leaves behind

However a computation of the evaluator ends, memory has grown, the machine sees its scopes again, and
every object in memory is known. A computation that does not end well stops for one of few reasons:
a runtime error, the bound on the recursion, a failure of the host, or an assignment to a local
variable in its own initializer. Computations compose by `Runs.bind`, which also hands on how the
first one ended; what is done with memory, and what the host does, are its leaves.

## Contents
- `Host.Honest`, `Host.Raises`: hosts that answer with what they were given, and how hosts fail.
- `AssignsOwn`, `Exhausts`, `Allowed`: why a run may stop.
- `After`, `Outcome`, `Runs`: what a computation leaves behind.
- `Runs.bind`, `Runs.within`, `Runs.inCall`: composition.
- `Runs.lookUp`, `Runs.assign`, `assign_own`, `Runs.property`, `Runs.callNative`: leaves.
-/

namespace Lox

/-! ## Hosts -/

/-- A value that a host can make out of the arguments of a call: plain values, arguments, and what
can be read from those. -/
inductive Host.Offered (args : List Value) : Value → Prop
  | nil : Offered args .nil
  | bool (b : Bool) : Offered args (.bool b)
  | number (x : Float) : Offered args (.number x)
  | string (s : String) : Offered args (.string s)
  | native (n : Native) : Offered args (.native n)
  | arg {v : Value} : v ∈ args → Offered args v
  | classOf {i : Instance} : Offered args (.instance i) → Offered args (.class i.ofClass)
  | superclass {c d : Class} :
      Offered args (.class c) → c.superclass = some d → Offered args (.class d)
  | receiver {id : Nat} {closure : Closure} {i : Instance} :
      Offered args (.method id closure i) → Offered args (.instance i)
  | method {id : Nat} {c : Class} {i : Instance} {name : String} {closure : Closure} :
      Offered args (.class c) → Offered args (.instance i) →
      c.findMethod? name = some closure → Offered args (.method id closure i)

/-- A host whose functions make up no functions, classes and instances. -/
def Host.Honest (host : Host) : Prop :=
  ∀ name c v, (host.call name c).result = .ok v → Host.Offered c.args v

/-- A failure that the host can cause: by a function, or when it is told of an event. -/
def Host.Raises (host : Host) (f : Failure) : Prop :=
  (∃ name c, (host.call name c).result = .error f) ∨
    (∃ history text, host.onPrint history text = some f) ∨
    ∃ history code, host.onExit history code = some f

theorem Host.honest_plain : Host.plain.Honest := by
  intro name c v hresult
  cases hresult
  exact .nil

theorem Host.not_raises_plain (f : Failure) : ¬Host.plain.Raises f := by
  rintro (⟨name, c, hresult⟩ | ⟨history, text, hanswer⟩ | ⟨history, code, hanswer⟩)
  · exact nomatch hresult
  · exact nomatch hanswer
  · exact nomatch hanswer

namespace Scoping

/-- What is offered to a host is known, and so is what it can make out of it. -/
theorem KnownValues.offered {h : History} {m : Memory} {args : List Value}
    (hargs : KnownValues h m args) {v : Value} (hv : Host.Offered args v) : KnownValue h m v := by
  induction hv with
  | nil | bool | number | string | native => trivial
  | arg hmem => exact hargs _ hmem
  | classOf _ ih => exact ih
  | superclass _ hd ih => exact KnownClass.superclass ih hd
  | receiver _ ih => exact ih.2
  | method _ _ hfind ihc ihi => exact ⟨KnownClass.known ihc hfind, ihi⟩

/-! ## Why a run may stop -/

/-- A moment at which a local variable is assigned to in its own initializer, and the value to assign
is there. -/
inductive AssignsOwn (setting : Setting) (x : String) : Moment → Prop
  | intro {n kind scopes depth e span m v m'} :
      Scopes.isIncomplete scopes x = true →
      evaluate setting n (e.resolve kind scopes).value m = .ok v m' →
      AssignsOwn setting x ⟨n + 1, .expr kind scopes (.assign x depth e span), m⟩

/-- The failure of an assignment to a local variable in its own initializer. -/
def ownFailure (x : String) : Failure := .internal ⟨.nameMissing x 0, none⟩

/-- The input with the number `k` assigns to a local variable in its own initializer. -/
def OwnAssignment (h : History) (k : Nat) (x : String) : Prop :=
  ∃ p, Reached h k p ∧ AssignsOwn h.session.setting x p

/-- The input with the number `k` reaches a moment that has no fuel left. -/
def Exhausts (h : History) (k : Nat) : Prop := ∃ p, Reached h k p ∧ p.fuel = 0

/-- Why the input with the number `k` may stop. -/
def Allowed (h : History) (k : Nat) : Stop → Prop
  | .outOfFuel => Exhausts h k
  | .failure (.runtime _) => True
  | .failure f => h.session.setting.host.Raises f ∨ ∃ x, f = ownFailure x ∧ OwnAssignment h k x

/-- What the host causes may stop a run. -/
theorem Allowed.of_raises {h : History} {k : Nat} {f : Failure}
    (hf : h.session.setting.host.Raises f) : Allowed h k (.failure f) := by
  cases f with
  | runtime => trivial
  | internal | stackExhausted | host | exited => exact .inl hf

theorem Allowed.inCallAt {h : History} {k : Nat} {stop : Stop} (hstop : Allowed h k stop)
    (location : Location) : Allowed h k (stop.inCallAt location) := by
  cases stop with
  | outOfFuel => exact hstop
  | failure f =>
      cases f with
      | stackExhausted => trivial
      | runtime | internal | host | exited => exact hstop

/-! ## Outcomes -/

/-- What a computation leaves behind that adds names to at most one scope of those that were there. -/
structure After (h : History) (head : Option Nat) (m m' : Machine) : Prop where
  grows : Grows head m.memory m'.memory
  chain : m'.chain = m.chain
  known : KnownMemory h m'.memory

namespace After

variable {h : History} {head : Option Nat} {m m' m'' : Machine}

theorem later (hafter : After h head m m') : Later m.memory m'.memory := hafter.grows.toLater

theorem trans (hafter : After h head m m') (hafter' : After h head m' m'') :
    After h head m m'' where
  grows := hafter.grows.trans hafter'.grows
  chain := hafter'.chain.trans hafter.chain
  known := hafter'.known

theorem weaken (hafter : After h none m m') : After h head m m' :=
  ⟨hafter.grows.weaken, hafter.chain, hafter.known⟩

/-- What leaves memory and chain alone leaves everything as it was. -/
theorem same (hknown : KnownMemory h m.memory) (hmemory : m'.memory = m.memory)
    (hchain : m'.chain = m.chain) : After h none m m' where
  grows := grows_of_scopes_eq (congrArg Memory.scopes hmemory)
  chain := hchain
  known := by
    rw [hmemory]
    exact hknown

end After

/-- How a computation from a machine may end. -/
def Outcome {α : Type} (h : History) (k : Nat) (head : Option Nat) (m : Machine)
    (Q : α → Memory → Prop) : EStateM.Result Stop Machine α → Prop
  | .ok a m' => After h head m m' ∧ Q a m'.memory
  | .error stop m' => After h head m m' ∧ Allowed h k stop

/-- A computation leaves behind what it should, and its result is as described. -/
def Runs {α : Type} (h : History) (k : Nat) (head : Option Nat) (x : Eval α) (m : Machine)
    (Q : α → Memory → Prop) : Prop := Outcome h k head m Q (x m)

section Composition

variable {α β : Type} {h : History} {k : Nat} {head : Option Nat} {m m' : Machine}
  {Q : α → Memory → Prop} {R : β → Memory → Prop}

theorem Outcome.weaken {r : EStateM.Result Stop Machine α} (hr : Outcome h k none m Q r) :
    Outcome h k head m Q r := by
  cases r with
  | ok a m' => exact ⟨hr.1.weaken, hr.2⟩
  | error stop m' => exact ⟨hr.1.weaken, hr.2⟩

/-- What follows a step of the machine follows from where it started. -/
theorem Outcome.after {r : EStateM.Result Stop Machine α} (hafter : After h head m m')
    (hr : Outcome h k head m' Q r) : Outcome h k head m Q r := by
  cases r with
  | ok a m'' => exact ⟨hafter.trans hr.1, hr.2⟩
  | error stop m'' => exact ⟨hafter.trans hr.1, hr.2⟩

/-- What adds names to a new scope adds none to those that were there. -/
theorem Outcome.of_new {i : Nat} {r : EStateM.Result Stop Machine α} (hafter : After h none m m')
    (hi : m.memory.scopes.size ≤ i) (hr : Outcome h k (some i) m' Q r) :
    Outcome h k none m Q r := by
  have hnew {m'' : Machine} (hafter' : After h (some i) m' m'') : After h none m m'' :=
    -- `i` was no scope yet when the computation began
    ⟨hafter.grows.of_new hi hafter'.grows, hafter'.chain.trans hafter.chain, hafter'.known⟩
  cases r with
  | ok a m'' => exact ⟨hnew hr.1, hr.2⟩
  | error stop m'' => exact ⟨hnew hr.1, hr.2⟩

namespace Runs

theorem weaken {x : Eval α} (hx : Runs h k none x m Q) : Runs h k head x m Q :=
  Outcome.weaken hx

theorem mono {x : Eval α} {Q' : α → Memory → Prop} (hx : Runs h k head x m Q)
    (himp : ∀ a m', After h head m m' → Q a m'.memory → Q' a m'.memory) :
    Runs h k head x m Q' := by
  unfold Runs at hx ⊢
  cases hres : x m with
  | ok a m' =>
      rw [hres] at hx
      exact ⟨hx.1, himp a m' hx.1 hx.2⟩
  | error stop m' =>
      rw [hres] at hx
      exact hx

theorem of_ok {x : Eval α} {a : α} (heq : x m = .ok a m') (hafter : After h head m m')
    (hQ : Q a m'.memory) : Runs h k head x m Q := by
  unfold Runs
  rw [heq]
  exact ⟨hafter, hQ⟩

theorem of_error {x : Eval α} {stop : Stop} (heq : x m = .error stop m')
    (hafter : After h head m m') (hstop : Allowed h k stop) : Runs h k head x m Q := by
  unfold Runs
  rw [heq]
  exact ⟨hafter, hstop⟩

theorem pure {a : α} (hknown : KnownMemory h m.memory) (hQ : Q a m.memory) :
    Runs h k head (Pure.pure a) m Q :=
  of_ok rfl (After.same hknown rfl rfl).weaken hQ

theorem raiseAt (hknown : KnownMemory h m.memory) (location : Location)
    (cause : RuntimeError.Cause) : Runs h k head (Eval.raiseAt location cause) m Q :=
  of_error rfl (After.same hknown rfl rfl).weaken trivial

theorem outOfFuel (hknown : KnownMemory h m.memory) (hexhausts : Exhausts h k) :
    Runs h k head (throw .outOfFuel : Eval α) m Q :=
  of_error rfl (After.same hknown rfl rfl).weaken hexhausts

/-- **Computations one after the other.** The second one may use how the first one ended. -/
theorem bind {x : Eval α} {f : α → Eval β} (hx : Runs h k head x m Q)
    (hf : ∀ a m', x m = .ok a m' → After h head m m' → Q a m'.memory →
      Runs h k head (f a) m' R) : Runs h k head (x >>= f) m R := by
  unfold Runs at hx ⊢
  cases hres : x m with
  | ok a m' =>
      rw [bind_of_ok hres]
      rw [hres] at hx
      exact (hf a m' hres hx.1 hx.2).after hx.1
  | error stop m' =>
      rw [bind_of_error hres]
      rw [hres] at hx
      exact hx

/-- A computation that surely ends well, and one behind it. -/
theorem bind_ok {x : Eval α} {f : α → Eval β} {a : α} (heq : x m = .ok a m')
    (hf : Outcome h k head m R (f a m')) : Runs h k head (x >>= f) m R := by
  unfold Runs
  rw [bind_of_ok heq]
  exact hf

/-- A computation in other scopes. -/
theorem within {c : Chain} {x : Eval α} (hx : Runs h k head x { m with chain := c } Q) :
    Runs h k head (Eval.within c x) m Q := by
  unfold Runs at hx ⊢
  cases hres : x { m with chain := c } with
  | ok a m' =>
      rw [Eval.within_of_ok hres]
      rw [hres] at hx
      exact ⟨⟨hx.1.grows, rfl, hx.1.known⟩, hx.2⟩
  | error stop m' =>
      rw [Eval.within_of_error hres]
      rw [hres] at hx
      exact ⟨⟨hx.1.grows, rfl, hx.1.known⟩, hx.2⟩

/-- A computation one level of calls deeper. -/
theorem inCall {maxCallDepth : Nat} {location : Location} {x : Eval α}
    (hknown : KnownMemory h m.memory)
    (hx : m.callDepth < maxCallDepth → Runs h k head x (deeper m) Q) :
    Runs h k head (Eval.inCall maxCallDepth location x) m Q := by
  unfold Runs
  by_cases hroom : m.callDepth < maxCallDepth
  · have hx := hx hroom
    unfold Runs at hx
    cases hres : x (deeper m) with
    | ok a m' =>
        rw [Eval.inCall_of_ok hroom hres]
        rw [hres] at hx
        exact ⟨⟨hx.1.grows, hx.1.chain, hx.1.known⟩, hx.2⟩
    | error stop m' =>
        rw [Eval.inCall_of_error hroom hres]
        rw [hres] at hx
        exact ⟨⟨hx.1.grows, hx.1.chain, hx.1.known⟩, hx.2.inCallAt location⟩
  · rw [Eval.inCall_of_le (Nat.not_lt.1 hroom)]
    exact raiseAt hknown location .stackOverflow

/-- An operation on values. -/
theorem liftAt {location : Location} {result : Except RuntimeError.Cause α}
    (hknown : KnownMemory h m.memory) (hQ : ∀ a, result = .ok a → Q a m.memory) :
    Runs h k head (Eval.liftAt location result) m Q := by
  cases result with
  | ok a => exact pure hknown (hQ a rfl)
  | error cause => exact raiseAt hknown location cause

end Runs

end Composition

end Scoping

end Lox
