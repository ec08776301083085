import Lox.Evaluation
import Lox.Proofs.Sequencing

/-!
# The primitives of the machine

What the primitives of the machine do, said once for each: which scope a use of a name reads and
writes, what a text or a request to exit adds to the events, and how a computation ends that sees
other scopes or lies one level of calls deeper. However a primitive ends, it leaves the rest of the
machine alone.

## Contents
- `Machine.IsScopeAt`: the scope in which a use of a name is looked up.
- `Eval.lookUp_cases`, `Eval.assign_cases`: uses of names.
- `Eval.within_of_ok`, `Eval.ok_of_within`, `Eval.inCall_of_ok`, `Eval.ok_of_inCall` and the others:
  scopes and calls.
- `Eval.print_cases`, `Eval.exit_cases`: events.
-/

namespace Lox

/-- The scope in which a use of a name is looked up: the one at its depth, or that of the globals. -/
def Machine.IsScopeAt (m : Machine) (depth : Option Nat) (i : Nat) : Prop :=
  match depth with
  | none => i = globalScope
  | some d => ∃ rest, m.chain.ancestor? d = some (i :: rest)

/-- Among the globals a name is bound in the scope of the globals. -/
theorem Memory.eq_of_owner?_global {m : Memory} {name : String} {i : Nat}
    (h : m.owner? name globalChain = some i) : i = globalScope ∧ (m.scope i).has name = true := by
  unfold globalChain owner? at h
  split at h
  · rename_i hhas
    cases h
    exact ⟨rfl, hhas⟩
  · exact nomatch h

theorem Memory.ancestor?_of_getAt {m : Memory} {chain : Chain} {depth : Nat} {name : String}
    {v : Value} (h : m.getAt chain depth name = .ok v) :
    ∃ i rest, chain.ancestor? depth = some (i :: rest) ∧ (m.scope i).get? name = some v := by
  unfold getAt at h
  split at h
  · rename_i i rest hancestor
    split at h
    · rename_i w hw
      cases h
      exact ⟨i, rest, hancestor, hw⟩
    · exact nomatch h
  · exact nomatch h

theorem Memory.ancestor?_of_ownerAt {m : Memory} {chain : Chain} {depth : Nat} {name : String}
    {i : Nat} (h : m.ownerAt chain depth name = .ok i) :
    (∃ rest, chain.ancestor? depth = some (i :: rest)) ∧ (m.scope i).has name = true := by
  unfold ownerAt at h
  split at h
  · rename_i j rest hancestor
    split at h
    · rename_i hhas
      cases h
      exact ⟨⟨rest, hancestor⟩, hhas⟩
    · exact nomatch h
  · exact nomatch h

namespace Eval

variable {α : Type} {x : Eval α} {m m' : Machine} {a : α} {stop : Stop}

/-! ## Uses of names -/

/-- What the use of a name that is not bound among the globals fails with. -/
def missing (name : String) (location : Location) : Failure :=
  .runtime ⟨.undefinedVariable name, some location⟩

/-- **A use of a name** reads the scope at its depth, or fails, and changes nothing. -/
theorem lookUp_cases (name : String) (depth : Option Nat) (location : Location) (m : Machine) :
    (∃ i v, m.IsScopeAt depth i ∧ (m.memory.scope i).get? name = some v ∧
      lookUp name depth location m = .ok v m) ∨
      ∃ f, lookUp name depth location m = .error (.failure f) m ∧
        (depth = none → f = missing name location) := by
  cases depth with
  | none =>
      cases hget : m.memory.get? name globalChain with
      | none =>
          refine .inr ⟨missing name location, ?_, fun _ => rfl⟩
          simp only [lookUp, hget]
          rfl
      | some v =>
          obtain ⟨i, howner, hv⟩ := Option.bind_eq_some_iff.1 hget
          refine .inl ⟨i, v, (Memory.eq_of_owner?_global howner).1, hv, ?_⟩
          simp only [lookUp, hget]
  | some d =>
      cases hget : m.memory.getAt m.chain d name with
      | error e =>
          refine .inr ⟨.internal ⟨e, none⟩, ?_, nofun⟩
          simp only [lookUp, hget]
          rfl
      | ok v =>
          obtain ⟨i, rest, hancestor, hv⟩ := Memory.ancestor?_of_getAt hget
          refine .inl ⟨i, v, ⟨rest, hancestor⟩, hv, ?_⟩
          simp only [lookUp, hget]

/-- **An assignment** binds a name again in the scope at its depth, or fails and changes nothing. -/
theorem assign_cases (name : String) (depth : Option Nat) (v : Value) (location : Location)
    (m : Machine) :
    (∃ i, m.IsScopeAt depth i ∧ (m.memory.scope i).has name = true ∧
      assign name depth v location m = .ok () { m with memory := m.memory.bind i name v }) ∨
      ∃ f, assign name depth v location m = .error (.failure f) m ∧
        (depth = none → f = missing name location) := by
  cases depth with
  | none =>
      cases howner : m.memory.owner? name globalChain with
      | none =>
          refine .inr ⟨missing name location, ?_, fun _ => rfl⟩
          simp only [assign, howner]
          rfl
      | some i =>
          obtain ⟨hi, hhas⟩ := Memory.eq_of_owner?_global howner
          refine .inl ⟨i, hi, hhas, ?_⟩
          simp only [assign, howner]
          rfl
  | some d =>
      cases howner : m.memory.ownerAt m.chain d name with
      | error e =>
          refine .inr ⟨.internal ⟨e, none⟩, ?_, nofun⟩
          simp only [assign, howner]
          rfl
      | ok i =>
          obtain ⟨hancestor, hhas⟩ := Memory.ancestor?_of_ownerAt howner
          refine .inl ⟨i, hancestor, hhas, ?_⟩
          simp only [assign, howner]
          rfl

/-! ## Scopes and calls -/

section Within

variable {c : Chain}

theorem within_of_ok (h : x { m with chain := c } = .ok a m') :
    within c x m = .ok a { m' with chain := m.chain } := by
  unfold within
  rw [h]

theorem within_of_error (h : x { m with chain := c } = .error stop m') :
    within c x m = .error stop { m' with chain := m.chain } := by
  unfold within
  rw [h]

theorem ok_of_within (h : within c x m = .ok a m') :
    ∃ m₁, x { m with chain := c } = .ok a m₁ ∧ m' = { m₁ with chain := m.chain } := by
  cases hx : x { m with chain := c } with
  | ok b m₁ =>
      rw [within_of_ok hx] at h
      cases h
      exact ⟨m₁, rfl, rfl⟩
  | error stop m₁ =>
      rw [within_of_error hx] at h
      exact nomatch h

end Within

section InCall

variable {maxCallDepth : Nat} {location : Location}

/-- Without room for one more level there is no call. -/
theorem inCall_of_le (h : maxCallDepth ≤ m.callDepth) :
    inCall maxCallDepth location x m = raiseAt location .stackOverflow m := if_pos h

theorem inCall_of_ok (hroom : m.callDepth < maxCallDepth)
    (h : x { m with callDepth := m.callDepth + 1 } = .ok a m') :
    inCall maxCallDepth location x m = .ok a { m' with callDepth := m'.callDepth - 1 } := by
  unfold inCall
  rw [if_neg (Nat.not_le.2 hroom), h]

theorem inCall_of_error (hroom : m.callDepth < maxCallDepth)
    (h : x { m with callDepth := m.callDepth + 1 } = .error stop m') :
    inCall maxCallDepth location x m =
      .error (stop.inCallAt location) { m' with callDepth := m'.callDepth - 1 } := by
  unfold inCall
  rw [if_neg (Nat.not_le.2 hroom), h]

theorem ok_of_inCall (h : inCall maxCallDepth location x m = .ok a m') :
    ∃ m₁, x { m with callDepth := m.callDepth + 1 } = .ok a m₁ ∧
      m' = { m₁ with callDepth := m₁.callDepth - 1 } := by
  by_cases hroom : m.callDepth < maxCallDepth
  · cases hx : x { m with callDepth := m.callDepth + 1 } with
    | ok b m₁ =>
        rw [inCall_of_ok hroom hx] at h
        cases h
        exact ⟨m₁, rfl, rfl⟩
    | error stop m₁ =>
        rw [inCall_of_error hroom hx] at h
        exact nomatch h
  · rw [inCall_of_le (Nat.not_lt.1 hroom)] at h
    exact nomatch h

end InCall

/-! ## Events -/

section Events

variable {host : Host} {text : String} {code : Float} {f : Failure}

theorem print_of_some (h : host.onPrint m.events text = some f) :
    print host text m = .error (.failure f) m := by
  unfold print
  rw [h]

theorem print_of_none (h : host.onPrint m.events text = none) :
    print host text m = .ok () { m with events := m.events.push (.print text) } := by
  unfold print
  rw [h]

theorem exit_of_some (h : host.onExit m.events code = some f) :
    exit host code m = .error (.failure f) { m with events := m.events.push (.exit code) } := by
  unfold exit
  rw [h]

theorem exit_of_none (h : host.onExit m.events code = none) :
    exit host code m = .ok () { m with events := m.events.push (.exit code) } := by
  unfold exit
  rw [h]

/-- **A text** is shown, unless the host fails. -/
theorem print_cases (host : Host) (text : String) (m : Machine) :
    print host text m = .ok () { m with events := m.events.push (.print text) } ∨
      ∃ f, print host text m = .error (.failure f) m := by
  cases h : host.onPrint m.events text with
  | none => exact .inl (print_of_none h)
  | some f => exact .inr ⟨f, print_of_some h⟩

/-- **A request to exit** is recorded, whether or not it is granted. -/
theorem exit_cases (host : Host) (code : Float) (m : Machine) :
    exit host code m = .ok () { m with events := m.events.push (.exit code) } ∨
      ∃ f, exit host code m =
        .error (.failure f) { m with events := m.events.push (.exit code) } := by
  cases h : host.onExit m.events code with
  | none => exact .inl (exit_of_none h)
  | some f => exact .inr ⟨f, exit_of_some h⟩

end Events

end Eval

end Lox
