import Lox.Proofs.Scoping.Sessions

/-!
# Rejected inputs

An input with syntax or static errors leaves nothing behind that a later input could notice. It never
reaches the evaluator, so the machine and the host take no part in it. All that it can leave is what
the resolver has recorded for its nodes before it found the error, and these nodes are in no other
program.

## Contents
- `Resolutions.Extends`: the table grows, and what was recorded for earlier programs stays.
- `Session.Agrees`, `Session.results`: sessions that differ in their tables alone answer alike.
- `rejected_input_leaves_no_trace`: what a rejected input does, now and later.
-/

namespace Lox

/-! ## Growing tables -/

/-- A node among those of more programs. -/
def Node.cast {m n : Nat} (h : m ≤ n) (node : Node m) : Node n :=
  { node with input := node.input.castLE h }

/-- The programs of `r` are among those of `r'`, and their nodes have the same depths in both. -/
def Resolutions.Extends (r r' : Resolutions) : Prop :=
  ∃ h : r.inputs ≤ r'.inputs, ∀ node : Node r.inputs,
    r'.locals.get? (node.cast h) = r.locals.get? node

namespace Resolutions.Extends

theorem refl (r : Resolutions) : r.Extends r := ⟨Nat.le_refl _, fun _ => rfl⟩

theorem trans {r₁ r₂ r₃ : Resolutions} (h : r₁.Extends r₂) (h' : r₂.Extends r₃) :
    r₁.Extends r₃ := by
  obtain ⟨hle, hget⟩ := h
  obtain ⟨hle', hget'⟩ := h'
  refine ⟨Nat.le_trans hle hle', fun node => ?_⟩
  calc r₃.locals.get? (node.cast (Nat.le_trans hle hle'))
      = r₃.locals.get? ((node.cast hle).cast hle') := rfl
    _ = r₂.locals.get? (node.cast hle) := hget' _
    _ = r₁.locals.get? node := hget node

theorem resolve (r : Resolutions) (p : Program) : r.Extends (r.resolve p).2 :=
  ⟨Nat.le_succ _, r.get?_resolve p⟩

theorem compile (r : Resolutions) (source : List Char) : r.Extends (r.compile source).2 := by
  unfold Resolutions.compile
  dsimp only
  split
  · split <;> exact resolve r _
  · exact refl r

theorem runWith (s : Session) (fuel : Nat) (source : List Char) :
    s.resolutions.Extends (s.runWith fuel source).2.resolutions := by
  rw [Session.runWith_eq]
  split <;> exact compile s.resolutions source

theorem after (s : Session) (inputs : List (Nat × List Char)) :
    s.resolutions.Extends (s.after inputs).resolutions := by
  unfold Session.after
  induction inputs generalizing s with
  | nil => exact refl _
  | cons input rest ih => exact (runWith s input.1 input.2).trans (ih _)

end Resolutions.Extends

/-! ## Sessions that differ in their tables -/

namespace Session

/-- Two sessions differ in their tables at most. -/
structure Agrees (s s' : Session) : Prop where
  setting : s'.setting = s.setting
  echo : s'.echo = s.echo
  machine : s'.machine = s.machine

/-- The results of inputs, one after the other. -/
def results (s : Session) : List (Nat × List Char) → List (Except Stop RunResult)
  | [] => []
  | (fuel, source) :: rest => (s.runWith fuel source).1 :: (s.runWith fuel source).2.results rest

/-- **The table decides nothing.** Sessions that agree answer an input alike, and agree behind it. -/
theorem Agrees.runWith {s s' : Session} (h : s.Agrees s') (fuel : Nat) (source : List Char) :
    (s'.runWith fuel source).1 = (s.runWith fuel source).1 ∧
      (s.runWith fuel source).2.Agrees (s'.runWith fuel source).2 := by
  obtain ⟨hsetting, hecho, hmachine⟩ := h
  rw [Session.runWith_eq, Session.runWith_eq, hsetting, hecho, hmachine]
  cases Lox.compile source with
  | error result => exact ⟨rfl, ⟨rfl, rfl, rfl⟩⟩
  | ok p => exact ⟨rfl, ⟨rfl, rfl, rfl⟩⟩

theorem Agrees.after {s s' : Session} (h : s.Agrees s') (inputs : List (Nat × List Char)) :
    s'.results inputs = s.results inputs ∧ (s.after inputs).Agrees (s'.after inputs) := by
  induction inputs generalizing s s' with
  | nil => exact ⟨rfl, h⟩
  | cons input rest ih =>
      obtain ⟨hresult, hagrees⟩ := h.runWith input.1 input.2
      obtain ⟨hresults, hafter⟩ := ih hagrees
      refine ⟨?_, hafter⟩
      unfold results
      rw [hresult, hresults]

end Session

/-! ## Rejection -/

/-- An input was rejected before it was executed. -/
def RunResult.Rejected : RunResult → Prop
  | .syntaxErrors _ => True
  | .staticErrors _ => True
  | .ok => False
  | .runtimeError _ => False

/-- What is executed is not rejected any more. -/
theorem RunResult.not_rejected_ofEval {r : EStateM.Result Stop Machine Unit} {result : RunResult}
    (h : (RunResult.ofEval r).1 = .ok result) : ¬result.Rejected := by
  unfold RunResult.ofEval at h
  split at h <;> cases h <;> exact id

/-- A rejected input is decided by its text: whatever the session, only the table changes. -/
theorem Session.runWith_of_rejected {s : Session} {fuel : Nat} {source : List Char}
    {result : RunResult} (hresult : (s.runWith fuel source).1 = .ok result)
    (hrejected : result.Rejected) (s' : Session) (fuel' : Nat) :
    s'.runWith fuel' source =
      (.ok result, { s' with resolutions := (s'.resolutions.compile source).2 }) := by
  rw [Session.runWith_eq] at hresult ⊢
  cases hcompile : compile source with
  | error result' =>
      rw [hcompile] at hresult
      cases hresult
      rfl
  | ok p =>
      rw [hcompile] at hresult
      exact absurd hrejected (RunResult.not_rejected_ofEval hresult)

/-- **A rejected input leaves no trace.** The machine, which holds the globals, all scopes and
instances, the current chain, the call depth and the events, is as before. No function of the host
was called: any other host gives the same result. Every list of later inputs gives the same results
and the same machine as without the rejected input, and the depths that were recorded for the nodes
of all programs before it stay what they were, through all later inputs. -/
theorem rejected_input_leaves_no_trace (s : Session) (fuel : Nat) (source : List Char)
    (result : RunResult) (hresult : (s.runWith fuel source).1 = .ok result)
    (hrejected : result.Rejected) :
    s.Agrees (s.runWith fuel source).2 ∧
      (∀ host fuel', let other : Session := { s with setting := { s.setting with host } }
        (other.runWith fuel' source).1 = .ok result ∧
          (other.runWith fuel' source).2.machine = s.machine) ∧
      ∀ later : List (Nat × List Char),
        (s.runWith fuel source).2.results later = s.results later ∧
          (s.after later).Agrees ((s.runWith fuel source).2.after later) ∧
          s.resolutions.Extends ((s.runWith fuel source).2.after later).resolutions := by
  have hrun := Session.runWith_of_rejected hresult hrejected
  have hagrees : s.Agrees (s.runWith fuel source).2 := by
    rw [hrun s fuel]
    exact ⟨rfl, rfl, rfl⟩
  refine ⟨hagrees, ?_, ?_⟩
  · intro host fuel' other
    rw [hrun other fuel']
    exact ⟨rfl, rfl⟩
  · intro later
    obtain ⟨hresults, hafter⟩ := hagrees.after later
    exact ⟨hresults, hafter, (Resolutions.Extends.runWith s fuel source).trans (.after _ later)⟩

/-- A use of a local variable in front of a static error: `{ var a; a; return; }`. -/
def lateErrorSource : List Char := "\x7b var a; a; return; \x7d".toList

/-- The static errors that an input was rejected for. -/
def staticErrors? : Except Stop RunResult → Option (List StaticError)
  | .ok (.staticErrors errors) => some errors
  | _ => none

theorem eq_of_staticErrors? {r : Except Stop RunResult} {errors : List StaticError}
    (h : staticErrors? r = some errors) : r = .ok (.staticErrors errors) := by
  unfold staticErrors? at h
  split at h
  · cases h
    rfl
  · exact nomatch h

/-- The use was recorded before the error was found, and the table keeps it; nothing else is left. -/
theorem no_trace_of_late_error :
    staticErrors? (Scoping.plainSession.run lateErrorSource).1 =
        some [⟨.returnOutsideFunction, ⟨1, 13, 12⟩⟩] ∧
      (Scoping.plainSession.run lateErrorSource).2.resolutions.locals.entries.map (·.2) = [0] ∧
      Scoping.plainSession.Agrees (Scoping.plainSession.run lateErrorSource).2 := by
  have hresult : staticErrors? (Scoping.plainSession.run lateErrorSource).1 =
      some [⟨.returnOutsideFunction, ⟨1, 13, 12⟩⟩] := by decide +kernel
  refine ⟨hresult, by decide +kernel, ?_⟩
  exact (rejected_input_leaves_no_trace _ _ _ _ (eq_of_staticErrors? hresult) trivial).1

end Lox
