import Lox.Proofs.Scoping.Failures

/-!
# Defects of accepted programs

Resolution should make sure that a program that it accepts never meets a rule of the interpreter that
does not hold. It does so but for one slip: it refuses to read a local variable in its own
initializer, and lets the initializer assign to it. The variable is declared then and not bound yet.

This is the only defect that an accepted program can meet, and it meets it whenever it gets as far as
the assignment. Depths never exceed the chain, every other name is bound where its depth leads,
`super` finds its class and its receiver, and no jump leaves a function or the program.

## Contents
- `internalError?`: the broken rule that ended an input, if one did.
- `runWith_ne_runtime`: runtime errors are results.
- `internalError_iff_ownAssignment`: the defects of accepted programs, exactly.
- `own_assignment_breaks`: an accepted program with a defect.
-/

namespace Lox.Scoping

/-- The broken rule that ended an input, if one did. -/
def internalError? : Except Stop RunResult → Option InternalError
  | .error (.failure (.internal e)) => some e
  | _ => none

theorem internalError?_eq_some {r : Except Stop RunResult} {e : InternalError} :
    internalError? r = some e ↔ r = .error (.failure (.internal e)) := by
  unfold internalError?
  split
  · rename_i e'
    constructor
    · intro heq
      cases heq
      rfl
    · intro heq
      cases heq
      rfl
  · rename_i hother
    constructor
    · intro heq
      exact nomatch heq
    · intro heq
      exact (hother e heq).elim

/-- A runtime error is a result. -/
theorem runWith_ne_runtime {s : Session} {fuel : Nat} {source : List Char} {e : RuntimeError} :
    (s.runWith fuel source).1 ≠ .error (.failure (.runtime e)) := by
  intro hstop
  rw [Session.runWith_eq] at hstop
  split at hstop
  · exact nomatch hstop
  · exact (stop_of_ofEval hstop).2 e rfl

/-! ## Defects -/

/-- **The defects of accepted programs, exactly.** In a session whose host is honest and breaks no rule
itself, an input ends with a broken rule if and only if it gets as far as an assignment to a local
variable in its own initializer; the rule is then that the variable is bound. What else ends an
input without a result is the bound on the recursion, which one of its moments has reached, or was
raised by the host. -/
theorem internalError_iff_ownAssignment (options : Options) (session : Session)
    (hcreate : Session.create options = .ok session) (hhonest : options.host.Honest)
    (hlawful : ∀ e, ¬options.host.Raises (.internal e)) (inputs : List (Nat × List Char))
    (fuel : Nat) (source : List Char) :
    (∀ e, internalError? ((session.after inputs).runWith fuel source).1 = some e ↔
      ∃ x, e = ⟨.nameMissing x 0, none⟩ ∧
        OwnAssignment ⟨session, inputs ++ [(fuel, source)]⟩ inputs.length x) ∧
    ∀ stop, ((session.after inputs).runWith fuel source).1 = .error stop →
      stop = .outOfFuel ∧ Exhausts ⟨session, inputs ++ [(fuel, source)]⟩ inputs.length ∨
        ∃ f, stop = .failure f ∧ (options.host.Raises f ∨ ∃ e, f = .internal e) := by
  let h : History := ⟨session, inputs ++ [(fuel, source)]⟩
  have hhost : session.setting.host = options.host := by
    obtain ⟨_, _, _, rfl⟩ := Session.eq_of_create hcreate
    rfl
  have hhonest' : h.session.setting.host.Honest := by
    show session.setting.host.Honest
    rw [hhost]
    exact hhonest
  have hready : Ready h h.session.machine := ready_create hcreate
  have hinput : h.inputs[inputs.length]? = some (fuel, source) := List.getElem?_concat_length
  have hbefore : h.session.after (h.inputs.take inputs.length) = session.after inputs := by
    show session.after ((inputs ++ [(fuel, source)]).take inputs.length) = _
    rw [List.take_left]
  have hallowed {stop : Stop}
      (hstop : ((session.after inputs).runWith fuel source).1 = .error stop) :
      Allowed h inputs.length stop := by
    rw [← hbefore] at hstop
    exact allowed_of_stop hhonest' hready hinput hstop
  constructor
  · intro e
    rw [internalError?_eq_some]
    constructor
    · intro hstop
      rcases hallowed hstop with hraises | ⟨x, heq, hown⟩
      · exact absurd (hhost ▸ hraises) (hlawful e)
      · cases heq
        exact ⟨x, rfl, hown⟩
    · rintro ⟨x, rfl, hown⟩
      rw [← hbefore]
      exact runWith_own hhonest' hready hinput hown
  · intro stop hstop
    have hwhy := hallowed hstop
    cases stop with
    | outOfFuel => exact .inl ⟨rfl, hwhy⟩
    | failure f =>
        refine .inr ⟨f, rfl, ?_⟩
        cases f with
        | internal e => exact .inr ⟨e, rfl⟩
        | runtime => exact (runWith_ne_runtime hstop).elim
        -- the failure of an own assignment is a broken rule, so these are of the host
        | stackExhausted | host | exited =>
            rcases hwhy with hraises | ⟨x, heq, _⟩
            · exact .inl (hhost ▸ hraises)
            · exact nomatch heq

/-- A variable that is assigned to in its own initializer: `{ var a = a = nil; }`. -/
def ownAssignmentSource : List Char := "\x7b var a = a = nil; \x7d".toList

theorem run_ownAssignmentSource :
    internalError? (plainSession.run ownAssignmentSource).1 = some ⟨.nameMissing "a" 0, none⟩ := by
  decide +kernel

/-- The defect is there: the initializer of the session is reached and assigns to its variable. -/
theorem ownAssignment_of_source :
    OwnAssignment ⟨plainSession, [] ++ [(ampleFuel, ownAssignmentSource)]⟩ 0 "a" := by
  obtain ⟨x, heq, hown⟩ := ((internalError_iff_ownAssignment (Options.standard Host.plain)
    plainSession create_plainSession Host.honest_plain (fun e => Host.not_raises_plain _) [] ampleFuel
    ownAssignmentSource).1 _).1 run_ownAssignmentSource
  cases heq
  exact hown

/-- **An accepted program with a defect**: it parses, no static rule is broken, the host raises
nothing, and its run ends with a broken rule. -/
theorem own_assignment_breaks :
    ∃ session p, Session.create (Options.standard Host.plain) = .ok session ∧
      (∀ f, ¬Host.plain.Raises f) ∧ Program.parse ownAssignmentSource = .ok p ∧
      p.resolve.errors = [] ∧
      (session.run ownAssignmentSource).1 =
        .error (.failure (.internal ⟨.nameMissing "a" 0, none⟩)) := by
  have hrun := internalError?_eq_some.1 run_ownAssignmentSource
  obtain ⟨p, hparse, herrors, _⟩ := stop_runWith hrun
  exact ⟨plainSession, p, create_plainSession, Host.not_raises_plain, hparse, herrors, hrun⟩

end Lox.Scoping
