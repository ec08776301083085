import Lox.Proofs.Evaluation.Timeline

/-!
# Failures of an input

While a program runs, three things around it look at what is thrown: every call, the execution of the
input, and the guard of the session. A failure passes through as many of them as there are calls in
progress, and yet it is classified once. A runtime error is the result as it is. When the host has no
stack left, the innermost call in progress makes this a stack overflow of its own, and everything
around it leaves it alone. All else that the host throws goes through.

A run that halts does so at one point of its timeline. Nothing comes after that point, and what the
input has shown is what was shown there.

## Contents
- `Session.start`: the point at which the execution of an input begins.
- `InnermostCall`: the place of the innermost call in progress.
- `RunResult.ofHalt`: the result of an input that halts.
- `failures_classified_once`: what a run that halts leaves behind.
-/

namespace Lox

open Evaluation

/-- The point at which the execution of a program begins as an input. -/
def Session.start (s : Session) (fuel : Nat) (p : Program) : Point :=
  ⟨[], Script.input s.echo p, fuel, s.machine⟩

theorem Session.wellPlaced_start (s : Session) (fuel : Nat) (p : Program) :
    (s.start fuel p).WellPlaced := ⟨.nil, input_placed s.echo p⟩

/-- What an input does is what its script says. -/
theorem Session.runWith_eq_outcome (s : Session) (fuel : Nat) {source : List Char} {p : Program}
    (hcompile : compile source = .ok p) :
    (s.runWith fuel source).1 = (RunResult.ofEval ((s.start fuel p).outcome s.setting)).1 ∧
      (s.runWith fuel source).2.machine =
        (RunResult.ofEval ((s.start fuel p).outcome s.setting)).2 := by
  rw [Session.runWith_eq, hcompile]
  dsimp only
  rw [runProgram_eq]
  exact ⟨rfl, rfl⟩

/-! ## Results -/

/-- The result of an input whose run halts, by the place of the innermost call in progress. -/
def RunResult.ofHalt (site : Option Location) : Stop → Except Stop RunResult
  | .failure (.runtime e) => .ok (.runtimeError e)
  | .failure .stackExhausted => .ok (.runtimeError ⟨.stackOverflow, site⟩)
  | stop => .error stop

/-- The guard of a session completes what the calls have begun. -/
theorem RunResult.ofEval_surface (site : Option Location) (stop : Stop) (m : Machine) :
    RunResult.ofEval (.error (surface site stop) m) = (RunResult.ofHalt site stop, m) := by
  cases stop with
  | outOfFuel => cases site <;> rfl
  | failure f => cases site <;> cases f <;> rfl

namespace Evaluation

/-- The place of the innermost call in progress: the start of its call expression. -/
inductive InnermostCall : List Task → Option Location → Prop
  | outside {tasks} : sites tasks = [] → InnermostCall tasks none
  /-- In the innermost task at work on a callable no other call is in progress. -/
  | inside {inner c f vs callee args span outer} : sites inner = [] →
      InnermostCall (inner ++ .invoke c vs span.start :: .call f vs span.start ::
        .expr (.call callee args span) :: outer) (some span.start)

theorem Stacked.innermostCall {tasks : List Task} (h : Stacked tasks) :
    InnermostCall tasks (sites tasks).head? := by
  cases hsite : (sites tasks).head? with
  | none => exact .outside (List.head?_eq_none_iff.1 hsite)
  | some location =>
      obtain ⟨inner, c, f, vs, callee, args, span, outer, rfl, hinner, rfl⟩ :=
        exists_innermost h hsite
      exact .inside hinner

/-- What has been shown when the next action of a point fails. A request for the end of the process is
recorded before it is answered. -/
def Point.shown (p : Point) : Array Event :=
  match p.left with
  | .exit code _ => p.machine.events.push (.exit code)
  | _ => p.machine.events

/-- Where a run halts, no more is shown. -/
theorem Halts.events_eq {setting : Setting} {p : Point} {stop : Stop} {m : Machine}
    (h : Halts setting p stop m) : m.events = p.shown := by
  cases h with
  | @step _ _ _ x _ _ m₀ _ _ heq =>
      have hquiet := x.quiet m₀
      rw [heq] at hquiet
      exact hquiet.events_eq
  | print _ | exit _ | refused _ | exhausted _ => rfl

end Evaluation

/-- **An input whose run halts** has the result of the point where it does. -/
theorem Session.runWith_of_halts {s : Session} {fuel : Nat} {source : List Char} {p : Program}
    (hcompile : compile source = .ok p) {q : Point} {stop : Stop} {m : Machine}
    (hreaches : Reaches s.setting (s.start fuel p) q) (hhalts : Halts s.setting q stop m) :
    (s.runWith fuel source).1 = RunResult.ofHalt (sites q.tasks).head? stop ∧
      (s.runWith fuel source).2.machine = backAt s.machine m := by
  obtain ⟨extra, htasks, hstops⟩ := surfaces hreaches (s.wellPlaced_start fuel p) hhalts
  -- no task was at work before the input
  have htasks : q.tasks = extra := htasks.trans (List.append_nil extra)
  obtain ⟨hresult, hmachine⟩ := s.runWith_eq_outcome fuel hcompile
  have hoften := RunResult.ofEval_surface (sites extra).head? stop (backAt s.machine m)
  rw [hresult, hmachine, htasks, show (s.start fuel p).outcome s.setting = _ from hstops]
  exact ⟨congrArg Prod.fst hoften, congrArg Prod.snd hoften⟩

/-- **An input whose run does not halt ends well.** -/
theorem Session.runWith_ok_or_halts {s : Session} {fuel : Nat} {source : List Char} {p : Program}
    (hcompile : compile source = .ok p) :
    (s.runWith fuel source).1 = .ok .ok ∨ (s.start fuel p).LeadsToHalt s.setting := by
  rw [(s.runWith_eq_outcome fuel hcompile).1]
  cases houtcome : (s.start fuel p).outcome s.setting with
  | ok _ m => exact .inl rfl
  | error stop m => exact .inr (exists_halts ⟨stop, m, houtcome⟩)

/-- **Failures are classified once, and stop the run.** An input that is executed ends well, or its run
halts at a point of its timeline. The result is then decided by what was thrown there: a runtime error
is the result unchanged; a host without stack is a stack overflow at the start of the innermost call
expression in progress, without a place when there is none; all else escapes unchanged. The events are
those that had been shown at that point. All other points of the run are before it, and none is after
it: no statement, increment or argument is evaluated any more. -/
theorem failures_classified_once (s : Session) (fuel : Nat) (source : List Char) (p : Program)
    (hcompile : compile source = .ok p) :
    (∀ q stop m, Reaches s.setting (s.start fuel p) q → Halts s.setting q stop m →
      (∃ site, InnermostCall q.tasks site ∧
        (s.runWith fuel source).1 = RunResult.ofHalt site stop) ∧
      (s.runWith fuel source).2.machine.events = q.shown ∧
      (∀ r, Reaches s.setting (s.start fuel p) r → r = q ∨ Before s.setting r q) ∧
      ∀ r, ¬Before s.setting q r) ∧
    ((s.runWith fuel source).1 = .ok .ok ∨
      ∃ q stop m, Reaches s.setting (s.start fuel p) q ∧ Halts s.setting q stop m) := by
  refine ⟨fun q stop m hreaches hhalts => ?_, Session.runWith_ok_or_halts hcompile⟩
  obtain ⟨hresult, hmachine⟩ := Session.runWith_of_halts hcompile hreaches hhalts
  have hstacked := (hreaches.wellPlaced (s.wellPlaced_start fuel p)).stacked
  refine ⟨⟨_, hstacked.innermostCall, hresult⟩, ?_, fun r hr => hhalts.last hreaches hr,
    fun r => hhalts.not_before⟩
  rw [hmachine]
  exact hhalts.events_eq

/-- A host that has no stack left to print. -/
def exhaustedHost : Host := { Host.plain with onPrint := fun _ _ => some .stackExhausted }

/-- A session with such a host. -/
def exhaustedSession : Session :=
  ⟨⟨exhaustedHost, defaultMaxCallDepth⟩, false, Machine.initial builtinBindings, .empty⟩

/-- A text is printed in a call inside a call: `fun f(x) { print x; } fun g() { f(1); } g();`. -/
def innerCallSource : List Char :=
  "fun f(x) \x7b print x; \x7d fun g() \x7b f(1); \x7d g();".toList

/-- The runtime error with which an input ended. -/
def runtimeError? : Except Stop RunResult → Option RuntimeError
  | .ok (.runtimeError e) => some e
  | _ => none

/-- The stack overflow is one of the inner call. -/
theorem overflow_of_inner_call :
    ∃ p, compile innerCallSource = .ok p ∧
      runtimeError? (exhaustedSession.run innerCallSource).1 =
        some ⟨.stackOverflow, some ⟨1, 33, 32⟩⟩ ∧
      ∃ q stop m, Reaches exhaustedSession.setting (exhaustedSession.start ampleFuel p) q ∧
        Halts exhaustedSession.setting q stop m ∧
        ∃ site, InnermostCall q.tasks site ∧
          (exhaustedSession.run innerCallSource).1 = RunResult.ofHalt site stop := by
  have hresult : runtimeError? (exhaustedSession.run innerCallSource).1 =
      some ⟨.stackOverflow, some ⟨1, 33, 32⟩⟩ := by decide +kernel
  have haccepted : (compile innerCallSource).isOk = true := by decide +kernel
  cases hcompile : compile innerCallSource with
  | error result =>
      rw [hcompile] at haccepted
      exact nomatch haccepted
  | ok p =>
      obtain ⟨hhalting, hend⟩ :=
        failures_classified_once exhaustedSession ampleFuel innerCallSource p hcompile
      have hresult' : runtimeError? (exhaustedSession.runWith ampleFuel innerCallSource).1 = _ :=
        hresult
      rcases hend with hok | ⟨q, stop, m, hreaches, hhalts⟩
      · rw [hok] at hresult'
        exact nomatch hresult'
      · exact ⟨p, rfl, hresult, q, stop, m, hreaches, hhalts, (hhalting q stop m hreaches hhalts).1⟩

end Lox
