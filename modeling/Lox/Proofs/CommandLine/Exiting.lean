import Lox.CommandLine.Outcome
import Lox.Proofs.Evaluation.Timeline

/-!
# Programs that end the process

A program may ask for the end of the process wherever it makes a call: in a loop, in a method, while an
instance is made, between the arguments of another call. The tool grants this. Another host may only
take note of it, and then the program goes on.

The two runs of a program, on a host that lets it go on and on one that does not, are the same up to
the first request. There the second one breaks off, and nothing in the program can hold it up. So what
the tool reports can be read off the other run: the texts in front of the first request, and its code.

## Contents
- `Cut`: the results of two runs of which the second breaks off at the first request.
- `script_terminating`: both runs follow the same scripts.
- `cut_run`, `Session.cut_runWith`: the two runs of a task and of an input.
- `execute_reports_prefix`: what the tool reports.
-/

namespace Lox.CommandLine

open Evaluation

/-- Among the events there is no request for the end of the process. -/
def NoExit (events : List Event) : Prop := ∀ code, Event.exit code ∉ events

theorem NoExit.nil : NoExit [] := fun _ => List.not_mem_nil

theorem NoExit.append {events events' : List Event} (h : NoExit events) (h' : NoExit events') :
    NoExit (events ++ events') := fun code hmem =>
  (List.mem_append.1 hmem).elim (h code) (h' code)

theorem NoExit.print (text : String) : NoExit [.print text] := fun _ hmem =>
  Event.noConfusion (List.mem_singleton.1 hmem)

/-- There is one first request. -/
theorem first_exit_unique {before before' after after' : List Event} {code code' : Float}
    (h : NoExit before) (h' : NoExit before')
    (heq : before ++ .exit code :: after = before' ++ .exit code' :: after') :
    before = before' ∧ code = code' := by
  induction before generalizing before' with
  | nil =>
      cases before' with
      | nil =>
          cases heq
          exact ⟨rfl, rfl⟩
      | cons e before' =>
          cases heq
          exact absurd List.mem_cons_self (h' code)
  | cons e before ih =>
      cases before' with
      | nil =>
          cases heq
          exact absurd List.mem_cons_self (h code')
      | cons e' before' =>
          obtain ⟨rfl, hrest⟩ := List.cons_eq_cons.1 heq
          obtain ⟨rfl, hcode⟩ := ih (fun c hmem => h c (List.mem_cons_of_mem _ hmem))
            (fun c hmem => h' c (List.mem_cons_of_mem _ hmem)) hrest
          exact ⟨rfl, hcode⟩

/-! ## Two runs -/

/-- The results of two runs from the same machine. They are the same, and nobody has asked for the end
of the process, or the second run has broken off at the first request, and the first has shown at least
as much. -/
inductive Cut {α : Type} (m : Machine) :
    EStateM.Result Stop Machine α → EStateM.Result Stop Machine α → Prop
  | same {r} (shown : List Event) : NoExit shown →
      (machineOf r).events.toList = m.events.toList ++ shown → Cut m r r
  | ended {r m'} (shown : List Event) (code : Float) : NoExit shown →
      m'.events.toList = m.events.toList ++ shown ++ [.exit code] →
      m'.events.toList <+: (machineOf r).events.toList →
      Cut m r (.error (.failure (.exited code)) m')

namespace Cut

variable {α β : Type} {m m' : Machine} {r r' : EStateM.Result Stop Machine α}

/-- A result that shows nothing more. -/
theorem of_events_eq (h : (machineOf r).events = m.events) : Cut m r r :=
  .same [] .nil (by rw [h, List.append_nil])

/-- The first run only adds events. -/
theorem only_adds (h : Cut m r r') : m.events.toList <+: (machineOf r).events.toList := by
  cases h with
  | same shown _ heq => exact ⟨shown, heq.symm⟩
  | ended shown code _ heq hlater =>
      rw [heq, List.append_assoc] at hlater
      exact (List.prefix_append _ _).trans hlater

/-- Two runs that begin later. -/
theorem after {shown : List Event} (hshown : NoExit shown)
    (hevents : m'.events.toList = m.events.toList ++ shown) (h : Cut m' r r') : Cut m r r' := by
  cases h with
  | same shown' hno heq =>
      exact .same (shown ++ shown') (hshown.append hno)
        (by rw [heq, hevents, List.append_assoc])
  | ended shown' code hno heq hlater =>
      exact .ended (shown ++ shown') code (hshown.append hno)
        (by rw [heq, hevents, List.append_assoc m.events.toList]) hlater

/-- **Runs behind each other.** When the second run has broken off in the first part, whatever the
first run does behind it comes too late. -/
theorem bind {x x' : Eval α} {f f' : α → Eval β} (hx : Cut m (x m) (x' m))
    (hf : ∀ a m₁, x m = .ok a m₁ → Cut m₁ (f a m₁) (f' a m₁)) :
    Cut m ((x >>= f) m) ((x' >>= f') m) := by
  generalize hr : x m = r, hr' : x' m = r' at hx
  cases hx with
  | same shown hno heq =>
      cases r with
      | ok a m₁ =>
          rw [bind_of_ok hr, bind_of_ok hr']
          exact (hf a m₁ hr).after hno heq
      | error stop m₁ =>
          rw [bind_of_error hr, bind_of_error hr']
          exact .same shown hno heq
  | ended shown code hno heq hlater =>
      rw [bind_of_error hr']
      cases r with
      | ok a m₁ =>
          rw [bind_of_ok hr]
          exact .ended shown code hno heq (hlater.trans (hf a m₁ hr).only_adds)
      | error stop m₁ =>
          rw [bind_of_error hr]
          exact .ended shown code hno heq hlater

/-- **Work inside another task.** No call holds up the end of the process. -/
theorem around {maxCallDepth : Nat} {frame : Frame} {x x' : Eval α}
    (hroom : frame.HasRoom maxCallDepth m)
    (h : Cut (frame.enter m) (x (frame.enter m)) (x' (frame.enter m))) :
    Cut m (frame.around maxCallDepth x m) (frame.around maxCallDepth x' m) := by
  have hevents : (machineOf (frame.around maxCallDepth x m)).events =
      (machineOf (x (frame.enter m))).events := by
    rw [machineOf_around x hroom, Frame.events_leave]
  generalize hr : x (frame.enter m) = r, hr' : x' (frame.enter m) = r' at h
  cases h with
  | same shown hno heq =>
      have hsame : frame.around maxCallDepth x' m = frame.around maxCallDepth x m := by
        rw [around_eq x hroom, around_eq x' hroom, hr, hr']
      rw [hsame]
      exact .same shown hno (by rw [hevents, hr, heq, Frame.events_enter])
  | @ended m' shown code hno heq hlater =>
      have hended : frame.around maxCallDepth x' m =
          .error (.failure (.exited code)) (frame.leave m m') := by
        rw [around_eq x' hroom, hr']
        cases frame <;> rfl
      rw [hended]
      refine .ended shown code hno (by rw [Frame.events_leave, heq, Frame.events_enter]) ?_
      rw [Frame.events_leave, hevents, hr]
      exact hlater

end Cut

/-! ## The same scripts -/

theorem native_terminating (host : Host) (n : Native) (args : List Value) (location : Location) :
    Script.native (terminating host) n args location = Script.native host n args location := by
  unfold Script.native
  cases n.body with
  | builtin b => cases b <;> rfl
  | host => rfl

/-- **Both runs follow the same scripts.** What a task does not depend on is how a request for the end
of the process is answered. -/
theorem script_terminating (host : Host) (t : Task) :
    t.script (terminating host) = t.script host := by
  cases t with
  | invoke callee args location =>
      cases callee with
      | function | method | «class» => rfl
      | native n => exact native_terminating host n args location
  | exprs es => cases es <;> rfl
  | decls ds => cases ds <;> rfl
  | expr | call | function | construct | stmt | loop | decl => rfl

/-! ## The two runs -/

section Runs

variable {setting : Setting} (hexits : ∀ history code, setting.host.onExit history code = none)

/-- The same setting with a host on which the process ends when the program asks for it. -/
def endingSetting (setting : Setting) : Setting :=
  { setting with host := terminating setting.host }

include hexits

/-- A script in two runs, when its tasks are cut. -/
theorem cut_script {n : Nat}
    (inside : ∀ (t : Task) (m : Machine),
      Cut m (t.run setting n m) (t.run (endingSetting setting) n m))
    {α : Type} (script : Script α) (m : Machine) :
    Cut m (script.run setting (·.run setting n) m)
      (script.run (endingSetting setting) (·.run (endingSetting setting) n) m) := by
  induction script generalizing m with
  | done a => exact .of_events_eq rfl
  | step x next ih => exact (Cut.of_events_eq (x.quiet m).events_eq).bind fun b m₁ _ => ih b m₁
  | print text next ih =>
      refine Cut.bind ?_ fun _ m₁ _ => ih m₁
      show Cut m (Eval.print setting.host text m) (Eval.print setting.host text m)
      cases hprint : setting.host.onPrint m.events text with
      | none =>
          rw [Eval.print_of_none hprint]
          exact .same [.print text] (.print text) Array.toList_push
      | some f =>
          rw [Eval.print_of_some hprint]
          exact .of_events_eq rfl
  | exit code next ih =>
      refine Cut.bind ?_ fun _ m₁ _ => ih m₁
      show Cut m (Eval.exit setting.host code m) (Eval.exit (terminating setting.host) code m)
      -- the first run takes note of the request, and the second one ends
      rw [Eval.exit_of_none (hexits m.events code), Eval.exit_of_some rfl]
      exact .ended [] code .nil (by rw [List.append_nil]; exact Array.toList_push)
        (List.prefix_refl _)
  | part frame t next ih =>
      refine Cut.bind ?_ fun r m₁ _ => ih r m₁
      obtain hroom | ⟨location, rfl, hfull⟩ := hasRoom_or_full setting.maxCallDepth frame m
      · exact Cut.around hroom (inside t _)
      · show Cut m _ ((Frame.call location).around setting.maxCallDepth _ m)
        rw [around_call_of_le _ hfull, around_call_of_le _ hfull]
        exact .of_events_eq rfl

/-- **A task in two runs.** -/
theorem cut_run (n : Nat) (t : Task) (m : Machine) :
    Cut m (t.run setting n m) (t.run (endingSetting setting) n m) := by
  induction n generalizing t m with
  | zero =>
      rw [Task.run_zero, Task.run_zero]
      exact .of_events_eq rfl
  | succ n ih =>
      rw [Task.run_succ, Task.run_succ, show t.script (endingSetting setting).host = _ from
        script_terminating setting.host t]
      exact cut_script hexits ih (t.script setting.host) m

end Runs

/-! ## Inputs -/

/-- The session on a host on which the process ends when the program asks for it. -/
def endingSession (s : Session) : Session := { s with setting := endingSetting s.setting }

theorem create_terminating (options : Options) :
    Session.create { options with host := terminating options.host } =
      (Session.create options).map endingSession := by
  unfold Session.create
  cases callDepthOf options.maxCallDepth with
  | error e => rfl
  | ok maxCallDepth =>
      have hglobals : globalsOf { options with host := terminating options.host } =
          globalsOf options := rfl
      dsimp only
      rw [hglobals]
      cases globalsOf options <;> rfl

/-- What becomes of an input in two runs: the same, and nobody has asked for the end of the process, or
the second run has ended with the first request. -/
inductive CutInput (m : Machine) :
    Except Stop RunResult × Machine → Except Stop RunResult × Machine → Prop
  | same {r} (shown : List Event) : NoExit shown →
      r.2.events.toList = m.events.toList ++ shown → CutInput m r r
  | ended {r m'} (shown : List Event) (code : Float) : NoExit shown →
      m'.events.toList = m.events.toList ++ shown ++ [.exit code] →
      m'.events.toList <+: r.2.events.toList →
      CutInput m r (.error (.failure (.exited code)), m')

/-- No guard holds up the end of the process. -/
theorem Cut.ofEval {m : Machine} {r r' : EStateM.Result Stop Machine Unit} (h : Cut m r r') :
    CutInput m (RunResult.ofEval r) (RunResult.ofEval r') := by
  cases h with
  | same shown hno heq => exact .same shown hno (by rw [machineOf_ofEval, heq])
  | ended shown code hno heq hlater =>
      exact .ended shown code hno heq (by rw [machineOf_ofEval]; exact hlater)

/-- What becomes of an input, and the machine behind it. -/
def answer (s : Session) (fuel : Nat) (source : List Char) : Except Stop RunResult × Machine :=
  ((s.runWith fuel source).1, (s.runWith fuel source).2.machine)

/-- **An input in two runs.** -/
theorem cut_answer {s : Session} (hexits : ∀ history code, s.setting.host.onExit history code = none)
    (fuel : Nat) (source : List Char) :
    CutInput s.machine (answer s fuel source) (answer (endingSession s) fuel source) := by
  unfold answer
  rw [Session.runWith_eq, Session.runWith_eq]
  cases compile source with
  | error result => exact .same [] .nil (List.append_nil _).symm
  | ok p =>
      have hcut := cut_script hexits (cut_run hexits fuel) (Script.input s.echo p) s.machine
      rw [← runProgram_eq, ← runProgram_eq] at hcut
      exact hcut.ofEval

/-! ## The tool -/

/-- The texts that are printed by events, one after the other. -/
def texts (events : List Event) : List String := printedAfter 0 events.toArray

theorem texts_append_exit (events : List Event) (code : Float) :
    texts (events ++ [.exit code]) = texts events := by
  unfold texts printedAfter
  simp

/-- A run of a whole program is a run of a new session. -/
theorem exists_create_of_runSource {options : Options} {source : List Char}
    {result : Except Stop RunResult} {s : Session} (hrun : runSource options source = .ok (result, s)) :
    ∃ s₀, Session.create { options with echo := false } = .ok s₀ ∧
      s₀.setting.host = options.host ∧ s₀.machine.events = #[] ∧
      answer s₀ ampleFuel source = (result, s.machine) := by
  unfold runSource at hrun
  cases hcreate : Session.create { options with echo := false } with
  | error e =>
      rw [hcreate] at hrun
      exact nomatch hrun
  | ok s₀ =>
      rw [hcreate] at hrun
      have hanswer : s₀.run source = (result, s) := Except.ok.inj hrun
      obtain ⟨maxCallDepth, globals, _, rfl⟩ := Session.eq_of_create hcreate
      refine ⟨_, rfl, rfl, rfl, ?_⟩
      unfold answer
      rw [show Session.runWith ampleFuel _ source = _ from hanswer]

/-- What the tool reports is what becomes of the input in the second run. -/
theorem execute_terminating {options : Options} {s₀ : Session}
    (hcreate : Session.create { options with echo := false } = .ok s₀) {source : List Char}
    {result : Except Stop RunResult} {m : Machine}
    (hanswer : answer (endingSession s₀) ampleFuel source = (result, m)) :
    execute { options with host := terminating options.host } source =
      Response.ofRun 0 result { s₀ with machine := m } := by
  have hending : Session.create { options with host := terminating options.host, echo := false } =
      .ok (endingSession s₀) := by
    have h := create_terminating { options with echo := false }
    rw [hcreate] at h
    exact h
  have hexecute : execute { options with host := terminating options.host } source =
      Response.ofRun 0 ((endingSession s₀).run source).1 ((endingSession s₀).run source).2 := by
    unfold execute runSource
    dsimp only
    rw [hending]
    rfl
  obtain ⟨hresult, hmachine⟩ := Prod.mk.inj hanswer
  rw [hexecute, ← hmachine, ← hresult]
  rfl

/-- **The tool reports the prefix of a run up to its end.** Take a run of a program on a host that lets
it go on when it asks for the end of the process. When it has not asked, the tool prints what this run
has printed, tells its diagnostics, and ends with the code of its result. When it has, the tool prints
what was printed in front of the first request, tells no diagnostics, and ends with the code of that
request, whatever the result of the run was. -/
theorem execute_reports_prefix (options : Options) (source : List Char)
    (result : Except Stop RunResult) (s : Session)
    (hexits : ∀ history code, options.host.onExit history code = none)
    (hrun : runSource options source = .ok (result, s)) :
    (∀ r, result = .ok r → NoExit s.machine.events.toList →
      execute { options with host := terminating options.host } source =
        .ok ⟨texts s.machine.events.toList, r.lines, .code r.exitCode⟩) ∧
    ∀ before code after, s.machine.events.toList = before ++ .exit code :: after → NoExit before →
      execute { options with host := terminating options.host } source =
        .ok ⟨texts before, [], .exit code⟩ := by
  obtain ⟨s₀, hcreate, hhost, hevents, hanswer⟩ := exists_create_of_runSource hrun
  have hexits₀ : ∀ history code, s₀.setting.host.onExit history code = none := by
    rw [hhost]
    exact hexits
  have hcut := cut_answer hexits₀ ampleFuel source
  rw [hanswer] at hcut
  -- the run on the host that ends is the other one, up to the first request
  generalize hending : answer (endingSession s₀) ampleFuel source = ending at hcut
  cases hcut with
  | same shown hno heq =>
      rw [hevents, List.nil_append] at heq
      refine ⟨fun r hr _ => ?_, fun before code after hsplit _ => ?_⟩
      · rw [execute_terminating hcreate hending, hr]
        rfl
      · refine absurd ?_ (hno code)
        rw [← heq, hsplit]
        exact List.mem_append_right _ List.mem_cons_self
  | @ended m' shown code' hno heq hlater =>
      rw [hevents, List.nil_append] at heq
      obtain ⟨rest, hrest⟩ := hlater
      rw [heq, List.append_assoc, List.singleton_append] at hrest
      refine ⟨fun r hr hnone => ?_, fun before code after hsplit hbefore => ?_⟩
      · refine absurd ?_ (hnone code')
        rw [← hrest]
        exact List.mem_append_right _ List.mem_cons_self
      · obtain ⟨rfl, rfl⟩ := first_exit_unique hno hbefore (hrest.trans hsplit)
        rw [execute_terminating hcreate hending, ← texts_append_exit shown code', ← heq]
        rfl

/-- A program that prints a text, asks for the end of the process, prints another one, and fails:
`print "a"; quit(); print "b"; nil();`. -/
def quittingSource : List Char := "print \"a\"; quit(); print \"b\"; nil();".toList

/-- The text that an event prints. -/
def text? : Event → Option String
  | .print text => some text
  | .exit _ => none

theorem eq_of_text? {e : Event} {text : String} (h : text? e = some text) : e = .print text := by
  cases e with
  | print =>
      cases h
      rfl
  | exit code => exact nomatch h

theorem exists_of_text?_none {e : Event} (h : text? e = none) : ∃ code, e = .exit code := by
  cases e with
  | print text => exact nomatch h
  | exit code => exact ⟨code, rfl⟩

/-- On a host that lets it go on, the program prints both texts and fails. The tool reports the first
text and no failure. -/
theorem execute_quitting :
    ∃ result s code, runSource (Options.standard Host.plain) quittingSource = .ok (result, s) ∧
      s.machine.events.toList = [.print "a", .exit code, .print "b"] ∧
      result.toOption.map (·.status) = some "runtime-error" ∧
      execute (Options.standard (terminating Host.plain)) quittingSource =
        .ok ⟨["a"], [], .exit code⟩ := by
  have hshown : (Scoping.plainSession.run quittingSource).2.machine.events.toList.map text? =
      [some "a", none, some "b"] := by decide +kernel
  have hfails : (Scoping.plainSession.run quittingSource).1.toOption.map (·.status) =
      some "runtime-error" := by decide +kernel
  have hrun : runSource (Options.standard Host.plain) quittingSource =
      .ok (Scoping.plainSession.run quittingSource) := rfl
  generalize Scoping.plainSession.run quittingSource = r at hshown hfails hrun
  obtain ⟨result, s⟩ := r
  obtain ⟨e₁, _, hevents, ha, hshown⟩ := List.map_eq_cons_iff.1 hshown
  obtain ⟨e₂, _, rfl, hexit, hshown⟩ := List.map_eq_cons_iff.1 hshown
  obtain ⟨e₃, rest, rfl, hb, hrest⟩ := List.map_eq_cons_iff.1 hshown
  obtain rfl := List.map_eq_nil_iff.1 hrest
  obtain ⟨code, rfl⟩ := exists_of_text?_none hexit
  obtain rfl := eq_of_text? ha
  obtain rfl := eq_of_text? hb
  obtain ⟨_, hreports⟩ := execute_reports_prefix (Options.standard Host.plain) quittingSource result s
    (fun _ _ => rfl) hrun
  exact ⟨result, s, code, hrun, hevents, hfails, hreports [.print "a"] code _ hevents (.print "a")⟩

end Lox.CommandLine
