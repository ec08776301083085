import Lox.Proofs.Sessions.Halting
import Lox.Proofs.Sessions.Rejecting

/-!
# The limit on the depth of calls

The machine counts the calls in progress, and refuses a call when there are as many as there may be. At
every moment of a run the count is right: it is the number of tasks that are at work on a callable, a
function as well as a method, a class or a native function. An initializer belongs to the call of its
class. So a call is refused exactly when it would be one too many, and what is refused is the call
itself: its callee and its arguments have been evaluated, and their number fits.

Nothing else depends on the limit. A run in which no call is refused is the same run under every
higher limit.

## Contents
- `Refuses`: a call for which there is no room.
- `Point.Counted`: the count of calls is right.
- `Session.ExactLimit`, `exactLimit_after`: the limit is exact.
- `run_raised`, `Session.Raised`: the limit is not noticed otherwise.
- `call_depth_limit`: both.
-/

namespace Lox

/-- The same setting with another limit. -/
def Setting.withLimit (setting : Setting) (limit : Nat) : Setting :=
  { setting with maxCallDepth := limit }

namespace Evaluation

/-- The point at which a task begins. -/
def Task.begin (setting : Setting) (t : Task) (outer : List Task) (n : Nat) (m : Machine) : Point :=
  ⟨t :: outer, t.script setting.host, n, m⟩

/-- There is no room for the call that is to begin, which stands at a place of the program. -/
inductive Refuses (setting : Setting) : Point → Location → Prop
  | full {tasks α location t} {next : t.Result → Script α} {n m} :
      setting.maxCallDepth ≤ m.callDepth →
      Refuses setting ⟨tasks, .part (.call location) t next, n, m⟩ location

variable {setting : Setting} {p q : Point}

theorem Refuses.halts {location : Location} (h : Refuses setting q location) :
    Halts setting q (.failure (.runtime ⟨.stackOverflow, some location⟩)) q.machine := by
  cases h with
  | full hfull => exact .refused hfull

/-- What is refused is a call of a callable, with as many arguments as it takes. -/
theorem Refuses.exists_call {location : Location} (h : Refuses setting q location)
    (hq : q.WellPlaced) :
    ∃ f vs c outer, q.tasks = .call f vs location :: outer ∧ f.callable? = some c ∧
      vs.length = c.arity := by
  cases h with
  | @full tasks α location t next n m hfull =>
      have hplaced := hq.parts.1
      generalize hhead : tasks.head? = around at hplaced
      cases hplaced with
      | invoke hcallable harity =>
          obtain ⟨outer, rfl⟩ := List.head?_eq_some_iff.1 hhead
          exact ⟨_, _, _, outer, rfl, hcallable, harity⟩

/-! ## Counting -/

/-- At a point the count of calls is right, and within the limit. -/
structure Point.Counted (setting : Setting) (p : Point) : Prop where
  wellPlaced : p.WellPlaced
  callDepth_eq : p.machine.callDepth = (sites p.tasks).length
  callDepth_le : p.machine.callDepth ≤ setting.maxCallDepth

/-- A task that begins is one call more, or none. -/
theorem Begins.counted (h : Begins setting p q) (hp : p.Counted setting) : q.Counted setting := by
  have hq := h.wellPlaced hp.wellPlaced
  cases h with
  | @part tasks α frame t next n m hroom =>
      have hsite := hp.wellPlaced.parts.1.site?_eq
      have hsites : sites (t :: tasks) = frame.site?.toList ++ sites tasks := by
        rw [← hsite, ← sites_single, ← sites_append]
        rfl
      cases frame with
      | plain | scopes chain =>
          refine ⟨hq, ?_, hp.callDepth_le⟩
          rw [hsites]
          exact hp.callDepth_eq
      | call location =>
          refine ⟨hq, ?_, hroom⟩
          rw [hsites]
          exact congrArg (· + 1) hp.callDepth_eq

theorem GoesOn.counted (h : GoesOn setting p q) (hp : p.Counted setting) : q.Counted setting where
  wellPlaced := h.wellPlaced hp.wellPlaced
  callDepth_eq := by rw [h.sees_same.2, h.tasks_eq, hp.callDepth_eq]
  callDepth_le := by
    rw [h.sees_same.2]
    exact hp.callDepth_le

/-- **The count is right at every point that a run reaches.** -/
theorem Reaches.counted (h : Reaches setting p q) (hp : p.Counted setting) : q.Counted setting :=
  h.keeps (fun hbegins => hbegins.counted) (fun hgoes => hgoes.counted) hp

/-- A call of a callable with fitting arguments is refused when there are as many calls in progress as
there may be. -/
theorem refuses_call_iff {f : Value} {vs : List Value} {location : Location} {c : Callable}
    {outer : List Task} {n : Nat} {m : Machine} (hcallable : f.callable? = some c)
    (harity : vs.length = c.arity) :
    Refuses setting (Task.begin setting (.call f vs location) outer n m) location ↔
      setting.maxCallDepth ≤ m.callDepth := by
  have hscript : Script.call f vs location =
      .part (.call location) (.invoke c vs location) .done := by
    unfold Script.call
    rw [hcallable]
    exact if_pos harity
  have hbegin : Task.begin setting (.call f vs location) outer n m =
      ⟨.call f vs location :: outer, .part (.call location) (.invoke c vs location) .done, n, m⟩ :=
    congrArg (fun script => Point.mk (.call f vs location :: outer) script n m) hscript
  rw [hbegin]
  refine ⟨fun h => ?_, .full⟩
  cases h with
  | full hfull => exact hfull

/-! ## Higher limits -/

/-- A task that is not refused finds room. -/
theorem hasRoom_of_not_refuses {α : Type} {frame : Frame} {t : Task} {next : t.Result → Script α}
    {tasks : List Task} {n : Nat} {m : Machine}
    (h : ∀ location, ¬Refuses setting ⟨tasks, .part frame t next, n, m⟩ location) :
    frame.HasRoom setting.maxCallDepth m := by
  obtain hroom | ⟨location, rfl, hfull⟩ := hasRoom_or_full setting.maxCallDepth frame m
  · exact hroom
  · exact absurd (.full hfull) (h location)

theorem Frame.HasRoom.mono {frame : Frame} {limit limit' : Nat} {m : Machine} (hle : limit ≤ limit')
    (h : frame.HasRoom limit m) : frame.HasRoom limit' m := by
  cases frame with
  | plain | scopes chain => trivial
  | call location => exact Nat.lt_of_lt_of_le h hle

/-- From this point on, no call is refused. -/
def Point.RefusesNothing (setting : Setting) (p : Point) : Prop :=
  ∀ q location, Reaches setting p q → ¬Refuses setting q location

theorem Point.RefusesNothing.of_begins (h : p.RefusesNothing setting) (hpq : Begins setting p q) :
    q.RefusesNothing setting :=
  fun r location hr => h r location (.inside hpq hr)

theorem Point.RefusesNothing.of_goesOn (h : p.RefusesNothing setting) (hpq : GoesOn setting p q) :
    q.RefusesNothing setting :=
  fun r location hr => h r location (.behind hpq hr)

/-- A script does the same under a higher limit, if its tasks do. -/
theorem script_run_raised {limit n : Nat} (hle : setting.maxCallDepth ≤ limit)
    (inside : ∀ {α : Type} (tasks : List Task) (frame : Frame) (t : Task)
      (next : t.Result → Script α) (m : Machine), frame.HasRoom setting.maxCallDepth m →
      Point.RefusesNothing setting ⟨tasks, .part frame t next, n, m⟩ →
      t.run (setting.withLimit limit) n (frame.enter m) = t.run setting n (frame.enter m))
    {α : Type} (script : Script α) (tasks : List Task) (m : Machine)
    (h : Point.RefusesNothing setting ⟨tasks, script, n, m⟩) :
    script.run (setting.withLimit limit) (·.run (setting.withLimit limit) n) m =
      script.run setting (·.run setting n) m := by
  induction script generalizing m with
  | done a => rfl
  | step x next ih => exact bind_eq rfl fun b m₁ hx => ih b m₁ (h.of_goesOn (.step hx))
  | print text next ih => exact bind_eq rfl fun _ m₁ hprint => ih m₁ (h.of_goesOn (.print hprint))
  | exit code next ih => exact bind_eq rfl fun _ m₁ hexit => ih m₁ (h.of_goesOn (.exit hexit))
  | part frame t next ih =>
      have hroom := hasRoom_of_not_refuses fun location => h _ location .refl
      have hsame : frame.around limit (t.run (setting.withLimit limit) n) m =
          frame.around setting.maxCallDepth (t.run setting n) m := by
        rw [around_eq _ hroom, around_eq _ (hroom.mono hle), inside tasks frame t next m hroom h]
      exact bind_eq hsame fun r m₁ hpart => ih r m₁ (h.of_goesOn (.part hpart))

/-- **A run in which no call is refused is the same run under a higher limit.** -/
theorem run_raised {limit : Nat} (hle : setting.maxCallDepth ≤ limit)
    (h : p.RefusesNothing setting) :
    p.outcome (setting.withLimit limit) = p.outcome setting := by
  obtain @⟨tasks, α, script, n, m⟩ := p
  -- a task begins at a point that the run reaches, so nothing is refused in it either
  induction n generalizing α tasks m with
  | zero =>
      refine script_run_raised hle ?_ script tasks m h
      intro α tasks frame t next m _ _
      rw [Task.run_zero, Task.run_zero]
  | succ n ih =>
      refine script_run_raised hle ?_ script tasks m h
      intro α tasks frame t next m hroom h
      rw [Task.run_succ, Task.run_succ]
      exact ih (t :: tasks) (t.script setting.host) _ (h.of_begins (.part hroom))

end Evaluation

open Evaluation

/-! ## The limit is exact -/

/-- The run of an input reaches a point. -/
def Session.Reaches (s : Session) (fuel : Nat) (source : List Char) (q : Point) : Prop :=
  ∃ p, compile source = .ok p ∧ Evaluation.Reaches s.setting (s.start fuel p) q

/-- The limit on the depth of calls is exact in the next input, whatever that is. -/
structure Session.ExactLimit (s : Session) : Prop where
  /-- The count is the number of calls in progress, and within the limit. -/
  counts : ∀ fuel source q, s.Reaches fuel source q →
    q.machine.callDepth = (sites q.tasks).length ∧
      q.machine.callDepth ≤ s.setting.maxCallDepth
  /-- An instance is made and initialized in the call of its class. -/
  constructs : ∀ fuel source q inner c vs outer, s.Reaches fuel source q →
    q.tasks = inner ++ .construct c vs :: outer →
    ∃ location rest, outer = .invoke (.class c) vs location :: rest
  /-- A call of a callable with fitting arguments is refused when the limit is reached. -/
  refuses_iff : ∀ fuel source f vs location c outer n m,
    s.Reaches fuel source (Task.begin s.setting (.call f vs location) outer n m) →
    f.callable? = some c → vs.length = c.arity →
    (Refuses s.setting (Task.begin s.setting (.call f vs location) outer n m) location ↔
      m.callDepth = s.setting.maxCallDepth)
  /-- What is refused is such a call. The input ends with a stack overflow at its call expression. -/
  refused : ∀ fuel source q location, s.Reaches fuel source q → Refuses s.setting q location →
    (∃ f vs c callee args span outer,
      q.tasks = .call f vs location :: .expr (.call callee args span) :: outer ∧
      location = span.start ∧ f.callable? = some c ∧ vs.length = c.arity) ∧
    (s.runWith fuel source).1 = .ok (.runtimeError ⟨.stackOverflow, some location⟩)

/-- The count is right when an input begins outside every call. -/
theorem Session.Reaches.counted {s : Session} (hcalls : s.machine.callDepth = 0) {fuel : Nat}
    {source : List Char} {q : Point} (h : s.Reaches fuel source q) : q.Counted s.setting := by
  obtain ⟨p, _, hreaches⟩ := h
  refine hreaches.counted ⟨s.wellPlaced_start fuel p, hcalls, ?_⟩
  show s.machine.callDepth ≤ _
  rw [hcalls]
  exact Nat.zero_le _

/-- **The limit is exact** in an input that begins outside every call. -/
theorem Session.exactLimit {s : Session} (hcalls : s.machine.callDepth = 0) : s.ExactLimit where
  counts _ _ _ hreaches :=
    ⟨(hreaches.counted hcalls).callDepth_eq, (hreaches.counted hcalls).callDepth_le⟩
  constructs _ _ q inner c vs outer hreaches htasks := by
    have hstacked := (hreaches.counted hcalls).wellPlaced.stacked
    rw [htasks] at hstacked
    exact hstacked.of_append.ofClass
  refuses_iff _ _ _ _ _ _ _ _ _ hreaches hcallable harity := by
    rw [refuses_call_iff hcallable harity]
    exact ⟨Nat.le_antisymm (hreaches.counted hcalls).callDepth_le, fun heq => Nat.le_of_eq heq.symm⟩
  refused _ _ q location hreaches hrefuses := by
    have hplaced := (hreaches.counted hcalls).wellPlaced
    obtain ⟨f, vs, c, outer, htasks, hcallable, harity⟩ := hrefuses.exists_call hplaced
    have hstacked := hplaced.stacked
    rw [htasks] at hstacked
    obtain ⟨callee, args, span, outer, rfl, hlocation⟩ := hstacked.expression
    obtain ⟨p, hcompile, hreaches⟩ := hreaches
    exact ⟨⟨f, vs, c, callee, args, span, outer, htasks, hlocation, hcallable, harity⟩,
      (Session.runWith_of_halts hcompile hreaches hrefuses.halts).1⟩

/-! ## The limit is not noticed otherwise -/

/-- The same session under another limit. -/
def Session.withLimit (s : Session) (limit : Nat) : Session :=
  { s with setting := s.setting.withLimit limit }

/-- Sessions that are made with different limits differ in nothing else. -/
theorem Session.create_withLimit {options : Options} {choice : Option Float} {s s' : Session}
    (hcreate : Session.create options = .ok s)
    (hcreate' : Session.create { options with maxCallDepth := choice } = .ok s') :
    s' = s.withLimit s'.setting.maxCallDepth := by
  obtain ⟨limit, globals, hglobals, rfl⟩ := Session.eq_of_create hcreate
  obtain ⟨limit', globals', hglobals', rfl⟩ := Session.eq_of_create hcreate'
  cases (show globalsOf options = .ok globals' from hglobals').symm.trans hglobals
  rfl

/-- No call is refused in inputs that follow each other. -/
def Session.RefusesNothing (s : Session) (inputs : List (Nat × List Char)) : Prop :=
  ∀ before fuel source rest, inputs = before ++ (fuel, source) :: rest →
    ∀ q location, (s.after before).Reaches fuel source q → ¬Refuses s.setting q location

/-- **An input in which no call is refused** has the same result under a higher limit, and leaves the
same behind. -/
theorem Session.runWith_withLimit {s : Session} {limit fuel : Nat} {source : List Char}
    (hle : s.setting.maxCallDepth ≤ limit)
    (h : ∀ q location, s.Reaches fuel source q → ¬Refuses s.setting q location) :
    (s.withLimit limit).runWith fuel source =
      ((s.runWith fuel source).1, (s.runWith fuel source).2.withLimit limit) := by
  rw [Session.runWith_eq, Session.runWith_eq]
  cases hcompile : compile source with
  | error result => rfl
  | ok p =>
      have hsame : runProgram (s.setting.withLimit limit) s.echo fuel p s.machine =
          runProgram s.setting s.echo fuel p s.machine := by
        rw [runProgram_eq, runProgram_eq]
        exact run_raised (p := s.start fuel p) hle fun q location hreaches =>
          h q location ⟨p, hcompile, hreaches⟩
      show (_, _) = (_, _)
      rw [show runProgram (s.withLimit limit).setting (s.withLimit limit).echo fuel p
        (s.withLimit limit).machine = _ from hsame]
      rfl

theorem Session.RefusesNothing.rest {s : Session} {fuel : Nat} {source : List Char}
    {inputs : List (Nat × List Char)} (h : s.RefusesNothing ((fuel, source) :: inputs)) :
    (s.runWith fuel source).2.RefusesNothing inputs := by
  intro before fuel' source' rest hinputs q location hreaches
  rw [Scoping.Session.setting_runWith]
  exact h ((fuel, source) :: before) fuel' source' rest (congrArg _ hinputs) q location hreaches

/-- Inputs that follow each other. -/
theorem Session.results_withLimit {s : Session} {limit : Nat}
    (hle : s.setting.maxCallDepth ≤ limit) {inputs : List (Nat × List Char)}
    (h : s.RefusesNothing inputs) :
    (s.withLimit limit).results inputs = s.results inputs ∧
      (s.withLimit limit).after inputs = (s.after inputs).withLimit limit := by
  induction inputs generalizing s with
  | nil => exact ⟨rfl, rfl⟩
  | cons input inputs ih =>
      obtain ⟨fuel, source⟩ := input
      have hfirst := Session.runWith_withLimit (s := s) hle (h [] fuel source inputs rfl)
      have hrest := ih (s := (s.runWith fuel source).2)
        (by rwa [Scoping.Session.setting_runWith]) h.rest
      have hresults : (s.withLimit limit).results ((fuel, source) :: inputs) =
          ((s.withLimit limit).runWith fuel source).1 ::
            ((s.withLimit limit).runWith fuel source).2.results inputs := rfl
      have hafter : (s.withLimit limit).after ((fuel, source) :: inputs) =
          ((s.withLimit limit).runWith fuel source).2.after inputs := rfl
      rw [hresults, hafter, hfirst]
      dsimp only
      rw [hrest.1, hrest.2]
      exact ⟨rfl, rfl⟩

/-- **The limit on the depth of calls is exact, and otherwise invisible.** In every input of a session,
at every moment, the count is the number of calls in progress and within the limit, and a call that may
be made is refused exactly when the limit is reached, with a stack overflow at its call expression.
Inputs in which no call is refused have the same results under every higher limit and leave the same
machine behind, with the same events. -/
theorem call_depth_limit (options : Options) (session : Session)
    (hcreate : Session.create options = .ok session) :
    (∀ inputs, (session.after inputs).ExactLimit) ∧
    (∀ choice session', Session.create { options with maxCallDepth := choice } = .ok session' →
      session' = session.withLimit session'.setting.maxCallDepth) ∧
    ∀ inputs limit, session.setting.maxCallDepth ≤ limit → session.RefusesNothing inputs →
      (session.withLimit limit).results inputs = session.results inputs ∧
      ((session.withLimit limit).after inputs).machine = (session.after inputs).machine := by
  refine ⟨fun inputs => Session.exactLimit ?_, fun _ _ => Session.create_withLimit hcreate,
    fun inputs limit hle h => ?_⟩
  · have hrestored := restored_after session inputs
    obtain ⟨limit, globals, _, rfl⟩ := Session.eq_of_create hcreate
    exact hrestored.callDepth_eq
  · obtain ⟨hresults, hafter⟩ := Session.results_withLimit hle h
    exact ⟨hresults, by rw [hafter]; rfl⟩

/-- A function that calls itself for ever: `fun f() { f(); } f();`. -/
def recursionSource : List Char := "fun f() \x7b f(); \x7d f();".toList

/-- A call that ends: `fun f() { } f();`. -/
def callSource : List Char := "fun f() \x7b \x7d f();".toList

/-- The recursion is refused at its own call, and the call that ends is not refused, so it ends alike
under every higher limit. -/
theorem limit_of_recursion :
    Session.create (Options.standard Host.plain) = .ok Scoping.plainSession ∧
      runtimeError? (Scoping.plainSession.run recursionSource).1 =
        some ⟨.stackOverflow, some ⟨1, 11, 10⟩⟩ ∧
      runtimeError? (Scoping.plainSession.run callSource).1 = none ∧
      ∀ limit, defaultMaxCallDepth ≤ limit →
        ((Scoping.plainSession.withLimit limit).run callSource).1 =
          (Scoping.plainSession.run callSource).1 := by
  have hends : runtimeError? (Scoping.plainSession.run callSource).1 = none := by decide +kernel
  refine ⟨Scoping.create_plainSession, by decide +kernel, hends, fun limit hle => ?_⟩
  obtain ⟨hexact, _, hraised⟩ := call_depth_limit _ _ Scoping.create_plainSession
  have hnothing : Scoping.plainSession.RefusesNothing [(ampleFuel, callSource)] := by
    intro before fuel source rest hinputs q location hreaches hrefuses
    have hresult := ((hexact before).refused fuel source q location hreaches
      (by rwa [Scoping.Session.setting_after])).2
    -- the only input is the first one, and a refusal would be its result
    obtain ⟨rfl, hinput⟩ | ⟨_, rfl, htail⟩ := List.cons_eq_append_iff.1 hinputs
    · cases hinput
      change runtimeError? (Scoping.plainSession.runWith ampleFuel callSource).1 = none at hends
      rw [show (Scoping.plainSession.after []).runWith ampleFuel callSource =
        Scoping.plainSession.runWith ampleFuel callSource from rfl] at hresult
      rw [hresult] at hends
      exact nomatch hends
    · exact nomatch (List.append_eq_nil_iff.1 htail.symm).2
  exact List.head_eq_of_cons_eq (hraised [(ampleFuel, callSource)] limit hle hnothing).1

end Lox
