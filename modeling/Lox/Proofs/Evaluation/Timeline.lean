import Lox.Proofs.Evaluation.Stack

/-!
# The timeline of a run

A **point** of a run is a moment between two actions: the tasks that the evaluator is at work on, one
inside the other, what is left to do of the innermost one, and the machine. From a point the run can
lead to two others. When a task begins inside the innermost one, that task is now the innermost; when
the next action has ended well, what comes behind it is left to do. So the points that a run reaches
form a tree, and one of two points in it is always before the other.

A run **halts** at a point that leads nowhere although something is left to do: a step fails, the host
refuses, there is no room for a call, or there is no fuel for a task. Such a point is the last one of
its run.

## Contents
- `Point`, `Begins`, `GoesOn`, `Reaches`: points, and how a run leads from one to another.
- `Before`, `comparable`: the order in time.
- `around_eq`: work on a task inside another one.
- `Halts`, `Halts.last`: where a run halts, nothing comes after.
- `surfaces`, `exists_halts`: what stops a run at a point stops all around it, and nothing else does.
-/

namespace Lox.Evaluation

/-! ## Points -/

/-- A moment of a run. -/
structure Point where
  /-- The tasks that the evaluator is at work on, the innermost one first. -/
  tasks : List Task
  {Result : Type}
  /-- What is left to do of the innermost task, or of the input when there is none. -/
  left : Script Result
  /-- The bound on the recursion of the evaluator for the tasks that are left. -/
  fuel : Nat
  machine : Machine

/-- What becomes of what is left to do of the innermost task. -/
def Point.outcome (setting : Setting) (p : Point) : EStateM.Result Stop Machine p.Result :=
  p.left.run setting (·.run setting p.fuel) p.machine

namespace Frame

/-- Only calls need room. -/
def HasRoom (maxCallDepth : Nat) (m : Machine) : Frame → Prop
  | .plain | .scopes _ => True
  | .call _ => m.callDepth < maxCallDepth

/-- The machine with which a task begins. -/
def enter (m : Machine) : Frame → Machine
  | .plain => m
  | .scopes chain => { m with chain }
  | .call _ => { m with callDepth := m.callDepth + 1 }

/-- The machine behind a task, from the one with which it ended. -/
def leave (m m' : Machine) : Frame → Machine
  | .plain => m'
  | .scopes _ => { m' with chain := m.chain }
  | .call _ => { m' with callDepth := m'.callDepth - 1 }

/-- The scopes that a task sees, by those that the one around it sees. -/
def seen (chain : Chain) : Frame → Chain
  | .plain | .call _ => chain
  | .scopes chain => chain

@[simp] theorem chain_enter (frame : Frame) (m : Machine) :
    (frame.enter m).chain = frame.seen m.chain := by cases frame <;> rfl

@[simp] theorem memory_enter (frame : Frame) (m : Machine) :
    (frame.enter m).memory = m.memory := by cases frame <;> rfl

@[simp] theorem memory_leave (frame : Frame) (m m' : Machine) :
    (frame.leave m m').memory = m'.memory := by cases frame <;> rfl

@[simp] theorem events_enter (frame : Frame) (m : Machine) :
    (frame.enter m).events = m.events := by cases frame <;> rfl

@[simp] theorem events_leave (frame : Frame) (m m' : Machine) :
    (frame.leave m m').events = m'.events := by cases frame <;> rfl

end Frame

section Points

variable (setting : Setting)

/-- From the point in front of a task to the point at which that task begins. -/
inductive Begins : Point → Point → Prop
  | part {tasks α frame t} {next : t.Result → Script α} {n m} :
      frame.HasRoom setting.maxCallDepth m →
      Begins ⟨tasks, .part frame t next, n + 1, m⟩
        ⟨t :: tasks, t.script setting.host, n, frame.enter m⟩

/-- From the point in front of an action to the point behind it, when it ended well. -/
inductive GoesOn : Point → Point → Prop
  | step {tasks α β} {x : Step β} {next : β → Script α} {n m b m'} :
      x.run m = .ok b m' → GoesOn ⟨tasks, .step x next, n, m⟩ ⟨tasks, next b, n, m'⟩
  | print {tasks α text} {next : Script α} {n m m'} :
      Eval.print setting.host text m = .ok () m' →
      GoesOn ⟨tasks, .print text next, n, m⟩ ⟨tasks, next, n, m'⟩
  | exit {tasks α code} {next : Script α} {n m m'} :
      Eval.exit setting.host code m = .ok () m' →
      GoesOn ⟨tasks, .exit code next, n, m⟩ ⟨tasks, next, n, m'⟩
  | part {tasks α frame t} {next : t.Result → Script α} {n m r m'} :
      frame.around setting.maxCallDepth (t.run setting n) m = .ok r m' →
      GoesOn ⟨tasks, .part frame t next, n, m⟩ ⟨tasks, next r, n, m'⟩

/-- From a point to all those that the run leads to. -/
inductive Reaches : Point → Point → Prop
  | refl {p} : Reaches p p
  | inside {p q r} : Begins setting p q → Reaches q r → Reaches p r
  | behind {p q r} : GoesOn setting p q → Reaches q r → Reaches p r

/-- A point is before another one when the run leads from it to the other one, or when it belongs to a
task that has ended before. -/
inductive Before : Point → Point → Prop
  | inside {p q r} : Begins setting p q → Reaches setting q r → Before p r
  | behind {p q r} : GoesOn setting p q → Reaches setting q r → Before p r
  | ended {p q r o o'} : Begins setting o q → Reaches setting q p → GoesOn setting o o' →
      Reaches setting o' r → Before p r

/-- Where a run stops: something is left to do, and it cannot be done. -/
inductive Halts : Point → Stop → Machine → Prop
  | step {tasks α β} {x : Step β} {next : β → Script α} {n m stop m'} :
      x.run m = .error stop m' → Halts ⟨tasks, .step x next, n, m⟩ stop m'
  | print {tasks α text} {next : Script α} {n m f} :
      setting.host.onPrint m.events text = some f →
      Halts ⟨tasks, .print text next, n, m⟩ (.failure f) m
  | exit {tasks α code} {next : Script α} {n m f} :
      setting.host.onExit m.events code = some f →
      Halts ⟨tasks, .exit code next, n, m⟩ (.failure f) { m with events := m.events.push (.exit code) }
  | refused {tasks α location t} {next : t.Result → Script α} {n m} :
      setting.maxCallDepth ≤ m.callDepth →
      Halts ⟨tasks, .part (.call location) t next, n, m⟩
        (.failure (.runtime ⟨.stackOverflow, some location⟩)) m
  | exhausted {tasks α frame t} {next : t.Result → Script α} {m} :
      frame.HasRoom setting.maxCallDepth m →
      Halts ⟨tasks, .part frame t next, 0, m⟩ .outOfFuel m

end Points

variable {setting : Setting} {o p q r : Point}

theorem Reaches.trans (h : Reaches setting p q) (h' : Reaches setting q r) : Reaches setting p r := by
  induction h with
  | refl => exact h'
  | inside hbegins _ ih => exact .inside hbegins (ih h')
  | behind hgoes _ ih => exact .behind hgoes (ih h')

/-- What both kinds of step keep, the run keeps. -/
theorem Reaches.keeps {P : Point → Prop} (h : Reaches setting p q)
    (hbegins : ∀ {p q}, Begins setting p q → P p → P q)
    (hgoes : ∀ {p q}, GoesOn setting p q → P p → P q) (hp : P p) : P q := by
  induction h with
  | refl => exact hp
  | inside hpq _ ih => exact ih (hbegins hpq hp)
  | behind hpq _ ih => exact ih (hgoes hpq hp)

/-! ## The order in time -/

/-- One task begins at a point. -/
theorem Begins.unique (h : Begins setting p q) (h' : Begins setting p r) : q = r := by
  cases h with
  | part => cases h' with | part => rfl

/-- One point is behind an action. -/
theorem GoesOn.unique (h : GoesOn setting p q) (h' : GoesOn setting p r) : q = r := by
  cases h with
  | step heq =>
      cases h' with
      | step heq' =>
          cases heq.symm.trans heq'
          rfl
  | print heq =>
      cases h' with
      | print heq' =>
          cases heq.symm.trans heq'
          rfl
  | exit heq =>
      cases h' with
      | exit heq' =>
          cases heq.symm.trans heq'
          rfl
  | part heq =>
      cases h' with
      | part heq' =>
          cases heq.symm.trans heq'
          rfl

/-- **Of two points that a run reaches, one is before the other.** -/
theorem comparable (hp : Reaches setting o p) (hq : Reaches setting o q) :
    p = q ∨ Before setting p q ∨ Before setting q p := by
  -- the two ways part where one goes into a task and the other one is behind it
  induction hp with
  | refl =>
      cases hq with
      | refl => exact .inl rfl
      | inside hbegins hq => exact .inr (.inl (.inside hbegins hq))
      | behind hgoes hq => exact .inr (.inl (.behind hgoes hq))
  | inside hbegins hp ih =>
      cases hq with
      | refl => exact .inr (.inr (.inside hbegins hp))
      | inside hbegins' hq =>
          cases hbegins.unique hbegins'
          exact ih hq
      | behind hgoes hq => exact .inr (.inl (.ended hbegins hp hgoes hq))
  | behind hgoes hp ih =>
      cases hq with
      | refl => exact .inr (.inr (.behind hgoes hp))
      | inside hbegins hq => exact .inr (.inr (.ended hbegins hq hgoes hp))
      | behind hgoes' hq =>
          cases hgoes.unique hgoes'
          exact ih hq

/-! ## Well-placed points -/

/-- A point whose tasks lie one inside the other, and so will those that begin. -/
structure Point.WellPlaced (p : Point) : Prop where
  stacked : Stacked p.tasks
  parts : p.left.AllParts (Placed p.tasks.head?)

theorem Begins.wellPlaced (h : Begins setting p q) (hp : p.WellPlaced) : q.WellPlaced := by
  cases h with
  | part _ => exact ⟨.cons hp.parts.1 hp.stacked, script_placed _ _⟩

theorem GoesOn.wellPlaced (h : GoesOn setting p q) (hp : p.WellPlaced) : q.WellPlaced := by
  obtain ⟨hstacked, hparts⟩ := hp
  cases h with
  | step _ => exact ⟨hstacked, hparts _⟩
  | print _ | exit _ => exact ⟨hstacked, hparts⟩
  | part _ => exact ⟨hstacked, hparts.2 _⟩

theorem Reaches.wellPlaced (h : Reaches setting p q) (hp : p.WellPlaced) : q.WellPlaced :=
  h.keeps (fun hbegins => hbegins.wellPlaced) (fun hgoes => hgoes.wellPlaced) hp

/-! ## From a point to the one around it -/

theorem machineOf_ok {α : Type} {r : EStateM.Result Stop Machine α} {a : α} {m : Machine}
    (h : r = .ok a m) : machineOf r = m := by
  rw [h]
  rfl

/-- A machine that sees the scopes of another one, with as many calls in progress. -/
def backAt (m m' : Machine) : Machine := { m' with chain := m.chain, callDepth := m.callDepth }

theorem Frame.leave_backAt (frame : Frame) (m m' : Machine) :
    frame.leave m (backAt (frame.enter m) m') = backAt m m' := by
  cases frame <;> rfl

/-- Every task restores the scopes and the number of calls. -/
theorem restores_run (t : Task) (n : Nat) : Restores (t.run setting n) := by
  have hcalls := (stepClosed_restores setting).everywhere n
  cases t with
  | expr e => exact hcalls.evaluate e
  | exprs es => exact hcalls.evaluateAll es
  | call callee args location => exact hcalls.callValue callee args location
  | invoke callee args location => exact hcalls.invoke callee args location
  | function closure args receiver => exact hcalls.callFunction closure args receiver
  | construct c args => exact hcalls.instantiate c args
  | stmt s => exact hcalls.execute s
  | loop condition body increment => exact hcalls.executeLoop condition body increment
  | decl d => exact hcalls.executeDecl d
  | decls ds => exact hcalls.executeAll ds

/-- So does the work on a task inside another one. -/
theorem restores_around (frame : Frame) (t : Task) (n : Nat) :
    Restores (frame.around setting.maxCallDepth (t.run setting n)) := by
  have hrun : Restores (t.run setting n) := restores_run t n
  cases frame with
  | plain => exact hrun
  | scopes chain => exact (stepClosed_restores setting).within chain hrun
  | call location => exact (stepClosed_restores setting).inCall location hrun

/-- Behind an action the innermost task is the same. -/
theorem GoesOn.tasks_eq (h : GoesOn setting p q) : q.tasks = p.tasks := by
  cases h <;> rfl

/-- Behind an action the run sees the same scopes, and as many calls are in progress. -/
theorem GoesOn.sees_same (h : GoesOn setting p q) :
    q.machine.chain = p.machine.chain ∧ q.machine.callDepth = p.machine.callDepth := by
  cases h with
  | @step _ _ _ x _ _ m _ m' heq =>
      have hquiet := x.quiet m
      rw [machineOf_ok heq] at hquiet
      exact ⟨hquiet.chain_eq, hquiet.callDepth_eq⟩
  | @print _ _ text _ _ m m' heq =>
      have hrestored := Restores.print setting.host text m
      rw [machineOf_ok heq] at hrestored
      exact ⟨hrestored.chain_eq, hrestored.callDepth_eq⟩
  | @exit _ _ code _ _ m m' heq =>
      have hrestored := Restores.exit setting.host code m
      rw [machineOf_ok heq] at hrestored
      exact ⟨hrestored.chain_eq, hrestored.callDepth_eq⟩
  | @part _ _ frame t _ n m r m' heq =>
      have hrestored := @restores_around setting frame t n m
      rw [machineOf_ok heq] at hrestored
      exact ⟨hrestored.chain_eq, hrestored.callDepth_eq⟩

theorem GoesOn.backAt_eq (h : GoesOn setting p q) (m : Machine) :
    backAt q.machine m = backAt p.machine m := by
  unfold backAt
  rw [h.sees_same.1, h.sees_same.2]

/-- What is left to do of the innermost task stops. -/
def Point.Stops (setting : Setting) (p : Point) (stop : Stop) (m : Machine) : Prop :=
  p.outcome setting = .error stop m

/-- An action that ended well is not what stops a task. -/
theorem GoesOn.stops_iff (h : GoesOn setting p q) (stop : Stop) (m : Machine) :
    p.Stops setting stop m ↔ q.Stops setting stop m := by
  cases h with
  | step heq => exact iff_of_eq (congrArg (· = _) (bind_of_ok heq))
  | print heq => exact iff_of_eq (congrArg (· = _) (bind_of_ok heq))
  | exit heq => exact iff_of_eq (congrArg (· = _) (bind_of_ok heq))
  | part heq => exact iff_of_eq (congrArg (· = _) (bind_of_ok heq))

/-- What stops a task, as it is seen around the task: a host without stack is a stack overflow of the
call that the task is at work for. -/
def surface : Option Location → Stop → Stop
  | none, stop => stop
  | some location, stop => stop.inCallAt location

/-- Only the innermost call changes what stops it. -/
theorem surface_surface (outer inner : Option Location) (stop : Stop) :
    surface outer (surface inner stop) = surface (inner.or outer) stop := by
  cases inner with
  | none => rfl
  | some location =>
      cases outer with
      | none => rfl
      | some location' =>
          cases stop with
          | outOfFuel => rfl
          | failure f => cases f <;> rfl

/-- **Work on a task inside another one** is work on it with the machine with which it begins, as long
as there is room. -/
theorem around_eq {α : Type} {maxCallDepth : Nat} {frame : Frame} {m : Machine} (x : Eval α)
    (hroom : frame.HasRoom maxCallDepth m) :
    frame.around maxCallDepth x m =
      match x (frame.enter m) with
      | .ok a m' => .ok a (frame.leave m m')
      | .error stop m' => .error (surface frame.site? stop) (frame.leave m m') := by
  cases frame with
  | plain =>
      show x m = match x m with | .ok a m' => .ok a m' | .error stop m' => .error stop m'
      cases x m <;> rfl
  | scopes chain => rfl
  | call location => exact if_neg (Nat.not_le_of_lt hroom)

theorem machineOf_around {α : Type} {maxCallDepth : Nat} {frame : Frame} {m : Machine} (x : Eval α)
    (hroom : frame.HasRoom maxCallDepth m) :
    machineOf (frame.around maxCallDepth x m) = frame.leave m (machineOf (x (frame.enter m))) := by
  rw [around_eq x hroom]
  cases x (frame.enter m) <;> rfl

/-- Without room there is no call. -/
theorem around_call_of_le {α : Type} {maxCallDepth : Nat} {m : Machine} {location : Location}
    (x : Eval α) (hfull : maxCallDepth ≤ m.callDepth) :
    (Frame.call location).around maxCallDepth x m =
      .error (.failure (.runtime ⟨.stackOverflow, some location⟩)) m := if_pos hfull

/-- Only a call can find no room. -/
theorem hasRoom_or_full (maxCallDepth : Nat) (frame : Frame) (m : Machine) :
    frame.HasRoom maxCallDepth m ∨
      ∃ location, frame = .call location ∧ maxCallDepth ≤ m.callDepth := by
  cases frame with
  | plain | scopes chain => exact .inl trivial
  | call location =>
      exact (Nat.lt_or_ge m.callDepth maxCallDepth).imp id fun hfull => ⟨location, rfl, hfull⟩

/-- What becomes of the work on a task inside another one. -/
theorem around_cases {α : Type} (maxCallDepth : Nat) (frame : Frame) (x : Eval α) (m : Machine) :
    (∃ a m', frame.around maxCallDepth x m = .ok a m') ∨
      (∃ location, frame = .call location ∧ maxCallDepth ≤ m.callDepth) ∨
      frame.HasRoom maxCallDepth m ∧ ∃ stop m', x (frame.enter m) = .error stop m' := by
  obtain hroom | hfull := hasRoom_or_full maxCallDepth frame m
  · rw [around_eq x hroom]
    cases x (frame.enter m) with
    | ok a m' => exact .inl ⟨a, _, rfl⟩
    | error stop m' => exact .inr (.inr ⟨hroom, stop, m', rfl⟩)
  · exact .inr (.inl hfull)

/-- A task without fuel stops at once. -/
theorem around_run_zero {frame : Frame} {m : Machine} (t : Task)
    (hroom : frame.HasRoom setting.maxCallDepth m) :
    frame.around setting.maxCallDepth (t.run setting 0) m = .error .outOfFuel m := by
  rw [around_eq _ hroom, Task.run_zero]
  cases frame <;> rfl

/-- A task that begins and stops, as it is seen around it. -/
theorem around_of_stops {frame : Frame} {t : Task} {tasks : List Task} {n : Nat} {m m' : Machine}
    {stop : Stop} (hroom : frame.HasRoom setting.maxCallDepth m)
    (h : Point.Stops setting ⟨t :: tasks, t.script setting.host, n, frame.enter m⟩ stop m') :
    frame.around setting.maxCallDepth (t.run setting (n + 1)) m =
      .error (surface frame.site? stop) (frame.leave m m') := by
  have hinner : t.run setting (n + 1) (frame.enter m) = .error stop m' := by
    rw [Task.run_succ]
    exact h
  rw [around_eq _ hroom, hinner]

/-! ## Where a run halts -/

namespace Halts

variable {stop : Stop} {m : Machine}

/-- Where a run halts, the innermost task stops. -/
theorem stops (h : Halts setting p stop m) : p.Stops setting stop (backAt p.machine m) := by
  cases h with
  | @step _ _ _ x _ _ m₀ _ _ heq =>
      have hquiet := x.quiet m₀
      rw [heq] at hquiet
      have hback : backAt m₀ m = m := by
        unfold backAt
        rw [← hquiet.chain_eq, ← hquiet.callDepth_eq]
        rfl
      refine (bind_of_error heq).trans ?_
      rw [hback]
  | print hrefuses => exact bind_of_error (Eval.print_of_some hrefuses)
  | exit hrefuses => exact bind_of_error (Eval.exit_of_some hrefuses)
  | refused hfull => exact bind_of_error (around_call_of_le _ hfull)
  | exhausted hroom => exact bind_of_error (around_run_zero _ hroom)

/-- Where a run halts, no task begins. -/
theorem not_begins (h : Halts setting p stop m) : ¬Begins setting p q := by
  intro hbegins
  cases hbegins with
  | part hroom =>
      cases h with
      | refused hfull => exact absurd hroom (Nat.not_lt_of_le hfull)

/-- Where a run halts, it does not go on. -/
theorem not_goesOn (h : Halts setting p stop m) : ¬GoesOn setting p q := by
  intro hgoes
  cases h with
  | step heq =>
      cases hgoes with
      | step heq' => exact nomatch heq.symm.trans heq'
  | print hrefuses =>
      cases hgoes with
      | print heq => exact nomatch (Eval.print_of_some hrefuses).symm.trans heq
  | exit hrefuses =>
      cases hgoes with
      | exit heq => exact nomatch (Eval.exit_of_some hrefuses).symm.trans heq
  | refused hfull =>
      cases hgoes with
      | part heq => exact nomatch (around_call_of_le _ hfull).symm.trans heq
  | exhausted hroom =>
      cases hgoes with
      | part heq => exact nomatch (around_run_zero _ hroom).symm.trans heq

end Halts

/-- A task that begins and stops makes the one around it stop. -/
theorem Begins.stops (h : Begins setting p q) {stop : Stop} {m : Machine}
    (hq : q.Stops setting stop m) :
    ∃ (frame : Frame) (t : Task), q.tasks = t :: p.tasks ∧ q.machine = frame.enter p.machine ∧
      (p.WellPlaced → t.site? = frame.site?) ∧
      p.Stops setting (surface frame.site? stop) (frame.leave p.machine m) := by
  cases h with
  | @part tasks α frame t next n m₀ hroom =>
      exact ⟨frame, t, rfl, rfl, fun hp => hp.parts.1.site?_eq,
        bind_of_error (around_of_stops hroom hq)⟩

/-- A task stops when one of the points does that it leads to. -/
theorem Reaches.exists_stops (h : Reaches setting p q) (hq : ∃ stop m, q.Stops setting stop m) :
    ∃ stop m, p.Stops setting stop m := by
  induction h with
  | refl => exact hq
  | inside hbegins _ ih =>
      obtain ⟨stop, m, hstops⟩ := ih hq
      obtain ⟨frame, t, _, _, _, houter⟩ := hbegins.stops hstops
      exact ⟨_, _, houter⟩
  | behind hgoes _ ih =>
      obtain ⟨stop, m, hstops⟩ := ih hq
      exact ⟨stop, m, (hgoes.stops_iff stop m).2 hstops⟩

/-- **Where a run halts, nothing comes after.** -/
theorem Halts.not_before {stop : Stop} {m : Machine} (h : Halts setting q stop m) :
    ¬Before setting q r := by
  intro hbefore
  cases hbefore with
  | inside hbegins _ => exact h.not_begins hbegins
  | behind hgoes _ => exact h.not_goesOn hgoes
  | ended hbegins hreaches hgoes _ =>
      -- the task in which the run has halted would have ended well
      cases hbegins with
      | part hroom =>
          obtain ⟨stop', m', hinner⟩ := hreaches.exists_stops ⟨stop, _, h.stops⟩
          cases hgoes with
          | part heq => exact nomatch (around_of_stops hroom hinner).symm.trans heq

/-- Everything else that the run reaches is before the point where it halts. -/
theorem Halts.last {stop : Stop} {m : Machine} (h : Halts setting q stop m)
    (hq : Reaches setting o q) (hr : Reaches setting o r) : r = q ∨ Before setting r q := by
  obtain heq | hbefore | hafter := comparable hr hq
  · exact .inl heq
  · exact .inr hbefore
  · exact absurd hafter h.not_before

/-- **What stops a run at a point stops everything around it.** The machine sees the scopes of the
task that is stopped, and as many calls are in progress. A host without stack is a stack overflow of
the innermost of the calls that the run has entered on the way. -/
theorem surfaces {stop : Stop} {m : Machine} (h : Reaches setting p q) (hp : p.WellPlaced)
    (hq : Halts setting q stop m) :
    ∃ extra, q.tasks = extra ++ p.tasks ∧
      p.Stops setting (surface (sites extra).head? stop) (backAt p.machine m) := by
  induction h with
  | refl => exact ⟨[], rfl, hq.stops⟩
  | inside hbegins _ ih =>
      obtain ⟨extra, htasks, hstops⟩ := ih (hbegins.wellPlaced hp) hq
      obtain ⟨frame, t, hinner, hmachine, hsite, houter⟩ := hbegins.stops hstops
      refine ⟨extra ++ [t], ?_, ?_⟩
      · rw [htasks, hinner, List.append_assoc]
        rfl
      · -- the task that began is the outermost of the extra ones, and a call or none
        rw [surface_surface, hmachine, Frame.leave_backAt] at houter
        rw [sites_append, sites_single, List.head?_append, hsite hp]
        cases hframe : frame.site? with
        | none =>
            rw [hframe] at houter
            exact houter
        | some location =>
            rw [hframe] at houter
            exact houter
  | behind hgoes _ ih =>
      obtain ⟨extra, htasks, hstops⟩ := ih (hgoes.wellPlaced hp) hq
      refine ⟨extra, ?_, ?_⟩
      · rw [htasks, hgoes.tasks_eq]
      · rw [← hgoes.backAt_eq]
        exact (hgoes.stops_iff _ _).2 hstops

/-- A point from which the run leads to one where it halts. -/
def Point.LeadsToHalt (setting : Setting) (p : Point) : Prop :=
  ∃ q stop m, Reaches setting p q ∧ Halts setting q stop m

/-- A script that stops has halted in one of its actions, if its tasks do. -/
theorem leadsToHalt_of_parts {n : Nat}
    (inside : ∀ {α : Type} (tasks : List Task) (frame : Frame) (t : Task)
      (next : t.Result → Script α) (m : Machine), frame.HasRoom setting.maxCallDepth m →
      (∃ stop m', t.run setting n (frame.enter m) = .error stop m') →
      Point.LeadsToHalt setting ⟨tasks, .part frame t next, n, m⟩)
    {α : Type} (script : Script α) (tasks : List Task) (m : Machine) {stop : Stop} {m' : Machine}
    (h : Point.Stops setting ⟨tasks, script, n, m⟩ stop m') :
    Point.LeadsToHalt setting ⟨tasks, script, n, m⟩ := by
  -- behind an action that ended well, the rest of the script stops
  have behind {p q : Point} (hgoes : GoesOn setting p q) (hp : p.Stops setting stop m')
      (ih : q.Stops setting stop m' → q.LeadsToHalt setting) : p.LeadsToHalt setting := by
    obtain ⟨r, stop', m'', hreaches, hhalts⟩ := ih ((hgoes.stops_iff stop m').1 hp)
    exact ⟨r, stop', m'', .behind hgoes hreaches, hhalts⟩
  induction script generalizing m with
  | done a => exact nomatch h
  | step x next ih =>
      cases hx : x.run m with
      | ok b m₁ => exact behind (.step hx) h (ih b m₁)
      | error stop₁ m₁ => exact ⟨_, stop₁, m₁, .refl, .step hx⟩
  | print text next ih =>
      cases hprint : setting.host.onPrint m.events text with
      | none => exact behind (.print (Eval.print_of_none hprint)) h (ih _)
      | some f => exact ⟨_, _, _, .refl, .print hprint⟩
  | exit code next ih =>
      cases hexit : setting.host.onExit m.events code with
      | none => exact behind (.exit (Eval.exit_of_none hexit)) h (ih _)
      | some f => exact ⟨_, _, _, .refl, .exit hexit⟩
  | part frame t next ih =>
      obtain ⟨r, m₁, hpart⟩ | ⟨location, rfl, hfull⟩ | ⟨hroom, hstops⟩ :=
        around_cases setting.maxCallDepth frame (t.run setting n) m
      · exact behind (.part hpart) h (ih r m₁)
      · exact ⟨_, _, _, .refl, .refused hfull⟩
      · exact inside tasks frame t next m hroom hstops

/-- **A run that stops has halted at a point.** -/
theorem exists_halts (h : ∃ stop m, p.Stops setting stop m) : p.LeadsToHalt setting := by
  obtain @⟨tasks, α, script, n, m⟩ := p
  obtain ⟨stop, m', h⟩ := h
  -- on the bound: a task that begins has one unit less for those in it
  induction n generalizing α tasks m stop m' with
  | zero =>
      refine leadsToHalt_of_parts ?_ script tasks m h
      intro α tasks frame t next m hroom _
      exact ⟨_, _, _, .refl, .exhausted hroom⟩
  | succ n ih =>
      refine leadsToHalt_of_parts ?_ script tasks m h
      rintro α tasks frame t next m hroom ⟨stop, m', hinner⟩
      rw [Task.run_succ] at hinner
      obtain ⟨q, stop', m'', hreaches, hhalts⟩ := ih (t :: tasks) (t.script setting.host) _ _ _ hinner
      exact ⟨q, stop', m'', .inside (.part hroom) hreaches, hhalts⟩

end Lox.Evaluation
