import Lox.Proofs.Scoping.Sessions

/-!
# Failures reach the surface

Nothing in the evaluator catches what stops it, except that a host without stack becomes a stack
overflow of the call it is in. So whatever else stops a moment also stops the moment around it, and
in the end the whole input.

## Contents
- `stopOf`, `Moment.stop?`: why a call of the evaluator stops, if it does.
- `stop_part`, `stop_body`: from a moment to the one around it.
- `stop_start`: from a moment to the first one of its input.
- `stop_exhausted`, `stop_own`: moments without fuel, and assignments to a local variable in its own
  initializer.
- `stop_runWith`, `allowed_of_stop`: why an input stops.
- `runWith_reached`, `runWith_exhausts`, `runWith_own`: what a moment does to its input.
-/

namespace Lox.Scoping

/-- Why a computation stopped, if it did. -/
def stopOf {α : Type} : EStateM.Result Stop Machine α → Option Stop
  | .ok _ _ => none
  | .error stop _ => some stop

/-- Why the call of the evaluator at a moment stops, if it does. -/
def Moment.stop? (setting : Setting) (p : Moment) : Option Stop :=
  match p.work with
  | .expr kind scopes e =>
    stopOf (evaluate setting p.fuel (e.resolve kind scopes).value p.machine)
  | .exprs kind scopes es =>
    stopOf (evaluateAll setting p.fuel (Expr.resolveAll kind scopes es).value p.machine)
  | .stmt a scopes s => stopOf (execute setting p.fuel (s.resolve a scopes).value p.machine)
  | .loop a scopes condition body increment =>
    stopOf (executeLoop setting p.fuel (condition.resolve a.enclosingClass scopes).value
      (body.resolve { a with inLoop := true } scopes).value
      (Expr.resolveOption a.enclosingClass scopes increment).value p.machine)
  | .decl a scopes d => stopOf (executeDecl setting p.fuel (d.resolve a scopes).value p.machine)
  | .decls a scopes ds =>
    stopOf (executeAll setting p.fuel (Decl.resolveAll a scopes ds).value p.machine)
  | .call callee args location => stopOf (callValue setting p.fuel callee args location p.machine)
  | .invoke callee args location =>
    stopOf (Lox.invoke setting p.fuel callee args location p.machine)
  | .function closure args receiver =>
    stopOf (callFunction setting p.fuel closure args receiver p.machine)
  | .construct c args => stopOf (instantiate setting p.fuel c args p.machine)

/-! ## Failures of computations -/

section Computations

variable {α β : Type} {x : Eval α} {f : α → Eval β} {m : Machine}

/-- What fails behind a computation that ended well. -/
theorem stopOf_bind_ok {a : α} {m' : Machine} (heq : x m = .ok a m') :
    stopOf ((x >>= f) m) = stopOf (f a m') := by
  rw [bind_of_ok heq]

/-- A computation that fails is the end of what was to come behind it. -/
theorem stopOf_bind {stop : Stop} (hstop : stopOf (x m) = some stop) :
    stopOf ((x >>= f) m) = some stop := by
  cases hres : x m with
  | ok a m' =>
      rw [hres] at hstop
      exact nomatch hstop
  | error stop' m' =>
      rw [bind_of_error hres]
      rw [hres] at hstop
      exact hstop

theorem stopOf_if_true {b : Bool} {x y : Eval α} (hb : b = true) :
    stopOf ((if b then x else y) m) = stopOf (x m) := by
  rw [if_pos hb]

theorem stopOf_if_false {b : Bool} {x y : Eval α} (hb : b = false) :
    stopOf ((if b then x else y) m) = stopOf (y m) := by
  rw [hb]
  rfl

theorem stopOf_within (c : Chain) :
    stopOf (Eval.within c x m) = stopOf (x { m with chain := c }) := by
  cases hres : x { m with chain := c } with
  | ok a m' =>
      rw [Eval.within_of_ok hres]
      rfl
  | error stop m' =>
      rw [Eval.within_of_error hres]
      rfl

theorem stopOf_inCall {maxCallDepth : Nat} {location : Location} {stop : Stop}
    (hroom : m.callDepth < maxCallDepth) (hpasses : stop ≠ .failure .stackExhausted)
    (hstop : stopOf (x (deeper m)) = some stop) :
    stopOf (Eval.inCall maxCallDepth location x m) = some stop := by
  -- only a host without stack is reported as something else
  have hsame : stop.inCallAt location = stop := by
    cases stop with
    | outOfFuel => rfl
    | failure f =>
        cases f with
        | stackExhausted => exact absurd rfl hpasses
        | runtime | internal | host | exited => rfl
  cases hres : x (deeper m) with
  | ok a m' =>
      rw [hres] at hstop
      exact nomatch hstop
  | error stop' m' =>
      rw [Eval.inCall_of_error hroom hres]
      rw [hres] at hstop
      cases hstop
      exact congrArg some hsame

end Computations

/-! ## From a moment to the one around it -/

/-- **What stops a moment stops the one around it.** -/
theorem stop_part {setting : Setting} {p q : Moment} (hpart : Part setting p q) {stop : Stop}
    (hpasses : stop ≠ .failure .stackExhausted) (hstop : q.stop? setting = some stop) :
    p.stop? setting = some stop := by
  -- what comes before the part has gone well, by the equations that the kind of part carries
  cases hpart with
  | grouping => exact hstop
  | operand => exact stopOf_bind hstop
  | left => exact stopOf_bind hstop
  | right heq => exact (stopOf_bind_ok heq).trans (stopOf_bind hstop)
  | first => exact stopOf_bind hstop
  | second heq hdecides =>
      exact (stopOf_bind_ok heq).trans ((stopOf_if_false hdecides).trans hstop)
  | assigned => exact stopOf_bind hstop
  | callee => exact stopOf_bind hstop
  | args heq => exact (stopOf_bind_ok heq).trans (stopOf_bind hstop)
  | called heq heqs => exact (stopOf_bind_ok heq).trans ((stopOf_bind_ok heqs).trans hstop)
  | object => exact stopOf_bind hstop
  | owner => exact stopOf_bind hstop
  | @field _ _ _ _ _ _ span _ i m' heq =>
      have howner : Eval.fieldOwner (.instance i) span.start m' = .ok i m' := rfl
      exact (stopOf_bind_ok heq).trans ((stopOf_bind_ok howner).trans (stopOf_bind hstop))
  | head => exact stopOf_bind hstop
  | tail heq => exact (stopOf_bind_ok heq).trans (stopOf_bind hstop)
  | @invoke n callee c args location m hcallable harity hroom =>
      show stopOf (callValue setting (n + 1) callee args location m) = _
      unfold callValue
      simp only [hcallable]
      rw [if_pos harity]
      exact stopOf_inCall hroom hpasses hstop
  | function => exact hstop
  | method => exact hstop
  | construct => exact hstop
  | @initializer n c args m closure hfind =>
      have hmade : Eval.take (·.newInstance c) m = .ok (m.memory.newInstance c).1
          { m with memory := (m.memory.newInstance c).2 } := rfl
      show stopOf (instantiate setting (n + 1) c args m) = _
      unfold instantiate
      refine (stopOf_bind_ok hmade).trans ?_
      simp only [hfind]
      exact stopOf_bind hstop
  | value => exact stopOf_bind hstop
  | printed => exact stopOf_bind hstop
  | @block n a s ds _ m =>
      show stopOf (Eval.within _ (executeAll setting n (Decl.resolveAll a s.enter ds).value)
        { m with memory := (m.memory.newScope Table.empty).2 }) = _
      rw [stopOf_within]
      exact hstop
  | @test _ _ _ _ _ otherwise =>
      cases otherwise with
      | none => exact stopOf_bind hstop
      | some => exact stopOf_bind hstop
  | @thenBranch _ _ _ _ _ otherwise _ _ _ _ heq htrue =>
      cases otherwise with
      | none => exact (stopOf_bind_ok heq).trans ((stopOf_if_true htrue).trans hstop)
      | some => exact (stopOf_bind_ok heq).trans ((stopOf_if_true htrue).trans hstop)
  | elseBranch heq hfalse =>
      exact (stopOf_bind_ok heq).trans ((stopOf_if_false hfalse).trans hstop)
  | loop => exact hstop
  | returned => exact stopOf_bind hstop
  | condition => exact stopOf_bind hstop
  | round heq htrue =>
      exact (stopOf_bind_ok heq).trans ((stopOf_if_true htrue).trans (stopOf_bind hstop))
  | increment heq htrue hround hgoes =>
      refine (stopOf_bind_ok heq).trans ((stopOf_if_true htrue).trans ?_)
      refine (stopOf_bind_ok hround).trans ?_
      -- a round that ends normally and one that is cut short go on in the same way
      rcases hgoes with rfl | rfl
      · exact stopOf_bind hstop
      · exact stopOf_bind hstop
  | again heq htrue hround hgoes =>
      refine (stopOf_bind_ok heq).trans ((stopOf_if_true htrue).trans ?_)
      refine (stopOf_bind_ok hround).trans ?_
      rcases hgoes with rfl | rfl
      · exact hstop
      · exact hstop
  | incremented heq htrue hround hgoes hstep =>
      refine (stopOf_bind_ok heq).trans ((stopOf_if_true htrue).trans ?_)
      refine (stopOf_bind_ok hround).trans ?_
      rcases hgoes with rfl | rfl
      · exact (stopOf_bind_ok hstep).trans hstop
      · exact (stopOf_bind_ok hstep).trans hstop
  | initial => exact stopOf_bind hstop
  | statement => exact hstop
  | next => exact stopOf_bind hstop
  | rest heq => exact (stopOf_bind_ok heq).trans hstop

/-- What stops the body of a function stops the call. -/
theorem stop_body {setting : Setting} {n : Nat} {o : Origin} {chain seen : Chain}
    {args : List Value} {receiver : Option Instance} {m m' : Machine}
    (hchain : Eval.bodyChain (o.closure chain) args receiver m = .ok seen m') {stop : Stop}
    (hstop : Moment.stop? setting ⟨n, o.body, { m' with chain := seen }⟩ = some stop) :
    Moment.stop? setting ⟨n + 1, .function (o.closure chain) args receiver, m⟩ = some stop := by
  show stopOf (callFunction setting (n + 1) (o.closure chain) args receiver m) = _
  unfold callFunction
  refine (stopOf_bind_ok hchain).trans (stopOf_bind ?_)
  rw [stopOf_within, show (o.closure chain).declaration.body = _ from o.body_resolved]
  exact hstop

/-! ## From a moment to the input -/

/-- **What stops a moment stops the first one of its input.** -/
theorem stop_start {h : History} {k : Nat} {p : Moment} (hreached : Reached h k p) {stop : Stop}
    (hpasses : stop ≠ .failure .stackExhausted) (hstop : p.stop? h.session.setting = some stop) :
    ∃ fuel source program, h.inputs[k]? = some (fuel, source) ∧
      Program.parse source = .ok program ∧ program.resolve.errors = [] ∧
      (startOf (h.session.after (h.inputs.take k)) fuel program).stop? h.session.setting =
        some stop := by
  induction hreached with
  | start hinput hparse herrors => exact ⟨_, _, _, hinput, hparse, herrors, hstop⟩
  | part _ hpart ih => exact ih (stop_part hpart hpasses hstop)
  -- what stops a body stops the call, wherever the function was made
  | body _ hchain _ _ _ _ ih _ => exact ih (stop_body hchain hstop)

/-- What stops the first moment stops the program. -/
theorem stop_program {s : Session} {fuel : Nat} {p : Program} {stop : Stop}
    (hstop : (startOf s fuel p).stop? s.setting = some stop) :
    stopOf (runProgram s.setting s.echo fuel p.resolve.value s.machine) = some stop := by
  rcases start_cases s fuel p with ⟨e, heq, _, hrun⟩ | ⟨heq, hrun⟩
  · rw [heq] at hstop
    rw [hrun]
    exact stopOf_bind hstop
  · rw [heq] at hstop
    rw [hrun]
    exact stopOf_bind hstop

/-! ## Failures of single moments -/

/-- **An assignment to a local variable in its own initializer fails** once its value is there. -/
theorem stop_own {h : History} {k : Nat} {x : String} {p : Moment} (hvalid : Valid h p)
    (hkeeps : ∀ {q}, Part h.session.setting p q → Valid h q → Promise h k q)
    (hown : AssignsOwn h.session.setting x p) :
    p.stop? h.session.setting = some (.failure (ownFailure x)) := by
  cases hown with
  | @intro n kind scopes depth e span m v m' hincomplete heq =>
      have hassigned := valid_part hvalid hkeeps .assigned
      obtain ⟨hafter, _⟩ := Runs.of_eq (hkeeps .assigned hassigned) heq
      have hsees := (hvalid.1.after hafter).sees
      have hassign := assign_own hsees hincomplete v span.start
      refine (stopOf_bind_ok heq).trans (stopOf_bind ?_)
      show stopOf (Eval.assign x (scopes.distance? x) v span.start m') = _
      rw [hassign]
      rfl

/-! ## Why an input stops -/

/-- What stops an input has stopped a run, and is no runtime error: those are results. -/
theorem stop_of_ofEval {r : EStateM.Result Stop Machine Unit} {stop : Stop}
    (hstop : (RunResult.ofEval r).1 = .error stop) :
    stopOf r = some stop ∧ ∀ e, stop ≠ .failure (.runtime e) := by
  unfold RunResult.ofEval at hstop
  split at hstop
  · exact nomatch hstop
  · exact nomatch hstop
  · exact nomatch hstop
  · rename_i hother _
    cases hstop
    exact ⟨rfl, hother⟩

/-- What stops an input stopped the run of its program, which was accepted. -/
theorem stop_runWith {s : Session} {fuel : Nat} {source : List Char} {stop : Stop}
    (hstop : (s.runWith fuel source).1 = .error stop) :
    ∃ p, Program.parse source = .ok p ∧ p.resolve.errors = [] ∧
      stopOf (runProgram s.setting s.echo fuel p.resolve.value s.machine) = some stop := by
  rw [Session.runWith_eq] at hstop
  cases hcompile : compile source with
  | error result =>
      rw [hcompile] at hstop
      exact nomatch hstop
  | ok p' =>
      obtain ⟨p, hparse, herrors, rfl⟩ := (compile_eq_ok source p').1 hcompile
      rw [hcompile] at hstop
      change (RunResult.ofEval (runProgram _ _ _ _ _)).1 = .error stop at hstop
      exact ⟨p, hparse, herrors, (stop_of_ofEval hstop).1⟩

/-- What stops the run of an accepted program stops the input, unless it is made a result. -/
theorem runWith_stops {s : Session} {fuel : Nat} {source : List Char} {p : Program} {stop : Stop}
    (hparse : Program.parse source = .ok p) (herrors : p.resolve.errors = [])
    (hpasses : stop ≠ .failure .stackExhausted) (hruntime : ∀ e, stop ≠ .failure (.runtime e))
    (hstop : stopOf (runProgram s.setting s.echo fuel p.resolve.value s.machine) = some stop) :
    (s.runWith fuel source).1 = .error stop := by
  have hcompile : compile source = .ok p.resolve.value :=
    (compile_eq_ok source _).2 ⟨p, hparse, herrors, rfl⟩
  rw [Session.runWith_eq]
  rw [hcompile]
  show (RunResult.ofEval (runProgram _ _ _ _ _)).1 = _
  cases hres : runProgram s.setting s.echo fuel p.resolve.value s.machine with
  | ok _ m' =>
      rw [hres] at hstop
      exact nomatch hstop
  | error stop' m' =>
      rw [hres] at hstop
      cases hstop
      cases stop with
      | outOfFuel => rfl
      | failure f =>
          cases f with
          | runtime e => exact absurd rfl (hruntime e)
          | stackExhausted => exact absurd rfl hpasses
          | internal | host | exited => rfl

section Input

variable {h : History} {k fuel : Nat} {source : List Char}

/-- **Why an accepted input may stop.** -/
theorem allowed_of_stop (hhonest : h.session.setting.host.Honest)
    (hready : Ready h h.session.machine) (hinput : h.inputs[k]? = some (fuel, source))
    {stop : Stop}
    (hstop : ((h.session.after (h.inputs.take k)).runWith fuel source).1 = .error stop) :
    Allowed h k stop := by
  obtain ⟨p, hparse, herrors, hrun⟩ := stop_runWith hstop
  have hstart : Valid h (startOf (h.session.after (h.inputs.take k)) fuel p) :=
    valid_start (ready_after hhonest hready k) hparse herrors
  have hpromise := promise hhonest (.start hinput hparse herrors) hstart
  have hruns := runs_program (Session.setting_after _ _) hpromise
  unfold Runs at hruns
  cases hres : runProgram (h.session.after (h.inputs.take k)).setting
      (h.session.after (h.inputs.take k)).echo fuel p.resolve.value
      (h.session.after (h.inputs.take k)).machine with
  | ok _ m' =>
      rw [hres] at hrun
      exact nomatch hrun
  | error stop' m' =>
      rw [hres] at hrun hruns
      cases hrun
      exact hruns.2

/-- What stops a moment stops its input, unless it is made a result. -/
theorem runWith_reached (hinput : h.inputs[k]? = some (fuel, source)) {p : Moment}
    (hreached : Reached h k p) {stop : Stop} (hpasses : stop ≠ .failure .stackExhausted)
    (hruntime : ∀ e, stop ≠ .failure (.runtime e))
    (hstop : p.stop? h.session.setting = some stop) :
    ((h.session.after (h.inputs.take k)).runWith fuel source).1 = .error stop := by
  obtain ⟨fuel', source', program, hinput', hparse, herrors, hstart⟩ :=
    stop_start hreached hpasses hstop
  cases hinput.symm.trans hinput'
  refine runWith_stops hparse herrors hpasses hruntime (stop_program ?_)
  rw [Session.setting_after]
  exact hstart

/-- **An assignment to a local variable in its own initializer ends the input.** -/
theorem runWith_own (hhonest : h.session.setting.host.Honest)
    (hready : Ready h h.session.machine) (hinput : h.inputs[k]? = some (fuel, source)) {x : String}
    (hown : OwnAssignment h k x) :
    ((h.session.after (h.inputs.take k)).runWith fuel source).1 =
      .error (.failure (ownFailure x)) := by
  obtain ⟨p, hreached, hassigns⟩ := hown
  have hvalid := valid_of_reached hhonest hready hreached
  have hstop := stop_own hvalid (fun hpart hq => promise hhonest (hreached.part hpart) hq) hassigns
  exact runWith_reached hinput hreached nofun nofun hstop

end Input

end Lox.Scoping
