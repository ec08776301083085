import Lox.Proofs.Renaming.Declaring
import Lox.Proofs.Renaming.Running
import Lox.Proofs.Sessions.Compiling
import Lox.Proofs.Scoping.Sessions

/-!
# Local names do not matter

A local variable of an accepted program is renamed to a name that the program does not have. The
resolver takes the new program to the same depths, and the machine goes through both programs side by
side. So they end in the same way and show the same to the host, and the session that is left behind
runs every later input in the same way as well.

## Contents
- `executeProgram_renamed`, `runProgram_renamed`: whole programs.
- `SameResult`, `SameShown`: what is seen of two runs.
- `Session.Renamed`: sessions in which local variables have other names.
- `Session.Renamed.runRecovered`, `Session.Renamed.after`: an input, and several.
- `local_names_irrelevant`: one variable with another name.
-/

namespace Lox

/-! ## Whole programs -/

theorem Decl.isExpression_rename (plan : Plan) (fs : List Naming) (d : Decl) :
    (d.rename plan fs).isExpression = d.isExpression := by
  cases d with
  | var | function | «class» => rfl
  | stmt s =>
      cases s with
      | ifThenElse _ _ otherwise => cases otherwise <;> rfl
      | expression | print | block | whileLoop | «break» | «continue» | «return» => rfl

theorem Program.isSingle_rename (plan : Plan) (p : Program) :
    (p.rename plan).IsSingle ↔ p.IsSingle := by
  have hmap (plan : Plan) (ds : List Decl) :
      (Decl.renameAll plan [.same] ds).map Decl.isExpression = ds.map Decl.isExpression := by
    induction ds generalizing plan with
    | nil => rfl
    | cons d ds ih => exact congrArg₂ List.cons (d.isExpression_rename _ _) (ih _)
  unfold IsSingle
  rw [← hmap plan p.body]
  rfl

namespace Renaming

open Follows

variable {setting : Setting} (hhost : setting.host.IgnoresNames) {plan : Plan}

include hhost

theorem executeProgram_renamed (n : Nat) {w : World} {p : Program}
    (hsuits : plan.Suits p.scopeAt?) :
    Follows w [.same] Any (executeProgram setting n p)
      (executeProgram setting n (p.rename plan)) := by
  refine ((beside hhost n).executeAll _ [.same] plan p.body (fun d _ => d.keepsName_same)
    hsuits).bind fun _ flow flow' _ hflow => ?_
  cases hflow with
  | normal => exact pure trivial
  | «break» | «continue» | «return» => exact defect _ none

/-- **A program under other names**, with or without echo. -/
theorem runProgram_renamed (echo : Bool) (n : Nat) {w : World} {p : Program}
    (hsuits : plan.Suits p.scopeAt?) :
    Follows w [.same] Any (runProgram setting echo n p)
      (runProgram setting echo n (p.rename plan)) := by
  by_cases hsingle : echo = true ∧ p.IsSingle
  · obtain ⟨rfl, hsingle⟩ := hsingle
    obtain ⟨e, span, hbody⟩ := Program.isSingle_iff.1 hsingle
    have hbody' : (p.rename plan).body = [.stmt (.expression (e.rename [.same]) span)] := by
      show Decl.renameAll plan [.same] p.body = _
      rw [hbody]
      rfl
    rw [Program.run_single hbody, Program.run_single hbody']
    refine ((beside hhost n).evaluate _ _ e).bind fun _ v v' _ hv => ?_
    rw [hv.text_eq]
    exact print setting.host v.text
  · rw [Program.run_of_not_single hsingle,
      Program.run_of_not_single (by rwa [p.isSingle_rename plan])]
    exact executeProgram_renamed hhost n hsuits

end Renaming

/-! ## What is seen of two runs -/

/-- The same result, except that the name in an internal error may be another one. -/
inductive SameResult : Except Stop RunResult → Except Stop RunResult → Prop
  | ok (result : RunResult) : SameResult (.ok result) (.ok result)
  | error {stop stop' : Stop} (h : stop.UpToName stop') : SameResult (.error stop) (.error stop')

/-- Two runs have the same result, and the host has been told the same, in the same order. -/
structure SameShown (r r' : Except Stop RunResult × Session) : Prop where
  result : SameResult r.1 r'.1
  events : r'.2.machine.events = r.2.machine.events

/-- The results of two runs side by side. -/
theorem Renaming.Ends.ofEval {w : World} {c : Chain} {r r' : EStateM.Result Stop Machine Unit}
    (h : Renaming.Ends w c Renaming.Any r r') :
    SameResult (RunResult.ofEval r).1 (RunResult.ofEval r').1 ∧
      (RunResult.ofEval r).2.chain = c ∧
      ∃ w', (RunResult.ofEval r).2.Renamed w' (RunResult.ofEval r').2 := by
  cases h with
  | ok _ hm hchain _ => exact ⟨.ok .ok, hchain, _, hm⟩
  | @error _ _ _ stop _ _ hm hchain hstop =>
      cases hstop with
      | nameMissing name name' depth location =>
          exact ⟨.error (.nameMissing name name' depth location), hchain, _, hm⟩
      | refl =>
          cases stop with
          | outOfFuel => exact ⟨.error (.refl _), hchain, _, hm⟩
          | failure f =>
              cases f with
              | runtime e => exact ⟨.ok _, hchain, _, hm⟩
              | stackExhausted => exact ⟨.ok _, hchain, _, hm⟩
              | _ => exact ⟨.error (.refl _), hchain, _, hm⟩

/-! ## Sessions -/

/-- Sessions between two inputs that differ in names of local variables alone. -/
structure Session.Renamed (s s' : Session) : Prop where
  setting_eq : s'.setting = s.setting
  echo_eq : s'.echo = s.echo
  resolutions_eq : s'.resolutions = s.resolutions
  chain_eq : s.machine.chain = globalChain
  machine : ∃ w, s.machine.Renamed w s'.machine

/-- A new session is like itself. -/
theorem Session.Renamed.create {options : Options} {session : Session}
    (hcreate : Session.create options = .ok session) : session.Renamed session := by
  obtain ⟨maxCallDepth, globals, hglobals, rfl⟩ := Session.eq_of_create hcreate
  have hempty : Table.RenamedAll (World.naming [.same]) (Value.Renamed [.same]) #[] #[] :=
    ⟨rfl, fun _ => .empty⟩
  have hmemory : Memory.Renamed [.same] (Memory.empty.newScope globals).2
      (Memory.empty.newScope globals).2 :=
    ⟨rfl, hempty.push (renamed_globalsOf .native hglobals), ⟨rfl, fun _ => .empty⟩, rfl, rfl⟩
  have hbounds : World.Bounds [.same] globalChain := fun i hi =>
    List.mem_singleton.1 hi ▸ Nat.zero_lt_one
  exact ⟨rfl, rfl, rfl, rfl, [.same], hmemory, rfl, hbounds, rfl, rfl, rfl⟩

/-- What is executed for two inputs: the same, or a program and that program under other names. -/
inductive RenamedCompiled : Except RunResult Program → Except RunResult Program → Prop
  | error (result : RunResult) : RenamedCompiled (.error result) (.error result)
  | ok {p : Program} {plan : Plan} (hsuits : plan.Suits p.scopeAt?) :
      RenamedCompiled (.ok p) (.ok (p.rename plan))

namespace RenamedCompiled

/-- The same input. -/
theorem refl (compiled : Except RunResult Program) : RenamedCompiled compiled compiled := by
  cases compiled with
  | error result => exact .error result
  | ok p =>
      have hsame := ok (Plan.Suits.same p.scopeAt?)
      rwa [p.rename_same] at hsame

end RenamedCompiled

namespace Session.Renamed

variable {s s' : Session}

/-- **An input and the same input under other names** end in the same way and leave such sessions. -/
theorem runRecovered (h : s.Renamed s') (hhost : s.setting.host.IgnoresNames) (fuel : Nat)
    {r r' : Recovered} (hcompile : RenamedCompiled r.compile r'.compile)
    (htable : r'.table s.resolutions = r.table s.resolutions) :
    SameShown (s.runRecovered fuel r) (s'.runRecovered fuel r') ∧
      (s.runRecovered fuel r).2.Renamed (s'.runRecovered fuel r').2 := by
  obtain ⟨w, hmachine⟩ := h.machine
  unfold Session.runRecovered
  rw [h.setting_eq, h.echo_eq, h.resolutions_eq, htable]
  generalize r.compile = compiled, r'.compile = compiled' at hcompile
  cases hcompile with
  | error result =>
      exact ⟨⟨.ok result, hmachine.events_eq⟩,
        ⟨rfl, rfl, rfl, h.chain_eq, w, hmachine⟩⟩
  | ok hsuits =>
      have hglobal : w.along s.machine.chain = [.same] := by
        rw [h.chain_eq]
        exact congrArg (fun f => [f]) hmachine.memory.naming_global
      have hends := Renaming.runProgram_renamed hhost s.echo fuel hsuits s.machine s'.machine
        hmachine hglobal
      obtain ⟨hresult, hchain, w', hmachine'⟩ := hends.ofEval
      exact ⟨⟨hresult, hmachine'.events_eq⟩,
        ⟨rfl, rfl, rfl, hchain.trans h.chain_eq, w', hmachine'⟩⟩

/-- The same source text. -/
theorem runWith (h : s.Renamed s') (hhost : s.setting.host.IgnoresNames) (fuel : Nat)
    (source : List Char) :
    SameShown (s.runWith fuel source) (s'.runWith fuel source) ∧
      (s.runWith fuel source).2.Renamed (s'.runWith fuel source).2 := by
  rw [s.runWith_eq_runRecovered, s'.runWith_eq_runRecovered]
  exact h.runRecovered hhost fuel (.refl _) rfl

/-- **Any further inputs** leave such sessions. -/
theorem after (h : s.Renamed s') (hhost : s.setting.host.IgnoresNames)
    (inputs : List (Nat × List Char)) : (s.after inputs).Renamed (s'.after inputs) := by
  induction inputs generalizing s s' with
  | nil => exact h
  | cons input rest ih =>
      refine ih (h.runWith hhost input.1 input.2).2 ?_
      rw [Scoping.Session.setting_runWith]
      exact hhost

end Session.Renamed

/-! ## One variable -/

/-- **Local names do not matter.** Let a variable of a local scope of an accepted program, declared by
`var` or as a parameter, get a name that the program does not have, where it is declared and at the
uses that lead there, and nowhere else. The new program is accepted too. Each use keeps its depth,
and the table of the session gets the same entries. After any inputs, both programs tell the host the
same and have the same result, up to the name in an internal error. All later inputs do so as well. -/
theorem local_names_irrelevant (options : Options) (session : Session)
    (inputs : List (Nat × List Char)) (p : Program) (way : List Nat) (scope : LocalScope)
    (old new : String) (hold : ¬Reserved old) (hnew : ¬Reserved new) (fuel : Nat)
    (hcreate : Session.create options = .ok session) (hhost : options.host.IgnoresNames)
    (haccepted : p.resolve.errors = []) (hscope : p.resolve.value.scopeAt? way = some scope)
    (hdeclared : scope.declaresVariable old = true) (hfresh : new ∉ p.names) :
    let s := session.after inputs
    let q := p.resolve.value.rename (.only way (.exchange old new hold hnew))
    q.resolve = ⟨q, []⟩ ∧
    s.resolutions.resolve q = (⟨q, []⟩, (s.resolutions.resolve p).2) ∧
    SameShown (s.runRecovered fuel ⟨p, []⟩) (s.runRecovered fuel ⟨q, []⟩) ∧
    ∀ later fuel' source,
      SameShown (((s.runRecovered fuel ⟨p, []⟩).2.after later).runWith fuel' source)
        (((s.runRecovered fuel ⟨q, []⟩).2.after later).runWith fuel' source) := by
  intro s q
  have hsuits := Plan.suits_only hold hnew haccepted hscope hdeclared hfresh
  have hresolve (r : Resolutions) : r.resolve q = (⟨q, []⟩, (r.resolve p).2) :=
    r.resolve_rename (Naming.apart_exchange hold hnew) (Plan.within_only hold hnew way) haccepted
      (fun n hn heq => hfresh (heq ▸ hn)) hsuits
  have hchecked : q.resolve = ⟨q, []⟩ :=
    (Resolutions.empty.resolve_fst q).symm.trans (congrArg Prod.fst (hresolve .empty))
  -- both are executed, with the same table behind them
  have hcompile : RenamedCompiled (Recovered.compile ⟨p, []⟩) (Recovered.compile ⟨q, []⟩) := by
    have hp : Recovered.compile ⟨p, []⟩ = .ok p.resolve.value :=
      if_pos (List.isEmpty_iff.2 haccepted)
    have hq : Recovered.compile ⟨q, []⟩ = .ok q := by
      unfold Recovered.compile
      dsimp only
      rw [hchecked]
      rfl
    rw [hp, hq]
    exact .ok hsuits
  have htable : Recovered.table ⟨q, []⟩ s.resolutions = Recovered.table ⟨p, []⟩ s.resolutions := by
    show (s.resolutions.resolve q).2 = (s.resolutions.resolve p).2
    rw [hresolve]
  have hhost' : s.setting.host.IgnoresNames := by
    rw [Scoping.Session.setting_after, Session.host_of_create hcreate]
    exact hhost
  have hsession := Session.Renamed.create hcreate
  have hself : s.Renamed s := hsession.after (Session.host_of_create hcreate ▸ hhost) inputs
  obtain ⟨hshown, hafter⟩ := hself.runRecovered hhost' fuel hcompile htable
  refine ⟨hchecked, hresolve _, hshown, fun later fuel' source => ?_⟩
  have hlater := hafter.after (by rwa [Session.setting_runRecovered]) later
  refine (hlater.runWith ?_ fuel' source).1
  rwa [Scoping.Session.setting_after, Session.setting_runRecovered]

/-- A function sees a global, and goes on seeing it when a variable of its name is declared in the block:
`var a = "global"; { fun show() { print a; } show(); var a = "block"; show(); print a; }`. -/
def shadowingProgram : Program :=
  (Program.recover ("var a = \"global\"; \x7b fun show() \x7b print a; \x7d show(); " ++
    "var a = \"block\"; show(); print a; \x7d").toList).program

/-- The variable of the block gets the name `b`, and the global keeps its name. -/
theorem local_names_irrelevant_for_shadowing :
    ∃ scope, Session.create (Options.standard Host.plain) = .ok Scoping.plainSession ∧
      Host.plain.IgnoresNames ∧ shadowingProgram.resolve.errors = [] ∧
      shadowingProgram.resolve.value.scopeAt? [1] = some scope ∧
      scope.declaresVariable "a" = true ∧ "b" ∉ shadowingProgram.names ∧
      let q := shadowingProgram.resolve.value.rename
        (.only [1] (.exchange "a" "b" (by decide) (by decide)))
      shadowingProgram.names = ["a", "show", "a", "show", "a", "show", "a"] ∧
      q.names = ["a", "show", "a", "show", "b", "show", "b"] ∧
      SameShown (Scoping.plainSession.runRecovered 30 ⟨shadowingProgram, []⟩)
        (Scoping.plainSession.runRecovered 30 ⟨q, []⟩) := by
  have haccepted : shadowingProgram.resolve.errors = [] := by decide +kernel
  have hfresh : "b" ∉ shadowingProgram.names := by decide +kernel
  have hany : (shadowingProgram.resolve.value.scopeAt? [1]).any (·.declaresVariable "a") = true := by
    decide +kernel
  obtain ⟨scope, hscope, hdeclared⟩ := (Option.any_eq_true _ _).1 hany
  obtain ⟨_, _, hshown, _⟩ := local_names_irrelevant (Options.standard Host.plain)
    Scoping.plainSession [] shadowingProgram [1] scope "a" "b" (by decide) (by decide) 30
    Scoping.create_plainSession Host.ignoresNames_plain haccepted hscope hdeclared hfresh
  refine ⟨scope, Scoping.create_plainSession, Host.ignoresNames_plain, haccepted, hscope, hdeclared,
    hfresh, ?_, ?_, hshown⟩
  · decide +kernel
  · decide +kernel

end Lox
