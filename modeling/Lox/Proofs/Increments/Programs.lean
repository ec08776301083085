import Lox.CommandLine.Outcome
import Lox.Proofs.Increments.Running
import Lox.Proofs.Sessions.Compiling
import Lox.Proofs.Scoping.Sessions
import Lox.Syntax.Outline

/-!
# Moved increments keep the meaning

The increment of a `for` may stand behind the body of its loop, in a block of both, when the body has no
`continue` of its own. The program is accepted with the increment there as well, and the machine goes
through both programs side by side. So they have the same result and show the same to the host. How deep
the evaluator recurses is the only difference: with six times as much fuel the second program goes as far
as the first one, and the first one goes as far as the second with the same fuel.

## Contents
- `executeProgram_follows`, `runProgram_follows`: whole programs.
- `Session.Beside`: sessions in which functions see paired scopes.
- `Session.Beside.create`, `Session.Beside.after`: a session is beside itself, after any inputs.
- `GoesAsFar`, `Session.RunsTo`: what is seen of two runs.
- `moved_increments_keep_meaning`: programs with moved increments.
-/

namespace Lox

/-! ## Whole programs -/

theorem Decl.MovedAll.isSingle_iff {moves : Bool} {p q : Program}
    (h : Decl.MovedAll moves p.body q.body) : q.IsSingle ↔ p.IsSingle := by
  have hone {d d' : Decl} (hd : Decl.Moved moves d d') : d'.isExpression = d.isExpression := by
    cases hd with
    | var | function | «class» => rfl
    | stmt hs => cases hs <;> rfl
  have hmap {ds ds' : List Decl} (hds : Decl.MovedAll moves ds ds') :
      ds'.map Decl.isExpression = ds.map Decl.isExpression := by
    induction ds generalizing ds' with
    | nil =>
        cases hds
        rfl
    | cons d ds ih =>
        cases hds with
        | cons hd hds => exact congrArg₂ List.cons (hone hd) (ih hds)
  unfold Program.IsSingle
  rw [hmap h]

namespace Increments

open Evaluation Scopes

section Programs

variable {setting : Setting} (hhost : setting.host.IgnoresFunctions) {slack : Slack} {n n' : Nat}
  (hleaves : slack.Leaves 0 n n') {w : Pairing} {p q : Program}
  (hmoved : Decl.MovedAll slack.moves p.body q.body) (hordinary : Decl.OrdinaryAll p.body)

include hhost hleaves hmoved hordinary

theorem executeProgram_follows :
    Follows slack slack.moves w globalChain globalChain Any
      (executeProgram setting n p.resolve.value) (executeProgram setting n' q.resolve.value) := by
  have hbody := beside hhost hleaves
    (.decls (a := .topLevel) (w := w) .globals ⟨trivial, trivial⟩ hmoved hordinary)
  refine hbody.bind_of_adds (fun _ flow flow' _ hflow => ?_) (fun _ flow => ?_) (fun _ flow => ?_)
  · cases hflow with
    | normal => exact .pure trivial
    | «break» | «continue» | «return» => exact .defect _ none
  · cases flow <;> exact fun _ => List.prefix_refl _
  · cases flow <;> exact fun _ => List.prefix_refl _

/-- **A program with moved increments**, with or without echo. -/
theorem runProgram_follows (echo : Bool) :
    Follows slack slack.moves w globalChain globalChain Any
      (runProgram setting echo n p.resolve.value) (runProgram setting echo n' q.resolve.value) := by
  by_cases hsingle : echo = true ∧ p.resolve.value.IsSingle
  · obtain ⟨rfl, hsingle⟩ := hsingle
    obtain ⟨e, span, hbody⟩ := Program.isSingle_iff.1 (p.isSingle_resolve.1 hsingle)
    rw [hbody] at hmoved
    -- an expression statement stays as it is
    have hbody' : q.body = [.stmt (.expression e span)] := by
      generalize q.body = ds at hmoved
      cases hmoved with
      | cons hd hds =>
          cases hds
          cases hd with
          | stmt hs =>
              cases hs
              rfl
    have hresolve {p : Program} (hbody : p.body = [.stmt (.expression e span)]) :
        p.resolve.value.body = [.stmt (.expression (e.resolve .none []).value span)] := by
      show (Decl.resolveAll .topLevel [] p.body).value = _
      rw [hbody]
      rfl
    rw [Program.run_single (hresolve hbody), Program.run_single (hresolve hbody')]
    have hplaced : InPlace .none [] [] := ⟨trivial, trivial⟩
    refine (beside hhost hleaves (.expr e (.all .globals) hplaced)).bind_of_adds
      (fun _ v v' _ hv => ?_) (fun _ _ => .print _ _) (fun _ _ => .print _ _)
    rw [hv.text_eq]
    exact .print setting.host v.text
  · have hsingle' : ¬(echo = true ∧ q.resolve.value.IsSingle) := by
      rwa [q.isSingle_resolve, hmoved.isSingle_iff, ← p.isSingle_resolve]
    rw [Program.run_of_not_single hsingle, Program.run_of_not_single hsingle']
    exact executeProgram_follows hhost hleaves hmoved hordinary

end Programs

/-- What becomes of two runs. -/
theorem Ends.ofEval {slack : Slack} {moves : Bool} {w : Pairing} {c c' : Chain}
    {r r' : EStateM.Result Stop Machine Unit} (h : Ends slack moves w c c' Any r r') :
    ((RunResult.ofEval r').1 = (RunResult.ofEval r).1 ∧
      ∃ w', MachinePair moves w' c c' (RunResult.ofEval r).2 (RunResult.ofEval r').2) ∨
    (slack = .first ∧ (RunResult.ofEval r).1 = .error .outOfFuel ∧
      (RunResult.ofEval r).2.events.toList <+: (RunResult.ofEval r').2.events.toList) ∨
    (slack = .second ∧ (RunResult.ofEval r').1 = .error .outOfFuel ∧
      (RunResult.ofEval r').2.events.toList <+: (RunResult.ofEval r).2.events.toList) := by
  rw [machineOf_ofEval, machineOf_ofEval]
  cases h with
  | ok _ hm _ => exact .inl ⟨rfl, _, hm⟩
  | @error _ _ _ stop _ hm =>
      refine .inl ⟨?_, _, hm⟩
      cases stop with
      | outOfFuel => rfl
      | failure f => cases f <;> rfl
  | first hslack hshown => exact .inr (.inl ⟨hslack, rfl, hshown⟩)
  | second hslack hshown => exact .inr (.inr ⟨hslack, rfl, hshown⟩)

end Increments

/-! ## Sessions -/

open Increments

/-- Sessions between two inputs with the same settings, whose functions see paired scopes. -/
structure Session.Beside (moves : Bool) (s s' : Session) : Prop where
  setting_eq : s'.setting = s.setting
  echo_eq : s'.echo = s.echo
  machine : ∃ w, MachinePair moves w globalChain globalChain s.machine s'.machine

namespace Session.Beside

/-- A new session has one scope, which binds native functions. -/
theorem create {options : Options} {session : Session}
    (hcreate : Session.create options = .ok session) : session.Beside false session := by
  obtain ⟨maxCallDepth, globals, hglobals, rfl⟩ := Session.eq_of_create hcreate
  have hpairs {i j : Nat} (h : Pairing.Pairs ⟨[some globalScope], fun _ _ => False⟩ i j) :
      i = globalScope ∧ j = globalScope := by
    cases j with
    | zero => exact ⟨(Option.some.inj (Option.some.inj h)).symm, rfl⟩
    | succ j => exact nomatch h
  refine ⟨rfl, rfl, ⟨[some globalScope], fun _ _ => False⟩, ⟨?_, rfl, rfl, rfl, rfl, rfl⟩⟩
  constructor
  case size_eq => rfl
  case inside =>
    intro i j h
    rw [(hpairs h).1]
    exact Nat.zero_lt_one
  case right_unique =>
    intro i j k hj hk
    rw [(hpairs hj).2, (hpairs hk).2]
  case scope =>
    intro i j h
    obtain ⟨rfl, rfl⟩ := hpairs h
    exact renamed_globalsOf .native hglobals
  case extra =>
    intro j h
    cases j with
    | zero => exact nomatch h
    | succ j => exact nomatch h
  case bound => exact nofun
  case fields => exact ⟨rfl, fun _ => .empty⟩
  case nextId_eq => rfl
  case global => rfl

variable {s s' : Session}

/-- **An input**, which is the same for both sessions, with the same fuel. -/
theorem runWith (h : s.Beside false s') (hhost : s.setting.host.IgnoresFunctions) (fuel : Nat)
    (source : List Char) :
    (s.runWith fuel source).2.Beside false (s'.runWith fuel source).2 := by
  obtain ⟨w, hm⟩ := h.machine
  rw [runWith_eq, runWith_eq, h.setting_eq, h.echo_eq]
  cases hcompile : compile source with
  | error result => exact ⟨rfl, rfl, w, hm⟩
  | ok p' =>
      obtain ⟨p, hparse, -, rfl⟩ := (Scoping.compile_eq_ok source p').1 hcompile
      have hends := runProgram_follows hhost (Slack.leaves_none fuel) (.refl false p.body)
        (ordinary_of_parse hparse) s.echo s.machine s'.machine hm
      obtain ⟨-, hm'⟩ | ⟨hslack, -⟩ | ⟨hslack, -⟩ := hends.ofEval
      · exact ⟨rfl, rfl, hm'⟩
      · exact nomatch hslack
      · exact nomatch hslack

/-- **A program with moved increments** leaves such sessions as well, unless one of the runs is short of
fuel. -/
theorem runRecovered {slack : Slack} (h : s.Beside slack.moves s')
    (hhost : s.setting.host.IgnoresFunctions) {n n' : Nat} (hleaves : slack.Leaves 0 n n')
    {p q : Program} (hmoved : Decl.MovedAll slack.moves p.body q.body)
    (hordinary : Decl.OrdinaryAll p.body) (haccepted : p.resolve.errors = [])
    (haccepted' : q.resolve.errors = []) :
    let r := s.runRecovered n ⟨p, []⟩
    let r' := s'.runRecovered n' ⟨q, []⟩
    (r'.1 = r.1 ∧ r.2.Beside slack.moves r'.2) ∨
      (slack = .first ∧ r.1 = .error .outOfFuel ∧
        r.2.machine.events.toList <+: r'.2.machine.events.toList) ∨
      (slack = .second ∧ r'.1 = .error .outOfFuel ∧
        r'.2.machine.events.toList <+: r.2.machine.events.toList) := by
  obtain ⟨w, hm⟩ := h.machine
  have hcompile {p : Program} (haccepted : p.resolve.errors = []) :
      Recovered.compile ⟨p, []⟩ = .ok p.resolve.value := if_pos (List.isEmpty_iff.2 haccepted)
  have hends := runProgram_follows hhost hleaves hmoved hordinary s.echo s.machine s'.machine hm
  unfold Session.runRecovered
  rw [hcompile haccepted, hcompile haccepted', h.setting_eq, h.echo_eq]
  exact hends.ofEval.imp_left fun ⟨hresult, hm'⟩ => ⟨hresult, rfl, rfl, hm'⟩

/-- **Any inputs.** -/
theorem after (h : s.Beside false s') (hhost : s.setting.host.IgnoresFunctions)
    (inputs : List (Nat × List Char)) : (s.after inputs).Beside false (s'.after inputs) := by
  induction inputs generalizing s s' with
  | nil => exact h
  | cons input rest ih =>
      refine ih (h.runWith hhost input.1 input.2) ?_
      rw [Scoping.Session.setting_runWith]
      exact hhost

theorem all (h : s.Beside false s') : s.Beside true s' := by
  obtain ⟨w, hm⟩ := h.machine
  exact ⟨h.setting_eq, h.echo_eq, w, { hm with memory := hm.memory.all }⟩

theorem events_eq {moves : Bool} (h : s.Beside moves s') : s'.machine.events = s.machine.events := by
  obtain ⟨w, hm⟩ := h.machine
  exact hm.events_eq

end Session.Beside

/-! ## Two runs -/

/-- The second run goes as far as the first one. Both have the same result, and the host has been told
the same; or the first one ran out of fuel, and what it had told the host until then, the second one has
told as well. -/
def GoesAsFar (r r' : Except Stop RunResult × Session) : Prop :=
  (r'.1 = r.1 ∧ r'.2.machine.events = r.2.machine.events) ∨
    (r.1 = .error .outOfFuel ∧ r.2.machine.events.toList <+: r'.2.machine.events.toList)

/-- A run that goes as far as one that did not run out of fuel ends like it. -/
theorem GoesAsFar.same {r r' : Except Stop RunResult × Session} (h : GoesAsFar r r')
    (hends : r.1 ≠ .error .outOfFuel) : r'.1 = r.1 ∧ r'.2.machine.events = r.2.machine.events :=
  h.resolve_right fun hshort => hends hshort.1

/-- Run in a session, a program ends with a result when it has enough fuel, and by then the host has been
told of the events. -/
def Session.RunsTo (s : Session) (p : Program) (result : Except Stop RunResult)
    (events : Array Event) : Prop :=
  result ≠ .error .outOfFuel ∧ ∃ fuel, (s.runRecovered fuel ⟨p, []⟩).1 = result ∧
    (s.runRecovered fuel ⟨p, []⟩).2.machine.events = events

/-- Where a program always goes as far as another one, with enough fuel, it ends like it. -/
theorem Session.RunsTo.of_goesAsFar {s : Session} {p q : Program} {result : Except Stop RunResult}
    {events : Array Event} (h : s.RunsTo p result events)
    (hfar : ∀ fuel, ∃ more, GoesAsFar (s.runRecovered fuel ⟨p, []⟩) (s.runRecovered more ⟨q, []⟩)) :
    s.RunsTo q result events := by
  obtain ⟨hends, fuel, hresult, hevents⟩ := h
  obtain ⟨more, hmore⟩ := hfar fuel
  have hsame := hmore.same (hresult ▸ hends)
  exact ⟨hends, more, hsame.1.trans hresult, hsame.2.trans hevents⟩

/-- **Moved increments keep the meaning.** Let the increments of some loops of an accepted program, whose
bodies have no `continue` of their own, stand behind these bodies, in a block of both. The new program is
accepted too. After any inputs, it ends like the old one, with the same result and after the same events,
whatever happens in the conditions, the bodies or the increments. Runs that do not end show the same as
well, as far as they go: the new program goes as far as the old one with six times as much fuel, and the
old one as far as the new one with as much. -/
theorem moved_increments_keep_meaning (options : Options) (session : Session)
    (inputs : List (Nat × List Char)) (p q : Program)
    (hcreate : Session.create options = .ok session) (hhost : options.host.IgnoresFunctions)
    (hordinary : Decl.OrdinaryAll p.body) (haccepted : p.resolve.errors = []) (hmoved : p.Moved q) :
    let s := session.after inputs
    q.resolve.errors = [] ∧
    (∀ result events, s.RunsTo q result events ↔ s.RunsTo p result events) ∧
    ∀ fuel,
      GoesAsFar (s.runRecovered fuel ⟨p, []⟩) (s.runRecovered (6 * fuel) ⟨q, []⟩) ∧
      GoesAsFar (s.runRecovered fuel ⟨q, []⟩) (s.runRecovered fuel ⟨p, []⟩) := by
  intro s
  have haccepted' : q.resolve.errors = [] := hmoved.errors_resolve.trans haccepted
  have hhost' : s.setting.host.IgnoresFunctions := by
    rw [Scoping.Session.setting_after, Session.host_of_create hcreate]
    exact hhost
  have hself : s.Beside false s :=
    (Session.Beside.create hcreate).after (Session.host_of_create hcreate ▸ hhost) inputs
  -- so far nothing was moved, and from now on anything may be
  have hfirst : s.Beside Slack.first.moves s := hself.all
  have hsecond : s.Beside Slack.second.moves s := hself.all
  have hnew (fuel : Nat) :
      GoesAsFar (s.runRecovered fuel ⟨p, []⟩) (s.runRecovered (6 * fuel) ⟨q, []⟩) := by
    obtain ⟨hresult, hsessions⟩ | ⟨-, hshort⟩ | ⟨hslack, -⟩ := hfirst.runRecovered hhost'
      (Slack.leaves_first fuel) hmoved.body hordinary haccepted haccepted'
    · exact .inl ⟨hresult, hsessions.events_eq⟩
    · exact .inr hshort
    · exact nomatch hslack
  have hold (fuel : Nat) :
      GoesAsFar (s.runRecovered fuel ⟨q, []⟩) (s.runRecovered fuel ⟨p, []⟩) := by
    obtain ⟨hresult, hsessions⟩ | ⟨hslack, -⟩ | ⟨-, hshort⟩ := hsecond.runRecovered hhost'
      (Slack.leaves_second fuel) hmoved.body hordinary haccepted haccepted'
    · exact .inl ⟨hresult.symm, hsessions.events_eq.symm⟩
    · exact nomatch hslack
    · exact .inr hshort
  refine ⟨haccepted', fun result events => ⟨fun h => ?_, fun h => ?_⟩,
    fun fuel => ⟨hnew fuel, hold fuel⟩⟩
  · exact h.of_goesAsFar fun fuel => ⟨fuel, hold fuel⟩
  · exact h.of_goesAsFar fun fuel => ⟨6 * fuel, hnew fuel⟩

/-- Programs that are read without errors bind no reserved names. -/
theorem ordinary_of_recover {source : List Char} (h : (Program.recover source).errors = []) :
    Decl.OrdinaryAll (Program.recover source).program.body := by
  obtain ⟨p, hparse, hrecover⟩ | ⟨e, -, hhead⟩ := Parsing.parse_recover source
  · rw [hrecover]
    exact ordinary_of_parse hparse
  · rw [h] at hhead
    exact nomatch hhead

/-- The function of a round outlives the loop, and sees what the increment makes of the variable:
`var show; for (var go = true; go; go = false) { fun f() { print go; } show = f; } show();`. -/
def outlivingSource : List Char :=
  ("var show; for (var go = true; go; go = false) \x7b fun f() \x7b print go; \x7d show = f; \x7d " ++
    "show();").toList

/-- With the increment behind the body, it and the function see the variable one scope further out. -/
theorem moved_increments_keep_meaning_for_outliving :
    let s := Scoping.plainSession
    let p := (Program.recover outlivingSource).program
    let q := p.moveIncrements
    Session.create (Options.standard Host.plain) = .ok s ∧ Host.plain.IgnoresFunctions ∧
      Decl.OrdinaryAll p.body ∧ p.resolve.errors = [] ∧ p.Moved q ∧
      p.resolve.value.uses.map (·.depth?) =
        [some (some 0), some (some 2), some none, some (some 0), some (some 0), some none] ∧
      q.resolve.value.uses.map (·.depth?) =
        [some (some 0), some (some 3), some none, some (some 0), some (some 1), some none] ∧
      CommandLine.printedAfter 0 (s.runRecovered 20 ⟨p, []⟩).2.machine.events = ["false"] ∧
      GoesAsFar (s.runRecovered 20 ⟨p, []⟩) (s.runRecovered 120 ⟨q, []⟩) ∧
      ∀ result events, s.RunsTo q result events ↔ s.RunsTo p result events := by
  have hordinary : Decl.OrdinaryAll (Program.recover outlivingSource).program.body :=
    ordinary_of_recover (List.isEmpty_iff.1 (by decide +kernel))
  have haccepted : (Program.recover outlivingSource).program.resolve.errors = [] := by
    decide +kernel
  have hmoved := (Program.recover outlivingSource).program.moved_moveIncrements
  have hkeep := moved_increments_keep_meaning (Options.standard Host.plain) Scoping.plainSession []
    _ _ Scoping.create_plainSession Host.ignoresFunctions_plain hordinary haccepted hmoved
  refine ⟨Scoping.create_plainSession, Host.ignoresFunctions_plain, hordinary, haccepted, hmoved, ?_,
    ?_, ?_, (hkeep.2.2 20).1, hkeep.2.1⟩
  · decide +kernel
  · decide +kernel
  · decide +kernel

end Lox
