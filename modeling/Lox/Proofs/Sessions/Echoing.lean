import Lox.Proofs.Layout.Running
import Lox.Proofs.Places.Inserting

/-!
# Echo is `print`

With echo, an input that is a single expression statement shows the value of its expression. It takes a
way of its own to do so, on which no statement is executed. Still it does what the same input does without
echo once `print` stands in front of its first token: the expression is the same, it gets the same depths
and the same static errors, the table of the session has the same entries afterwards, and the same value
is printed on the same host. Only the places of the input have moved, those that the session kept from
earlier inputs have not. On the way through the statement three levels of the bound on the recursion of
the evaluator are spent before the expression is evaluated.

For every other input echo makes no difference: when it cannot be read, when it has no statement or more
than one, and when its one statement is of another kind.

## Contents
- `Session.withEcho`: a session with echo or without.
- `resolve_print`, `executeProgram_print`: the two programs.
- `runRecovered_print`: the two runs.
- `EchoedAs`: the end of an input with echo, and that of the printing one.
- `echo_is_print`: all inputs.
-/

namespace Lox

open Location Session

/-- A session with echo or without. -/
def Session.withEcho (s : Session) (echo : Bool) : Session := { s with echo }

/-- The end of a run, in a session with echo or without. -/
def withEcho (echo : Bool) (r : Except Stop RunResult × Session) : Except Stop RunResult × Session :=
  (r.1, r.2.withEcho echo)

/-- A source text that parses to exactly one expression statement. -/
def ParsesToExpression (source : List Char) : Prop :=
  ∃ P, Program.parse source = .ok P ∧ P.IsSingle

theorem parsesToExpression_iff (source : List Char) : ParsesToExpression source ↔
    (Program.parse source).toOption.any (fun P => P.body.map Decl.isExpression == [true]) = true := by
  unfold ParsesToExpression Program.IsSingle
  cases Program.parse source with
  | error e => exact ⟨fun ⟨_, hparse, _⟩ => (nomatch hparse), nofun⟩
  | ok P =>
      constructor
      · rintro ⟨P', hparse, hsingle⟩
        cases hparse
        exact beq_iff_eq.2 hsingle
      · intro h
        exact ⟨P, rfl, beq_iff_eq.1 h⟩

instance (source : List Char) : Decidable (ParsesToExpression source) :=
  decidable_of_iff _ (parsesToExpression_iff source).symm

/-! ## Two programs -/

section Programs

variable {P R : Program} {e : Expr} {span span' : Span}

/-- **A statement that prints an expression is resolved as one that only evaluates it.** -/
theorem resolve_print (hP : P.body = [.stmt (.expression e span)])
    (hR : R.body = [.stmt (.print e span')]) :
    R.resolve.errors = P.resolve.errors ∧
      (∃ resolved, P.resolve.value.body = [.stmt (.expression resolved span)] ∧
        R.resolve.value.body = [.stmt (.print resolved span')]) ∧
      ∀ table : Resolutions, (table.resolve R).2 = (table.resolve P).2 := by
  obtain ⟨body, whole⟩ := P
  obtain ⟨body', whole'⟩ := R
  obtain rfl : body = _ := hP
  obtain rfl : body' = _ := hR
  exact ⟨rfl, ⟨_, rfl, rfl⟩, fun _ => rfl⟩

/-- **The printing program** evaluates the expression after three levels of its bound. -/
theorem executeProgram_print (setting : Setting) (n : Nat) (hP : P.body = [.stmt (.expression e span)])
    (hR : R.body = [.stmt (.print e span')]) :
    executeProgram setting (n + 3) R = runProgram setting true n P := by
  have hprint : executeAll setting (n + 3) [.stmt (.print e span')] =
      evaluate setting n e >>= fun v => Eval.print setting.host v.text >>= fun _ => pure .normal := by
    rw [executeAll, executeDecl, execute]
    simp only [bind_assoc, pure_bind]
    rfl
  rw [Program.run_single hP]
  unfold executeProgram
  rw [hR, hprint]
  simp only [bind_assoc, pure_bind, bind_pure_unit]

end Programs

/-! ## Two runs -/

/-- **The run of what prints**, without echo, is the run of what is evaluated alone, with echo. -/
theorem Session.runRecovered_print (s : Session) (n : Nat) {P R : Program} {e : Expr}
    {span span' : Span} (hP : P.body = [.stmt (.expression e span)])
    (hR : R.body = [.stmt (.print e span')]) :
    (s.withEcho false).runRecovered (n + 3) ⟨R, []⟩ =
      Lox.withEcho false ((s.withEcho true).runRecovered n ⟨P, []⟩) := by
  obtain ⟨herrors, ⟨resolved, hPbody, hRbody⟩, htable⟩ := resolve_print hP hR
  have htable' : (⟨R, []⟩ : Recovered).table s.resolutions = (⟨P, []⟩ : Recovered).table s.resolutions :=
    htable s.resolutions
  have hP' : (⟨P, []⟩ : Recovered).compile =
      if P.resolve.errors.isEmpty then .ok P.resolve.value else .error (.staticErrors P.resolve.errors) :=
    rfl
  have hR' : (⟨R, []⟩ : Recovered).compile =
      if R.resolve.errors.isEmpty then .ok R.resolve.value else .error (.staticErrors R.resolve.errors) :=
    rfl
  unfold Session.runRecovered
  rw [hP', hR', herrors]
  by_cases hnone : P.resolve.errors.isEmpty = true
  · rw [if_pos hnone, if_pos hnone]
    have hrun : runProgram s.setting false (n + 3) R.resolve.value =
        runProgram s.setting true n P.resolve.value := by
      rw [Program.run_of_not_single (by simp)]
      exact executeProgram_print s.setting n hPbody hRbody
    dsimp only [Session.withEcho]
    rw [hrun, htable']
    rfl
  · rw [if_neg hnone, if_neg hnone]
    dsimp only [Session.withEcho]
    rw [htable']
    rfl

/-- **Where nothing is echoed**, echo makes no difference. -/
theorem Session.runWith_of_not_expression (s : Session) (n : Nat) {source : List Char}
    (h : ¬ ParsesToExpression source) :
    (s.withEcho false).runWith n source = Lox.withEcho false ((s.withEcho true).runWith n source) := by
  rw [runWith_eq, runWith_eq]
  cases hcompile : compile source with
  | error result => rfl
  | ok p =>
      have hnot : ¬ (true = true ∧ p.IsSingle) := by
        rintro ⟨-, hsingle⟩
        obtain ⟨P, hparse, -, rfl⟩ := (Scoping.compile_eq_ok source p).1 hcompile
        exact h ⟨P, hparse, P.isSingle_resolve.1 hsingle⟩
      dsimp only [Session.withEcho]
      rw [Program.run_of_not_single hnot, Program.run_of_not_single (by simp)]
      rfl

/-- The places of an input move when `print` is put in front of its first token. -/
def behindPrint (source : List Char) : Location → Location := insertAt (firstPlace source)

/-- What was read of an expression statement, and of the same behind `print`. -/
theorem exists_recover {source : List Char} (h : ParsesToExpression source) :
    ∃ P R e span span', Program.recover source = ⟨P, []⟩ ∧ P.body = [.stmt (.expression e span)] ∧
      Program.recover (withPrint source) = ⟨R, []⟩ ∧
      R.body = [.stmt (.print (e.relocate (behindPrint source)) span')] := by
  obtain ⟨P, hparse, hsingle⟩ := h
  obtain ⟨e, span, hbody⟩ := Program.isSingle_iff.1 hsingle
  obtain ⟨R, span', hparse', hbody'⟩ := parse_withPrint hparse hbody
  have hrecover {text : List Char} {Q : Program} (hQ : Program.parse text = .ok Q) :
      Program.recover text = ⟨Q, []⟩ := by
    rcases Parsing.parse_recover text with ⟨Q', hok, hrecover⟩ | ⟨stop, herror, -⟩
    · rw [hQ] at hok
      cases hok
      exact hrecover
    · rw [hQ] at herror
      cases herror
  exact ⟨P, R, e, span, span', hrecover hparse, hbody, hrecover hparse', hbody'⟩

/-- **Behind `print`** an expression runs as it does with echo at the places that it has there. -/
theorem Session.runWith_withPrint (s : Session) (n : Nat) {source : List Char}
    (h : ParsesToExpression source) :
    (s.withEcho false).runWith (n + 3) (withPrint source) = Lox.withEcho false
      ((s.withEcho true).runRecovered n ((Program.recover source).relocate (behindPrint source))) := by
  obtain ⟨P, R, e, span, span', hrecover, hbody, hrecover', hbody'⟩ := exists_recover h
  rw [Session.runWith_eq_runRecovered, hrecover, hrecover']
  have hmoved : (P.relocate (behindPrint source)).body =
      [.stmt (.expression (e.relocate (behindPrint source)) (span.relocate (behindPrint source)))] := by
    show Decl.relocateAll _ P.body = _
    rw [hbody]
    rfl
  exact s.runRecovered_print n hmoved hbody'

/-- The end of an input with echo, and the end of the same input behind `print`, where `move` puts its
places. The marked run stands for both: with the marks taken off, its result and its session are those of
the one; and with the places of the input moved, those of the other. What was shown to the outside is the
same, and so is the table of depths. -/
structure EchoedAs (move : Location → Location) (marked here there : Except Stop RunResult × Session) :
    Prop where
  result_here : here.1 = relocateResult (settle id) marked.1
  result_there : there.1 = relocateResult (settle move) marked.1
  session_here : here.2 = marked.2.relocate (settle id)
  session_there : there.2 = (marked.2.relocate (settle move)).withEcho false
  events : there.2.machine.events = here.2.machine.events
  resolutions : there.2.resolutions = here.2.resolutions

theorem Session.events_relocate (s : Session) (move : Location → Location) :
    (s.relocate move).machine.events = s.machine.events := rfl

theorem EchoedAs.of_marked (move : Location → Location) (marked : Except Stop RunResult × Session) :
    EchoedAs move marked (relocateResult (settle id) marked.1, marked.2.relocate (settle id))
      (withEcho false (relocateResult (settle move) marked.1, marked.2.relocate (settle move))) where
  result_here := rfl
  result_there := rfl
  session_here := rfl
  session_there := rfl
  events := (marked.2.events_relocate (settle move)).trans (marked.2.events_relocate (settle id)).symm
  resolutions := rfl

/-- The run of an input with echo, its places and those of the session being marked. -/
def Session.markedRun (s : Session) (n : Nat) (source : List Char) : Except Stop RunResult × Session :=
  ((s.relocate ofSession).withEcho true).runRecovered n ((Program.recover source).relocate ofInput)

/-- **Every run at some places is the marked run**, with the marks taken off. -/
theorem Session.runRecovered_settle (s : Session) (n : Nat) {source : List Char}
    (hhost : s.setting.host.PassesPlacesOn) (move : Location → Location) {P : Program}
    (hrecover : Program.recover source = ⟨P, []⟩) :
    (s.withEcho true).runRecovered n ((Program.recover source).relocate move) =
      (relocateResult (settle move) (s.markedRun n source).1,
        (s.markedRun n source).2.relocate (settle move)) := by
  have hrun := Session.runRecovered_relocate (s := (s.relocate ofSession).withEcho true)
    (hhost (settle move)) n ((Program.recover source).relocate ofInput)
  have hsession : ((s.relocate ofSession).withEcho true).relocate (settle move) = s.withEcho true := by
    have hmachine : (s.machine.relocate ofSession).relocate (settle move) = s.machine := by
      rw [s.machine.relocate_relocate, settle_comp_ofSession, s.machine.relocate_id]
    unfold Session.withEcho Session.relocate
    rw [hmachine]
  have hinput : ((Program.recover source).relocate ofInput).relocate (settle move) =
      (Program.recover source).relocate move := by
    rw [hrecover]
    unfold Recovered.relocate
    rw [P.relocate_relocate, settle_comp_ofInput]
    rfl
  rw [hsession, hinput] at hrun
  exact hrun

/-- The two ends, bound by bound. -/
theorem Session.echoedAs (s : Session) (n : Nat) {source : List Char} (h : ParsesToExpression source)
    (hhost : s.setting.host.PassesPlacesOn) :
    EchoedAs (behindPrint source) (s.markedRun n source) ((s.withEcho true).runWith n source)
      ((s.withEcho false).runWith (n + 3) (withPrint source)) := by
  obtain ⟨P, -, -, -, -, hrecover, -, -, -⟩ := exists_recover h
  have hthere := s.runWith_withPrint n h
  rw [s.runRecovered_settle n hhost _ hrecover] at hthere
  have hhere := s.runRecovered_settle n hhost id hrecover
  have hsame : (Program.recover source).relocate id = Program.recover source := by
    rw [hrecover]
    unfold Recovered.relocate
    rw [P.relocate_id]
    rfl
  rw [hsame, ← Session.runWith_eq_runRecovered] at hhere
  rw [hhere, hthere]
  exact .of_marked _ _

/-! ## Ends -/

theorem relocateResult_outOfFuel {move : Location → Location} (r : Except Stop RunResult) :
    relocateResult move r = .error .outOfFuel ↔ r = .error .outOfFuel := by
  cases r with
  | ok result => exact ⟨nofun, nofun⟩
  | error stop =>
      cases stop with
      | outOfFuel => exact ⟨fun _ => rfl, fun _ => rfl⟩
      | failure f => exact ⟨nofun, nofun⟩

/-- Both runs end, or neither does. -/
theorem EchoedAs.ends_iff {move : Location → Location}
    {marked here there : Except Stop RunResult × Session} (h : EchoedAs move marked here there) :
    there.1 ≠ .error .outOfFuel ↔ here.1 ≠ .error .outOfFuel := by
  rw [h.result_here, h.result_there, Ne, Ne, relocateResult_outOfFuel, relocateResult_outOfFuel]

namespace Session

variable {s s₁ s₂ : Session} {source : List Char} {result result' : Except Stop RunResult}

/-- Without echo, an input that ends, ends in the same way with every greater bound. -/
theorem Ends.eventually (hecho : s.echo = false) (h : s.Ends source result s₁) :
    ∃ n, ∀ fuel, n ≤ fuel → s.runWith fuel source = (result, s₁) := by
  cases hcompile : compile source with
  | error refused =>
      obtain ⟨-, n, hrun⟩ := h
      refine ⟨0, fun fuel _ => ?_⟩
      rw [runWith_eq, hcompile] at hrun ⊢
      exact hrun
  | ok P =>
      obtain ⟨m, hruns, rfl⟩ := (Session.ends_iff hecho hcompile).1 h
      obtain ⟨n, hn⟩ := hruns.eventually
      refine ⟨n, fun fuel hle => ?_⟩
      rw [runWith_of_compile hecho hcompile, hn fuel hle]

/-- Without echo, the end of an input is unique. -/
theorem Ends.unique (hecho : s.echo = false) (h : s.Ends source result s₁)
    (h' : s.Ends source result' s₂) : result' = result ∧ s₂ = s₁ := by
  obtain ⟨n, hn⟩ := h.eventually hecho
  obtain ⟨n', hn'⟩ := h'.eventually hecho
  exact Prod.mk.inj ((hn' _ (Nat.le_max_right n n')).symm.trans (hn _ (Nat.le_max_left n n')))

end Session

/-- **Echo is `print`.** An input that parses to exactly one expression statement does with echo what it
does without echo once `print` stands in front of its first token. With bounds that differ by three it
runs as the same expression does with echo at the places that it has there; and when the host passes on
the places that it is given, the one run ends if and only if the other one does, with the same result,
the same events and the same session, apart from these places. Every other input does the same with echo
and without. -/
theorem echo_is_print (s : Session) (source : List Char) :
    (ParsesToExpression source →
      (∀ n, (s.withEcho false).runWith (n + 3) (withPrint source) = withEcho false
        ((s.withEcho true).runRecovered n
          ((Program.recover source).relocate (behindPrint source)))) ∧
      (s.setting.host.PassesPlacesOn →
        (∀ n, EchoedAs (behindPrint source) (s.markedRun n source)
          ((s.withEcho true).runWith n source)
          ((s.withEcho false).runWith (n + 3) (withPrint source))) ∧
        ((∃ result s₁, (s.withEcho true).Ends source result s₁) ↔
          ∃ result s₂, (s.withEcho false).Ends (withPrint source) result s₂) ∧
        ∀ result s₁ result' s₂, (s.withEcho true).Ends source result s₁ →
          (s.withEcho false).Ends (withPrint source) result' s₂ →
          ∃ n, EchoedAs (behindPrint source) (s.markedRun n source) (result, s₁) (result', s₂))) ∧
    (¬ ParsesToExpression source → ∀ n,
      (s.withEcho false).runWith n source = withEcho false ((s.withEcho true).runWith n source)) := by
  refine ⟨fun hsource => ⟨fun n => s.runWith_withPrint n hsource, fun hhost => ?_⟩,
    fun hsource n => s.runWith_of_not_expression n hsource⟩
  have hechoed (n : Nat) := s.echoedAs n hsource hhost
  -- the printing run that belongs to a run with echo
  have hprints {n : Nat} {result : Except Stop RunResult} {s₁ : Session}
      (hresult : result ≠ .error .outOfFuel) (hrun : (s.withEcho true).runWith n source = (result, s₁)) :
      (s.withEcho false).Ends (withPrint source)
        ((s.withEcho false).runWith (n + 3) (withPrint source)).1
        ((s.withEcho false).runWith (n + 3) (withPrint source)).2 := by
    refine ⟨(hechoed n).ends_iff.2 ?_, n + 3, rfl⟩
    rw [hrun]
    exact hresult
  refine ⟨hechoed, ⟨?_, ?_⟩, ?_⟩
  · rintro ⟨result, s₁, hresult, n, hrun⟩
    exact ⟨_, _, hprints hresult hrun⟩
  · rintro ⟨result, s₂, hends⟩
    obtain ⟨n, hn⟩ := hends.eventually rfl
    have hrun := hn (n + 3) (Nat.le_add_right n 3)
    refine ⟨_, _, (hechoed n).ends_iff.1 ?_, n, rfl⟩
    rw [hrun]
    exact hends.1
  · rintro result s₁ result' s₂ ⟨hresult, n, hrun⟩ hends
    obtain ⟨hsame, hsession⟩ := (hprints hresult hrun).unique rfl hends
    refine ⟨n, ?_⟩
    rw [← hrun, hsame, hsession]
    exact hechoed n

/-- A call that the host refuses, behind a comment. -/
def refusedCall : List Char := "// why\n refuse();".toList

/-- The call is refused six columns further on behind `print`. A declaration is not echoed. -/
theorem echo_is_print_for_refusal :
    ParsesToExpression refusedCall ∧ refusalHost.PassesPlacesOn ∧
    withPrint refusedCall = "// why\n print refuse();".toList ∧
    (∃ n s₁ s₂,
      (refusalSession.withEcho true).Ends refusedCall
        (.ok (.runtimeError ⟨.rejectedArguments "refuse" "never", some ⟨2, 2, 8⟩⟩)) s₁ ∧
      (refusalSession.withEcho false).Ends (withPrint refusedCall)
        (.ok (.runtimeError ⟨.rejectedArguments "refuse" "never", some ⟨2, 8, 14⟩⟩)) s₂ ∧
      EchoedAs (behindPrint refusedCall) (refusalSession.markedRun n refusedCall)
        (.ok (.runtimeError ⟨.rejectedArguments "refuse" "never", some ⟨2, 2, 8⟩⟩), s₁)
        (.ok (.runtimeError ⟨.rejectedArguments "refuse" "never", some ⟨2, 8, 14⟩⟩), s₂)) ∧
    ¬ ParsesToExpression declaringSource ∧
      (refusalSession.withEcho false).runWith 30 declaringSource =
        withEcho false ((refusalSession.withEcho true).runWith 30 declaringSource) := by
  have hsource : ParsesToExpression refusedCall := by decide +kernel
  have hother : ¬ ParsesToExpression declaringSource := by decide +kernel
  have hhere := ends_of_endOf? (refusalSession.withEcho true) 30 refusedCall
    (e := some ⟨.rejectedArguments "refuse" "never", some ⟨2, 2, 8⟩⟩) (by decide +kernel)
  have hthere := ends_of_endOf? (refusalSession.withEcho false) 30 (withPrint refusedCall)
    (e := some ⟨.rejectedArguments "refuse" "never", some ⟨2, 8, 14⟩⟩) (by decide +kernel)
  obtain ⟨-, hends⟩ := (echo_is_print refusalSession refusedCall).1 hsource
  obtain ⟨-, -, hsame⟩ := hends refusalHost_passesPlacesOn
  obtain ⟨n, hechoed⟩ := hsame _ _ _ _ hhere hthere
  exact ⟨hsource, refusalHost_passesPlacesOn, by decide +kernel, ⟨n, _, _, hhere, hthere, hechoed⟩,
    hother, (echo_is_print refusalSession declaringSource).2 hother 30⟩

end Lox
