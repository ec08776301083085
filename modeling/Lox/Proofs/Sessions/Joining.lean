import Lox.Proofs.Evaluation.Steps
import Lox.Proofs.Places.Programs
import Lox.Proofs.Places.Resolving
import Lox.Proofs.Scoping.Sessions

/-!
# Inputs in pieces

A session may be given a source text in pieces. Two source texts that are joined by a line feed are
executed as the first one and then the second one, which stands further down. So the session does with
the joined text what it does with the pieces. When the first piece does not end well, the session does
nothing more for the joined text than for that piece.

A bound on the recursion of the evaluator is spent in different ways on the pieces and on the whole.
So what ends is compared with what ends, whatever the bounds are.

## Contents
- `Session.Runs`, `Session.Ends`: what a program or an input comes to, when it ends.
- `Session.Runs.unique`, `Session.ends_iff`: the end does not depend on the bound.
- `executeProgram_append`, `Session.runs_append`: a program behind another one.
- `Session.runs_relocate`: a program at other places.
- `SameButPlaces`, `input_may_be_fed_in_pieces`: two pieces and the whole.
-/

namespace Lox

open Places Location Session

/-! ## Ends -/

namespace Session

/-- A session whose values are at other places. -/
def relocate (move : Location → Location) (s : Session) : Session :=
  { s with machine := s.machine.relocate move }

/-- A program that is run in a session without echo ends with a result and a machine. -/
def Runs (s : Session) (P : Program) (result : Except Stop RunResult) (m : Machine) : Prop :=
  result ≠ .error .outOfFuel ∧
    ∃ fuel, RunResult.ofEval (executeProgram s.setting fuel P s.machine) = (result, m)

/-- An input ends with a result, and leaves a session. The bound with which it does so does not matter;
`Session.run` takes one that no input reaches that ends in practice. -/
def Ends (s : Session) (source : List Char) (result : Except Stop RunResult) (s' : Session) : Prop :=
  result ≠ .error .outOfFuel ∧ ∃ fuel, s.runWith fuel source = (result, s')

variable {s : Session} {P Q R : Program} {result result' : Except Stop RunResult} {m m' : Machine}

/-- A run that ends, ends in the same way with more fuel. -/
theorem Runs.eventually (h : s.Runs P result m) : ∃ n, ∀ fuel, n ≤ fuel →
    RunResult.ofEval (executeProgram s.setting fuel P s.machine) = (result, m) := by
  obtain ⟨hends, n, hrun⟩ := h
  refine ⟨n, fun fuel hle => ?_⟩
  rcases executeProgram_of_le hle P s.machine with hsame | hout
  · rw [hsame, hrun]
  · have hstop := (ofEval_outOfFuel _).2 hout
    rw [hrun] at hstop
    exact absurd hstop hends

/-- **The end of a program is unique.** -/
theorem Runs.unique (h : s.Runs P result m) (h' : s.Runs P result' m') :
    result' = result ∧ m' = m := by
  obtain ⟨n, hn⟩ := h.eventually
  obtain ⟨n', hn'⟩ := h'.eventually
  have hsame := (hn' _ (Nat.le_max_right n n')).symm.trans (hn _ (Nat.le_max_left n n'))
  exact Prod.mk.inj hsame

/-- Without echo, an input is run as the program that it is compiled to. -/
theorem runWith_of_compile (hecho : s.echo = false) {source : List Char}
    (hsource : compile source = .ok P) (fuel : Nat) : s.runWith fuel source =
      ((RunResult.ofEval (executeProgram s.setting fuel P s.machine)).1,
        { s with
          machine := (RunResult.ofEval (executeProgram s.setting fuel P s.machine)).2,
          resolutions := (s.resolutions.compile source).2 }) := by
  rw [runWith_eq, hsource, hecho]
  rfl

/-- Without echo, an input ends as the program that it is compiled to. -/
theorem ends_iff (hecho : s.echo = false) {source : List Char} (hsource : compile source = .ok P)
    {s' : Session} : s.Ends source result s' ↔ ∃ m, s.Runs P result m ∧
      s' = { s with machine := m, resolutions := (s.resolutions.compile source).2 } := by
  constructor
  · rintro ⟨hends, fuel, hfuel⟩
    rw [runWith_of_compile hecho hsource] at hfuel
    obtain ⟨rfl, rfl⟩ := Prod.mk.inj hfuel
    exact ⟨_, ⟨hends, fuel, rfl⟩, rfl⟩
  · rintro ⟨m, ⟨hends, fuel, hfuel⟩, rfl⟩
    refine ⟨hends, fuel, ?_⟩
    rw [runWith_of_compile hecho hsource, hfuel]

/-- The session behind an input is known by its machine. -/
theorem ends_with_iff (hecho : s.echo = false) {source : List Char}
    (hsource : compile source = .ok P) :
    (∃ s', s.Ends source result s' ∧ s'.machine = m) ↔ s.Runs P result m := by
  constructor
  · rintro ⟨s', hends, rfl⟩
    obtain ⟨m, hruns, rfl⟩ := (ends_iff hecho hsource).1 hends
    exact hruns
  · intro hruns
    exact ⟨_, (ends_iff hecho hsource).2 ⟨m, hruns, rfl⟩, rfl⟩

end Session

/-! ## A program behind another one -/

/-- **Declarations behind others** are executed when those end normally. Each declaration takes one
level of the bound. -/
theorem executeAll_append (setting : Setting) (fuel : Nat) (ds es : List Decl) :
    executeAll setting fuel (ds ++ es) = (do
      match ← executeAll setting fuel ds with
      | .normal => executeAll setting (fuel - ds.length) es
      | flow => pure flow) := by
  induction ds generalizing fuel with
  | nil =>
      cases fuel with
      | zero => rfl
      | succ fuel => rfl
  | cons d ds ih =>
      cases fuel with
      | zero => rfl
      | succ fuel =>
          have hlength : fuel + 1 - (d :: ds).length = fuel - ds.length := by
            rw [List.length_cons]
            omega
          rw [List.cons_append, executeAll, executeAll, bind_assoc, hlength]
          congr 1
          funext flow
          cases flow with
          | normal => exact ih fuel
          | «break» | «continue» | «return» v => rfl

/-- **A program behind another one** is executed when that one ends well. -/
theorem executeProgram_append (setting : Setting) (fuel : Nat) {P Q R : Program}
    (hbody : R.body = P.body ++ Q.body) :
    executeProgram setting fuel R =
      executeProgram setting fuel P >>= fun _ =>
        executeProgram setting (fuel - P.body.length) Q := by
  unfold executeProgram
  rw [hbody, executeAll_append, bind_assoc, bind_assoc]
  congr 1
  funext flow
  cases flow with
  | normal => rfl
  | «break» | «continue» | «return» v => rfl

namespace Session

variable {s : Session} {P Q R : Program} {result : Except Stop RunResult} {m m' : Machine}

/-- A run with any bound ends as the program does, or for want of fuel. -/
theorem Runs.executeProgram_eq (h : s.Runs P (.ok .ok) m) (fuel : Nat) :
    executeProgram s.setting fuel P s.machine = .ok () m ∨
      OutOfFuel (executeProgram s.setting fuel P s.machine) := by
  by_cases hout : OutOfFuel (executeProgram s.setting fuel P s.machine)
  · exact .inr hout
  · have hruns : s.Runs P _ _ := ⟨mt (ofEval_outOfFuel _).1 hout, fuel, rfl⟩
    obtain ⟨hresult, hmachine⟩ := h.unique hruns
    exact .inl (ofEval_eq_ok.1 (Prod.ext hresult hmachine))

/-- **Behind a program that ended well**, the next one begins where that one ended. -/
theorem runs_append (hbody : R.body = P.body ++ Q.body) (hP : s.Runs P (.ok .ok) m) :
    s.Runs R result m' ↔ { s with machine := m }.Runs Q result m' := by
  have hrun (fuel : Nat) (h : executeProgram s.setting fuel P s.machine = .ok () m) :
      executeProgram s.setting fuel R s.machine =
        executeProgram s.setting (fuel - P.body.length) Q m := by
    rw [executeProgram_append s.setting fuel hbody, bind_of_ok h]
  constructor
  · rintro ⟨hends, fuel, hR⟩
    rcases hP.executeProgram_eq fuel with hfirst | ⟨m₁, hout⟩
    · rw [hrun fuel hfirst] at hR
      exact ⟨hends, _, hR⟩
    · -- a bound that the first program reaches is one that the whole reaches
      rw [executeProgram_append s.setting fuel hbody, bind_of_error hout] at hR
      exact absurd (Prod.mk.inj hR).1.symm hends
  · intro hQ
    obtain ⟨n, hn⟩ := hP.eventually
    obtain ⟨k, hk⟩ := hQ.eventually
    refine ⟨hQ.1, max n (k + P.body.length), ?_⟩
    rw [hrun _ (ofEval_eq_ok.1 (hn _ (Nat.le_max_left _ _)))]
    exact hk _ (by omega)

/-! ## A program at other places -/

/-- **The end of a program at any places** is that of its marked run, with the marks taken off. -/
theorem runs_relocate (hhost : s.setting.host.PassesPlacesOn) (move : Location → Location) :
    s.Runs (P.relocate move) result m ↔ ∃ marked end',
      (s.relocate ofSession).Runs (P.relocate ofInput) marked end' ∧
      result = relocateOutcome (settle move) marked ∧ m = end'.relocate (settle move) := by
  have hrun (fuel : Nat) : RunResult.ofEval
      (executeProgram s.setting fuel (P.relocate move) s.machine) = _ :=
    (congrArg RunResult.ofEval (executeProgram_settle hhost move fuel P s.machine)).trans
      (ofEval_relocateEnd _)
  constructor
  · rintro ⟨hends, fuel, hfuel⟩
    rw [hrun] at hfuel
    obtain ⟨rfl, rfl⟩ := Prod.mk.inj hfuel
    exact ⟨_, _, ⟨mt (relocateOutcome_outOfFuel _).2 hends, fuel, rfl⟩, rfl, rfl⟩
  · rintro ⟨marked, end', ⟨hends, fuel, hfuel⟩, rfl, rfl⟩
    refine ⟨mt (relocateOutcome_outOfFuel _).1 hends, fuel, ?_⟩
    have hmarked : RunResult.ofEval (executeProgram s.setting fuel (P.relocate ofInput)
        (s.machine.relocate ofSession)) = (marked, end') := hfuel
    rw [hrun, hmarked]

end Session

/-! ## Pieces and the whole -/

section Pieces

variable {s s₁ : Session} {p q : List Char} {P Q : Program} {result : Except Stop RunResult}

/-- **Behind a piece that ended well**, the whole does what the second piece does at the places that it
has in the whole. -/
theorem ends_joined_iff (hecho : s.echo = false) (hp : compile p = .ok P) (hq : compile q = .ok Q)
    (hfirst : s.Ends p (.ok .ok) s₁) {m : Machine} :
    (∃ s', s.Ends (p ++ '\n' :: q) result s' ∧ s'.machine = m) ↔
      s₁.Runs (Q.relocate (behind p)) result m := by
  obtain ⟨R, hR, hbody⟩ := compile_append_line hp hq
  obtain ⟨m₁, hP, rfl⟩ := (ends_iff hecho hp).1 hfirst
  exact (ends_with_iff hecho hR).trans (runs_append hbody hP)

/-- **Behind a piece that did not end well**, nothing of the whole is executed. -/
theorem runWith_joined_of_not_ok (hecho : s.echo = false) (hp : compile p = .ok P)
    (hq : compile q = .ok Q) {fuel : Nat} (hrun : s.runWith fuel p = (result, s₁))
    (hresult : result ≠ .ok .ok) : ∃ table,
      s.runWith fuel (p ++ '\n' :: q) = (result, { s₁ with resolutions := table }) := by
  obtain ⟨R, hR, hbody⟩ := compile_append_line hp hq
  rw [runWith_of_compile hecho hp] at hrun
  obtain ⟨rfl, rfl⟩ := Prod.mk.inj hrun
  have hsame : executeProgram s.setting fuel R s.machine =
      executeProgram s.setting fuel P s.machine := by
    rw [executeProgram_append s.setting fuel hbody]
    cases hP : executeProgram s.setting fuel P s.machine with
    | ok u m₁ =>
        rw [hP] at hresult
        exact absurd rfl hresult
    | error stop m₁ => exact bind_of_error hP
  refine ⟨(s.resolutions.compile (p ++ '\n' :: q)).2, ?_⟩
  rw [runWith_of_compile hecho hR, hsame]

end Pieces

/-- The end of an input, and the end of the same input where `move` puts it. The result and the
machine of its marked run stand for both: with the marks taken off, they are those of the one; and
with the places of the input moved, those of the other. So what was shown to the outside is the same,
and so are the globals, apart from the places in them. -/
structure SameButPlaces (move : Location → Location) (marked : Except Stop RunResult)
    (machine : Machine) (here there : Except Stop RunResult × Session) : Prop where
  result_here : here.1 = relocateOutcome (settle id) marked
  result_there : there.1 = relocateOutcome (settle move) marked
  machine_here : here.2.machine = machine.relocate (settle id)
  machine_there : there.2.machine = machine.relocate (settle move)
  globals_here : here.2.globals = (machine.memory.scope globalScope).map (·.relocate (settle id))
  globals_there : there.2.globals =
    (machine.memory.scope globalScope).map (·.relocate (settle move))
  events : there.2.machine.events = here.2.machine.events

/-- Both ends come from the same marked run. -/
theorem SameButPlaces.of_machines {move : Location → Location} {marked : Except Stop RunResult}
    {machine : Machine} {s₂ s' : Session} (hhere : s₂.machine = machine.relocate (settle id))
    (hthere : s'.machine = machine.relocate (settle move)) :
    SameButPlaces move marked machine (relocateOutcome (settle id) marked, s₂)
      (relocateOutcome (settle move) marked, s') where
  result_here := rfl
  result_there := rfl
  machine_here := hhere
  machine_there := hthere
  globals_here := by
    show s₂.machine.memory.scope globalScope = _
    rw [hhere]
    exact machine.memory.scope_relocate (settle id) globalScope
  globals_there := by
    show s'.machine.memory.scope globalScope = _
    rw [hthere]
    exact machine.memory.scope_relocate (settle move) globalScope
  events := by
    show s'.machine.events = s₂.machine.events
    rw [hhere, hthere]
    rfl

/-- **A source text may be fed to a session in pieces.** Behind a piece that ended well, the whole
does what the second piece does at the places that it has in the whole; and when the host passes on the
places that it is given, the whole ends if and only if the second piece does, with the same result, the
same events and the same globals, apart from these places. Behind a piece that did not end well, the
whole does nothing more. -/
theorem input_may_be_fed_in_pieces (s : Session) (hecho : s.echo = false) {p q : List Char}
    {P Q : Program} (hp : compile p = .ok P) (hq : compile q = .ok Q) :
    (∀ s₁, s.Ends p (.ok .ok) s₁ →
      (∀ result m, (∃ s', s.Ends (p ++ '\n' :: q) result s' ∧ s'.machine = m) ↔
        s₁.Runs (Q.relocate (behind p)) result m) ∧
      (s.setting.host.PassesPlacesOn →
        ((∃ result s₂, s₁.Ends q result s₂) ↔ ∃ result s', s.Ends (p ++ '\n' :: q) result s') ∧
        ∀ result s₂ result' s', s₁.Ends q result s₂ → s.Ends (p ++ '\n' :: q) result' s' →
          ∃ marked machine, (s₁.relocate ofSession).Runs (Q.relocate ofInput) marked machine ∧
            SameButPlaces (behind p) marked machine (result, s₂) (result', s'))) ∧
    ∀ fuel result s₁, s.runWith fuel p = (result, s₁) → result ≠ .ok .ok →
      ∃ table, s.runWith fuel (p ++ '\n' :: q) = (result, { s₁ with resolutions := table }) := by
  refine ⟨fun s₁ hfirst => ?_, fun _ _ _ => runWith_joined_of_not_ok hecho hp hq⟩
  refine ⟨fun _ _ => ends_joined_iff hecho hp hq hfirst, fun hhost => ?_⟩
  have hsame : s₁.echo = false ∧ s₁.setting = s.setting := by
    obtain ⟨m₁, -, rfl⟩ := (ends_iff hecho hp).1 hfirst
    exact ⟨hecho, rfl⟩
  rw [← hsame.2] at hhost
  -- one marked run stands for the second piece, on its own and in the whole
  have hpiece (result : Except Stop RunResult) (m : Machine) :
      (∃ s₂, s₁.Ends q result s₂ ∧ s₂.machine = m) ↔ _ :=
    (ends_with_iff hsame.1 (hq.trans (congrArg _ Q.relocate_id.symm))).trans
      (runs_relocate hhost id)
  have hwhole (result : Except Stop RunResult) (m : Machine) :
      (∃ s', s.Ends (p ++ '\n' :: q) result s' ∧ s'.machine = m) ↔ _ :=
    (ends_joined_iff hecho hp hq hfirst).trans (runs_relocate hhost (behind p))
  refine ⟨⟨?_, ?_⟩, ?_⟩
  · rintro ⟨result, s₂, hends⟩
    obtain ⟨marked, machine, hruns, -, -⟩ := (hpiece _ _).1 ⟨s₂, hends, rfl⟩
    obtain ⟨s', hends', -⟩ := (hwhole _ _).2 ⟨marked, machine, hruns, rfl, rfl⟩
    exact ⟨_, s', hends'⟩
  · rintro ⟨result, s', hends'⟩
    obtain ⟨marked, machine, hruns, -, -⟩ := (hwhole _ _).1 ⟨s', hends', rfl⟩
    obtain ⟨s₂, hends, -⟩ := (hpiece _ _).2 ⟨marked, machine, hruns, rfl, rfl⟩
    exact ⟨_, s₂, hends⟩
  · intro result s₂ result' s' hends hends'
    obtain ⟨marked, machine, hruns, rfl, hhere⟩ := (hpiece _ _).1 ⟨s₂, hends, rfl⟩
    obtain ⟨marked', machine', hruns', rfl, hthere⟩ := (hwhole _ _).1 ⟨s', hends', rfl⟩
    obtain ⟨rfl, rfl⟩ := hruns.unique hruns'
    exact ⟨marked', machine', hruns, .of_machines hhere hthere⟩

/-- A host with a function `refuse`, which rejects every call where it stands. -/
def refusalHost : Host :=
  { Host.plain with
    functions := Table.ofList [("refuse", ⟨0, none, fun c =>
      ⟨[], .error (.runtime ⟨.rejectedArguments "refuse" "never", some c.location⟩)⟩⟩)] }

theorem refusalHost_passesPlacesOn : refusalHost.PassesPlacesOn := by
  intro move
  refine ⟨fun name c => ?_, fun _ _ _ => nofun, fun _ _ _ => nofun⟩
  unfold Host.call
  cases hname : refusalHost.functions.get? name with
  | none => rfl
  | some f =>
      obtain ⟨-, rfl⟩ := Prod.mk.inj (List.mem_singleton.1 (Table.mem_of_get?_ofList hname))
      rfl

/-- A session that has this function alone. -/
def refusalSession : Session :=
  ⟨⟨refusalHost, defaultMaxCallDepth⟩, false,
    .initial (Table.ofList [("refuse", .native ⟨"refuse", 0, noDescription, .host⟩)]), .empty⟩

/-- A variable and a function that reads it, on two lines. -/
def declaringSource : List Char := "var n = true;\nfun f() \x7b return n; \x7d".toList

/-- A call of that function on the first line, and a refusal on the second one. -/
def refusedSource : List Char := "print f();\nrefuse();".toList

/-- The runtime error of an input that ended with one, and none of an input that ended well. -/
def endOf? : Except Stop RunResult → Option (Option RuntimeError)
  | .ok .ok => some none
  | .ok (.runtimeError e) => some (some e)
  | _ => none

theorem eq_of_endOf? {r : Except Stop RunResult} {e : Option RuntimeError}
    (h : endOf? r = some e) : r = .ok (e.elim .ok .runtimeError) := by
  unfold endOf? at h
  split at h
  · cases h
    rfl
  · cases h
    rfl
  · exact nomatch h

/-- An input that ends well or with a runtime error. -/
theorem Session.ends_of_endOf? (s : Session) (fuel : Nat) (source : List Char)
    {e : Option RuntimeError} (h : endOf? (s.runWith fuel source).1 = some e) :
    s.Ends source (.ok (e.elim .ok .runtimeError)) (s.runWith fuel source).2 :=
  ⟨nofun, fuel, Prod.ext (eq_of_endOf? h) rfl⟩

theorem exists_of_compile_isOk (source : List Char) (h : (compile source).isOk = true) :
    ∃ P, compile source = .ok P := by
  cases hcompile : compile source with
  | ok P => exact ⟨P, rfl⟩
  | error result =>
      rw [hcompile] at h
      exact nomatch h

/-- The declarations and then the call end with a refusal on the second line of the second piece, which
is the fourth line of the whole; the text was printed before. The other way round the function is not
there, and the declarations are not executed. -/
theorem refusal_in_pieces :
    refusalSession.echo = false ∧ refusalHost.PassesPlacesOn ∧
      (compile declaringSource).isOk ∧ (compile refusedSource).isOk ∧
    ∃ s₁ s₂ s', refusalSession.Ends declaringSource (.ok .ok) s₁ ∧
      s₁.Ends refusedSource
        (.ok (.runtimeError ⟨.rejectedArguments "refuse" "never", some ⟨2, 1, 11⟩⟩)) s₂ ∧
      refusalSession.Ends (declaringSource ++ '\n' :: refusedSource)
        (.ok (.runtimeError ⟨.rejectedArguments "refuse" "never", some ⟨4, 1, 47⟩⟩)) s' ∧
      s'.machine.events = s₂.machine.events ∧
      ∃ table, refusalSession.runWith 30 (refusedSource ++ '\n' :: declaringSource) =
        (.ok (.runtimeError ⟨.undefinedVariable "f", some ⟨1, 7, 6⟩⟩),
          { (refusalSession.runWith 30 refusedSource).2 with resolutions := table }) := by
  have hdeclaring : (compile declaringSource).isOk := by decide +kernel
  have hrefused : (compile refusedSource).isOk := by decide +kernel
  obtain ⟨P, hP⟩ := exists_of_compile_isOk declaringSource hdeclaring
  obtain ⟨Q, hQ⟩ := exists_of_compile_isOk refusedSource hrefused
  have hfirst : refusalSession.Ends declaringSource (.ok .ok) _ :=
    ends_of_endOf? _ 30 _ (e := none) (by decide +kernel)
  have hsecond : Session.Ends _ refusedSource _ _ :=
    ends_of_endOf? (refusalSession.runWith 30 declaringSource).2 30 _
      (e := some ⟨.rejectedArguments "refuse" "never", some ⟨2, 1, 11⟩⟩) (by decide +kernel)
  have hwhole : refusalSession.Ends (declaringSource ++ '\n' :: refusedSource) _ _ :=
    ends_of_endOf? _ 30 _
      (e := some ⟨.rejectedArguments "refuse" "never", some ⟨4, 1, 47⟩⟩) (by decide +kernel)
  have hfailed : endOf? (refusalSession.runWith 30 refusedSource).1 =
      some (some ⟨.undefinedVariable "f", some ⟨1, 7, 6⟩⟩) := by decide +kernel
  obtain ⟨hpieces, -⟩ := input_may_be_fed_in_pieces refusalSession rfl hP hQ
  obtain ⟨-, hstops⟩ := input_may_be_fed_in_pieces refusalSession rfl hQ hP
  obtain ⟨-, hsame⟩ := (hpieces _ hfirst).2 refusalHost_passesPlacesOn
  obtain ⟨_, _, -, hends⟩ := hsame _ _ _ _ hsecond hwhole
  exact ⟨rfl, refusalHost_passesPlacesOn, hdeclaring, hrefused, _, _, _, hfirst, hsecond, hwhole,
    hends.events, hstops 30 _ _ (Prod.ext (eq_of_endOf? hfailed) rfl) nofun⟩

end Lox
