import Lox.Proofs.Layout.Parsing
import Lox.Proofs.Layout.Resolving
import Lox.Proofs.Sessions.Joining

/-!
# Layout does not matter

White space and comments are no tokens, so all that they change is where tokens stand. Two source
texts with the same kinds and lexemes in the same order have the same tokens once places are
forgotten. From there on nothing can tell them apart: the parser, the resolver and the evaluator take
tokens and trees at other places to the same results at other places. In a session that was built up
by other inputs, those may be laid out in another way as well.

## Contents
- `Location.forget`: all places in one.
- `RunResult.relocateWhole`, `relocateResult`: results at other places.
- `Session.runRecovered_relocate`: a run at other places.
- `SameRun`: two runs that differ in places alone.
- `layout_irrelevant`: two source texts with the same tokens.
-/

namespace Lox

/-- Every place becomes the same one. -/
def Location.forget (_ : Location) : Location := .start

/-! ## Results at other places -/

section Relocation

variable (move : Location → Location)

/-- A result at another place, with the errors that were found before the program ran. -/
def RunResult.relocateWhole : RunResult → RunResult
  | .syntaxErrors errors => .syntaxErrors (errors.map (·.relocate move))
  | .staticErrors errors => .staticErrors (errors.map (·.relocate move))
  | result => result.relocate move

/-- What comes of an input at another place, with the errors that were found before it ran. -/
def relocateResult : Except Stop RunResult → Except Stop RunResult
  | .ok result => .ok (result.relocateWhole move)
  | .error stop => .error (stop.relocate move)

/-- What may be executed of a source text, or the result that says why not, at another place. -/
def relocateCompiled : Except RunResult Program → Except RunResult Program
  | .ok p => .ok (p.relocate move)
  | .error result => .error (result.relocateWhole move)

/-- A diagnostic at another place. -/
def Diagnostic.relocate (d : Diagnostic) : Diagnostic :=
  { d with location := d.location.map move }

theorem SourceError.diagnostic_relocate (e : SourceError) :
    (e.relocate move).diagnostic = e.diagnostic.relocate move := by
  cases e <;> rfl

/-- Only the places of diagnostics depend on places. -/
theorem RunResult.diagnostics_relocateWhole (r : RunResult) :
    (r.relocateWhole move).diagnostics = r.diagnostics.map (·.relocate move) := by
  cases r with
  | ok => rfl
  | syntaxErrors errors =>
      show (errors.map (·.relocate move)).map _ = (errors.map _).map _
      rw [List.map_map, List.map_map]
      exact List.map_congr_left fun e _ => e.diagnostic_relocate move
  | staticErrors errors =>
      show (errors.map (·.relocate move)).map _ = (errors.map _).map _
      rw [List.map_map, List.map_map]
      rfl
  | runtimeError e => rfl

end Relocation

variable {move : Location → Location}

/-! ## Running at other places -/

theorem Recovered.success_relocate (r : Recovered) : (r.relocate move).success = r.success :=
  List.isEmpty_map

theorem Recovered.compile_relocate (r : Recovered) :
    (r.relocate move).compile = relocateCompiled move r.compile := by
  unfold Recovered.compile
  rw [r.success_relocate]
  dsimp only
  split
  · have hresolve : (r.relocate move).program.resolve =
        r.program.resolve.relocate move (·.relocate move) := r.program.resolve_relocate
    rw [hresolve]
    generalize r.program.resolve = checked
    obtain ⟨value, errors⟩ := checked
    cases errors with
    | nil => rfl
    | cons e es => rfl
  · rfl

theorem Recovered.table_relocate (r : Recovered) (resolutions : Resolutions) :
    (r.relocate move).table resolutions = r.table resolutions := by
  unfold Recovered.table
  rw [r.success_relocate]
  split
  · exact (resolutions.resolve_relocate move r.program).2
  · rfl

theorem Decl.isExpression_relocate (d : Decl) : (d.relocate move).isExpression = d.isExpression := by
  cases d with
  | var | function | «class» => rfl
  | stmt s =>
      cases s with
      | ifThenElse _ _ otherwise => cases otherwise <;> rfl
      | expression | print | block | whileLoop | «break» | «continue» | «return» => rfl

theorem Program.isSingle_relocate (p : Program) : (p.relocate move).IsSingle ↔ p.IsSingle := by
  have hbody : (p.relocate move).body.map Decl.isExpression = p.body.map Decl.isExpression := by
    show (Decl.relocateAll move p.body).map _ = _
    rw [Decl.relocateAll_eq_map, List.map_map]
    exact List.map_congr_left fun d _ => d.isExpression_relocate
  unfold IsSingle
  rw [hbody]

open Places in
/-- **A program at other places**, with or without echo. -/
theorem runProgram_relocate {setting setting' : Setting} (hpasses : setting.PassesTo setting' move)
    (echo : Bool) (n : Nat) (p : Program) (m : Machine) :
    runProgram setting' echo n (p.relocate move) (m.relocate move) =
      relocateEnd move id (runProgram setting echo n p m) := by
  have inside : Alike setting setting' False move n n :=
    alike hpasses (Nat.le_refl n) fun h => absurd h (Nat.lt_irrefl n)
  by_cases hsingle : echo = true ∧ p.IsSingle
  · obtain ⟨rfl, hsingle⟩ := hsingle
    obtain ⟨e, span, hbody⟩ := Program.isSingle_iff.1 hsingle
    have hbody' : (p.relocate move).body =
        [.stmt (.expression (e.relocate move) (span.relocate move))] := by
      show Decl.relocateAll move p.body = _
      rw [hbody]
      rfl
    have hprint : Follows False move id (evaluate setting n e >>= fun v =>
        Eval.print setting.host v.text) (evaluate setting' n (e.relocate move) >>= fun v =>
        Eval.print setting'.host v.text) := by
      refine (inside.evaluate e).bind fun v => ?_
      rw [v.text_relocate]
      exact .print hpasses.host v.text
    rw [Program.run_single hbody, Program.run_single hbody']
    exact (hprint m).resolve_right fun h => h.1
  · rw [Program.run_of_not_single hsingle, Program.run_of_not_single (by rwa [p.isSingle_relocate])]
    exact executeProgram_relocate hpasses n p m

/-- The result of a run at other places. -/
theorem ofEval_relocateWhole (r : EStateM.Result Stop Machine Unit) :
    RunResult.ofEval (Places.relocateEnd move id r) =
      (relocateResult move (RunResult.ofEval r).1, (RunResult.ofEval r).2.relocate move) := by
  cases r with
  | ok u m => rfl
  | error stop m =>
      cases stop with
      | outOfFuel => rfl
      | failure f => cases f <;> rfl

/-- **A run at other places**: of what could be read, in a session that may have kept other inputs,
with a host that does there what the first one does here. -/
theorem Session.runRecovered_passesTo {s : Session} {setting' : Setting}
    (hpasses : s.setting.PassesTo setting' move) (fuel : Nat) (r : Recovered) :
    Session.runRecovered fuel { s.relocate move with setting := setting' } (r.relocate move) =
      (relocateResult move (s.runRecovered fuel r).1,
        { (s.runRecovered fuel r).2.relocate move with setting := setting' }) := by
  have htable : (r.relocate move).table (s.relocate move).resolutions = r.table s.resolutions :=
    r.table_relocate s.resolutions
  unfold Session.runRecovered
  dsimp only
  rw [htable, r.compile_relocate]
  cases r.compile with
  | error result => rfl
  | ok p =>
      dsimp only [relocateCompiled]
      have hrun : runProgram setting' (s.relocate move).echo fuel (p.relocate move)
          (s.relocate move).machine = _ := runProgram_relocate hpasses s.echo fuel p s.machine
      rw [hrun, ofEval_relocateWhole]
      rfl

theorem Session.runRecovered_relocate {s : Session} (hhost : s.setting.host.PassesOn move)
    (fuel : Nat) (r : Recovered) :
    (s.relocate move).runRecovered fuel (r.relocate move) =
      (relocateResult move (s.runRecovered fuel r).1, (s.runRecovered fuel r).2.relocate move) := by
  refine (Session.runRecovered_passesTo (.ofPassesOn hhost) fuel r).trans ?_
  unfold Session.runRecovered
  cases r.compile <;> rfl

/-! ## Two layouts of the same tokens -/

open Location (forget)

/-- Source texts without lexical errors and with the same kinds and lexemes in the same order. -/
structure SameTokens (source source' : List Char) : Prop where
  scans : (scan source).errors = []
  scans' : (scan source').errors = []
  tokens : (scan source).tokens.map (fun t => (t.kind, t.lexeme)) =
    (scan source').tokens.map fun t => (t.kind, t.lexeme)

/-- The diagnostics of the result of a run, if it has one. -/
def diagnosticsOf (r : Except Stop RunResult) : List Diagnostic :=
  match r with
  | .ok result => result.diagnostics
  | .error _ => []

/-- Two runs that differ in places alone. -/
structure SameRun (r r' : Except Stop RunResult × Session) : Prop where
  result : relocateResult forget r.1 = relocateResult forget r'.1
  /-- What is shown about the results is the same, the lines in it apart. -/
  diagnostics : (diagnosticsOf r.1).map (·.relocate forget) =
    (diagnosticsOf r'.1).map (·.relocate forget)
  events : r.2.machine.events = r'.2.machine.events
  session : r.2.relocate forget = r'.2.relocate forget

/-- **The same tokens** are equal once places are forgotten. -/
theorem SameTokens.scan_eq {source source' : List Char} (h : SameTokens source source') :
    (scan source).relocate forget = (scan source').relocate forget := by
  have htokens : (scan source).tokens.map (·.relocate forget) =
      (scan source').tokens.map (·.relocate forget) := by
    have hsame := congrArg (List.map fun e : Token.Kind × String =>
      (⟨e.1, e.2, ⟨.start, .start⟩⟩ : Token)) h.tokens
    rw [List.map_map, List.map_map] at hsame
    exact hsame
  unfold Scan.relocate
  rw [htokens, h.scans, h.scans']
  rfl

theorem SameTokens.recover_eq {source source' : List Char} (h : SameTokens source source') :
    (Program.recover source).relocate forget = (Program.recover source').relocate forget := by
  rw [Program.recover_eq, Program.recover_eq, ← Scan.recover_relocate, ← Scan.recover_relocate,
    h.scan_eq]

theorem diagnosticsOf_relocate (move : Location → Location) (r : Except Stop RunResult) :
    diagnosticsOf (relocateResult move r) = (diagnosticsOf r).map (·.relocate move) := by
  cases r with
  | ok result => exact result.diagnostics_relocateWhole move
  | error stop => rfl

/-- Results and sessions that are equal once places are forgotten differ in places alone. -/
theorem SameRun.of_eq {r r' : Except Stop RunResult × Session}
    (hresult : relocateResult forget r.1 = relocateResult forget r'.1)
    (hsession : r.2.relocate forget = r'.2.relocate forget) : SameRun r r' where
  result := hresult
  diagnostics := by
    rw [← diagnosticsOf_relocate, ← diagnosticsOf_relocate, hresult]
  events := by
    have hevents : (r.2.relocate forget).machine.events = (r'.2.relocate forget).machine.events := by
      rw [hsession]
    exact hevents
  session := hsession

/-- The same tokens run in the same way in sessions that differ in places alone. -/
theorem SameTokens.runWith {source source' : List Char} (h : SameTokens source source')
    {s s' : Session} (hsame : s.relocate forget = s'.relocate forget)
    (hhost : s.setting.host.PassesPlacesOn) (fuel : Nat) :
    SameRun (s.runWith fuel source) (s'.runWith fuel source') := by
  have hhost' : s'.setting.host.PassesPlacesOn := by
    have hsetting : (s.relocate forget).setting = (s'.relocate forget).setting := by rw [hsame]
    rw [show s'.setting = s.setting from hsetting.symm]
    exact hhost
  have hrun := s.runWith_eq_runRecovered fuel source ▸
    Session.runRecovered_relocate (hhost forget) fuel (Program.recover source)
  have hrun' := s'.runWith_eq_runRecovered fuel source' ▸
    Session.runRecovered_relocate (hhost' forget) fuel (Program.recover source')
  rw [hsame, h.recover_eq] at hrun
  have hends := hrun.symm.trans hrun'
  exact .of_eq (congrArg Prod.fst hends) (congrArg Prod.snd hends)

/-- **Layout does not matter.** Two source texts with the same tokens, whatever stands between them, are
read as the same tree with the same errors, get the same depths and static errors in it and the same
entries in the table, and run alike: on their own, and in sessions whose inputs so far differed in
layout as well. All of this is up to places. -/
theorem layout_irrelevant (source source' : List Char) (hsame : SameTokens source source') :
    (Program.recover source).relocate forget = (Program.recover source').relocate forget ∧
    (∀ table : Resolutions,
      let checked := table.resolve (Program.recover source).program
      let checked' := table.resolve (Program.recover source').program
      checked.1.relocate forget (·.relocate forget) =
          checked'.1.relocate forget (·.relocate forget) ∧
        checked.2 = checked'.2) ∧
    (∀ options : Options, options.host.PassesPlacesOn →
      (∃ e, runSource options source = .error e ∧ runSource options source' = .error e) ∨
        ∃ r r', runSource options source = .ok r ∧ runSource options source' = .ok r' ∧
          SameRun r r') ∧
    (∀ (fuel : Nat) (session session' : Session),
      session.relocate forget = session'.relocate forget →
      session.setting.host.PassesPlacesOn →
      SameRun (session.runWith fuel source) (session'.runWith fuel source')) := by
  have hprogram : (Program.recover source).program.relocate forget =
      (Program.recover source').program.relocate forget :=
    congrArg Recovered.program hsame.recover_eq
  refine ⟨hsame.recover_eq, ?_, ?_, ?_⟩
  · intro table
    obtain ⟨hchecked, htable⟩ := table.resolve_relocate forget
      (Program.recover source).program
    obtain ⟨hchecked', htable'⟩ := table.resolve_relocate forget
      (Program.recover source').program
    rw [hprogram] at hchecked htable
    exact ⟨hchecked.symm.trans hchecked', htable.symm.trans htable'⟩
  · intro options hhost
    unfold runSource
    cases hcreate : Session.create { options with echo := false } with
    | error e => exact .inl ⟨e, rfl, rfl⟩
    | ok session =>
        have hhost' : session.setting.host.PassesPlacesOn := by
          rw [Session.host_of_create hcreate]
          exact hhost
        exact .inr ⟨_, _, rfl, rfl, hsame.runWith rfl hhost' ampleFuel⟩
  · intro fuel session session' hsession hhost
    exact hsame.runWith hsession hhost fuel

/-- A use of a name that nothing declares: `x;`. -/
def plainLayout : List Char := "x;".toList

/-- The same on two lines, behind a comment: `// x` and ` x ;`. -/
def otherLayout : List Char := "// x\n x ;".toList

theorem sameTokens_layouts : SameTokens plainLayout otherLayout where
  scans := by decide +kernel
  scans' := by decide +kernel
  tokens := by decide +kernel

theorem Host.passesPlacesOn_plain : Host.plain.PassesPlacesOn := by
  intro move
  exact ⟨fun name c => rfl, fun _ _ _ => nofun, fun _ _ _ => nofun⟩

/-- Two layouts of a program that fails, on different lines: the runs differ in the place alone. -/
theorem layout_irrelevant_for_failure :
    SameTokens plainLayout otherLayout ∧ Host.plain.PassesPlacesOn ∧
    ∃ r r', runSource (Options.standard Host.plain) plainLayout = .ok r ∧
      runSource (Options.standard Host.plain) otherLayout = .ok r' ∧
      endOf? r.1 = some (some ⟨.undefinedVariable "x", some ⟨1, 1, 0⟩⟩) ∧
      endOf? r'.1 = some (some ⟨.undefinedVariable "x", some ⟨2, 2, 6⟩⟩) ∧ SameRun r r' := by
  obtain ⟨_, _, hruns, _⟩ := layout_irrelevant plainLayout otherLayout sameTokens_layouts
  rcases hruns (Options.standard Host.plain) Host.passesPlacesOn_plain with
    ⟨e, herror, _⟩ | ⟨r, r', hr, hr', hsame⟩
  · exact nomatch herror
  · cases hr
    cases hr'
    refine ⟨sameTokens_layouts, Host.passesPlacesOn_plain, _, _, rfl, rfl, ?_, ?_, hsame⟩
    · decide +kernel
    · decide +kernel

end Lox
