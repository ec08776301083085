import Lox.Proofs.Resolution.Recording
import Lox.Session

/-!
# Inputs without the table

The table of a session never decides what is executed for an input: a program is resolved as if it were
the first one. So running an input can be said without the table, apart from the table that it leaves.

## Contents
- `compile`: what is executed for a source text.
- `compile_fst`, `Session.runWith_eq`: it is what every session executes.
- `Recovered.compile`, `Session.runRecovered`: running what could be read.
- `Program.IsSingle`, `Program.run_single`, `Program.run_of_not_single`: with and without echo.
-/

namespace Lox

/-- A source text as a program that may be executed, or the result that says why not. -/
def compile (source : List Char) : Except RunResult Program :=
  let recovered := Program.recover source
  if recovered.success then
    let checked := recovered.program.resolve
    if checked.errors.isEmpty then .ok checked.value
    else .error (.staticErrors checked.errors)
  else .error (.syntaxErrors recovered.errors)

theorem Resolutions.compile_fst (r : Resolutions) (source : List Char) :
    (r.compile source).1 = Lox.compile source := by
  unfold Resolutions.compile Lox.compile
  dsimp only
  rw [r.resolve_fst, apply_ite Prod.fst, apply_ite Prod.fst]

/-- **A run without the table.** -/
theorem Session.runWith_eq (fuel : Nat) (s : Session) (source : List Char) :
    s.runWith fuel source =
      match compile source with
      | .error result => (.ok result, { s with resolutions := (s.resolutions.compile source).2 })
      | .ok p =>
        let r := RunResult.ofEval (runProgram s.setting s.echo fuel p s.machine)
        (r.1, { s with machine := r.2, resolutions := (s.resolutions.compile source).2 }) := by
  have hfst := s.resolutions.compile_fst source
  unfold Session.runWith
  cases hcompile : s.resolutions.compile source with
  | mk compiled r =>
      have hfst : compiled = compile source := by rw [← hfst, hcompile]
      cases hsource : compile source with
      | error result =>
          cases hfst.trans hsource
          rfl
      | ok p =>
          cases hfst.trans hsource
          rfl

/-! ## From what could be read to a run -/

/-- What could be read as a program that may be executed, or the result that says why not. -/
def Recovered.compile (r : Recovered) : Except RunResult Program :=
  if r.success then
    let checked := r.program.resolve
    if checked.errors.isEmpty then .ok checked.value
    else .error (.staticErrors checked.errors)
  else .error (.syntaxErrors r.errors)

/-- The table behind what could be read: only programs without errors are resolved. -/
def Recovered.table (r : Recovered) (resolutions : Resolutions) : Resolutions :=
  if r.success then (resolutions.resolve r.program).2 else resolutions

/-- The run of what could be read. -/
def Session.runRecovered (fuel : Nat) (s : Session) (r : Recovered) :
    Except Stop RunResult × Session :=
  match r.compile with
  | .error result => (.ok result, { s with resolutions := r.table s.resolutions })
  | .ok p =>
    let ended := RunResult.ofEval (runProgram s.setting s.echo fuel p s.machine)
    (ended.1, { s with machine := ended.2, resolutions := r.table s.resolutions })

theorem Resolutions.compile_snd (resolutions : Resolutions) (source : List Char) :
    (resolutions.compile source).2 = (Program.recover source).table resolutions := by
  unfold Resolutions.compile Recovered.table
  dsimp only
  split
  · split <;> rfl
  · rfl

/-- The run of an input is the run of what could be read of it. -/
theorem Session.runWith_eq_runRecovered (fuel : Nat) (s : Session) (source : List Char) :
    s.runWith fuel source = s.runRecovered fuel (Program.recover source) := by
  rw [Session.runWith_eq, Resolutions.compile_snd]
  rfl

/-- No input changes the setting of a session. -/
theorem Session.setting_runRecovered (fuel : Nat) (s : Session) (r : Recovered) :
    (s.runRecovered fuel r).2.setting = s.setting := by
  unfold Session.runRecovered
  split <;> rfl

/-! ## With and without echo -/

/-- A declaration that is an expression statement. -/
def Decl.isExpression : Decl → Bool
  | .stmt (.expression _ _) => true
  | _ => false

theorem Decl.isExpression_iff {d : Decl} :
    d.isExpression = true ↔ ∃ e span, d = .stmt (.expression e span) := by
  constructor
  · intro h
    cases d with
    | var | function | «class» => exact nomatch h
    | stmt s =>
        cases s with
        | expression e span => exact ⟨e, span, rfl⟩
        | print | block | ifThenElse | whileLoop | «break» | «continue» | «return» =>
            exact nomatch h
  · rintro ⟨e, span, rfl⟩
    rfl

/-- A program that consists of one expression statement. -/
def Program.IsSingle (p : Program) : Prop := p.body.map Decl.isExpression = [true]

namespace Program

variable {setting : Setting} {n : Nat} {p : Program}

theorem isSingle_iff : p.IsSingle ↔ ∃ e span, p.body = [.stmt (.expression e span)] := by
  unfold IsSingle
  rw [List.map_eq_singleton_iff]
  constructor
  · rintro ⟨d, hbody, hd⟩
    obtain ⟨e, span, rfl⟩ := Decl.isExpression_iff.1 hd
    exact ⟨e, span, hbody⟩
  · rintro ⟨e, span, hbody⟩
    exact ⟨_, hbody, rfl⟩

/-- With echo, the value of a single expression is printed. -/
theorem run_single {e : Expr} {span : Span} (hbody : p.body = [.stmt (.expression e span)]) :
    runProgram setting true n p =
      evaluate setting n e >>= fun v => Eval.print setting.host v.text := by
  obtain ⟨body, whole⟩ := p
  cases hbody
  rfl

theorem run_of_not_single {echo : Bool} (h : ¬(echo = true ∧ p.IsSingle)) :
    runProgram setting echo n p = executeProgram setting n p := by
  unfold runProgram
  split
  · rename_i e span hbody
    exact absurd ⟨rfl, isSingle_iff.2 ⟨e, span, hbody⟩⟩ h
  · rfl

end Program

theorem Decl.isExpression_resolve (around : Surroundings) (scopes : Scopes) (d : Decl) :
    (d.resolve around scopes).value.isExpression = d.isExpression := by
  cases d with
  | var | function | «class» => rfl
  | stmt s =>
      cases s with
      | ifThenElse _ _ otherwise => cases otherwise <;> rfl
      | expression | print | block | whileLoop | «break» | «continue» | «return» => rfl

/-- Resolving makes no program a single expression. -/
theorem Program.isSingle_resolve (p : Program) : p.resolve.value.IsSingle ↔ p.IsSingle := by
  have hmap (around : Surroundings) (scopes : Scopes) (ds : List Decl) :
      (Decl.resolveAll around scopes ds).value.map Decl.isExpression =
        ds.map Decl.isExpression := by
    induction ds generalizing scopes with
    | nil => rfl
    | cons d ds ih =>
        show (d.resolve around scopes).value.isExpression ::
          (Decl.resolveAll around (scopes.behind d) ds).value.map _ = _
        rw [d.isExpression_resolve, ih, List.map_cons]
  unfold IsSingle
  rw [← hmap .topLevel [] p.body]
  rfl

end Lox
