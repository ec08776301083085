import Lox.Proofs.Places.Steps

/-!
# Programs at other places

A program that runs in a session meets places from two sides: its own, and those that the session
kept from earlier inputs. Only its own ones move when the text of the program stands elsewhere. So
that a run tells the two sides apart, its places are marked first, those of the session with even
lines and those of the program with odd ones. The end of a run at any places is the end of the marked
one with the marks taken off, and the places of the program moved.

## Contents
- `Host.PassesPlacesOn`: a host that passes on all places.
- `executeProgram_relocate`: the run of a program at other places.
- `executeProgram_of_le`: the run of a program with more fuel.
- `Location.ofSession`, `Location.ofInput`, `Location.settle`: marking places, and taking the marks off.
- `executeProgram_settle`: a run from the marked one.
-/

namespace Lox

/-- Wherever a program stands, the host does the same, and passes on the places that it was given. -/
def Host.PassesPlacesOn (host : Host) : Prop := ∀ move, host.PassesOn move

/-- What comes of an input, at another place. -/
def relocateOutcome (move : Location → Location) :
    Except Stop RunResult → Except Stop RunResult
  | .ok result => .ok (result.relocate move)
  | .error stop => .error (stop.relocate move)

namespace Places

variable {setting setting' : Setting} {move : Location → Location}

/-- **A program, when every call of the evaluator follows.** -/
theorem Follows.executeProgram {late : Prop} {n n' : Nat}
    (inside : Alike setting setting' late move n n') (P : Program) :
    Follows late move id (executeProgram setting n P)
      (executeProgram setting' n' (P.relocate move)) := by
  refine (inside.executeAll P.body).bind fun flow => ?_
  cases flow with
  | normal => exact .pure rfl
  | «break» | «continue» | «return» v => exact .defect _ none

/-- **A program at other places** runs like the one that was moved. -/
theorem executeProgram_relocate (hpasses : setting.PassesTo setting' move) (n : Nat) (P : Program)
    (m : Machine) : executeProgram setting' n (P.relocate move) (m.relocate move) =
      relocateEnd move id (executeProgram setting n P m) := by
  have inside : Alike setting setting' False move n n :=
    alike hpasses (Nat.le_refl n) fun h => absurd h (Nat.lt_irrefl n)
  rcases Follows.executeProgram inside P m with hsame | ⟨hlate, -⟩
  · exact hsame
  · exact hlate.elim

theorem relocateEnd_id (r : EStateM.Result Stop Machine Unit) : relocateEnd id id r = r := by
  cases r <;> simp [relocateEnd]

/-- **More fuel changes nothing**, unless the fuel was used up. -/
theorem executeProgram_of_le {n n' : Nat} (hle : n ≤ n') (P : Program) (m : Machine) :
    executeProgram setting n' P m = executeProgram setting n P m ∨
      OutOfFuel (executeProgram setting n P m) := by
  have inside : Alike setting setting True id n n' :=
    alike (.ofPassesOn setting.host.passesOn_id) hle fun _ => trivial
  have hfollows := Follows.executeProgram inside P m
  rw [P.relocate_id, m.relocate_id, relocateEnd_id] at hfollows
  exact hfollows.imp_right And.right

/-! ## Outcomes -/

/-- The result of a run at other places. -/
theorem ofEval_relocateEnd (r : EStateM.Result Stop Machine Unit) :
    RunResult.ofEval (relocateEnd move id r) =
      (relocateOutcome move (RunResult.ofEval r).1, (RunResult.ofEval r).2.relocate move) := by
  cases r with
  | ok u m => rfl
  | error stop m =>
      cases stop with
      | outOfFuel => rfl
      | failure f => cases f <;> rfl

theorem ofEval_outOfFuel (r : EStateM.Result Stop Machine Unit) :
    (RunResult.ofEval r).1 = .error .outOfFuel ↔ OutOfFuel r := by
  cases r with
  | ok u m => exact ⟨nofun, nofun⟩
  | error stop m =>
      cases stop with
      | outOfFuel => exact ⟨fun _ => ⟨m, rfl⟩, fun _ => rfl⟩
      | failure f => cases f <;> exact ⟨nofun, nofun⟩

/-- Only a run that ended well has the result of one. -/
theorem ofEval_eq_ok {r : EStateM.Result Stop Machine Unit} {m : Machine} :
    RunResult.ofEval r = (.ok .ok, m) ↔ r = .ok () m := by
  constructor
  · intro h
    cases r with
    | ok u m' =>
        cases h
        rfl
    | error stop m' =>
        cases stop with
        | outOfFuel => exact nomatch h
        | failure f => cases f <;> exact nomatch h
  · rintro rfl
    rfl

theorem relocateOutcome_outOfFuel (r : Except Stop RunResult) :
    relocateOutcome move r = .error .outOfFuel ↔ r = .error .outOfFuel := by
  cases r with
  | ok result => exact ⟨nofun, nofun⟩
  | error stop =>
      cases stop with
      | outOfFuel => exact ⟨fun _ => rfl, fun _ => rfl⟩
      | failure f => exact ⟨nofun, nofun⟩

end Places

/-! ## Marks -/

namespace Location

/-- A place that a session kept, with a mark: an even line. -/
def ofSession (l : Location) : Location := { l with line := 2 * l.line }

/-- A place of an input, with a mark: an odd line. -/
def ofInput (l : Location) : Location := { l with line := 2 * l.line + 1 }

/-- Takes the mark from a place, and moves it when it is one of the input. -/
def settle (move : Location → Location) (l : Location) : Location :=
  if l.line % 2 = 0 then { l with line := l.line / 2 } else move { l with line := l.line / 2 }

/-- The places of the session stay. -/
theorem settle_comp_ofSession (move : Location → Location) : settle move ∘ ofSession = id := by
  funext ⟨line, column, offset⟩
  have hmark : 2 * line % 2 = 0 := by omega
  have hline : 2 * line / 2 = line := by omega
  simp only [Function.comp_apply, settle, ofSession, hmark, hline, if_true, id]

/-- The places of the input are moved. -/
theorem settle_comp_ofInput (move : Location → Location) : settle move ∘ ofInput = move := by
  funext ⟨line, column, offset⟩
  have hmark : ¬ (2 * line + 1) % 2 = 0 := by omega
  have hline : (2 * line + 1) / 2 = line := by omega
  simp only [Function.comp_apply, settle, ofInput, hmark, hline, if_false]

end Location

open Location

/-- **Every run is a marked run**, with the marks taken off. -/
theorem Places.executeProgram_settle {setting : Setting} (hhost : setting.host.PassesPlacesOn)
    (move : Location → Location) (n : Nat) (P : Program) (m : Machine) :
    executeProgram setting n (P.relocate move) m =
      relocateEnd (settle move) id
        (executeProgram setting n (P.relocate ofInput) (m.relocate ofSession)) := by
  have hrun := executeProgram_relocate (.ofPassesOn (hhost (settle move))) n (P.relocate ofInput)
    (m.relocate ofSession)
  rw [P.relocate_relocate, m.relocate_relocate, settle_comp_ofInput, settle_comp_ofSession,
    m.relocate_id] at hrun
  exact hrun

end Lox
