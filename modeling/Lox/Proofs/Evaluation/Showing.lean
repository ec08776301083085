import Lox.Proofs.Evaluation.Timeline

/-!
# What was shown stays shown

A run tells its host of texts and of requests for the end of the process. Nothing that it does takes back
what it has told: the events of a machine are a front of those of every later one.

## Contents
- `Adds`: computations that only add events, and how they are put together.
- `adds_run`, `adds_script`: every task and every script.
-/

namespace Lox.Evaluation

variable {α β : Type} {setting : Setting} {n : Nat}

/-- A computation that takes back nothing of what was shown. -/
def Adds (x : Eval α) : Prop := ∀ m, m.events.toList <+: (machineOf (x m)).events.toList

theorem Adds.pure (a : α) : Adds (Pure.pure a) := fun _ => List.prefix_refl _

theorem Adds.bind {x : Eval α} {k : α → Eval β} (hx : Adds x) (hk : ∀ a, Adds (k a)) :
    Adds (x >>= k) := by
  intro m
  have hfirst := hx m
  cases hr : x m with
  | ok a m₁ =>
      rw [bind_of_ok hr]
      rw [hr] at hfirst
      exact hfirst.trans (hk a m₁)
  | error stop m₁ =>
      rw [bind_of_error hr]
      rw [hr] at hfirst
      exact hfirst

theorem Adds.of_quiet {x : Eval α} (hx : Quiet x) : Adds x := by
  intro m
  have hevents : (machineOf (x m)).events.toList = m.events.toList :=
    congrArg Array.toList (hx m).events_eq
  exact ⟨[], by rw [hevents, List.append_nil]⟩

theorem Adds.print (host : Host) (text : String) : Adds (Eval.print host text) := by
  intro m
  cases hprint : host.onPrint m.events text with
  | none =>
      rw [Eval.print_of_none hprint]
      exact ⟨[.print text], Array.toList_push.symm⟩
  | some f =>
      rw [Eval.print_of_some hprint]
      exact List.prefix_refl _

theorem Adds.exit (host : Host) (code : Float) : Adds (Eval.exit host code) := by
  intro m
  cases hexit : host.onExit m.events code with
  | none =>
      rw [Eval.exit_of_none hexit]
      exact ⟨[.exit code], Array.toList_push.symm⟩
  | some f =>
      rw [Eval.exit_of_some hexit]
      exact ⟨[.exit code], Array.toList_push.symm⟩

theorem Adds.around {x : Eval α} (hx : Adds x) (maxCallDepth : Nat) (frame : Frame) :
    Adds (frame.around maxCallDepth x) := by
  intro m
  obtain hroom | ⟨location, rfl, hfull⟩ := hasRoom_or_full maxCallDepth frame m
  · rw [machineOf_around x hroom, Frame.events_leave]
    have hinside := hx (frame.enter m)
    rwa [Frame.events_enter] at hinside
  · rw [around_call_of_le x hfull]
    exact List.prefix_refl _

theorem Adds.script (inside : ∀ t : Task, Adds (t.run setting n)) (script : Script α) :
    Adds (script.run setting (·.run setting n)) := by
  induction script with
  | done a => exact .pure a
  | step x next ih => exact (Adds.of_quiet x.quiet).bind ih
  | print text next ih => exact (Adds.print setting.host text).bind fun _ => ih
  | exit code next ih => exact (Adds.exit setting.host code).bind fun _ => ih
  | part frame t next ih => exact ((inside t).around setting.maxCallDepth frame).bind ih

/-- **No task takes back what was shown.** -/
theorem adds_run (n : Nat) (t : Task) : Adds (t.run setting n) := by
  induction n generalizing t with
  | zero =>
      intro m
      rw [Task.run_zero]
      exact List.prefix_refl _
  | succ n ih =>
      rw [Task.run_succ]
      exact .script ih (t.script setting.host)

theorem adds_script (n : Nat) (script : Script α) :
    Adds (script.run setting (·.run setting n)) := .script (adds_run n) script

end Lox.Evaluation
