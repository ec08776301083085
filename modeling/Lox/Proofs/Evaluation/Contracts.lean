import Lox.Proofs.Evaluation.Timeline

/-!
# Contracts of tasks

A **contract** says what holds of the memory at every moment, what a task may rely on when it begins,
given the scopes that it sees, and what then holds of its result. A script meets a contract when its
steps keep what holds of the memory, and its tasks may rely on what they do, as long as the results of
those before them are as the contract says.

When the scripts of all tasks meet a contract, so do all runs: what one task does may rely on what the
tasks in it yield, whatever the depth of the recursion. Whether a task yields something or fails, the
memory is as the contract says.

## Contents
- `Ensures`: what a computation keeps and yields.
- `Contract`, `Script.Meets`: contracts, and the scripts that meet them.
- `Contract.ensures`: what scripts meet, runs meet.
-/

namespace Lox.Evaluation

variable {I : Memory → Prop} {chain : Chain} {α β : Type}

/-! ## Computations -/

/-- Seen from these scopes, a computation keeps what holds of the memory however it ends, and what it
yields has a property. -/
def Ensures (I : Memory → Prop) (chain : Chain) (x : Eval α) (Q : α → Prop) : Prop :=
  ∀ m, I m.memory → m.chain = chain →
    I (machineOf (x m)).memory ∧ (machineOf (x m)).chain = chain ∧
      ∀ a m', x m = .ok a m' → Q a

namespace Ensures

variable {x : Eval α} {Q : α → Prop}

theorem pure {a : α} (h : Q a) : Ensures I chain (Pure.pure a : Eval α) Q := by
  intro m hI hchain
  refine ⟨hI, hchain, fun b m' heq => ?_⟩
  cases heq
  exact h

theorem raise (f : Failure) : Ensures I chain (Eval.raise f : Eval α) Q :=
  fun _ hI hchain => ⟨hI, hchain, nofun⟩

theorem mono {Q' : α → Prop} (h : Ensures I chain x Q) (hQ : ∀ a, Q a → Q' a) :
    Ensures I chain x Q' := by
  intro m hI hchain
  obtain ⟨hI', hchain', hyields⟩ := h m hI hchain
  exact ⟨hI', hchain', fun a m' heq => hQ a (hyields a m' heq)⟩

theorem bind {f : α → Eval β} {Q' : β → Prop} (hx : Ensures I chain x Q)
    (hf : ∀ a, Q a → Ensures I chain (f a) Q') : Ensures I chain (x >>= f) Q' := by
  intro m hI hchain
  obtain ⟨hI', hchain', hyields⟩ := hx m hI hchain
  cases hres : x m with
  | ok a m' =>
      rw [bind_of_ok hres]
      rw [hres] at hI' hchain'
      exact hf a (hyields a m' hres) m' hI' hchain'
  | error stop m' =>
      rw [bind_of_error hres]
      rw [hres] at hI' hchain'
      exact ⟨hI', hchain', nofun⟩

/-- A computation that leaves the memory and the scopes alone. -/
theorem of_same (hmemory : ∀ m, (machineOf (x m)).memory = m.memory)
    (hchain : ∀ m, (machineOf (x m)).chain = m.chain)
    (hQ : ∀ m a m', I m.memory → m.chain = chain → x m = .ok a m' → Q a) :
    Ensures I chain x Q := by
  intro m hI hm
  exact ⟨by rw [hmemory]; exact hI, by rw [hchain, hm], fun a m' heq => hQ m a m' hI hm heq⟩

theorem print (host : Host) (text : String) :
    Ensures I chain (Eval.print host text) fun _ => True := by
  refine of_same (fun m => ?_) (fun m => ?_) fun _ _ _ _ _ _ => trivial
  · obtain heq | ⟨_, heq⟩ := Eval.print_cases host text m <;> rw [heq] <;> rfl
  · obtain heq | ⟨_, heq⟩ := Eval.print_cases host text m <;> rw [heq] <;> rfl

theorem exit (host : Host) (code : Float) : Ensures I chain (Eval.exit host code) fun _ => True := by
  refine of_same (fun m => ?_) (fun m => ?_) fun _ _ _ _ _ _ => trivial
  · obtain heq | ⟨_, heq⟩ := Eval.exit_cases host code m <;> rw [heq] <;> rfl
  · obtain heq | ⟨_, heq⟩ := Eval.exit_cases host code m <;> rw [heq] <;> rfl

/-- Work inside another task, in its scopes and one level deeper if need be. -/
theorem around {maxCallDepth : Nat} {frame : Frame} (h : Ensures I (frame.seen chain) x Q) :
    Ensures I chain (frame.around maxCallDepth x) Q := by
  intro m hI hchain
  obtain hroom | ⟨location, rfl, hfull⟩ := hasRoom_or_full maxCallDepth frame m
  · -- a frame changes neither the memory nor, behind it, the scopes
    obtain ⟨hI', hchain', hyields⟩ := h (frame.enter m) (by rw [Frame.memory_enter]; exact hI)
      (by rw [Frame.chain_enter, hchain])
    rw [machineOf_around x hroom, Frame.memory_leave]
    refine ⟨hI', ?_, fun a m' heq => ?_⟩
    · cases frame with
      | plain | call location => exact hchain'
      | scopes inner => exact hchain
    · rw [around_eq x hroom] at heq
      cases hres : x (frame.enter m) with
      | ok b m₁ =>
          rw [hres] at heq
          cases heq
          exact hyields _ m₁ hres
      | error stop m₁ =>
          rw [hres] at heq
          exact nomatch heq
  · rw [around_call_of_le x hfull]
    exact ⟨hI, hchain, nofun⟩

end Ensures

/-! ## Contracts -/

/-- What tasks may rely on, and what they have to see to. -/
structure Contract where
  /-- What holds of the memory at every moment. -/
  memory : Memory → Prop
  /-- What holds of a task that begins, and the scopes that it sees. -/
  begins : Chain → Task → Prop
  /-- What holds of the result of a task. -/
  yields : (t : Task) → t.Result → Prop

/-- A script keeps what a contract says, seen from these scopes, and its result has a property. -/
def Script.Meets (c : Contract) (chain : Chain) (Q : α → Prop) : Script α → Prop
  | .done a => Q a
  | .step x next => Ensures c.memory chain x.run fun b => (next b).Meets c chain Q
  | .print _ next | .exit _ next => next.Meets c chain Q
  | .part frame t next =>
    c.begins (frame.seen chain) t ∧ ∀ r, c.yields t r → (next r).Meets c chain Q

variable {c : Contract} {setting : Setting}

theorem Script.meets_printAll {Q : α → Prop} {next : Script α} (h : next.Meets c chain Q)
    (texts : List String) : (next.printAll texts).Meets c chain Q := by
  induction texts with
  | nil => exact h
  | cons text texts ih => exact ih

/-- A script that meets a contract runs as it says, if its tasks do. -/
theorem Script.Meets.ensures {n : Nat} {Q : α → Prop} {script : Script α}
    (inside : ∀ chain t, c.begins chain t → Ensures c.memory chain (t.run setting n) (c.yields t))
    (h : script.Meets c chain Q) :
    Ensures c.memory chain (script.run setting (·.run setting n)) Q := by
  induction script with
  | done a => exact .pure h
  | step x next ih => exact .bind h fun b hb => ih b hb
  | print text next ih => exact (Ensures.print setting.host text).bind fun _ _ => ih h
  | exit code next ih => exact (Ensures.exit setting.host code).bind fun _ _ => ih h
  | part frame t next ih =>
      exact (Ensures.around (inside _ t h.1)).bind fun r hr => ih r (h.2 r hr)

/-- **What scripts meet, runs meet.** -/
theorem Contract.ensures
    (hscripts : ∀ chain t, c.begins chain t →
      (t.script setting.host).Meets c chain (c.yields t))
    (n : Nat) (chain : Chain) (t : Task) (h : c.begins chain t) :
    Ensures c.memory chain (t.run setting n) (c.yields t) := by
  induction n generalizing chain t with
  | zero =>
      intro m hI hchain
      rw [Task.run_zero]
      exact ⟨hI, hchain, nofun⟩
  | succ n ih =>
      rw [Task.run_succ]
      exact (hscripts chain t h).ensures ih

end Lox.Evaluation
