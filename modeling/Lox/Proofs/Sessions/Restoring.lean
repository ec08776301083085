import Lox.Proofs.Evaluation.Steps
import Lox.Proofs.Scoping.Sessions

/-!
# Every exit restores the interpreter

Blocks and calls switch the scopes that the running piece of program sees, and calls count how many
of them are in progress. A computation can end at any depth inside them: with a value, a jump, an
error of the program, or a failure of the host. However it ends, the machine sees the same scopes as
before, and as many calls are in progress. Scopes keep the names they bind, in their order; new names
come behind them.

Only three kinds of step change what a machine sees, what it counts or what its scopes bind. All the
rest follows from `StepClosed.everywhere`.

## Contents
- `machineOf`: the machine with which a computation ends.
- `Restored`, `Restores`: what every computation leaves behind.
- `stepClosed_restores`: the steps of a machine leave it behind.
- `every_exit_restores`: every call of the evaluator and every input of a session.
-/

namespace Lox.Evaluation

/-- The machine with which a computation ends, well or not. -/
def machineOf {α : Type} : EStateM.Result Stop Machine α → Machine
  | .ok _ m => m
  | .error _ m => m

/-- What a computation leaves behind: it sees the same scopes, as many calls are in progress, and
every scope that was there binds first what it bound before, in the same order. -/
structure Restored (m m' : Machine) : Prop where
  chain_eq : m'.chain = m.chain
  callDepth_eq : m'.callDepth = m.callDepth
  size_le : m.memory.scopes.size ≤ m'.memory.scopes.size
  names_prefix : ∀ i, i < m.memory.scopes.size →
    (m.memory.scope i).names <+: (m'.memory.scope i).names

/-- A computation that leaves this behind wherever it starts and however it ends. -/
def Restores ⦃α : Type⦄ (x : Eval α) : Prop := ∀ m, Restored m (machineOf (x m))

namespace Restored

theorem refl (m : Machine) : Restored m m :=
  ⟨rfl, rfl, Nat.le_refl _, fun _ _ => List.prefix_refl _⟩

theorem trans {m m' m'' : Machine} (h : Restored m m') (h' : Restored m' m'') :
    Restored m m'' where
  chain_eq := h'.chain_eq.trans h.chain_eq
  callDepth_eq := h'.callDepth_eq.trans h.callDepth_eq
  size_le := Nat.le_trans h.size_le h'.size_le
  names_prefix i hi :=
    (h.names_prefix i hi).trans (h'.names_prefix i (Nat.lt_of_lt_of_le hi h.size_le))

/-- A scope that is the same binds the same names. -/
theorem names_prefix_of_eq {t t' : Table Value} (h : t' = t) : t.names <+: t'.names := by
  subst h
  exact List.prefix_refl _

/-- A step that changes neither what the machine sees nor the scopes. -/
theorem of_scopes_eq {m m' : Machine} (hchain : m'.chain = m.chain)
    (hdepth : m'.callDepth = m.callDepth) (hscopes : m'.memory.scopes = m.memory.scopes) :
    Restored m m' where
  chain_eq := hchain
  callDepth_eq := hdepth
  size_le := Nat.le_of_eq (congrArg Array.size hscopes).symm
  names_prefix i _ := names_prefix_of_eq (congrArg (·.getD i Table.empty) hscopes)

theorem newScope (m : Machine) (bindings : Table Value) :
    Restored m { m with memory := (m.memory.newScope bindings).2 } where
  chain_eq := rfl
  callDepth_eq := rfl
  size_le := by
    rw [Scoping.size_newScope]
    exact Nat.le_succ _
  names_prefix i hi := names_prefix_of_eq (Scoping.scope_newScope_of_lt bindings hi)

/-- Binding a name leaves the names of all scopes, apart from a new name at the end of one. -/
theorem bind (m : Machine) (i : Nat) (name : String) (v : Value) :
    Restored m { m with memory := m.memory.bind i name v } where
  chain_eq := rfl
  callDepth_eq := rfl
  size_le := Nat.le_of_eq (Scoping.size_bind m.memory i name v).symm
  names_prefix j _ := by
    rw [Scoping.scope_bind]
    split
    · rw [Table.names_put]
      split
      · exact List.prefix_refl _
      · exact List.prefix_append _ _
    · exact List.prefix_refl _

theorem define (m : Machine) (name : String) (v : Value) :
    Restored m { m with memory := m.memory.define m.chain name v } := by
  unfold Memory.define
  split
  · exact refl m
  · exact bind m _ name v

end Restored

/-! ## The steps of a machine -/

namespace Restores

variable {α β : Type}

/-- A computation that leaves the machine alone. -/
theorem of_same {x : Eval α} (h : ∀ m, machineOf (x m) = m) : Restores x := by
  intro m
  rw [h m]
  exact .refl m

theorem bind {x : Eval α} {f : α → Eval β} (hx : Restores x) (hf : ∀ a, Restores (f a)) :
    Restores (x >>= f) := by
  intro m
  have hfirst := hx m
  cases hres : x m with
  | ok a m' =>
      rw [bind_of_ok hres]
      rw [hres] at hfirst
      exact hfirst.trans (hf a m')
  | error stop m' =>
      rw [bind_of_error hres]
      rw [hres] at hfirst
      exact hfirst

theorem lookUp (name : String) (depth : Option Nat) (location : Location) :
    Restores (Eval.lookUp name depth location) := by
  refine of_same fun m => ?_
  obtain ⟨_, _, _, _, heq⟩ | ⟨_, heq, _⟩ := Eval.lookUp_cases name depth location m <;> rw [heq] <;>
    rfl

/-- An assignment binds a name again, or does nothing. -/
theorem assign (name : String) (depth : Option Nat) (v : Value) (location : Location) :
    Restores (Eval.assign name depth v location) := by
  intro m
  obtain ⟨i, _, _, heq⟩ | ⟨_, heq, _⟩ := Eval.assign_cases name depth v location m
  · rw [heq]
    exact Restored.bind m i name v
  · rw [heq]
    exact Restored.refl m

/-- **Other scopes.** The machine sees its own scopes again, whatever becomes of the computation. -/
theorem within (c : Chain) {x : Eval α} (hx : Restores x) : Restores (Eval.within c x) := by
  intro m
  have hinner := hx { m with chain := c }
  cases hres : x { m with chain := c } with
  | ok a m' =>
      rw [Eval.within_of_ok hres]
      rw [hres] at hinner
      exact ⟨rfl, hinner.callDepth_eq, hinner.size_le, hinner.names_prefix⟩
  | error stop m' =>
      rw [Eval.within_of_error hres]
      rw [hres] at hinner
      exact ⟨rfl, hinner.callDepth_eq, hinner.size_le, hinner.names_prefix⟩

/-- **Calls.** A call takes back the one level that it has added, because what is inside it leaves
the levels as they are. -/
theorem inCall {maxCallDepth : Nat} (location : Location) {x : Eval α} (hx : Restores x) :
    Restores (Eval.inCall maxCallDepth location x) := by
  intro m
  have hinner := hx { m with callDepth := m.callDepth + 1 }
  have hlevel {m' : Machine} (h : m'.callDepth = m.callDepth + 1) :
      m'.callDepth - 1 = m.callDepth := by
    rw [h]
    rfl
  by_cases hroom : m.callDepth < maxCallDepth
  · cases hres : x { m with callDepth := m.callDepth + 1 } with
    | ok a m' =>
        rw [Eval.inCall_of_ok hroom hres]
        rw [hres] at hinner
        exact ⟨hinner.chain_eq, hlevel hinner.callDepth_eq, hinner.size_le, hinner.names_prefix⟩
    | error stop m' =>
        rw [Eval.inCall_of_error hroom hres]
        rw [hres] at hinner
        exact ⟨hinner.chain_eq, hlevel hinner.callDepth_eq, hinner.size_le, hinner.names_prefix⟩
  -- a call for which there is no room changes nothing
  · rw [Eval.inCall_of_le (Nat.not_lt.1 hroom)]
    exact Restored.refl m

theorem print (host : Host) (text : String) : Restores (Eval.print host text) := by
  intro m
  obtain heq | ⟨_, heq⟩ := Eval.print_cases host text m
  · rw [heq]
    exact .of_scopes_eq rfl rfl rfl
  · rw [heq]
    exact Restored.refl m

theorem exit (host : Host) (code : Float) : Restores (Eval.exit host code) := by
  intro m
  obtain heq | ⟨_, heq⟩ := Eval.exit_cases host code m <;> rw [heq] <;>
    exact .of_scopes_eq rfl rfl rfl

end Restores

/-- The steps of a machine leave it restored. -/
theorem stepClosed_restores (setting : Setting) : StepClosed setting Restores where
  pure _ := .of_same fun _ => rfl
  bind := Restores.bind
  raise _ := .of_same fun _ => rfl
  exhausted := .of_same fun _ => rfl
  machine := .of_same fun _ => rfl
  chain := .of_same fun _ => rfl
  newScope bindings m := .newScope m bindings
  newInstance _ _ := .of_scopes_eq rfl rfl rfl
  newId _ := .of_scopes_eq rfl rfl rfl
  setField _ _ _ _ := .of_scopes_eq rfl rfl rfl
  define name v m := .define m name v
  lookUp := Restores.lookUp
  assign := Restores.assign
  within := Restores.within
  inCall := Restores.inCall
  print := Restores.print setting.host
  exit := Restores.exit setting.host
  draw _ := .of_scopes_eq rfl rfl rfl

/-! ## Inputs -/

theorem restores_runProgram (setting : Setting) (echo : Bool) (fuel : Nat) (p : Program) :
    Restores (runProgram setting echo fuel p) := by
  have h := stepClosed_restores setting
  have hcalls := h.everywhere fuel
  unfold runProgram
  split
  · exact h.bind (hcalls.evaluate _) fun v => h.print v.text
  · refine h.bind (hcalls.executeAll p.body) fun flow => ?_
    cases flow with
    | normal => exact h.pure ()
    | «break» | «continue» | «return» => exact h.quiet.defect _ _

/-- The machine behind an input is the one with which its run has ended. -/
theorem machineOf_ofEval (r : EStateM.Result Stop Machine Unit) :
    (RunResult.ofEval r).2 = machineOf r := by
  rw [Scoping.machine_ofEval]
  cases r <;> rfl

/-- An input leaves the machine restored, whatever becomes of it. -/
theorem restored_runWith (fuel : Nat) (s : Session) (source : List Char) :
    Restored s.machine (s.runWith fuel source).2.machine := by
  rw [Session.runWith_eq]
  cases compile source with
  | error result => exact .refl _
  | ok p =>
      have hrun := restores_runProgram s.setting s.echo fuel p s.machine
      show Restored s.machine (RunResult.ofEval _).2
      rw [machineOf_ofEval]
      exact hrun

theorem restored_after (s : Session) (inputs : List (Nat × List Char)) :
    Restored s.machine (s.after inputs).machine := by
  unfold Session.after
  induction inputs generalizing s with
  | nil => exact .refl _
  | cons input rest ih => exact (restored_runWith input.1 s input.2).trans (ih _)

/-- **Every exit restores the interpreter.** Behind every input of a session, however that input
ends, the machine sees the globals alone, no call is in progress, and the globals are those from
before, in their order, with new ones behind them. And every call of the evaluator, in any state and
however it ends, leaves the scopes it sees and the number of calls as they were. -/
theorem every_exit_restores (options : Options) (session : Session)
    (hcreate : Session.create options = .ok session) :
    (∀ (inputs : List (Nat × List Char)) (fuel : Nat) (source : List Char),
      ((session.after inputs).runWith fuel source).2.machine.chain = globalChain ∧
      ((session.after inputs).runWith fuel source).2.machine.callDepth = 0 ∧
      (session.after inputs).globals.names <+:
        ((session.after inputs).runWith fuel source).2.globals.names) ∧
    ∀ (setting : Setting) (fuel : Nat), Everywhere setting Restores fuel := by
  refine ⟨fun inputs fuel source => ?_, fun setting => (stepClosed_restores setting).everywhere⟩
  obtain ⟨maxCallDepth, globals, _, rfl⟩ := Session.eq_of_create hcreate
  have hbefore := restored_after ⟨⟨options.host, maxCallDepth⟩, options.echo, .initial globals, .empty⟩ inputs
  have hinput := restored_runWith fuel
    (Session.after ⟨⟨options.host, maxCallDepth⟩, options.echo, .initial globals, .empty⟩ inputs) source
  have hall := hbefore.trans hinput
  refine ⟨hall.chain_eq, hall.callDepth_eq, hinput.names_prefix globalScope ?_⟩
  -- the globals are the first scope, and no scope is ever taken away
  exact Nat.lt_of_lt_of_le Nat.zero_lt_one hbefore.size_le

/-- A host that accepts no text. -/
def refusingHost : Host := { Host.plain with onPrint := fun _ _ => some (.host "refused") }

/-- A text is printed in a block of a function: `fun f() { { print 1; } } f();`. -/
def innerPrintSource : List Char := "fun f() \x7b \x7b print 1; \x7d \x7d f();".toList

/-- The message with which a host failed. -/
def hostMessage? : Except Stop RunResult → Option String
  | .error (.failure (.host message)) => some message
  | _ => none

/-- The failure of a host leaves a block inside a call, and the interpreter is restored. -/
theorem restored_behind_refusal :
    ∃ session, Session.create (Options.standard refusingHost) = .ok session ∧
      hostMessage? (session.run innerPrintSource).1 = some "refused" ∧
      (session.run innerPrintSource).2.machine.chain = globalChain ∧
      (session.run innerPrintSource).2.machine.callDepth = 0 ∧
      session.globals.names <+: (session.run innerPrintSource).2.globals.names := by
  have hcreate : Session.create (Options.standard refusingHost) =
      .ok ⟨⟨refusingHost, defaultMaxCallDepth⟩, false, .initial builtinBindings, .empty⟩ := rfl
  obtain ⟨hinputs, _⟩ := every_exit_restores _ _ hcreate
  exact ⟨_, hcreate, by decide +kernel, hinputs [] ampleFuel innerPrintSource⟩

end Lox.Evaluation
