import Lox.Proofs.Reachability.Steps

/-!
# Calls change only what they can reach

A call starts from what is called and from its arguments. The scopes of the caller play no part in it:
the body of a function sees the scopes around its declaration. So whatever the call does, however it
ends, it stays in the places that are reachable from the callee, the arguments and the globals, and in
those that are new.

The scripts of all tasks meet one contract, which says so for every closed set of places. The set of
all reachable places, together with the new ones, is such a set.

## Contents
- `reach`: the contract.
- `meets_expr` to `meets_native`: one lemma for each kind of task.
- `meets_script`: the scripts of all tasks meet the contract.
- `call_changes_only_reachable`: calls.
-/

namespace Lox.Reachability

open Evaluation Stays

/-! ## The contract -/

/-- What is called leads to places of a set. -/
def CallableIn (S : Place → Prop) : Callable → Prop
  | .function closure => ClosureIn S closure
  | .method closure receiver => ClosureIn S closure ∧ InstanceIn S receiver
  | .class c => ClassIn S c
  | .native _ => True

theorem ValueIn.callable {S : Place → Prop} {v : Value} (hv : ValueIn S v) {c : Callable}
    (hcallable : v.callable? = some c) : CallableIn S c := by
  cases v with
  | nil | bool | number | string | «instance» => exact nomatch hcallable
  | function | «class» | method | native =>
      cases hcallable
      exact hv

/-- Work that starts from a set of places stays in it. A piece of program starts from the scopes that
it sees, a call from what is called and from its arguments. -/
def reach (S : Place → Prop) (before : Memory) : Contract where
  memory := Confined S before
  begins chain
    | .expr _ | .exprs _ | .stmt _ | .loop _ _ _ | .decl _ | .decls _ => ChainIn S chain
    | .call callee args _ => ValueIn S callee ∧ ValuesIn S args
    | .invoke callee args _ => CallableIn S callee ∧ ValuesIn S args
    | .function closure args receiver =>
      ClosureIn S closure ∧ ValuesIn S args ∧ ∀ i, receiver = some i → InstanceIn S i
    | .construct c args => ClassIn S c ∧ ValuesIn S args
  yields
    | .expr _, v => ValueIn S v
    | .exprs _, vs => ValuesIn S vs
    | .call _ _ _, v => ValueIn S v
    | .invoke _ _ _, v => ValueIn S v
    | .function _ _ _, v => ValueIn S v
    | .construct _ _, v => ValueIn S v
    | .stmt _, flow => FlowIn S flow
    | .loop _ _ _, flow => FlowIn S flow
    | .decl _, flow => FlowIn S flow
    | .decls _, flow => FlowIn S flow

/-! ## The scripts of tasks -/

section Scripts

variable {S : Place → Prop} {before : Memory} {chain : Chain}

theorem meets_apply {location : Location} {result : Except RuntimeError.Cause Value}
    (h : ∀ v, result = .ok v → ValueIn S v) :
    (Script.apply location result).Meets (reach S before) chain (ValueIn S) :=
  liftAt h

/-- **Expressions.** -/
theorem meets_expr (hchain : ChainIn S chain) (e : Expr) :
    (Script.expr e).Meets (reach S before) chain (ValueIn S) := by
  cases e with
  | literal value span => exact valueIn_ofLiteral value
  | grouping inner span => exact ⟨hchain, fun v hv => hv⟩
  | unary op operand span =>
      exact ⟨hchain, fun v _ => meets_apply fun w heq =>
        UnaryOp.of_apply (fun _ => trivial) (fun _ => trivial) heq⟩
  | binary op left right span =>
      exact ⟨hchain, fun a _ => ⟨hchain, fun b _ => meets_apply fun w heq =>
        BinaryOp.of_apply (fun _ => trivial) (fun _ => trivial) (fun _ => trivial) heq⟩⟩
  | logical op left right span =>
      refine ⟨hchain, fun a ha => ?_⟩
      dsimp only
      split
      · exact ha
      · exact ⟨hchain, fun v hv => hv⟩
  | «variable» use => exact lookUp hchain _ _ _
  | assign name depth value span =>
      exact ⟨hchain, fun v hv => (assign hchain name depth hv span.start).mono fun _ _ => hv⟩
  | call callee args span =>
      exact ⟨hchain, fun f hf => ⟨hchain, fun vs hvs => ⟨⟨hf, hvs⟩, fun v hv => hv⟩⟩⟩
  | get object name span => exact ⟨hchain, fun o ho => property ho name span.start⟩
  | set object name value span =>
      refine ⟨hchain, fun o ho => (fieldOwner ho span.start).mono fun i hi => ?_⟩
      exact ⟨hchain, fun v hv => (setField hi name hv).mono fun _ _ => hv⟩
  | this depth span => exact lookUp hchain _ _ _
  | super depth method span => exact superMethod hchain depth method span.start

/-- **Statements.** -/
theorem meets_stmt (hchain : ChainIn S chain) (s : Stmt) :
    (Script.stmt s).Meets (reach S before) chain (FlowIn S) := by
  cases s with
  | expression value span => exact ⟨hchain, fun _ _ => FlowIn.normal⟩
  | print value span => exact ⟨hchain, fun _ _ => FlowIn.normal⟩
  | block body span =>
      refine Ensures.mono ((seen hchain).bind fun outer houter => enter .empty houter) ?_
      exact fun inner hinner => ⟨hinner, fun flow hflow => hflow⟩
  | ifThenElse condition thenBranch elseBranch span =>
      refine ⟨hchain, fun v _ => ?_⟩
      dsimp only
      split
      · exact ⟨hchain, fun flow hflow => hflow⟩
      · cases elseBranch with
        | none => exact FlowIn.normal
        | some s => exact ⟨hchain, fun flow hflow => hflow⟩
  | whileLoop condition body increment span => exact ⟨hchain, fun flow hflow => hflow⟩
  | «break» | «continue» => exact nofun
  | «return» value span =>
      cases value with
      | none => exact FlowIn.of_value trivial
      | some e => exact ⟨hchain, fun v hv => FlowIn.of_value hv⟩

theorem meets_loop (hchain : ChainIn S chain) (condition : Expr) (body : Stmt)
    (increment : Option Expr) :
    (Script.loop condition body increment).Meets (reach S before) chain (FlowIn S) := by
  refine ⟨hchain, fun v _ => ?_⟩
  dsimp only
  split
  · refine ⟨hchain, fun flow hflow => ?_⟩
    cases flow with
    | normal | «continue» =>
        cases increment with
        | none => exact ⟨hchain, fun flow hflow => hflow⟩
        | some e => exact ⟨hchain, fun _ _ => ⟨hchain, fun flow hflow => hflow⟩⟩
    | «break» => exact FlowIn.normal
    | «return» value => exact hflow
  · exact FlowIn.normal

theorem meets_define (hchain : ChainIn S chain) (name : String) {v : Value} (hv : ValueIn S v) :
    (Script.define name v).Meets (reach S before) chain (FlowIn S) :=
  (define hchain name hv).mono fun _ _ => FlowIn.normal

/-- **Declarations.** -/
theorem meets_decl (hchain : ChainIn S chain) (d : Decl) :
    (Script.decl d).Meets (reach S before) chain (FlowIn S) := by
  cases d with
  | var name initial span =>
      cases initial with
      | none => exact meets_define hchain name trivial
      | some e => exact ⟨hchain, fun v hv => meets_define hchain name hv⟩
  | function decl =>
      exact newId.mono fun id _ => (seen hchain).mono fun outer houter =>
        meets_define hchain decl.name houter
  | «class» name superclass methods span =>
      exact (declareClass hchain name superclass methods).mono fun _ _ => FlowIn.normal
  | stmt s => exact ⟨hchain, fun flow hflow => hflow⟩

/-- **Calls.** The scopes of the caller are of no account. -/
theorem meets_call {callee : Value} (hcallee : ValueIn S callee) {args : List Value}
    (hargs : ValuesIn S args) (location : Location) :
    (Script.call callee args location).Meets (reach S before) chain (ValueIn S) := by
  unfold Script.call
  split
  · exact Ensures.raise _
  · rename_i c hcallable
    split
    · exact ⟨⟨hcallee.callable hcallable, hargs⟩, fun v hv => hv⟩
    · exact Ensures.raise _

theorem meets_function {closure : Closure} (hclosure : ClosureIn S closure) {args : List Value}
    (hargs : ValuesIn S args) {receiver : Option Instance}
    (hreceiver : ∀ i, receiver = some i → InstanceIn S i) :
    (Script.function closure args receiver).Meets (reach S before) chain (ValueIn S) :=
  (bodyChain hclosure hargs hreceiver).mono fun _ hinner =>
    ⟨hinner, fun _ hflow => callResult closure hreceiver hflow⟩

theorem meets_construct {c : Class} (hc : ClassIn S c) {args : List Value} (hargs : ValuesIn S args) :
    (Script.construct c args).Meets (reach S before) chain (ValueIn S) := by
  refine (newInstance hc).mono fun i hi => ?_
  split
  · rename_i closure hfind
    refine ⟨⟨hc.findMethod? hfind, hargs, fun j heq => ?_⟩, fun _ _ => hi⟩
    cases heq
    exact hi
  · exact hi

theorem meets_silent (host : Host) {b : Builtin} (hb : b.Silent) (args : List Value)
    (location : Location) :
    (Script.silent host b hb args location).Meets (reach S before) chain (ValueIn S) :=
  silent host b hb args location

theorem meets_builtin (host : Host) (args : List Value) (location : Location) (b : Builtin) :
    (Script.builtin host args location b).Meets (reach S before) chain (ValueIn S) := by
  cases b with
  | clock | type | round | rand | randint => exact meets_silent host (by trivial) args location
  | help | quit => trivial
  | exit => exact liftAt fun _ _ => trivial
  | dir => exact machine.mono fun m _ => Script.meets_printAll (by trivial) _

/-- **Native functions**, when the host stays in reach. -/
theorem meets_native {host : Host} (hhost : host.StaysInReach) {args : List Value}
    (hargs : ValuesIn S args) (n : Native) (location : Location) :
    (Script.native host n args location).Meets (reach S before) chain (ValueIn S) := by
  unfold Script.native
  split
  · exact meets_builtin host args location _
  · refine machine.mono fun m hm => draw.mono fun turn _ => Script.meets_printAll ?_ _
    let c : Host.Call := ⟨args, location, m.callDepth, m.events, turn⟩
    show (Script.answer (host.call n.name c).result).Meets (reach S before) chain (ValueIn S)
    cases hresult : (host.call n.name c).result with
    | ok v => exact valueIn_of_call hhost hm hargs hresult
    | error f => exact Ensures.raise f

/-- **The scripts of all tasks meet the contract.** -/
theorem meets_script {host : Host} (hhost : host.StaysInReach) (chain : Chain) (t : Task)
    (h : (reach S before).begins chain t) :
    (t.script host).Meets (reach S before) chain ((reach S before).yields t) := by
  cases t with
  | expr e => exact meets_expr h e
  | exprs es =>
      cases es with
      | nil => exact nofun
      | cons e es => exact ⟨h, fun v hv => ⟨h, fun vs hvs => ValuesIn.cons hv hvs⟩⟩
  | call callee args location => exact meets_call h.1 h.2 location
  | invoke callee args location =>
      cases callee with
      | function closure => exact ⟨⟨h.1, h.2, nofun⟩, fun v hv => hv⟩
      | method closure receiver =>
          refine ⟨⟨h.1.1, h.2, fun i heq => ?_⟩, fun v hv => hv⟩
          cases heq
          exact h.1.2
      | «class» c => exact ⟨h, fun v hv => hv⟩
      | native n => exact meets_native hhost h.2 n location
  | function closure args receiver => exact meets_function h.1 h.2.1 h.2.2
  | construct c args => exact meets_construct h.1 h.2
  | stmt s => exact meets_stmt h s
  | loop condition body increment => exact meets_loop h condition body increment
  | decl d => exact meets_decl h d
  | decls ds =>
      cases ds with
      | nil => exact FlowIn.normal
      | cons d ds =>
          refine ⟨h, fun flow hflow => ?_⟩
          cases flow with
          | normal => exact ⟨h, fun flow hflow => hflow⟩
          | «break» | «continue» | «return» => exact hflow

end Scripts

/-! ## Calls -/

/-- A task that starts from a closed set stays in it. -/
theorem stays_run {S : Place → Prop} {before : Memory} {setting : Setting}
    (hhost : setting.host.StaysInReach) (n : Nat) (chain : Chain) (t : Task)
    (h : (reach S before).begins chain t) :
    Stays S before chain (t.run setting n) ((reach S before).yields t) :=
  (reach S before).ensures (fun chain t => meets_script hhost chain t) n chain t h

/-- **A call can only change what it can reach.** Whatever is called with whatever arguments in
whatever state, and however the call ends: each scope and the fields of each instance that were there
before, and that are not reachable from the callee, the arguments or the globals, are the same
afterwards. In particular the caller sees the same scopes, and those of them that are not reachable in
this way are unchanged. -/
theorem call_changes_only_reachable (setting : Setting) (hhost : setting.host.StaysInReach)
    (fuel : Nat) (callee : Value) (args : List Value) (location : Location) (m : Machine) :
    (∀ p, m.memory.Has p → ¬m.memory.Reachable (callee :: args) p →
      (machineOf (callValue setting fuel callee args location m)).memory.table p = m.memory.table p) ∧
    (machineOf (callValue setting fuel callee args location m)).chain = m.chain ∧
    ∀ i ∈ m.chain, i < m.memory.scopes.size →
      ¬m.memory.Reachable (callee :: args) (.scope i) →
      (machineOf (callValue setting fuel callee args location m)).memory.scope i =
        m.memory.scope i := by
  -- the set of what is reachable, and of all places that the memory does not have yet
  have hroot (v : Value) (hv : v ∈ callee :: args) :
      ValueIn (fun p => m.memory.Has p → m.memory.Reachable (callee :: args) p) v :=
    valueIn_iff.2 fun p hleads _ => .root hv hleads
  have hstays : Stays _ m.memory m.chain _ _ :=
    stays_run hhost fuel m.chain (.call callee args location)
      ⟨hroot callee List.mem_cons_self, fun v hv => hroot v (List.mem_cons_of_mem _ hv)⟩
  obtain ⟨hconfined, hchain, _⟩ := hstays m (.start m.memory (callee :: args)) rfl
  have houtside (p : Place) (hhas : m.memory.Has p)
      (hunreachable : ¬m.memory.Reachable (callee :: args) p) :
      (machineOf (callValue setting fuel callee args location m)).memory.table p =
        m.memory.table p :=
    hconfined.outside p fun hreach => hunreachable (hreach hhas)
  exact ⟨houtside, hchain, fun i _ hi => houtside (.scope i) hi⟩

/-- A function that assigns to a variable beside it: `fun f() { n = "new"; }`. -/
def assigning : Value :=
  .function 0 ⟨⟨"f", [], [.stmt (.expression
    (.assign "n" (some 1) (.literal (.string "new") default) default) default)], default⟩,
    [2, 0], false⟩

/-- A caller with a local variable of its own, in the scope 1. The variable of the function lies in the
scope 2. -/
def callerMachine : Machine where
  memory := ⟨#[.empty, .ofList [("x", .string "kept")], .ofList [("n", .string "old")]], #[], 1⟩
  chain := [1, 0]
  callDepth := 0
  events := #[]
  draws := 0

/-- From the function, the globals and its own variable are reachable, and nothing else. -/
theorem reachable_assigning {p : Place} (h : callerMachine.memory.Reachable [assigning] p) :
    p = .scope 0 ∨ p = .scope 2 := by
  induction h with
  | globals => exact .inl rfl
  | root hv hleads =>
      obtain rfl := List.mem_singleton.1 hv
      obtain ⟨i, hi, rfl⟩ := hleads
      obtain rfl | hi := List.mem_cons.1 hi
      · exact .inr rfl
      · exact .inl (congrArg Place.scope (List.mem_singleton.1 hi))
  | held _ hholds hleads ih =>
      -- the globals are empty, and the variable of the function is a text
      obtain ⟨x, hx⟩ := hholds
      obtain rfl | rfl := ih
      · exact nomatch hx
      · cases List.mem_singleton.1 (Table.mem_of_get?_ofList hx)
        exact hleads.elim

/-- The text that is bound to a name in a place. -/
def textAt (m : Memory) (p : Place) (name : String) : Option String :=
  match (m.table p).get? name with
  | some (.string s) => some s
  | _ => none

/-- The function changes its own variable, and the local variable of the caller stays. -/
theorem caller_unchanged :
    Host.plain.StaysInReach ∧ callerMachine.memory.Has (.scope 1) ∧
      ¬callerMachine.memory.Reachable [assigning] (.scope 1) ∧
      textAt (machineOf (callValue ⟨Host.plain, 1⟩ 9 assigning [] ⟨1, 1, 0⟩ callerMachine)).memory
        (.scope 2) "n" = some "new" ∧
      (machineOf (callValue ⟨Host.plain, 1⟩ 9 assigning [] ⟨1, 1, 0⟩ callerMachine)).memory.scope 1 =
        callerMachine.memory.scope 1 := by
  have hhost : Host.plain.StaysInReach := staysInReach_of_honest Host.honest_plain
  have hhas : callerMachine.memory.Has (.scope 1) := show 1 < 3 by decide
  have hunreachable : ¬callerMachine.memory.Reachable [assigning] (.scope 1) := by
    intro h
    obtain heq | heq := reachable_assigning h
    · exact nomatch heq
    · exact nomatch heq
  obtain ⟨hsame, _, _⟩ := call_changes_only_reachable ⟨Host.plain, 1⟩ hhost 9 assigning []
    ⟨1, 1, 0⟩ callerMachine
  exact ⟨hhost, hhas, hunreachable, by decide +kernel, hsame (.scope 1) hhas hunreachable⟩

end Lox.Reachability
