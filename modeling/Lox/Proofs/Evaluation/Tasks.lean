import Lox.Proofs.Evaluation.Steps
import Lox.Proofs.Sessions.Restoring

/-!
# Tasks of the evaluator

What the evaluator is at work on at any time is a **task**: an expression, a statement, a call. For
each kind of task there is a **script** of what it does, one action after the other. It takes a step
of the machine that nobody notices, prints, asks for the end of the process, or makes the evaluator
work on another task, in the same scopes, in other ones, or one level of calls deeper. What comes next
may depend on what has come of it so far.

Scripts say nothing that the evaluator does not say. Running a task with one more unit of fuel is
running its script, with the tasks in it run by the evaluator. But a script is data: what has happened
before some moment of a run, what is still to come, and which calls are in progress, can all be said
once and for all kinds of task.

## Contents
- `Quiet`, `Step`: computations that the outside does not notice.
- `Task`, `Task.run`: what the evaluator is at work on.
- `Frame`, `Script`, `Script.run`: how a task is worked on.
- `Task.script`, `Script.input`: the scripts of all tasks, and of an input.
- `Task.run_succ`, `runProgram_eq`: scripts are what the evaluator does.
-/

namespace Lox.Evaluation

/-! ## Steps that nobody notices -/

/-- A machine that has shown nothing more, sees the same scopes, and has as many calls in progress. -/
structure Unnoticed (m m' : Machine) : Prop where
  events_eq : m'.events = m.events
  chain_eq : m'.chain = m.chain
  callDepth_eq : m'.callDepth = m.callDepth

/-- A computation that the outside does not notice, however it ends. -/
def Quiet ⦃α : Type⦄ (x : Eval α) : Prop := ∀ m, Unnoticed m (machineOf (x m))

namespace Quiet

variable {α β : Type}

theorem of_same {x : Eval α} (h : ∀ m, machineOf (x m) = m) : Quiet x := by
  intro m
  rw [h m]
  exact ⟨rfl, rfl, rfl⟩

theorem bind {x : Eval α} {f : α → Eval β} (hx : Quiet x) (hf : ∀ a, Quiet (f a)) :
    Quiet (x >>= f) := by
  intro m
  have hfirst := hx m
  cases hres : x m with
  | ok a m' =>
      rw [bind_of_ok hres]
      rw [hres] at hfirst
      have hrest := hf a m'
      exact ⟨hrest.events_eq.trans hfirst.events_eq, hrest.chain_eq.trans hfirst.chain_eq,
        hrest.callDepth_eq.trans hfirst.callDepth_eq⟩
  | error stop m' =>
      rw [bind_of_error hres]
      rw [hres] at hfirst
      exact hfirst

theorem lookUp (name : String) (depth : Option Nat) (location : Location) :
    Quiet (Eval.lookUp name depth location) := by
  refine of_same fun m => ?_
  obtain ⟨_, _, _, _, heq⟩ | ⟨_, heq, _⟩ := Eval.lookUp_cases name depth location m <;> rw [heq] <;>
    rfl

theorem assign (name : String) (depth : Option Nat) (v : Value) (location : Location) :
    Quiet (Eval.assign name depth v location) := by
  intro m
  obtain ⟨_, _, _, heq⟩ | ⟨_, heq, _⟩ := Eval.assign_cases name depth v location m <;> rw [heq] <;>
    exact ⟨rfl, rfl, rfl⟩

end Quiet

/-- What is done inside one scope and one level of calls is not noticed outside. -/
theorem quietClosed : QuietClosed Quiet where
  pure _ := .of_same fun _ => rfl
  bind := Quiet.bind
  raise _ := .of_same fun _ => rfl
  machine := .of_same fun _ => rfl
  chain := .of_same fun _ => rfl
  newScope _ _ := ⟨rfl, rfl, rfl⟩
  newInstance _ _ := ⟨rfl, rfl, rfl⟩
  newId _ := ⟨rfl, rfl, rfl⟩
  setField _ _ _ _ := ⟨rfl, rfl, rfl⟩
  define _ _ _ := ⟨rfl, rfl, rfl⟩
  lookUp := Quiet.lookUp
  assign := Quiet.assign
  draw _ := ⟨rfl, rfl, rfl⟩

/-- A step of the machine that nobody notices. -/
structure Step (α : Type) where
  run : Eval α
  quiet : Quiet run

/-! ## Tasks -/

/-- What the evaluator is at work on. -/
inductive Task
  | expr (e : Expr)
  | exprs (es : List Expr)
  | call (callee : Value) (args : List Value) (location : Location)
  | invoke (callee : Callable) (args : List Value) (location : Location)
  | function (closure : Closure) (args : List Value) (receiver : Option Instance)
  | construct (c : Class) (args : List Value)
  | stmt (s : Stmt)
  | loop (condition : Expr) (body : Stmt) (increment : Option Expr)
  | decl (d : Decl)
  | decls (ds : List Decl)

/-- What a task yields. -/
abbrev Task.Result : Task → Type
  | .expr _ | .call _ _ _ | .invoke _ _ _ | .function _ _ _ | .construct _ _ => Value
  | .exprs _ => List Value
  | .stmt _ | .loop _ _ _ | .decl _ | .decls _ => Flow

/-- The work of the evaluator on a task. -/
def Task.run (setting : Setting) (fuel : Nat) : (t : Task) → Eval t.Result
  | .expr e => evaluate setting fuel e
  | .exprs es => evaluateAll setting fuel es
  | .call callee args location => callValue setting fuel callee args location
  | .invoke callee args location => Lox.invoke setting fuel callee args location
  | .function closure args receiver => callFunction setting fuel closure args receiver
  | .construct c args => instantiate setting fuel c args
  | .stmt s => execute setting fuel s
  | .loop condition body increment => executeLoop setting fuel condition body increment
  | .decl d => executeDecl setting fuel d
  | .decls ds => executeAll setting fuel ds

theorem Task.run_zero (setting : Setting) (t : Task) (m : Machine) :
    t.run setting 0 m = .error .outOfFuel m := by
  cases t <;> rfl

/-! ## Scripts -/

/-- How a task is worked on inside another one: in the same scopes, in other scopes, or one level of
calls deeper, for the call at a place of the program. -/
inductive Frame
  | plain
  | scopes (chain : Chain)
  | call (location : Location)

/-- The work on a task inside another one. -/
def Frame.around {α : Type} (maxCallDepth : Nat) (x : Eval α) : Frame → Eval α
  | .plain => x
  | .scopes chain => Eval.within chain x
  | .call location => Eval.inCall maxCallDepth location x

/-- What is left to do of a task that yields an `α`, one action after the other. -/
inductive Script (α : Type) : Type 1
  | done (result : α)
  | step {β : Type} (x : Step β) (next : β → Script α)
  | print (text : String) (next : Script α)
  | exit (code : Float) (next : Script α)
  /-- The work on another task. -/
  | part (frame : Frame) (t : Task) (next : t.Result → Script α)

/-- Does what a script says, with the given work on the tasks in it. -/
def Script.run {α : Type} (setting : Setting) (work : (t : Task) → Eval t.Result) :
    Script α → Eval α
  | .done a => pure a
  | .step x next => x.run >>= fun b => (next b).run setting work
  | .print text next => Eval.print setting.host text >>= fun _ => next.run setting work
  | .exit code next => Eval.exit setting.host code >>= fun _ => next.run setting work
  | .part frame t next =>
    frame.around setting.maxCallDepth (work t) >>= fun r => (next r).run setting work

namespace Script

variable {α β : Type}

/-- Prints texts one after the other. -/
def printAll (next : Script α) (texts : List String) : Script α := texts.foldr .print next

/-- The operation on values that an operator stands for. -/
def apply (location : Location) (result : Except RuntimeError.Cause α) : Script α :=
  .step ⟨Eval.liftAt location result, quietClosed.liftAt location result⟩ .done

/-- The end of a task at a runtime error. -/
def raiseAt (location : Location) (cause : RuntimeError.Cause) : Script α :=
  .step ⟨Eval.raiseAt location cause, quietClosed.raiseAt location cause⟩ .done

/-- A use of a name. -/
def lookUp (name : String) (depth : Option Nat) (location : Location) : Script Value :=
  .step ⟨Eval.lookUp name depth location, quietClosed.lookUp name depth location⟩ .done

/-- A built-in function that shows nothing. -/
def silent (host : Host) (b : Builtin) (hb : b.Silent) (args : List Value) (location : Location) :
    Script Value :=
  .step ⟨b.call host args location, quietClosed.silent host hb args location⟩ .done

/-- A built-in function. -/
def builtin (host : Host) (args : List Value) (location : Location) : Builtin → Script Value
  | .clock => silent host .clock trivial args location
  | .type => silent host .type trivial args location
  | .round => silent host .round trivial args location
  | .rand => silent host .rand trivial args location
  | .randint => silent host .randint trivial args location
  | .help => .print (Builtin.helpText (args.headD .nil)) (.done .nil)
  | .exit =>
    let code := Builtin.exitCode (args.headD .nil)
    .step ⟨Builtin.checked .exit location code, quietClosed.checked .exit location code⟩ fun code =>
      .exit code (.done .nil)
  | .quit => .exit 0 (.done .nil)
  | .dir =>
    .step ⟨get, quietClosed.machine⟩ fun s =>
      printAll (.done .nil) (Text.sortByUnits (s.memory.scope globalScope).names)

/-- What a host function answers, once it has printed. -/
def answer : Except Failure Value → Script Value
  | .ok value => .done value
  | .error f => .step ⟨Eval.raise f, quietClosed.raise f⟩ .done

/-- A native function. -/
def native (host : Host) (n : Native) (args : List Value) (location : Location) : Script Value :=
  match n.body with
  | .builtin b => builtin host args location b
  | .host =>
    .step ⟨get, quietClosed.machine⟩ fun s =>
    .step ⟨Eval.draw, quietClosed.draw⟩ fun turn =>
      let reply := host.call n.name ⟨args, location, s.callDepth, s.events, turn⟩
      printAll (answer reply.result) reply.printed

/-- An expression. -/
def expr : Expr → Script Value
  | .literal value _ => .done (.ofLiteral value)
  | .grouping inner _ => .part .plain (.expr inner) .done
  | .unary op operand span =>
    .part .plain (.expr operand) fun v => apply span.start (op.apply v)
  | .binary op left right span =>
    .part .plain (.expr left) fun a =>
    .part .plain (.expr right) fun b => apply span.start (op.apply a b)
  | .logical op left right _ =>
    .part .plain (.expr left) fun a =>
      if op.decides a then .done a else .part .plain (.expr right) .done
  | .variable use => lookUp use.name use.depth use.span.start
  | .assign name depth value span =>
    .part .plain (.expr value) fun v =>
    .step ⟨Eval.assign name depth v span.start, quietClosed.assign name depth v span.start⟩ fun _ =>
    .done v
  | .call callee args span =>
    .part .plain (.expr callee) fun f =>
    .part .plain (.exprs args) fun vs =>
    .part .plain (.call f vs span.start) .done
  | .get object name span =>
    .part .plain (.expr object) fun o =>
    .step ⟨Eval.property o name span.start, quietClosed.property o name span.start⟩ .done
  | .set object name value span =>
    .part .plain (.expr object) fun o =>
    .step ⟨Eval.fieldOwner o span.start, quietClosed.fieldOwner o span.start⟩ fun i =>
    .part .plain (.expr value) fun v =>
    .step ⟨Eval.modifyMemory (·.setField i name v), quietClosed.setField i name v⟩ fun _ =>
    .done v
  | .this depth span => lookUp "this" depth span.start
  | .super depth method span =>
    .step ⟨Eval.superMethod depth method span.start,
      quietClosed.superMethod depth method span.start⟩ .done

/-- A call: what is called has to be callable, and the number of arguments has to fit. -/
def call (callee : Value) (args : List Value) (location : Location) : Script Value :=
  match callee.callable? with
  | none => raiseAt location .notCallable
  | some c =>
    if args.length = c.arity then .part (.call location) (.invoke c args location) .done
    else raiseAt location (.wrongArity c.arity args.length)

/-- A callable at work. -/
def invoke (host : Host) (args : List Value) (location : Location) : Callable → Script Value
  | .function closure => .part .plain (.function closure args none) .done
  | .method closure receiver => .part .plain (.function closure args (some receiver)) .done
  | .class c => .part .plain (.construct c args) .done
  | .native n => native host n args location

/-- The body of a function. -/
def function (closure : Closure) (args : List Value) (receiver : Option Instance) : Script Value :=
  .step ⟨Eval.bodyChain closure args receiver, quietClosed.bodyChain closure args receiver⟩ fun seen =>
  .part (.scopes seen) (.decls closure.declaration.body) fun flow =>
  .step ⟨Eval.callResult closure receiver flow, quietClosed.callResult closure receiver flow⟩ .done

/-- A new instance, and its initializer, if there is one. -/
def construct (c : Class) (args : List Value) : Script Value :=
  .step ⟨Eval.take (·.newInstance c), quietClosed.newInstance c⟩ fun i =>
    match c.findMethod? initializerName with
    | some closure => .part .plain (.function closure args (some i)) fun _ => .done (.instance i)
    | none => .done (.instance i)

/-- A statement. -/
def stmt : Stmt → Script Flow
  | .expression value _ => .part .plain (.expr value) fun _ => .done .normal
  | .print value _ => .part .plain (.expr value) fun v => .print v.text (.done .normal)
  | .block body _ =>
    .step ⟨Eval.chain >>= Eval.enter Table.empty,
      quietClosed.bind quietClosed.chain (quietClosed.enter Table.empty)⟩ fun seen =>
    .part (.scopes seen) (.decls body) .done
  | .ifThenElse condition thenBranch elseBranch _ =>
    .part .plain (.expr condition) fun v =>
      if v.isTruthy then .part .plain (.stmt thenBranch) .done
      else
        match elseBranch with
        | some s => .part .plain (.stmt s) .done
        | none => .done .normal
  | .whileLoop condition body increment _ => .part .plain (.loop condition body increment) .done
  | .break _ => .done .break
  | .continue _ => .done .continue
  | .return none _ => .done (.return .nil)
  | .return (some value) _ => .part .plain (.expr value) fun v => .done (.return v)

/-- A round of a loop, and those that follow. -/
def loop (condition : Expr) (body : Stmt) (increment : Option Expr) : Script Flow :=
  .part .plain (.expr condition) fun v =>
    if v.isTruthy then
      .part .plain (.stmt body) fun
        | .break => .done .normal
        | .return value => .done (.return value)
        | .normal | .continue =>
          match increment with
          | some e =>
            .part .plain (.expr e) fun _ => .part .plain (.loop condition body increment) .done
          | none => .part .plain (.loop condition body increment) .done
    else .done .normal

/-- A binding in the innermost scope. -/
def define (name : String) (v : Value) : Script Flow :=
  .step ⟨Eval.define name v, quietClosed.define name v⟩ fun _ => .done .normal

/-- A declaration. -/
def decl : Decl → Script Flow
  | .var name none _ => define name .nil
  | .var name (some initial) _ => .part .plain (.expr initial) (define name)
  | .function decl =>
    .step ⟨Eval.take (·.newId), quietClosed.newId⟩ fun id =>
    .step ⟨Eval.chain, quietClosed.chain⟩ fun seen =>
    define decl.name (.function id ⟨decl, seen, false⟩)
  | .class name superclass methods _ =>
    .step ⟨Eval.declareClass name superclass methods,
      quietClosed.declareClass name superclass methods⟩ fun _ => .done .normal
  | .stmt s => .part .plain (.stmt s) .done

end Script

open Script in
/-- What is to be done of a task. -/
def Task.script (host : Host) : (t : Task) → Script t.Result
  | .expr e => Script.expr e
  | .exprs [] => .done []
  | .exprs (e :: es) =>
    .part .plain (.expr e) fun v => .part .plain (.exprs es) fun vs => .done (v :: vs)
  | .call callee args location => Script.call callee args location
  | .invoke callee args location => Script.invoke host args location callee
  | .function closure args receiver => Script.function closure args receiver
  | .construct c args => Script.construct c args
  | .stmt s => Script.stmt s
  | .loop condition body increment => Script.loop condition body increment
  | .decl d => Script.decl d
  | .decls [] => .done .normal
  | .decls (d :: ds) =>
    .part .plain (.decl d) fun
      | .normal => .part .plain (.decls ds) .done
      | flow => .done flow

/-! ## Scripts are what the evaluator does -/

section Running

variable {setting : Setting} {work : (t : Task) → Eval t.Result}

theorem Script.run_printAll {α : Type} (next : Script α) (texts : List String) :
    (next.printAll texts).run setting work =
      Eval.printAll setting.host texts >>= fun _ => next.run setting work := by
  induction texts with
  | nil => rfl
  | cons text texts ih =>
      show (Eval.print setting.host text >>= fun _ => (next.printAll texts).run setting work) = _
      rw [ih]
      simp only [Eval.printAll, bind_assoc]

theorem Script.run_native (n : Native) (args : List Value) (location : Location) :
    (Script.native setting.host n args location).run setting work =
      Eval.callNative setting.host n args location := by
  unfold Script.native Eval.callNative
  cases n.body with
  | builtin b =>
      cases b with
      | clock | type | round | rand | randint => exact bind_pure _
      | help | exit | quit => rfl
      | dir =>
          simp only [Script.builtin, Script.run, Script.run_printAll]
          rfl
  | host =>
      simp only [Script.run, Script.run_printAll]
      refine bind_congr fun s => bind_congr fun turn => bind_congr fun _ => ?_
      cases (setting.host.call n.name _).result with
      | ok v => rfl
      | error f => exact bind_pure _

theorem Script.run_expr (n : Nat) (e : Expr) :
    (Script.expr e).run setting (·.run setting n) = evaluate setting (n + 1) e := by
  cases e with
  | logical op left right span =>
      simp only [Script.expr, Script.run, Frame.around, Task.run, evaluate]
      refine bind_congr fun a => ?_
      split
      · rfl
      · exact bind_pure _
  | _ =>
      simp [Script.expr, Script.apply, Script.lookUp, Script.run, Frame.around, Task.run, evaluate]

theorem Script.run_call (n : Nat) (callee : Value) (args : List Value) (location : Location) :
    (Script.call callee args location).run setting (·.run setting n) =
      callValue setting (n + 1) callee args location := by
  unfold Script.call callValue
  cases callee.callable? with
  | none => exact bind_pure _
  | some c =>
      by_cases hargs : args.length = c.arity
      · simp only [if_pos hargs]
        exact bind_pure _
      · simp only [if_neg hargs]
        exact bind_pure _

theorem Script.run_invoke (n : Nat) (callee : Callable) (args : List Value) (location : Location) :
    (Script.invoke setting.host args location callee).run setting (·.run setting n) =
      Lox.invoke setting (n + 1) callee args location := by
  cases callee with
  | function closure => exact bind_pure _
  | method closure receiver => exact bind_pure _
  | «class» c => exact bind_pure _
  | native native => exact Script.run_native native args location

theorem Script.run_construct (n : Nat) (c : Class) (args : List Value) :
    (Script.construct c args).run setting (·.run setting n) = instantiate setting (n + 1) c args := by
  unfold Script.construct instantiate
  refine bind_congr fun i => ?_
  cases c.findMethod? initializerName with
  | none => rfl
  | some closure => rfl

theorem Script.run_stmt (n : Nat) (s : Stmt) :
    (Script.stmt s).run setting (·.run setting n) = execute setting (n + 1) s := by
  cases s with
  | ifThenElse condition thenBranch elseBranch span =>
      unfold Script.stmt execute
      refine bind_congr fun v => ?_
      dsimp only
      cases v.isTruthy with
      | true => exact bind_pure _
      | false =>
          cases elseBranch with
          | none => rfl
          | some s => exact bind_pure _
  | «return» value span => cases value <;> rfl
  | _ => simp [Script.stmt, Script.run, Frame.around, Task.run, execute]

theorem Script.run_loop (n : Nat) (condition : Expr) (body : Stmt) (increment : Option Expr) :
    (Script.loop condition body increment).run setting (·.run setting n) =
      executeLoop setting (n + 1) condition body increment := by
  unfold Script.loop executeLoop
  refine bind_congr fun v => ?_
  dsimp only
  cases v.isTruthy with
  | false => rfl
  | true =>
      refine bind_congr fun flow => ?_
      cases flow with
      | normal | «continue» =>
          cases increment with
          | none => exact bind_pure _
          | some e => exact bind_congr fun _ => bind_pure _
      | «break» | «return» value => rfl

theorem Script.run_decl (n : Nat) (d : Decl) :
    (Script.decl d).run setting (·.run setting n) = executeDecl setting (n + 1) d := by
  cases d with
  | var name initial span => cases initial <;> rfl
  | stmt s => exact bind_pure _
  | function | «class» => rfl

/-- **Running a task is running its script**, with one unit of fuel less for the tasks in it. -/
theorem Task.run_succ (n : Nat) (t : Task) :
    t.run setting (n + 1) = (t.script setting.host).run setting (·.run setting n) := by
  cases t with
  | expr e => exact (Script.run_expr n e).symm
  | exprs es => cases es <;> rfl
  | call callee args location => exact (Script.run_call n callee args location).symm
  | invoke callee args location => exact (Script.run_invoke n callee args location).symm
  | function closure args receiver =>
      exact bind_congr fun seen => bind_congr fun flow => (bind_pure _).symm
  | construct c args => exact (Script.run_construct n c args).symm
  | stmt s => exact (Script.run_stmt n s).symm
  | loop condition body increment => exact (Script.run_loop n condition body increment).symm
  | decl d => exact (Script.run_decl n d).symm
  | decls ds =>
      cases ds with
      | nil => rfl
      | cons d ds =>
          refine bind_congr fun flow => ?_
          cases flow with
          | normal => exact (bind_pure _).symm
          | «break» | «continue» | «return» => rfl

end Running

/-! ## Programs -/

/-- A whole program, whose jumps must all stay inside it. -/
def Script.program (p : Program) : Script Unit :=
  .part .plain (.decls p.body) fun
    | .normal => .done ()
    | flow =>
      .step ⟨Eval.defect (.escapedTopLevel flow.keyword) none, quietClosed.defect _ _⟩ .done

theorem Script.run_program (setting : Setting) (n : Nat) (p : Program) :
    (Script.program p).run setting (·.run setting n) = executeProgram setting n p := by
  unfold Script.program executeProgram
  refine bind_congr fun flow => ?_
  cases flow with
  | normal => rfl
  | «break» | «continue» | «return» => exact bind_pure _

/-- What is to be done of an input. With echo, a program that is a single expression statement prints
its value. -/
def Script.input (echo : Bool) (p : Program) : Script Unit :=
  match echo, p.body with
  | true, [.stmt (.expression e _)] => .part .plain (.expr e) fun v => .print v.text (.done ())
  | _, _ => Script.program p

theorem Script.input_of_not_single {echo : Bool} {p : Program}
    (h : ¬(echo = true ∧ p.IsSingle)) : Script.input echo p = Script.program p := by
  unfold Script.input
  split
  · rename_i e span hbody
    exact absurd ⟨rfl, Program.isSingle_iff.2 ⟨e, span, hbody⟩⟩ h
  · rfl

/-- **Running an input is running its script.** -/
theorem runProgram_eq (setting : Setting) (echo : Bool) (n : Nat) (p : Program) :
    runProgram setting echo n p = (Script.input echo p).run setting (·.run setting n) := by
  by_cases hsingle : echo = true ∧ p.IsSingle
  · obtain ⟨rfl, hsingle⟩ := hsingle
    obtain ⟨e, span, hbody⟩ := Program.isSingle_iff.1 hsingle
    rw [Program.run_single hbody]
    unfold Script.input
    simp only [hbody]
    exact bind_congr fun v => bind_pure_unit.symm
  · rw [Program.run_of_not_single hsingle, Script.input_of_not_single hsingle, Script.run_program]

end Lox.Evaluation
