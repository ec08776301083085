import Lox.Proofs.Evaluation.Tasks

/-!
# The stack of tasks

The tasks that the evaluator is at work on at the same time lie one inside the other, like the frames
of a stack. Which task can begin inside which other one is read off the scripts. In particular a
callable is at work only for a call, a call is made only for a call expression, and an initializer that
is run for a new instance is no call. So the **calls in progress** are the tasks at work on a callable,
and each of them belongs to one call expression of the program.

## Contents
- `Script.AllParts`: what holds of all tasks in a script.
- `Placed`, `script_placed`, `input_placed`: which task begins inside which.
- `Task.site?`, `sites`: the calls in progress, by the places of their expressions.
- `Stacked`, `exists_innermost`: stacks of tasks, and the expressions of calls.
-/

namespace Lox.Evaluation

/-- Whatever comes of the actions of a script, its tasks have a property. -/
def Script.AllParts {α : Type} (P : Frame → Task → Prop) : Script α → Prop
  | .done _ => True
  | .step _ next => ∀ b, (next b).AllParts P
  | .print _ next | .exit _ next => next.AllParts P
  | .part frame t next => P frame t ∧ ∀ r, (next r).AllParts P

/-- A piece of program. -/
def Task.IsPiece : Task → Prop
  | .expr _ | .exprs _ | .stmt _ | .loop _ _ _ | .decl _ | .decls _ => True
  | .call _ _ _ | .invoke _ _ _ | .function _ _ _ | .construct _ _ => False

/-- Which task can begin inside which other one, and in which way; at the outset there is none. -/
inductive Placed : Option Task → Frame → Task → Prop
  | piece {around t} : t.IsPiece → Placed around .plain t
  /-- Declarations that see scopes of their own. -/
  | body {around seen ds} : Placed around (.scopes seen) (.decls ds)
  | call {callee args span f vs} :
      Placed (some (.expr (.call callee args span))) .plain (.call f vs span.start)
  /-- What is called is callable, and takes that many arguments. -/
  | invoke {f vs location c} : f.callable? = some c → vs.length = c.arity →
      Placed (some (.call f vs location)) (.call location) (.invoke c vs location)
  | function {closure vs location} :
      Placed (some (.invoke (.function closure) vs location)) .plain (.function closure vs none)
  | method {closure receiver vs location} :
      Placed (some (.invoke (.method closure receiver) vs location)) .plain
        (.function closure vs (some receiver))
  | construct {c vs location} :
      Placed (some (.invoke (.class c) vs location)) .plain (.construct c vs)
  | initializer {c vs closure i} : c.findMethod? initializerName = some closure →
      Placed (some (.construct c vs)) .plain (.function closure vs (some i))

/-! ## Which task begins inside which -/

section Scripts

variable {α : Type} {around : Option Task}

theorem Script.allParts_printAll {P : Frame → Task → Prop} {next : Script α}
    (hnext : next.AllParts P) (texts : List String) : (next.printAll texts).AllParts P := by
  induction texts with
  | nil => exact hnext
  | cons text texts ih => exact ih

theorem Script.allParts_builtin {P : Frame → Task → Prop} (host : Host) (args : List Value)
    (location : Location) (b : Builtin) : (Script.builtin host args location b).AllParts P := by
  cases b with
  | clock | type | round | rand | randint => exact fun _ => trivial
  | help | quit => trivial
  | exit => exact fun _ => trivial
  | dir => exact fun _ => Script.allParts_printAll (by trivial) _

/-- A native function works on no other task. -/
theorem Script.allParts_native {P : Frame → Task → Prop} (host : Host) (n : Native)
    (args : List Value) (location : Location) : (Script.native host n args location).AllParts P := by
  unfold Script.native
  split
  · exact Script.allParts_builtin host args location _
  · intro s turn
    refine Script.allParts_printAll ?_ _
    cases (host.call n.name _).result with
    | ok v => trivial
    | error f => exact fun _ => trivial

theorem placed_expr (e : Expr) : (Script.expr e).AllParts (Placed (some (.expr e))) := by
  have piece {around : Option Task} (e : Expr) : Placed around .plain (.expr e) := .piece trivial
  cases e with
  | literal | «variable» | this | super => simp [Script.expr, Script.lookUp, Script.AllParts]
  | grouping inner span => exact ⟨piece inner, fun _ => trivial⟩
  | unary op operand span => exact ⟨piece operand, fun _ _ => trivial⟩
  | binary op left right span =>
      exact ⟨piece left, fun _ => ⟨piece right, fun _ _ => trivial⟩⟩
  | logical op left right span =>
      refine ⟨piece left, fun v => ?_⟩
      dsimp only
      split
      · trivial
      · exact ⟨piece right, fun _ => trivial⟩
  | assign name depth value span => exact ⟨piece value, fun _ _ => trivial⟩
  | call callee args span =>
      exact ⟨piece callee, fun f => ⟨.piece trivial, fun vs => ⟨.call, fun _ => trivial⟩⟩⟩
  | get object name span => exact ⟨piece object, fun _ _ => trivial⟩
  | set object name value span =>
      exact ⟨piece object, fun _ _ => ⟨piece value, fun _ _ => trivial⟩⟩

theorem placed_stmt (s : Stmt) : (Script.stmt s).AllParts (Placed around) := by
  cases s with
  | expression value span => exact ⟨.piece trivial, fun _ => trivial⟩
  | print value span => exact ⟨.piece trivial, fun _ => trivial⟩
  | block body span => exact fun seen => ⟨.body, fun _ => trivial⟩
  | ifThenElse condition thenBranch elseBranch span =>
      refine ⟨.piece trivial, fun v => ?_⟩
      dsimp only
      split
      · exact ⟨.piece trivial, fun _ => trivial⟩
      · cases elseBranch with
        | none => trivial
        | some s => exact ⟨.piece trivial, fun _ => trivial⟩
  | whileLoop condition body increment span => exact ⟨.piece trivial, fun _ => trivial⟩
  | «break» | «continue» => trivial
  | «return» value span =>
      cases value with
      | none => trivial
      | some e => exact ⟨.piece trivial, fun _ => trivial⟩

theorem placed_loop (condition : Expr) (body : Stmt) (increment : Option Expr) :
    (Script.loop condition body increment).AllParts (Placed around) := by
  refine ⟨.piece trivial, fun v => ?_⟩
  dsimp only
  split
  · refine ⟨.piece trivial, fun flow => ?_⟩
    cases flow with
    | normal | «continue» =>
        cases increment with
        | none => exact ⟨.piece trivial, fun _ => trivial⟩
        | some e => exact ⟨.piece trivial, fun _ => ⟨.piece trivial, fun _ => trivial⟩⟩
    | «break» | «return» value => trivial
  · trivial

theorem placed_decl (d : Decl) : (Script.decl d).AllParts (Placed around) := by
  cases d with
  | var name initial span =>
      cases initial with
      | none => exact fun _ => trivial
      | some e => exact ⟨.piece trivial, fun _ _ => trivial⟩
  | function decl => exact fun _ _ _ => trivial
  | «class» name superclass methods span => exact fun _ => trivial
  | stmt s => exact ⟨.piece trivial, fun _ => trivial⟩

theorem placed_call (callee : Value) (args : List Value) (location : Location) :
    (Script.call callee args location).AllParts (Placed (some (.call callee args location))) := by
  unfold Script.call
  split
  · exact fun _ => trivial
  · rename_i c hcallable
    split
    · rename_i harity
      exact ⟨.invoke hcallable harity, fun _ => trivial⟩
    · exact fun _ => trivial

theorem placed_invoke (host : Host) (callee : Callable) (args : List Value) (location : Location) :
    (Script.invoke host args location callee).AllParts
      (Placed (some (.invoke callee args location))) := by
  cases callee with
  | function closure => exact ⟨.function, fun _ => trivial⟩
  | method closure receiver => exact ⟨.method, fun _ => trivial⟩
  | «class» c => exact ⟨.construct, fun _ => trivial⟩
  | native n => exact Script.allParts_native host n args location

theorem placed_construct (c : Class) (args : List Value) :
    (Script.construct c args).AllParts (Placed (some (.construct c args))) := by
  intro i
  split
  · rename_i closure hfind
    exact ⟨.initializer hfind, fun _ => trivial⟩
  · trivial

end Scripts

/-- **Which task begins inside which.** -/
theorem script_placed (host : Host) (t : Task) : (t.script host).AllParts (Placed (some t)) := by
  cases t with
  | expr e => exact placed_expr e
  | exprs es =>
      cases es with
      | nil => trivial
      | cons e es => exact ⟨.piece trivial, fun _ => ⟨.piece trivial, fun _ => trivial⟩⟩
  | call callee args location => exact placed_call callee args location
  | invoke callee args location => exact placed_invoke host callee args location
  | function closure args receiver => exact fun seen => ⟨.body, fun _ _ => trivial⟩
  | construct c args => exact placed_construct c args
  | stmt s => exact placed_stmt s
  | loop condition body increment => exact placed_loop condition body increment
  | decl d => exact placed_decl d
  | decls ds =>
      cases ds with
      | nil => trivial
      | cons d ds =>
          refine ⟨.piece trivial, fun flow => ?_⟩
          cases flow with
          | normal => exact ⟨.piece trivial, fun _ => trivial⟩
          | «break» | «continue» | «return» => trivial

theorem program_placed (p : Program) : (Script.program p).AllParts (Placed none) := by
  refine ⟨.piece trivial, fun flow => ?_⟩
  cases flow with
  | normal => trivial
  | «break» | «continue» | «return» => exact fun _ => trivial

theorem input_placed (echo : Bool) (p : Program) : (Script.input echo p).AllParts (Placed none) := by
  unfold Script.input
  split
  · exact ⟨.piece trivial, fun _ => trivial⟩
  · exact program_placed p

/-! ## Calls in progress -/

/-- The place of the call that a callable is at work for. -/
def Task.site? : Task → Option Location
  | .invoke _ _ location => some location
  | .expr _ | .exprs _ | .call _ _ _ | .function _ _ _ | .construct _ _ | .stmt _ | .loop _ _ _
  | .decl _ | .decls _ => none

/-- The place of the call for which a task begins one level of calls deeper. -/
def Frame.site? : Frame → Option Location
  | .plain | .scopes _ => none
  | .call location => some location

/-- The task that begins one level of calls deeper is the one at work on the callable. -/
theorem Placed.site?_eq {around : Option Task} {frame : Frame} {t : Task}
    (h : Placed around frame t) : t.site? = frame.site? := by
  cases h with
  | piece hpiece =>
      cases t with
      | expr | exprs | stmt | loop | decl | decls => rfl
      | call | invoke | function | construct => exact hpiece.elim
  | body | call | invoke | function | method | construct | initializer => rfl

/-- The calls in progress, the innermost one first, by their places. -/
def sites (tasks : List Task) : List Location := tasks.filterMap Task.site?

theorem sites_append (inner outer : List Task) : sites (inner ++ outer) = sites inner ++ sites outer :=
  List.filterMap_append

theorem sites_single (t : Task) : sites [t] = t.site?.toList := by
  unfold sites
  rw [List.filterMap_cons]
  cases t.site? <;> rfl

/-- Tasks that lie one inside the other, the innermost one first. -/
inductive Stacked : List Task → Prop
  | nil : Stacked []
  | cons {frame t tasks} : Placed tasks.head? frame t → Stacked tasks → Stacked (t :: tasks)

namespace Stacked

variable {t : Task} {tasks : List Task}

/-- What a task lies in. -/
theorem placed (h : Stacked (t :: tasks)) : ∃ frame, Placed tasks.head? frame t := by
  cases h with
  | cons hplaced _ => exact ⟨_, hplaced⟩

theorem tail (h : Stacked (t :: tasks)) : Stacked tasks := by
  cases h with
  | cons _ htasks => exact htasks

/-- What lies around a task is stacked. -/
theorem of_append {inner : List Task} (h : Stacked (inner ++ tasks)) : Stacked tasks := by
  induction inner with
  | nil => exact h
  | cons t inner ih => exact ih h.tail

/-- A call is made for a call expression, at whose start its place is. -/
theorem expression {f : Value} {vs : List Value} {location : Location}
    (h : Stacked (.call f vs location :: tasks)) :
    ∃ callee args span outer, tasks = .expr (.call callee args span) :: outer ∧
      location = span.start := by
  obtain ⟨frame, hplaced⟩ := h.placed
  generalize hhead : tasks.head? = around at hplaced
  cases hplaced with
  | piece hpiece => exact hpiece.elim
  | @call callee args span f vs =>
      obtain ⟨outer, rfl⟩ := List.head?_eq_some_iff.1 hhead
      exact ⟨callee, args, span, outer, rfl, rfl⟩

/-- A callable is at work for a call of it. -/
theorem call {c : Callable} {vs : List Value} {location : Location}
    (h : Stacked (.invoke c vs location :: tasks)) :
    ∃ f outer, tasks = .call f vs location :: outer ∧ f.callable? = some c := by
  obtain ⟨frame, hplaced⟩ := h.placed
  generalize hhead : tasks.head? = around at hplaced
  cases hplaced with
  | piece hpiece => exact hpiece.elim
  | invoke hcallable _ =>
      obtain ⟨outer, rfl⟩ := List.head?_eq_some_iff.1 hhead
      exact ⟨_, outer, rfl, hcallable⟩

/-- An instance is made when a class is at work. -/
theorem ofClass {c : Class} {vs : List Value} (h : Stacked (.construct c vs :: tasks)) :
    ∃ location outer, tasks = .invoke (.class c) vs location :: outer := by
  obtain ⟨frame, hplaced⟩ := h.placed
  generalize hhead : tasks.head? = around at hplaced
  cases hplaced with
  | piece hpiece => exact hpiece.elim
  | construct =>
      obtain ⟨outer, rfl⟩ := List.head?_eq_some_iff.1 hhead
      exact ⟨_, outer, rfl⟩

end Stacked

/-- **The innermost call in progress** belongs to a call expression, at whose start its place is. -/
theorem exists_innermost {tasks : List Task} (h : Stacked tasks) {location : Location}
    (hsite : (sites tasks).head? = some location) :
    ∃ inner c f vs callee args span outer,
      tasks = inner ++ .invoke c vs location :: .call f vs location ::
        .expr (.call callee args span) :: outer ∧
      sites inner = [] ∧ location = span.start := by
  induction h with
  | nil => exact nomatch hsite
  | @cons frame t tasks hplaced htasks ih =>
      rw [← List.singleton_append, sites_append, sites_single] at hsite
      cases ht : t.site? with
      | none =>
          rw [ht] at hsite
          obtain ⟨inner, c, f, vs, callee, args, span, outer, rfl, hinner, hlocation⟩ := ih hsite
          refine ⟨t :: inner, c, f, vs, callee, args, span, outer, rfl, ?_, hlocation⟩
          rw [← List.singleton_append, sites_append, sites_single, ht, hinner]
          rfl
      | some location' =>
          -- this task is at work on a callable, so its call and the expression lie around it
          rw [ht] at hsite
          cases hsite
          cases t with
          | invoke c vs location' =>
              cases ht
              have hstacked : Stacked (.invoke c vs location :: tasks) := .cons hplaced htasks
              obtain ⟨f, outer, rfl, _⟩ := hstacked.call
              obtain ⟨callee, args, span, outer, rfl, hlocation⟩ := hstacked.tail.expression
              exact ⟨[], c, f, vs, callee, args, span, outer, rfl, rfl, hlocation⟩
          | expr | exprs | call | function | construct | stmt | loop | decl | decls =>
              exact nomatch ht

end Lox.Evaluation
