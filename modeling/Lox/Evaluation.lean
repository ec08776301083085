import Lox.Builtin
import Lox.Operation

/-!
# Evaluation

Programs are evaluated directly on their syntax trees. The evaluator is bounded by an amount of
fuel, which limits the depth of its recursion: each construct hands less fuel to its parts, and
each round of a loop hands less to the next. Running out of fuel is a result of its own, different
from every failure of the program.

## Contents
- `Flow`: how a statement ends.
- `enter`, `bindParams`, `superMethod`, `makeMethods`: scopes of calls and classes.
- `evaluate`, `evaluateAll`: expressions.
- `callValue`, `invoke`, `callFunction`, `instantiate`: calls.
- `execute`, `executeDecl`, `executeAll`, `executeLoop`: statements and declarations.
-/

namespace Lox

/-- How a statement ends. -/
inductive Flow
  | normal
  | «break»
  | «continue»
  | «return» (value : Value)

/-- The keyword of the jump by which a statement ends. -/
def Flow.keyword : Flow → String
  | .normal => "normal"
  | .break => "break"
  | .continue => "continue"
  | .return _ => "return"

namespace Eval

/-- A new scope with the given bindings in front of a chain. -/
def enter (bindings : Table Value) (chain : Chain) : Eval Chain := do
  let i ← take (·.newScope bindings)
  pure (i :: chain)

/-- Parameters bound to arguments. A parameter without an argument is `nil`. -/
def bindParams : List Param → List Value → List (String × Value)
  | [], _ => []
  | p :: ps, args => (p.name, args.headD .nil) :: bindParams ps (args.drop 1)

/-- The method that `super` selects: looked up in the superclass, which lies one scope outside the
receiver, and bound to the receiver. -/
def superMethod (depth : Option Nat) (method : String) (location : Location) : Eval Value :=
  match depth with
  | none | some 0 => defect .unresolvedSuper location
  | some (depth + 1) => do
    let superclass ← lookUp "super" (some (depth + 1)) location
    let receiver ← lookUp "this" (some depth) location
    match superclass, receiver with
    | .class c, .instance i =>
      match c.findMethod? method with
      | some closure => do
        let id ← take (·.newId)
        pure (.method id closure i)
      | none => raiseAt location (.undefinedProperty method)
    | _, _ => defect .brokenSuper location

/-- A property of an instance: a field, or else a method of its class, bound to it. -/
def property (object : Value) (name : String) (location : Location) : Eval Value := do
  match object with
  | .instance i =>
    let s ← get
    match (s.memory.fieldsOf i).get? name with
    | some value => pure value
    | none =>
      match i.ofClass.findMethod? name with
      | some closure => do
        let id ← take (·.newId)
        pure (.method id closure i)
      | none => raiseAt location (.undefinedProperty name)
  | _ => raiseAt location .propertyOfNonInstance

/-- The instance whose field is to be set. -/
def fieldOwner (object : Value) (location : Location) : Eval Instance :=
  match object with
  | .instance i => pure i
  | _ => raiseAt location .fieldOfNonInstance

/-- The methods of a class whose declaration sees the given scopes. -/
def makeMethods (chain : Chain) (methods : List FunctionDecl) : List (String × Closure) :=
  (Table.ofList (methods.map fun f => (f.name, ⟨f, chain, f.name == initializerName⟩))).entries

/-- The superclass of a class declaration. -/
def superclassOf : Option NameUse → Eval (Option Class)
  | none => pure none
  | some use => do
    match ← lookUp use.name use.depth use.span.start with
    | .class c => pure (some c)
    | _ => raiseAt use.span.start .superclassNotClass

/-- The scopes that the methods of a class see: with a superclass, one more that holds it. -/
def methodChain (superclass : Option Class) : Eval Chain := do
  match superclass with
  | some c => enter (Table.ofList [("super", .class c)]) (← chain)
  | none => chain

/-- Declares a class. Its name is bound before its methods are made. -/
def declareClass (name : String) (superclass : Option NameUse) (methods : List FunctionDecl) :
    Eval Unit := do
  let superclass ← superclassOf superclass
  define name .nil
  let seen ← methodChain superclass
  let id ← take (·.newId)
  define name (.class ⟨id, name, superclass, makeMethods seen methods⟩)

/-- The scopes that the body of a function sees: one with its parameters, and, for a method, one
more around it that holds the receiver. -/
def bodyChain (closure : Closure) (args : List Value) (receiver : Option Instance) :
    Eval Chain := do
  let outer ←
    match receiver with
    | some i => enter (Table.ofList [("this", .instance i)]) closure.chain
    | none => pure closure.chain
  enter (Table.ofList (bindParams closure.declaration.params args)) outer

/-- What a call yields whose body ended in the given way. -/
def callResult (closure : Closure) (receiver : Option Instance) (flow : Flow) : Eval Value :=
  if closure.isInitializer then
    match receiver with
    | some i => pure (.instance i)
    | none => pure .nil
  else
    match flow with
    | .return value => pure value
    | .normal => pure .nil
    | .break | .continue => defect (.escapedBody flow.keyword closure.name) none

/-- Calls a native function. -/
def callNative (host : Host) (n : Native) (args : List Value) (location : Location) :
    Eval Value := do
  match n.body with
  | .builtin b => b.call host args location
  | .host =>
    let s ← get
    let turn ← draw
    let reply := host.call n.name ⟨args, location, s.callDepth, s.events, turn⟩
    printAll host reply.printed
    match reply.result with
    | .ok value => pure value
    | .error f => raise f

end Eval

open Eval

mutual

/-- Evaluates an expression. -/
def evaluate (setting : Setting) : Nat → Expr → Eval Value
  | 0, _ => throw .outOfFuel
  | _ + 1, .literal value _ => pure (.ofLiteral value)
  | fuel + 1, .grouping inner _ => evaluate setting fuel inner
  | fuel + 1, .unary op operand span => do
    let v ← evaluate setting fuel operand
    liftAt span.start (op.apply v)
  | fuel + 1, .binary op left right span => do
    let a ← evaluate setting fuel left
    let b ← evaluate setting fuel right
    liftAt span.start (op.apply a b)
  | fuel + 1, .logical op left right _ => do
    let a ← evaluate setting fuel left
    if op.decides a then pure a else evaluate setting fuel right
  | _ + 1, .variable use => lookUp use.name use.depth use.span.start
  | fuel + 1, .assign name depth value span => do
    let v ← evaluate setting fuel value
    assign name depth v span.start
    pure v
  | fuel + 1, .call callee args span => do
    let f ← evaluate setting fuel callee
    let vs ← evaluateAll setting fuel args
    callValue setting fuel f vs span.start
  | fuel + 1, .get object name span => do
    let o ← evaluate setting fuel object
    property o name span.start
  | fuel + 1, .set object name value span => do
    let o ← evaluate setting fuel object
    let i ← fieldOwner o span.start
    let v ← evaluate setting fuel value
    modifyMemory (·.setField i name v)
    pure v
  | _ + 1, .this depth span => lookUp "this" depth span.start
  | _ + 1, .super depth method span => superMethod depth method span.start

/-- Evaluates expressions from left to right. -/
def evaluateAll (setting : Setting) : Nat → List Expr → Eval (List Value)
  | 0, _ => throw .outOfFuel
  | _ + 1, [] => pure []
  | fuel + 1, e :: es => do
    let v ← evaluate setting fuel e
    let vs ← evaluateAll setting fuel es
    pure (v :: vs)

/-- Calls a value: it has to be callable, the number of arguments has to fit, and there has to be
room for one more call. -/
def callValue (setting : Setting) : Nat → Value → List Value → Location → Eval Value
  | 0, _, _, _ => throw .outOfFuel
  | fuel + 1, callee, args, location =>
    match callee.callable? with
    | none => raiseAt location .notCallable
    | some c =>
      if args.length = c.arity then
        inCall setting.maxCallDepth location (invoke setting fuel c args location)
      else raiseAt location (.wrongArity c.arity args.length)

/-- Calls a callable with as many arguments as it takes. -/
def invoke (setting : Setting) : Nat → Callable → List Value → Location → Eval Value
  | 0, _, _, _ => throw .outOfFuel
  | fuel + 1, .function closure, args, _ => callFunction setting fuel closure args none
  | fuel + 1, .method closure receiver, args, _ =>
    callFunction setting fuel closure args (some receiver)
  | fuel + 1, .class c, args, _ => instantiate setting fuel c args
  | _ + 1, .native n, args, location => callNative setting.host n args location

/-- Calls a function, for a method with its receiver. -/
def callFunction (setting : Setting) :
    Nat → Closure → List Value → Option Instance → Eval Value
  | 0, _, _, _ => throw .outOfFuel
  | fuel + 1, closure, args, receiver => do
    let seen ← bodyChain closure args receiver
    let flow ← within seen (executeAll setting fuel closure.declaration.body)
    callResult closure receiver flow

/-- Makes an instance of a class and runs its initializer, if there is one. -/
def instantiate (setting : Setting) : Nat → Class → List Value → Eval Value
  | 0, _, _ => throw .outOfFuel
  | fuel + 1, c, args => do
    let i ← take (·.newInstance c)
    match c.findMethod? initializerName with
    | some closure => do
      let _ ← callFunction setting fuel closure args (some i)
      pure (.instance i)
    | none => pure (.instance i)

/-- Executes a statement. -/
def execute (setting : Setting) : Nat → Stmt → Eval Flow
  | 0, _ => throw .outOfFuel
  | fuel + 1, .expression value _ => do
    let _ ← evaluate setting fuel value
    pure .normal
  | fuel + 1, .print value _ => do
    let v ← evaluate setting fuel value
    print setting.host v.text
    pure .normal
  | fuel + 1, .block body _ => do
    let inner ← enter Table.empty (← chain)
    within inner (executeAll setting fuel body)
  | fuel + 1, .ifThenElse condition thenBranch elseBranch _ => do
    let v ← evaluate setting fuel condition
    if v.isTruthy then execute setting fuel thenBranch
    else
      match elseBranch with
      | some s => execute setting fuel s
      | none => pure .normal
  | fuel + 1, .whileLoop condition body increment _ =>
    executeLoop setting fuel condition body increment
  | _ + 1, .break _ => pure .break
  | _ + 1, .continue _ => pure .continue
  | _ + 1, .return none _ => pure (.return .nil)
  | fuel + 1, .return (some value) _ => do
    let v ← evaluate setting fuel value
    pure (.return v)

/-- Executes the rounds of a loop. -/
def executeLoop (setting : Setting) : Nat → Expr → Stmt → Option Expr → Eval Flow
  | 0, _, _, _ => throw .outOfFuel
  | fuel + 1, condition, body, increment => do
    let v ← evaluate setting fuel condition
    if v.isTruthy then
      match ← execute setting fuel body with
      | .break => pure .normal
      | .return value => pure (.return value)
      | .normal | .continue => do
        match increment with
        | some e =>
          let _ ← evaluate setting fuel e
          executeLoop setting fuel condition body increment
        | none => executeLoop setting fuel condition body increment
    else pure .normal

/-- Executes a declaration. -/
def executeDecl (setting : Setting) : Nat → Decl → Eval Flow
  | 0, _ => throw .outOfFuel
  | _ + 1, .var name none _ => do
    define name .nil
    pure .normal
  | fuel + 1, .var name (some initial) _ => do
    let v ← evaluate setting fuel initial
    define name v
    pure .normal
  | _ + 1, .function decl => do
    let id ← take (·.newId)
    define decl.name (.function id ⟨decl, ← chain, false⟩)
    pure .normal
  | _ + 1, .class name superclass methods _ => do
    declareClass name superclass methods
    pure .normal
  | fuel + 1, .stmt s => execute setting fuel s

/-- Executes declarations in order, up to the first one that does not end normally. -/
def executeAll (setting : Setting) : Nat → List Decl → Eval Flow
  | 0, _ => throw .outOfFuel
  | _ + 1, [] => pure .normal
  | fuel + 1, d :: ds => do
    match ← executeDecl setting fuel d with
    | .normal => executeAll setting fuel ds
    | flow => pure flow

end

end Lox
