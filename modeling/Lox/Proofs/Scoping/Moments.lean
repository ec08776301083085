import Lox.Proofs.Sessions.Compiling

/-!
# Moments of a session

While a session runs, the evaluator is at work on one piece of program after the other. A **moment**
is a call of the evaluator: what it is at work on, and the machine it starts from. A piece of
program is kept as it was before its names were resolved, together with what was known when they
were, so that what was known can be held against the machine.

The relation `Part` has one rule for each call that the evaluator makes of itself. A call that is
made after others holds what these have returned. Only the body of a function is not written where
it is called: what was known about it was known where the function was declared, at an earlier
moment of the session.

## Contents
- `Work`, `Moment`: what the evaluator is at work on, and when.
- `Part`: the moments right inside a moment, up to the bodies of functions.
- `Origin`, `Makes`: declarations of functions, and the moments that make closures of them.
- `Session.after`, `History`, `Reached`: the moments of a session.
-/

namespace Lox

/-- The session after some inputs, each with a bound on the recursion of the evaluator. -/
def Session.after (s : Session) (inputs : List (Nat × List Char)) : Session :=
  inputs.foldl (fun s input => (s.runWith input.1 input.2).2) s

/-- The scopes that the methods of a class see, the one with their receiver apart. -/
def Scopes.enterSuper (scopes : Scopes) (derived : Bool) : Scopes :=
  if derived then scopes.enterWith "super" else scopes

namespace Scoping

/-! ## Moments -/

/-- What the evaluator is at work on. Pieces of program stand as they were before their names were
resolved, with what they stood in and the scopes that were open. -/
inductive Work
  | expr (kind : ClassKind) (scopes : Scopes) (e : Expr)
  | exprs (kind : ClassKind) (scopes : Scopes) (es : List Expr)
  | stmt (around : Surroundings) (scopes : Scopes) (s : Stmt)
  | loop (around : Surroundings) (scopes : Scopes) (condition : Expr) (body : Stmt)
      (increment : Option Expr)
  | decl (around : Surroundings) (scopes : Scopes) (d : Decl)
  | decls (around : Surroundings) (scopes : Scopes) (ds : List Decl)
  | call (callee : Value) (args : List Value) (location : Location)
  | invoke (callee : Callable) (args : List Value) (location : Location)
  | function (closure : Closure) (args : List Value) (receiver : Option Instance)
  | construct (c : Class) (args : List Value)

/-- The scopes that were open when the names of a piece of program were resolved. -/
def Work.scopes? : Work → Option Scopes
  | .expr _ scopes _ | .exprs _ scopes _ | .stmt _ scopes _ | .loop _ scopes _ _ _
  | .decl _ scopes _ | .decls _ scopes _ => some scopes
  | .call _ _ _ | .invoke _ _ _ | .function _ _ _ | .construct _ _ => none

/-- A call of the evaluator: the bound on its recursion, its work, and the machine it starts from. -/
structure Moment where
  fuel : Nat
  work : Work
  machine : Machine

/-- The machine inside a call. -/
def deeper (m : Machine) : Machine := { m with callDepth := m.callDepth + 1 }

/-- The machine inside a new block. -/
def entered (m : Machine) : Machine :=
  { m with memory := (m.memory.newScope Table.empty).2, chain := m.memory.scopes.size :: m.chain }

/-- The moments right inside a moment, the bodies of functions apart. What is written behind a
piece of program is reached when the evaluator has returned from that piece. -/
inductive Part (setting : Setting) : Moment → Moment → Prop
  -- Expressions.
  | grouping {n k s e span m} :
      Part setting ⟨n + 1, .expr k s (.grouping e span), m⟩ ⟨n, .expr k s e, m⟩
  | operand {n k s op e span m} :
      Part setting ⟨n + 1, .expr k s (.unary op e span), m⟩ ⟨n, .expr k s e, m⟩
  | left {n k s op l r span m} :
      Part setting ⟨n + 1, .expr k s (.binary op l r span), m⟩ ⟨n, .expr k s l, m⟩
  | right {n k s op l r span m v m'} :
      evaluate setting n (l.resolve k s).value m = .ok v m' →
      Part setting ⟨n + 1, .expr k s (.binary op l r span), m⟩ ⟨n, .expr k s r, m'⟩
  | first {n k s op l r span m} :
      Part setting ⟨n + 1, .expr k s (.logical op l r span), m⟩ ⟨n, .expr k s l, m⟩
  | second {n k s op l r span m v m'} :
      evaluate setting n (l.resolve k s).value m = .ok v m' → op.decides v = false →
      Part setting ⟨n + 1, .expr k s (.logical op l r span), m⟩ ⟨n, .expr k s r, m'⟩
  | assigned {n k s x depth e span m} :
      Part setting ⟨n + 1, .expr k s (.assign x depth e span), m⟩ ⟨n, .expr k s e, m⟩
  | callee {n k s c es span m} :
      Part setting ⟨n + 1, .expr k s (.call c es span), m⟩ ⟨n, .expr k s c, m⟩
  | args {n k s c es span m v m'} :
      evaluate setting n (c.resolve k s).value m = .ok v m' →
      Part setting ⟨n + 1, .expr k s (.call c es span), m⟩ ⟨n, .exprs k s es, m'⟩
  | called {n k s c es span m v m' vs m''} :
      evaluate setting n (c.resolve k s).value m = .ok v m' →
      evaluateAll setting n (Expr.resolveAll k s es).value m' = .ok vs m'' →
      Part setting ⟨n + 1, .expr k s (.call c es span), m⟩ ⟨n, .call v vs span.start, m''⟩
  | object {n k s e name span m} :
      Part setting ⟨n + 1, .expr k s (.get e name span), m⟩ ⟨n, .expr k s e, m⟩
  | owner {n k s o name e span m} :
      Part setting ⟨n + 1, .expr k s (.set o name e span), m⟩ ⟨n, .expr k s o, m⟩
  | field {n k s o name e span m i m'} :
      evaluate setting n (o.resolve k s).value m = .ok (.instance i) m' →
      Part setting ⟨n + 1, .expr k s (.set o name e span), m⟩ ⟨n, .expr k s e, m'⟩
  | head {n k s e es m} :
      Part setting ⟨n + 1, .exprs k s (e :: es), m⟩ ⟨n, .expr k s e, m⟩
  | tail {n k s e es m v m'} :
      evaluate setting n (e.resolve k s).value m = .ok v m' →
      Part setting ⟨n + 1, .exprs k s (e :: es), m⟩ ⟨n, .exprs k s es, m'⟩
  -- Calls.
  | invoke {n f c vs l m} :
      f.callable? = some c → vs.length = c.arity → m.callDepth < setting.maxCallDepth →
      Part setting ⟨n + 1, .call f vs l, m⟩ ⟨n, .invoke c vs l, deeper m⟩
  | function {n closure vs l m} :
      Part setting ⟨n + 1, .invoke (.function closure) vs l, m⟩ ⟨n, .function closure vs none, m⟩
  | method {n closure receiver vs l m} :
      Part setting ⟨n + 1, .invoke (.method closure receiver) vs l, m⟩
        ⟨n, .function closure vs (some receiver), m⟩
  | construct {n c vs l m} :
      Part setting ⟨n + 1, .invoke (.class c) vs l, m⟩ ⟨n, .construct c vs, m⟩
  | initializer {n c vs m closure} :
      c.findMethod? initializerName = some closure →
      Part setting ⟨n + 1, .construct c vs, m⟩
        ⟨n, .function closure vs (some (m.memory.newInstance c).1),
          { m with memory := (m.memory.newInstance c).2 }⟩
  -- Statements.
  | value {n a s e span m} :
      Part setting ⟨n + 1, .stmt a s (.expression e span), m⟩ ⟨n, .expr a.enclosingClass s e, m⟩
  | printed {n a s e span m} :
      Part setting ⟨n + 1, .stmt a s (.print e span), m⟩ ⟨n, .expr a.enclosingClass s e, m⟩
  | block {n a s ds span m} :
      Part setting ⟨n + 1, .stmt a s (.block ds span), m⟩ ⟨n, .decls a s.enter ds, entered m⟩
  | test {n a s c t e span m} :
      Part setting ⟨n + 1, .stmt a s (.ifThenElse c t e span), m⟩ ⟨n, .expr a.enclosingClass s c, m⟩
  | thenBranch {n a s c t e span m v m'} :
      evaluate setting n (c.resolve a.enclosingClass s).value m = .ok v m' → v.isTruthy = true →
      Part setting ⟨n + 1, .stmt a s (.ifThenElse c t e span), m⟩ ⟨n, .stmt a s t, m'⟩
  | elseBranch {n a s c t e span m v m'} :
      evaluate setting n (c.resolve a.enclosingClass s).value m = .ok v m' → v.isTruthy = false →
      Part setting ⟨n + 1, .stmt a s (.ifThenElse c t (some e) span), m⟩ ⟨n, .stmt a s e, m'⟩
  | loop {n a s c b i span m} :
      Part setting ⟨n + 1, .stmt a s (.whileLoop c b i span), m⟩ ⟨n, .loop a s c b i, m⟩
  | returned {n a s e span m} :
      Part setting ⟨n + 1, .stmt a s (.return (some e) span), m⟩ ⟨n, .expr a.enclosingClass s e, m⟩
  -- Loops.
  | condition {n a s c b i m} :
      Part setting ⟨n + 1, .loop a s c b i, m⟩ ⟨n, .expr a.enclosingClass s c, m⟩
  | round {n a s c b i m v m'} :
      evaluate setting n (c.resolve a.enclosingClass s).value m = .ok v m' → v.isTruthy = true →
      Part setting ⟨n + 1, .loop a s c b i, m⟩ ⟨n, .stmt { a with inLoop := true } s b, m'⟩
  | increment {n a s c b e m v m' flow m''} :
      evaluate setting n (c.resolve a.enclosingClass s).value m = .ok v m' → v.isTruthy = true →
      execute setting n (b.resolve { a with inLoop := true } s).value m' = .ok flow m'' →
      flow = .normal ∨ flow = .continue →
      Part setting ⟨n + 1, .loop a s c b (some e), m⟩ ⟨n, .expr a.enclosingClass s e, m''⟩
  | again {n a s c b m v m' flow m''} :
      evaluate setting n (c.resolve a.enclosingClass s).value m = .ok v m' → v.isTruthy = true →
      execute setting n (b.resolve { a with inLoop := true } s).value m' = .ok flow m'' →
      flow = .normal ∨ flow = .continue →
      Part setting ⟨n + 1, .loop a s c b none, m⟩ ⟨n, .loop a s c b none, m''⟩
  | incremented {n a s c b e m v m' flow m'' w m'''} :
      evaluate setting n (c.resolve a.enclosingClass s).value m = .ok v m' → v.isTruthy = true →
      execute setting n (b.resolve { a with inLoop := true } s).value m' = .ok flow m'' →
      flow = .normal ∨ flow = .continue →
      evaluate setting n (e.resolve a.enclosingClass s).value m'' = .ok w m''' →
      Part setting ⟨n + 1, .loop a s c b (some e), m⟩ ⟨n, .loop a s c b (some e), m'''⟩
  -- Declarations.
  | initial {n a s x e span m} :
      Part setting ⟨n + 1, .decl a s (.var x (some e) span), m⟩
        ⟨n, .expr a.enclosingClass (s.declare x) e, m⟩
  | statement {n a s t m} :
      Part setting ⟨n + 1, .decl a s (.stmt t), m⟩ ⟨n, .stmt a s t, m⟩
  | next {n a s d ds m} :
      Part setting ⟨n + 1, .decls a s (d :: ds), m⟩ ⟨n, .decl a s d, m⟩
  | rest {n a s d ds m m'} :
      executeDecl setting n (d.resolve a s).value m = .ok .normal m' →
      Part setting ⟨n + 1, .decls a s (d :: ds), m⟩ ⟨n, .decls a (s.behind d) ds, m'⟩

/-! ## Closures -/

/-- The declaration of a function, with what was known when its names were resolved. -/
structure Origin where
  around : Surroundings
  /-- The scopes around the function, the one with the receiver of a method apart. -/
  scopes : Scopes
  kind : FunctionKind
  decl : FunctionDecl

namespace Origin

/-- Whether the function has a receiver. -/
def isMethod (o : Origin) : Bool := o.kind != .function

/-- The scopes around the parameters. -/
def outer (o : Origin) : Scopes := if o.isMethod then o.scopes.enterWith "this" else o.scopes

/-- The function with its depths. -/
def resolved (o : Origin) : Checked FunctionDecl := o.decl.resolve o.around o.outer o.kind

/-- The closure that a declaration makes in front of a chain of scopes. -/
def closure (o : Origin) (chain : Chain) : Closure :=
  ⟨o.resolved.value, chain, o.kind == .initializer⟩

/-- The work that a call of the function does in its body. -/
def body (o : Origin) : Work :=
  .decls (o.around.inFunction o.kind) (Param.resolveAll o.outer.enter o.decl.params).value
    o.decl.body

end Origin

/-- A moment at which a declaration is executed that makes a closure, in front of a chain of scopes;
and the memory behind the declaration. -/
inductive Makes (setting : Setting) : Moment → Origin → Chain → Memory → Prop
  | function {n a s d m m'} :
      executeDecl setting (n + 1) ((Decl.function d).resolve a s).value m = .ok .normal m' →
      Makes setting ⟨n + 1, .decl a s (.function d), m⟩ ⟨a, s.define d.name, .function, d⟩ m.chain
        m'.memory
  | method {n a s name superclass methods span m m' f} :
      f ∈ methods →
      executeDecl setting (n + 1)
        ((Decl.class name superclass methods span).resolve a s).value m = .ok .normal m' →
      Makes setting ⟨n + 1, .decl a s (.class name superclass methods span), m⟩
        ⟨{ a with enclosingClass := if superclass.isSome then .derived else .base },
          (s.define name).enterSuper superclass.isSome, methodKind f.name, f⟩
        (if superclass.isSome then m.memory.scopes.size :: m.chain else m.chain) m'.memory

/-! ## Sessions -/

/-- The first moment of a program: all of it, or, with echo, the expression that it consists of. -/
def startOf (s : Session) (fuel : Nat) (p : Program) : Moment :=
  match s.echo, p.body with
  | true, [.stmt (.expression e _)] => ⟨fuel, .expr .none [] e, s.machine⟩
  | _, _ => ⟨fuel, .decls .topLevel [] p.body, s.machine⟩

/-- A memory that came later: there are more scopes, every scope binds what it did, and receivers
and superclasses are the same. -/
structure Later (m m' : Memory) : Prop where
  size_le : m.scopes.size ≤ m'.scopes.size
  keeps : ∀ i x, i < m.scopes.size → (m.scope i).has x = true → (m'.scope i).has x = true
  fixed : ∀ i x v, x = "this" ∨ x = "super" → i < m.scopes.size →
    (m.scope i).get? x = some v → (m'.scope i).get? x = some v

/-- A session and the inputs that it is given, each with a bound on the recursion of the evaluator. -/
structure History where
  session : Session
  inputs : List (Nat × List Char)

/-- The moments of the input with a number. The body of a function is reached with what was known
when some earlier moment of the session made its closure. -/
inductive Reached (h : History) : Nat → Moment → Prop
  | start {k fuel source p} :
      h.inputs[k]? = some (fuel, source) → Program.parse source = .ok p → p.resolve.errors = [] →
      Reached h k (startOf (h.session.after (h.inputs.take k)) fuel p)
  | part {k p q} : Reached h k p → Part h.session.setting p q → Reached h k q
  | body {k n o chain args receiver m seen m' k' maker memory} :
      Reached h k ⟨n + 1, .function (o.closure chain) args receiver, m⟩ →
      Eval.bodyChain (o.closure chain) args receiver m = .ok seen m' →
      Reached h k' maker → Makes h.session.setting maker o chain memory →
      receiver.isSome = o.isMethod → Later memory m.memory →
      Reached h k ⟨n, o.body, { m' with chain := seen }⟩

end Scoping

end Lox
