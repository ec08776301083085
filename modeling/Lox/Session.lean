import Lox.Evaluation
import Lox.Recording
import Lox.Diagnostic.Report

/-!
# Sessions

A session keeps its globals and its table of depths from one input to the next. An input is parsed,
resolved and executed; the first of these stages that finds an error decides the result.

## Contents
- `Options`, `SetupError`, `Session.create`: making a session.
- `RunResult`: what becomes of an input.
- `executeProgram`, `runProgram`: running what has been resolved.
- `Resolutions.compile`: from a source text to what is executed.
- `Session.runWith`, `Session.run`: running one input.
- `runSource`: a single input in a session of its own.
-/

namespace Lox

/-- How a session is to be made. -/
structure Options where
  /-- The number of calls that may be in progress at once. -/
  maxCallDepth : Option Float
  /-- Whether the built-in functions are defined. -/
  natives : Bool
  /-- Whether the value of an input that is a single expression is printed. -/
  echo : Bool
  host : Host

/-- The number of calls that may be in progress at once, unless it is chosen. -/
def defaultMaxCallDepth : Nat := 256

/-- A quiet session with everything built in. -/
def Options.standard (host : Host) : Options := ⟨none, true, false, host⟩

/-- Why a session cannot be made. -/
inductive SetupError
  | callDepth
  | arity (name : String)
deriving DecidableEq, Repr

def SetupError.message : SetupError → String
  | .callDepth => "maxCallDepth must be a positive integer"
  | .arity name => "Function '" ++ name ++ "' must declare a non-negative integer arity"

/-- An interpreter between two inputs. -/
structure Session where
  setting : Setting
  echo : Bool
  machine : Machine
  /-- The depths of all uses resolved so far. -/
  resolutions : Resolutions

/-! ## Making a session -/

/-- The positive whole number that `x` is, if it is one. -/
def positive? (x : Float) : Option Nat := (Decimal.toNat? x).filter (0 < ·)

/-- The number of calls that may be in progress at once. -/
def callDepthOf (choice : Option Float) : Except SetupError Nat :=
  match choice with
  | none => .ok defaultMaxCallDepth
  | some x =>
    match positive? x with
    | some n => .ok n
    | none => .error .callDepth

/-- Defines the functions of a host, which replace built-in ones of the same name. -/
def defineHostFunctions (globals : Table Value) :
    List (String × HostFunction) → Except SetupError (Table Value)
  | [] => .ok globals
  | (name, f) :: rest =>
    match Decimal.toNat? f.arity with
    | none => .error (.arity name)
    | some arity =>
      defineHostFunctions
        (globals.put name (.native ⟨name, arity, f.description.getD noDescription, .host⟩)) rest

/-- The built-in functions as bindings. -/
def builtinBindings : Table Value :=
  Table.ofList (Builtin.all.map fun b => (b.name, .native b.native))

/-- The globals of a new session. -/
def globalsOf (options : Options) : Except SetupError (Table Value) :=
  defineHostFunctions (if options.natives then builtinBindings else Table.empty)
    options.host.functions.entries

/-- A machine at the start of a session. -/
def Machine.initial (globals : Table Value) : Machine where
  memory := (Memory.empty.newScope globals).2
  chain := globalChain
  callDepth := 0
  events := #[]
  draws := 0

/-- A new session. -/
def Session.create (options : Options) : Except SetupError Session :=
  match callDepthOf options.maxCallDepth with
  | .error e => .error e
  | .ok maxCallDepth =>
    match globalsOf options with
    | .error e => .error e
    | .ok globals =>
      .ok ⟨⟨options.host, maxCallDepth⟩, options.echo, Machine.initial globals, .empty⟩

/-- The globals of a session. -/
def Session.globals (s : Session) : Table Value := s.machine.memory.scope globalScope

/-! ## Running an input -/

/-- What becomes of an input. -/
inductive RunResult
  | ok
  | syntaxErrors (errors : List SourceError)
  | staticErrors (errors : List StaticError)
  | runtimeError (e : RuntimeError)

namespace RunResult

def status : RunResult → String
  | .ok => "ok"
  | .syntaxErrors _ => "syntax-error"
  | .staticErrors _ => "static-error"
  | .runtimeError _ => "runtime-error"

/-- The errors of a result. -/
def diagnostics : RunResult → List Diagnostic
  | .ok => []
  | .syntaxErrors errors => errors.map (·.diagnostic)
  | .staticErrors errors => errors.map (·.diagnostic)
  | .runtimeError e => [e.diagnostic]

/-- What is shown to the user about a result. -/
def lines (r : RunResult) : List String := r.diagnostics.map (·.display)

end RunResult

/-- Executes a program, whose jumps must all stay inside it. -/
def executeProgram (setting : Setting) (fuel : Nat) (p : Program) : Eval Unit := do
  match ← executeAll setting fuel p.body with
  | .normal => pure ()
  | flow => Eval.defect (.escapedTopLevel flow.keyword) none

/-- Executes a program. With echo, a program that is a single expression statement prints its value
instead. -/
def runProgram (setting : Setting) (echo : Bool) (fuel : Nat) (p : Program) : Eval Unit :=
  match echo, p.body with
  | true, [.stmt (.expression e _)] => do
    let v ← evaluate setting fuel e
    Eval.print setting.host v.text
  | _, _ => executeProgram setting fuel p

/-- The result of a run. Runtime errors are results; a host that runs out of stack outside every
call is a stack overflow without a place. What else stops the run is no result. -/
def RunResult.ofEval : EStateM.Result Stop Machine Unit → Except Stop RunResult × Machine
  | .ok () m => (.ok .ok, m)
  | .error (.failure (.runtime e)) m => (.ok (.runtimeError e), m)
  | .error (.failure .stackExhausted) m => (.ok (.runtimeError ⟨.stackOverflow, none⟩), m)
  | .error stop m => (.error stop, m)

/-- A source text as a program that may be executed, or the result that says why not, with the table
behind it. The depths of a program stay in the table when the program turns out not to be allowed. -/
def Resolutions.compile (r : Resolutions) (source : List Char) :
    Except RunResult Program × Resolutions :=
  let recovered := Program.recover source
  if recovered.success then
    let (checked, r) := r.resolve recovered.program
    if checked.errors.isEmpty then (.ok checked.value, r)
    else (.error (.staticErrors checked.errors), r)
  else (.error (.syntaxErrors recovered.errors), r)

/-- Runs an input with a bound on the recursion of the evaluator. -/
def Session.runWith (fuel : Nat) (s : Session) (source : List Char) :
    Except Stop RunResult × Session :=
  let (compiled, resolutions) := s.resolutions.compile source
  match compiled with
  | .error result => (.ok result, { s with resolutions })
  | .ok p =>
    let (result, machine) := RunResult.ofEval (runProgram s.setting s.echo fuel p s.machine)
    (result, { s with machine, resolutions })

/-- A bound that no run reaches that ends in practice. -/
def ampleFuel : Nat := Nat.pow 2 62

/-- Runs an input. -/
def Session.run (s : Session) (source : List Char) : Except Stop RunResult × Session :=
  s.runWith ampleFuel source

/-- Runs a source text in a session of its own, without echo. -/
def runSource (options : Options) (source : List Char) :
    Except SetupError (Except Stop RunResult × Session) :=
  (Session.create { options with echo := false }).map (·.run source)

end Lox
