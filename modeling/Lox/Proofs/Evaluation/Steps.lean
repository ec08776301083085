import Lox.Proofs.Evaluation.Primitives

/-!
# The steps of the evaluator

Whatever the evaluator does is put together from a few steps of the machine. So what holds of these
steps, and is kept when computations are put together, holds of every call of the evaluator, by
induction on the bound on its recursion. A property of that kind is proved here once and for all of
the constructs of the language; it remains to look at the steps.

## Contents
- `QuietClosed`: properties that the steps have that the outside does not notice, and that composition
  keeps.
- `QuietClosed.superMethod` to `QuietClosed.silent`: the parts of constructs.
- `StepClosed`: properties that all steps have and that composition keeps.
- `Everywhere`, `StepClosed.everywhere`: every call of the evaluator.
- `UnaryOp.of_apply`, `BinaryOp.of_apply`: what operators yield.
-/

namespace Lox

/-! ## Operators -/

section Operators

variable {P : Value → Prop} (hbool : ∀ b, P (.bool b)) (hnumber : ∀ x, P (.number x))

include hbool hnumber

/-- An operator yields a truth value or a number. -/
theorem UnaryOp.of_apply {op : UnaryOp} {v w : Value} (heq : op.apply v = .ok w) : P w := by
  unfold UnaryOp.apply at heq
  split at heq
  · cases heq
    exact hbool _
  · cases heq
    exact hnumber _
  · exact nomatch heq

/-- An operator yields a truth value, a number or a text. -/
theorem BinaryOp.of_apply (hstring : ∀ s, P (.string s)) {op : BinaryOp} {v v' w : Value}
    (heq : op.apply v v' = .ok w) : P w := by
  have hnumbers {f : Float → Float → Value} (heq : onNumbers f v v' = .ok w)
      (hf : ∀ x y, P (f x y)) : P w := by
    unfold onNumbers at heq
    split at heq
    · cases heq
      exact hf _ _
    · exact nomatch heq
  cases op with
  | equal | notEqual =>
      cases heq
      exact hbool _
  | add =>
      change addValues v v' = .ok w at heq
      unfold addValues at heq
      split at heq
      · cases heq
        exact hnumber _
      · cases heq
        exact hstring _
      · exact nomatch heq
  | subtract | multiply | divide => exact hnumbers heq fun _ _ => hnumber _
  | less | lessEqual | greater | greaterEqual => exact hnumbers heq fun _ _ => hbool _

end Operators

/-- A built-in function that shows nothing to the outside. -/
def Builtin.Silent : Builtin → Prop
  | .clock | .type | .round | .rand | .randint => True
  | .help | .exit | .quit | .dir => False

namespace Evaluation

/-! ## Properties that composition keeps -/

/-- A property of computations that the steps of a machine have that show nothing to the outside and
stay in their scopes and calls, and that is kept when computations follow each other. -/
structure QuietClosed (P : ⦃α : Type⦄ → Eval α → Prop) : Prop where
  pure : ∀ {α : Type} (a : α), P (Pure.pure a : Eval α)
  bind : ∀ {α β : Type} {x : Eval α} {f : α → Eval β}, P x → (∀ a, P (f a)) → P (x >>= f)
  raise : ∀ {α : Type} (f : Failure), P (Eval.raise f : Eval α)
  machine : P (get : Eval Machine)
  chain : P Eval.chain
  newScope : ∀ bindings : Table Value, P (Eval.take (·.newScope bindings))
  newInstance : ∀ c : Class, P (Eval.take (·.newInstance c))
  newId : P (Eval.take (·.newId))
  setField : ∀ (i : Instance) (name : String) (v : Value), P (Eval.modifyMemory (·.setField i name v))
  define : ∀ (name : String) (v : Value), P (Eval.define name v)
  lookUp : ∀ (name : String) (depth : Option Nat) (location : Location),
    P (Eval.lookUp name depth location)
  assign : ∀ (name : String) (depth : Option Nat) (v : Value) (location : Location),
    P (Eval.assign name depth v location)
  draw : P Eval.draw

/-- A property of computations that the steps of a machine have, and that is kept by all ways to put
computations together. -/
structure StepClosed (setting : Setting) (P : ⦃α : Type⦄ → Eval α → Prop) : Prop where
  pure : ∀ {α : Type} (a : α), P (Pure.pure a : Eval α)
  bind : ∀ {α β : Type} {x : Eval α} {f : α → Eval β}, P x → (∀ a, P (f a)) → P (x >>= f)
  raise : ∀ {α : Type} (f : Failure), P (Eval.raise f : Eval α)
  exhausted : ∀ {α : Type}, P (throw .outOfFuel : Eval α)
  machine : P (get : Eval Machine)
  chain : P Eval.chain
  newScope : ∀ bindings : Table Value, P (Eval.take (·.newScope bindings))
  newInstance : ∀ c : Class, P (Eval.take (·.newInstance c))
  newId : P (Eval.take (·.newId))
  setField : ∀ (i : Instance) (name : String) (v : Value), P (Eval.modifyMemory (·.setField i name v))
  define : ∀ (name : String) (v : Value), P (Eval.define name v)
  lookUp : ∀ (name : String) (depth : Option Nat) (location : Location),
    P (Eval.lookUp name depth location)
  assign : ∀ (name : String) (depth : Option Nat) (v : Value) (location : Location),
    P (Eval.assign name depth v location)
  within : ∀ {α : Type} (c : Chain) {x : Eval α}, P x → P (Eval.within c x)
  inCall : ∀ {α : Type} (location : Location) {x : Eval α}, P x →
    P (Eval.inCall setting.maxCallDepth location x)
  print : ∀ text : String, P (Eval.print setting.host text)
  exit : ∀ code : Float, P (Eval.exit setting.host code)
  draw : P Eval.draw

/-- A property that every call of the evaluator with a given bound on the recursion has. -/
structure Everywhere (setting : Setting) (P : ⦃α : Type⦄ → Eval α → Prop) (n : Nat) : Prop where
  evaluate : ∀ e, P (evaluate setting n e)
  evaluateAll : ∀ es, P (evaluateAll setting n es)
  callValue : ∀ callee args location, P (callValue setting n callee args location)
  invoke : ∀ callee args location, P (invoke setting n callee args location)
  callFunction : ∀ closure args receiver, P (callFunction setting n closure args receiver)
  instantiate : ∀ c args, P (instantiate setting n c args)
  execute : ∀ s, P (execute setting n s)
  executeLoop : ∀ condition body increment, P (executeLoop setting n condition body increment)
  executeDecl : ∀ d, P (executeDecl setting n d)
  executeAll : ∀ ds, P (executeAll setting n ds)

namespace QuietClosed

variable {P : ⦃α : Type⦄ → Eval α → Prop} (h : QuietClosed P)

include h

/-! ## Parts of constructs -/

theorem raiseAt {α : Type} (location : Location) (cause : RuntimeError.Cause) :
    P (Eval.raiseAt location cause : Eval α) := h.raise _

theorem defect {α : Type} (d : Defect) (location : Option Location) :
    P (Eval.defect d location : Eval α) := h.raise _

theorem liftAt {α : Type} (location : Location) (result : Except RuntimeError.Cause α) :
    P (Eval.liftAt location result) := by
  cases result with
  | ok a => exact h.pure a
  | error cause => exact h.raiseAt location cause

theorem enter (bindings : Table Value) (outer : Chain) : P (Eval.enter bindings outer) :=
  h.bind (h.newScope bindings) fun _ => h.pure _

/-- A new method value. -/
theorem method (closure : Closure) (i : Instance) :
    P (Eval.take (·.newId) >>= fun id => Pure.pure (Value.method id closure i)) :=
  h.bind h.newId fun _ => h.pure _

theorem superMethod (depth : Option Nat) (method : String) (location : Location) :
    P (Eval.superMethod depth method location) := by
  unfold Eval.superMethod
  split
  · exact h.defect _ _
  · exact h.defect _ _
  · refine h.bind (h.lookUp _ _ _) fun superclass => h.bind (h.lookUp _ _ _) fun receiver => ?_
    split
    · split
      · exact h.method _ _
      · exact h.raiseAt _ _
    · exact h.defect _ _

theorem property (object : Value) (name : String) (location : Location) :
    P (Eval.property object name location) := by
  unfold Eval.property
  split
  · refine h.bind h.machine fun s => ?_
    split
    · exact h.pure _
    · split
      · exact h.method _ _
      · exact h.raiseAt _ _
  · exact h.raiseAt _ _

theorem fieldOwner (object : Value) (location : Location) :
    P (Eval.fieldOwner object location) := by
  unfold Eval.fieldOwner
  split
  · exact h.pure _
  · exact h.raiseAt _ _

theorem superclassOf (superclass : Option NameUse) : P (Eval.superclassOf superclass) := by
  cases superclass with
  | none => exact h.pure none
  | some use =>
      refine h.bind (h.lookUp _ _ _) fun v => ?_
      split
      · exact h.pure _
      · exact h.raiseAt _ _

theorem methodChain (superclass : Option Class) : P (Eval.methodChain superclass) := by
  cases superclass with
  | none => exact h.chain
  | some c => exact h.bind h.chain fun outer => h.enter _ outer

theorem declareClass (name : String) (superclass : Option NameUse) (methods : List FunctionDecl) :
    P (Eval.declareClass name superclass methods) := by
  refine h.bind (h.superclassOf superclass) fun c => h.bind (h.define name .nil) fun _ => ?_
  refine h.bind (h.methodChain c) fun seen => h.bind h.newId fun id => ?_
  exact h.define name _

theorem bodyChain (closure : Closure) (args : List Value) (receiver : Option Instance) :
    P (Eval.bodyChain closure args receiver) := by
  cases receiver with
  | none => exact h.bind (h.pure closure.chain) fun outer => h.enter _ outer
  | some i => exact h.bind (h.enter _ closure.chain) fun outer => h.enter _ outer

theorem callResult (closure : Closure) (receiver : Option Instance) (flow : Flow) :
    P (Eval.callResult closure receiver flow) := by
  unfold Eval.callResult
  split
  · cases receiver with
    | none => exact h.pure _
    | some i => exact h.pure _
  · cases flow with
    | normal => exact h.pure _
    | «return» value => exact h.pure _
    | «break» | «continue» => exact h.defect _ _

/-- The arguments of a built-in function, looked at. -/
theorem checked {α : Type} (b : Builtin) (location : Location) (result : Except String α) :
    P (Builtin.checked b location result) := h.liftAt location _

/-- A built-in function that shows nothing. -/
theorem silent (host : Host) {b : Builtin} (hb : b.Silent) (args : List Value)
    (location : Location) : P (b.call host args location) := by
  cases b with
  | clock | rand => exact h.bind h.draw fun _ => h.pure _
  | type => exact h.pure _
  | round => exact h.bind (h.checked _ _ _) fun _ => h.pure _
  | randint => exact h.bind (h.checked _ _ _) fun _ => h.bind h.draw fun _ => h.pure _
  | help | exit | quit | dir => exact hb.elim

end QuietClosed

namespace StepClosed

variable {setting : Setting} {P : ⦃α : Type⦄ → Eval α → Prop} (h : StepClosed setting P)

include h

/-- The steps that the outside does not notice are among all steps. -/
theorem quiet : QuietClosed P :=
  ⟨h.pure, h.bind, h.raise, h.machine, h.chain, h.newScope, h.newInstance, h.newId, h.setField,
    h.define, h.lookUp, h.assign, h.draw⟩

/-! ## Native functions -/

theorem printAll (texts : List String) : P (Eval.printAll setting.host texts) := by
  induction texts with
  | nil => exact h.pure ()
  | cons text texts ih => exact h.bind (h.print text) fun _ => ih

theorem builtin (b : Builtin) (args : List Value) (location : Location) :
    P (b.call setting.host args location) := by
  cases b with
  | clock | type | round | rand | randint =>
      exact h.quiet.silent setting.host (by trivial) args location
  | help => exact h.bind (h.print _) fun _ => h.pure _
  | exit => exact h.bind (h.quiet.checked _ _ _) fun code => h.bind (h.exit code) fun _ => h.pure _
  | quit => exact h.bind (h.exit 0) fun _ => h.pure _
  | dir => exact h.bind h.machine fun _ => h.bind (h.printAll _) fun _ => h.pure _

theorem callNative (n : Native) (args : List Value) (location : Location) :
    P (Eval.callNative setting.host n args location) := by
  unfold Eval.callNative
  cases n.body with
  | builtin b => exact h.builtin b args location
  | host =>
      refine h.bind h.machine fun s => h.bind h.draw fun turn => h.bind (h.printAll _) fun _ => ?_
      split
      · exact h.pure _
      · exact h.raise _

/-! ## One call of the evaluator -/

variable {n : Nat} (inside : Everywhere setting P n)

include inside

/-- **An expression**, when its parts and the calls in it have the property. -/
theorem evaluate (e : Expr) : P (evaluate setting (n + 1) e) := by
  cases e with
  | literal value span => exact h.pure _
  | grouping inner span => exact inside.evaluate inner
  | unary op operand span => exact h.bind (inside.evaluate operand) fun v => h.quiet.liftAt _ _
  | binary op left right span =>
      exact h.bind (inside.evaluate left) fun v => h.bind (inside.evaluate right) fun w =>
        h.quiet.liftAt _ _
  | logical op left right span =>
      refine h.bind (inside.evaluate left) fun v => ?_
      split
      · exact h.pure v
      · exact inside.evaluate right
  | «variable» use => exact h.lookUp _ _ _
  | assign name depth value span =>
      exact h.bind (inside.evaluate value) fun v => h.bind (h.assign _ _ _ _) fun _ => h.pure v
  | call callee args span =>
      exact h.bind (inside.evaluate callee) fun f => h.bind (inside.evaluateAll args) fun vs =>
        inside.callValue f vs span.start
  | get object name span => exact h.bind (inside.evaluate object) fun o => h.quiet.property _ _ _
  | set object name value span =>
      refine h.bind (inside.evaluate object) fun o => h.bind (h.quiet.fieldOwner o span.start) fun i => ?_
      exact h.bind (inside.evaluate value) fun v => h.bind (h.setField i name v) fun _ => h.pure v
  | this depth span => exact h.lookUp _ _ _
  | super depth method span => exact h.quiet.superMethod _ _ _

theorem evaluateAll (es : List Expr) : P (evaluateAll setting (n + 1) es) := by
  cases es with
  | nil => exact h.pure []
  | cons e es =>
      exact h.bind (inside.evaluate e) fun v => h.bind (inside.evaluateAll es) fun vs => h.pure _

theorem callValue (callee : Value) (args : List Value) (location : Location) :
    P (callValue setting (n + 1) callee args location) := by
  unfold Lox.callValue
  split
  · exact h.quiet.raiseAt _ _
  · split
    · exact h.inCall location (inside.invoke _ args location)
    · exact h.quiet.raiseAt _ _

theorem invoke (callee : Callable) (args : List Value) (location : Location) :
    P (invoke setting (n + 1) callee args location) := by
  cases callee with
  | function closure => exact inside.callFunction closure args none
  | method closure receiver => exact inside.callFunction closure args (some receiver)
  | «class» c => exact inside.instantiate c args
  | native native => exact h.callNative native args location

/-- **A function**, when its body has the property. -/
theorem callFunction (closure : Closure) (args : List Value) (receiver : Option Instance) :
    P (callFunction setting (n + 1) closure args receiver) := by
  refine h.bind (h.quiet.bodyChain closure args receiver) fun seen => ?_
  exact h.bind (h.within seen (inside.executeAll _)) fun flow => h.quiet.callResult _ _ flow

theorem instantiate (c : Class) (args : List Value) : P (instantiate setting (n + 1) c args) := by
  refine h.bind (h.newInstance c) fun i => ?_
  split
  · exact h.bind (inside.callFunction _ args (some i)) fun _ => h.pure _
  · exact h.pure _

/-- **A statement**, when its parts have the property. -/
theorem execute (s : Stmt) : P (execute setting (n + 1) s) := by
  cases s with
  | expression value span => exact h.bind (inside.evaluate value) fun _ => h.pure _
  | print value span =>
      exact h.bind (inside.evaluate value) fun v => h.bind (h.print v.text) fun _ => h.pure _
  | block body span =>
      refine h.bind h.chain fun outer => h.bind (h.quiet.enter _ outer) fun inner => ?_
      exact h.within inner (inside.executeAll body)
  | ifThenElse condition thenBranch elseBranch span =>
      refine h.bind (inside.evaluate condition) fun v => ?_
      split
      · exact inside.execute thenBranch
      · cases elseBranch with
        | none => exact h.pure _
        | some s => exact inside.execute s
  | whileLoop condition body increment span => exact inside.executeLoop condition body increment
  | «break» span => exact h.pure _
  | «continue» span => exact h.pure _
  | «return» value span =>
      cases value with
      | none => exact h.pure _
      | some e => exact h.bind (inside.evaluate e) fun v => h.pure _

/-- **A round of a loop and those that follow.** -/
theorem executeLoop (condition : Expr) (body : Stmt) (increment : Option Expr) :
    P (executeLoop setting (n + 1) condition body increment) := by
  refine h.bind (inside.evaluate condition) fun v => ?_
  split
  · refine h.bind (inside.execute body) fun flow => ?_
    cases flow with
    | normal | «continue» =>
        cases increment with
        | none => exact inside.executeLoop condition body none
        | some e => exact h.bind (inside.evaluate e) fun _ => inside.executeLoop condition body _
    | «break» => exact h.pure _
    | «return» value => exact h.pure _
  · exact h.pure _

/-- **A declaration**, when its parts have the property. -/
theorem executeDecl (d : Decl) : P (executeDecl setting (n + 1) d) := by
  cases d with
  | var name initial span =>
      cases initial with
      | none => exact h.bind (h.define name .nil) fun _ => h.pure _
      | some e =>
          exact h.bind (inside.evaluate e) fun v => h.bind (h.define name v) fun _ => h.pure _
  | function decl =>
      refine h.bind h.newId fun id => h.bind h.chain fun seen => ?_
      exact h.bind (h.define decl.name _) fun _ => h.pure _
  | «class» name superclass methods span =>
      exact h.bind (h.quiet.declareClass name superclass methods) fun _ => h.pure _
  | stmt s => exact inside.execute s

theorem executeAll (ds : List Decl) : P (executeAll setting (n + 1) ds) := by
  cases ds with
  | nil => exact h.pure _
  | cons d ds =>
      refine h.bind (inside.executeDecl d) fun flow => ?_
      cases flow with
      | normal => exact inside.executeAll ds
      | «break» | «continue» | «return» value => exact h.pure _

omit inside

/-! ## Every call of the evaluator -/

/-- **What the steps have, every call of the evaluator has.** -/
theorem everywhere (n : Nat) : Everywhere setting P n := by
  induction n with
  | zero =>
      -- without fuel every call of the evaluator stops at once
      exact ⟨fun _ => h.exhausted, fun _ => h.exhausted, fun _ _ _ => h.exhausted,
        fun _ _ _ => h.exhausted, fun _ _ _ => h.exhausted, fun _ _ => h.exhausted,
        fun _ => h.exhausted, fun _ _ _ => h.exhausted, fun _ => h.exhausted,
        fun _ => h.exhausted⟩
  | succ n inside =>
      exact ⟨h.evaluate inside, h.evaluateAll inside, h.callValue inside, h.invoke inside,
        h.callFunction inside, h.instantiate inside, h.execute inside, h.executeLoop inside,
        h.executeDecl inside, h.executeAll inside⟩

end StepClosed

end Evaluation

end Lox
