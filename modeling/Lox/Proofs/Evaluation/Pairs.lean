import Lox.Proofs.Evaluation.Likeness
import Lox.Proofs.Sequencing

/-!
# Pairs of computations

When two runs are compared, the machines of both are kept in some relation, and which one it is depends
on the programs. Much of what the evaluator does sees little of this: a property is read, a method is
made, a built-in function or the host is called, while no scope is looked into. Such parts of constructs
do the same in both runs whenever a few steps do.

The worlds are what the relation of the machines depends on. They grow as the runs go on, and functions
that are related stay so.

## Contents
- `Machine.Like`: what machines have in common in every comparison.
- `PairClosed`: relations of computations that hold of a few steps and are kept by sequences.
- `PairClosed.methodOf`, `PairClosed.superMethod`, `PairClosed.property`: methods and properties.
- `PairClosed.builtin`, `PairClosed.callNative`: native functions.
-/

namespace Lox

/-- Two machines in which native functions find the same, and whose instances have fields with values
that are alike. -/
structure Machine.Like (K : FunctionRel) (m m' : Machine) : Prop where
  fields : Table.RenamedAll (fun _ => .same) (Value.Like K) m.memory.fields m'.memory.fields
  globalNames_eq : (m'.memory.scope globalScope).names = (m.memory.scope globalScope).names
  callDepth_eq : m'.callDepth = m.callDepth
  events_eq : m'.events = m.events

theorem Machine.Like.get?_fieldsOf {K : FunctionRel} {m m' : Machine} (h : m.Like K m')
    {i i' : Instance} (hi : i.Like K i') (name : String) :
    Option.Rel (Value.Like K) ((m.memory.fieldsOf i).get? name)
      ((m'.memory.fieldsOf i').get? name) := by
  cases hi with
  | mk id hclass =>
      have hfields := h.fields.renamed id
      have hget := hfields.get? name
      rwa [Naming.same_of] at hget

/-- A host that cannot tell functions apart that are related: given values that are alike, it prints the
same, and answers with such values again. -/
def Host.AnswersAlike (host : Host) (K : FunctionRel) : Prop :=
  ∀ (name : String) (args args' : List Value) (location : Location) (callDepth : Nat)
    (history : Array Event) (turn : Nat), LikeValues K args args' →
    (host.call name ⟨args', location, callDepth, history, turn⟩).printed =
        (host.call name ⟨args, location, callDepth, history, turn⟩).printed ∧
      RenamedResult (Value.Like K)
        (host.call name ⟨args, location, callDepth, history, turn⟩).result
        (host.call name ⟨args', location, callDepth, history, turn⟩).result

namespace Evaluation

/-- A relation `F` of computations of two runs that holds of the steps below, and is kept when related
computations follow each other. In a world `w`, functions are related by `K w`, and `F w R` relates
computations whose results are related by `R`, in the world in which they end. -/
structure PairClosed {W : Type} (le : W → W → Prop) (K : W → FunctionRel)
    (F : ∀ ⦃α β : Type⦄, W → (W → α → β → Prop) → Eval α → Eval β → Prop) : Prop where
  trans : ∀ {w w' w'' : W}, le w w' → le w' w'' → le w w''
  mono : ∀ {w w' : W} {isMethod : Bool} {c c' : Closure}, le w w' → K w isMethod c c' →
    K w' isMethod c c'
  pure : ∀ {α β : Type} {w : W} {R : W → α → β → Prop} {a : α} {b : β}, R w a b →
    F w R (Pure.pure a) (Pure.pure b)
  bind : ∀ {α β γ δ : Type} {w : W} {R : W → α → β → Prop} {S : W → γ → δ → Prop} {x : Eval α}
    {y : Eval β} {k : α → Eval γ} {l : β → Eval δ}, F w R x y →
    (∀ w' a b, le w w' → R w' a b → F w' S (k a) (l b)) → F w S (x >>= k) (y >>= l)
  raise : ∀ {α β : Type} {w : W} {R : W → α → β → Prop} (f : Failure),
    F w R (Eval.raise f) (Eval.raise f)
  machine : ∀ {w : W}, F w (fun w' => Machine.Like (K w')) get get
  newId : ∀ {w : W}, F w (fun _ id id' => id' = id) (Eval.take (·.newId)) (Eval.take (·.newId))
  draw : ∀ {w : W}, F w (fun _ n n' => n' = n) Eval.draw Eval.draw
  print : ∀ {w : W} (host : Host) (text : String),
    F w (fun _ _ _ => True) (Eval.print host text) (Eval.print host text)
  exit : ∀ {w : W} (host : Host) (code : Float),
    F w (fun _ _ _ => True) (Eval.exit host code) (Eval.exit host code)

namespace PairClosed

variable {W : Type} {le : W → W → Prop} {K : W → FunctionRel}
  {F : ∀ ⦃α β : Type⦄, W → (W → α → β → Prop) → Eval α → Eval β → Prop}
  (h : PairClosed le K F) {w : W}

include h

/-! ## Methods and properties -/

/-- A new method value. -/
theorem method {closure closure' : Closure} (hclosure : closure.Like (K w) true closure')
    {i i' : Instance} (hi : i.Like (K w) i') :
    F w (fun w' => Value.Like (K w'))
      (Eval.take (·.newId) >>= fun id => Pure.pure (Value.method id closure i))
      (Eval.take (·.newId) >>= fun id => Pure.pure (Value.method id closure' i')) := by
  refine h.bind h.newId fun w' id id' hle hid => ?_
  have hclosure' := hclosure.mono (h.mono hle)
  have hi' := hi.mono (h.mono hle)
  rw [hid]
  exact h.pure (.method id hclosure' hi')

/-- A method that is looked up in a class, for an instance. -/
theorem methodOf {c c' : Class} (hc : c.Like (K w) c') {i i' : Instance} (hi : i.Like (K w) i')
    (name : String) (location : Location) :
    F w (fun w' => Value.Like (K w'))
      (match c.findMethod? name with
        | some closure => do
          let id ← Eval.take (·.newId)
          Pure.pure (.method id closure i)
        | none => Eval.raiseAt location (.undefinedProperty name))
      (match c'.findMethod? name with
        | some closure => do
          let id ← Eval.take (·.newId)
          Pure.pure (.method id closure i')
        | none => Eval.raiseAt location (.undefinedProperty name)) := by
  rcases Table.cases_of_rel (hc.findMethod? name) with
    ⟨hnone, hnone'⟩ | ⟨closure, closure', hsome, hsome', hclosure⟩
  · rw [hnone, hnone']
    exact h.raise _
  · rw [hsome, hsome']
    exact h.method hclosure hi

/-- **The method that `super` selects**, where both runs find alike what lies under `super` and under
`this`. The depths may differ. -/
theorem superMethod {depth depth' : Nat} (name : String) {location : Location}
    (hsuper : F w (fun w' => Value.Like (K w')) (Eval.lookUp "super" (some (depth + 1)) location)
      (Eval.lookUp "super" (some (depth' + 1)) location))
    (hthis : ∀ w', le w w' → F w' (fun w' => Value.Like (K w'))
      (Eval.lookUp "this" (some depth) location) (Eval.lookUp "this" (some depth') location)) :
    F w (fun w' => Value.Like (K w')) (Eval.superMethod (some (depth + 1)) name location)
      (Eval.superMethod (some (depth' + 1)) name location) := by
  refine h.bind hsuper fun w₁ superclass superclass' hle₁ hclass => ?_
  refine h.bind (hthis w₁ hle₁) fun w₂ receiver receiver' hle₂ hreceiver => ?_
  cases hclass with
  | «class» hc =>
      cases hreceiver with
      | «instance» hi => exact h.methodOf (hc.mono (h.mono hle₂)) hi name location
      | _ => exact h.raise _
  | _ => exact h.raise _

/-- **A property** is a field in both runs, or a method in both. -/
theorem property {object object' : Value} (hobject : object.Like (K w) object') (name : String)
    (location : Location) :
    F w (fun w' => Value.Like (K w')) (Eval.property object name location)
      (Eval.property object' name location) := by
  cases hobject with
  | «instance» hi =>
      refine h.bind h.machine fun w' m m' hle hm => ?_
      have hi' := hi.mono (h.mono hle)
      rcases Table.cases_of_rel (hm.get?_fieldsOf hi' name) with
        ⟨hnone, hnone'⟩ | ⟨v, v', hsome, hsome', hv⟩
      · rw [hnone, hnone']
        cases hi' with
        | mk id hc => exact h.methodOf hc (.mk id hc) name location
      · rw [hsome, hsome']
        exact h.pure hv
  | _ => exact h.raise _

/-! ## Native functions -/

/-- A check of the arguments of a built-in function, which yields no value of the language. -/
theorem checked {α : Type} (b : Builtin) (location : Location) (result : Except String α) :
    F w (fun _ a a' => a' = a) (b.checked location result) (b.checked location result) := by
  cases result with
  | ok a => exact h.pure rfl
  | error reason => exact h.raise _

theorem printAll (host : Host) (texts : List String) :
    F w (fun _ _ _ => True) (Eval.printAll host texts) (Eval.printAll host texts) := by
  induction texts generalizing w with
  | nil => exact h.pure trivial
  | cons text texts ih => exact h.bind (h.print host text) fun _ _ _ _ _ => ih

/-- **A built-in function** finds out about its arguments only what is the same for both. -/
theorem builtin (host : Host) (b : Builtin) {args args' : List Value}
    (hargs : LikeValues (K w) args args') (location : Location) :
    F w (fun w' => Value.Like (K w')) (b.call host args location) (b.call host args' location) := by
  have hfirst := LikeValues.headD hargs
  have hsecond := LikeValues.headD (LikeValues.tail hargs)
  -- what is found out about the arguments is no function, and so the same for both
  unfold Builtin.call
  cases b with
  | clock | rand =>
      refine h.bind h.draw fun _ n n' _ hn => ?_
      rw [hn]
      exact h.pure (.number _)
  | type =>
      dsimp only
      rw [hfirst.typeName_eq]
      exact h.pure (.string _)
  | round =>
      dsimp only
      rw [Builtin.rounded_like hfirst hsecond]
      refine h.bind (h.checked _ _ _) fun _ x x' _ hx => ?_
      rw [hx]
      exact h.pure (.number _)
  | randint =>
      dsimp only
      rw [Builtin.bounds_like hfirst hsecond]
      refine h.bind (h.checked _ _ _) fun _ x x' _ hx => ?_
      refine h.bind h.draw fun _ n n' _ hn => ?_
      rw [hx, hn]
      exact h.pure (.number _)
  | help =>
      dsimp only
      rw [Builtin.helpText_like hfirst]
      exact h.bind (h.print host _) fun _ _ _ _ _ => h.pure .nil
  | exit =>
      dsimp only
      rw [Builtin.exitCode_like hfirst]
      refine h.bind (h.checked _ _ _) fun _ code code' _ hcode => ?_
      rw [hcode]
      exact h.bind (h.exit host _) fun _ _ _ _ _ => h.pure .nil
  | quit => exact h.bind (h.exit host 0) fun _ _ _ _ _ => h.pure .nil
  | dir =>
      refine h.bind h.machine fun w' m m' _ hm => ?_
      rw [hm.globalNames_eq]
      exact h.bind (h.printAll host _) fun _ _ _ _ _ => h.pure .nil

/-- **A native function** does the same in both runs, when its host cannot tell their functions apart. -/
theorem callNative {host : Host} (hhost : ∀ w, host.AnswersAlike (K w)) (n : Native)
    {args args' : List Value} (hargs : LikeValues (K w) args args') (location : Location) :
    F w (fun w' => Value.Like (K w')) (Eval.callNative host n args location)
      (Eval.callNative host n args' location) := by
  unfold Eval.callNative
  cases n.body with
  | builtin b => exact h.builtin host b hargs location
  | host =>
      refine h.bind h.machine fun w₁ m m' hle₁ hm => ?_
      refine h.bind h.draw fun w₂ turn turn' hle₂ hturn => ?_
      have hargs₂ := LikeValues.mono (h.mono (h.trans hle₁ hle₂)) hargs
      obtain ⟨hprinted, hresult⟩ := hhost w₂ n.name args args' location m.callDepth m.events turn
        hargs₂
      rw [hm.callDepth_eq, hm.events_eq, hturn]
      dsimp only
      rw [hprinted]
      refine h.bind (h.printAll host _) fun w₃ _ _ hle₃ _ => ?_
      generalize (host.call n.name ⟨args, location, m.callDepth, m.events, turn⟩).result = result,
        (host.call n.name ⟨args', location, m.callDepth, m.events, turn⟩).result = result' at hresult
      cases hresult with
      | ok hv => exact h.pure (hv.mono (h.mono hle₃))
      | error f => exact h.raise f

end PairClosed

end Evaluation

end Lox
