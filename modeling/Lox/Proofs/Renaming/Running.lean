import Lox.Proofs.Renaming.Steps

/-!
# Execution under other names

Every call of the evaluator follows the same call under other names, with the same fuel. The induction
is on the fuel, with one lemma for each function of the evaluator. What carries it is that the namings
that a piece of syntax was renamed with are those of the scopes that the machine sees.

## Contents
- `Beside`: the calls of the evaluator with a bound on the recursion.
- `Beside.evaluate_step` to `Beside.executeAll_step`: one for each function of the evaluator.
- `beside`: every call of the evaluator.
-/

namespace Lox

namespace Renaming

/-- The calls of the evaluator with the bound `n` on the recursion follow each other. -/
structure Beside (setting : Setting) (n : Nat) : Prop where
  evaluate : ∀ w fs e, Follows w fs Value.Renamed (evaluate setting n e)
    (evaluate setting n (e.rename fs))
  evaluateAll : ∀ w fs es, Follows w fs (fun w => List.Forall₂ (Value.Renamed w))
    (evaluateAll setting n es) (evaluateAll setting n (Expr.renameAll fs es))
  callValue : ∀ w fs callee callee' args args' location, callee.Renamed w callee' →
    List.Forall₂ (Value.Renamed w) args args' →
    Follows w fs Value.Renamed (callValue setting n callee args location)
      (callValue setting n callee' args' location)
  invoke : ∀ w fs callee callee' args args' location, callee.Renamed w callee' →
    List.Forall₂ (Value.Renamed w) args args' →
    Follows w fs Value.Renamed (invoke setting n callee args location)
      (invoke setting n callee' args' location)
  callFunction : ∀ w fs closure closure' args args' receiver receiver',
    closure.Renamed w receiver.isSome closure' → List.Forall₂ (Value.Renamed w) args args' →
    Option.Rel (Instance.Renamed w) receiver receiver' →
    Follows w fs Value.Renamed (callFunction setting n closure args receiver)
      (callFunction setting n closure' args' receiver')
  instantiate : ∀ w fs c c' args args', c.Renamed w c' → List.Forall₂ (Value.Renamed w) args args' →
    Follows w fs Value.Renamed (instantiate setting n c args) (instantiate setting n c' args')
  execute : ∀ w fs plan s, plan.Suits (fun way => s.scopeAt? way) →
    Follows w fs Flow.Renamed (execute setting n s) (execute setting n (s.rename plan fs))
  executeLoop : ∀ w fs plan condition body increment,
    plan.Suits (fun way => body.scopeAt? way) →
    Follows w fs Flow.Renamed (executeLoop setting n condition body increment)
      (executeLoop setting n (condition.rename fs) (body.rename plan fs)
        (increment.map (·.rename fs)))
  executeDecl : ∀ w fs plan d, d.KeepsName (fs.headD .same) →
    plan.Suits (fun way => d.scopeAt? way) →
    Follows w fs Flow.Renamed (executeDecl setting n d) (executeDecl setting n (d.rename plan fs))
  executeAll : ∀ w fs plan ds, (∀ d ∈ ds, d.KeepsName (fs.headD .same)) →
    plan.Suits (fun way => Decl.scopeIn? way ds) →
    Follows w fs Flow.Renamed (executeAll setting n ds)
      (executeAll setting n (Decl.renameAll plan fs ds))

section Step

open Follows

variable {setting : Setting} {n : Nat} (inside : Beside setting n) {w : World} {fs : List Naming}

include inside

/-- **An expression**, when its parts and the calls in it follow. -/
theorem Beside.evaluate_step (e : Expr) :
    Follows w fs Value.Renamed (Lox.evaluate setting (n + 1) e)
      (Lox.evaluate setting (n + 1) (e.rename fs)) := by
  cases e with
  | literal value span => exact pure (.ofLiteral value)
  | grouping inner span => exact inside.evaluate _ _ inner
  | unary op operand span =>
      refine (inside.evaluate _ _ operand).bind fun _ v v' _ hv => ?_
      exact liftAt span.start (op.apply_renamed hv)
  | binary op left right span =>
      refine (inside.evaluate _ _ left).bind fun _ u u' _ hu => ?_
      refine (inside.evaluate _ _ right).bind fun _ v v' hle hv => ?_
      exact liftAt span.start (op.apply_renamed (hu.mono hle) hv)
  | logical op left right span =>
      refine (inside.evaluate _ _ left).bind fun _ v v' _ hv => ?_
      rw [op.decides_renamed hv]
      split
      · exact pure hv
      · exact inside.evaluate _ _ right
  | «variable» use => exact lookUp use.name use.depth use.span.start
  | assign name depth value span =>
      refine (inside.evaluate _ _ value).bind fun _ v v' _ hv => ?_
      exact (assign name depth hv span.start).bind fun _ _ _ hle _ => pure (hv.mono hle)
  | call callee args span =>
      refine (inside.evaluate _ _ callee).bind fun _ f f' _ hf => ?_
      refine (inside.evaluateAll _ _ args).bind fun _ vs vs' hle hvs => ?_
      exact inside.callValue _ _ _ _ _ _ span.start (hf.mono hle) hvs
  | get object name span =>
      refine (inside.evaluate _ _ object).bind fun _ o o' _ ho => ?_
      exact property ho name span.start
  | set object name value span =>
      refine (inside.evaluate _ _ object).bind fun _ o o' _ ho => ?_
      refine (fieldOwner ho span.start).bind fun _ i i' _ hi => ?_
      refine (inside.evaluate _ _ value).bind fun _ v v' hle hv => ?_
      exact (setField (hi.mono hle) name hv).bind fun _ _ _ hle' _ => pure (hv.mono hle')
  | this depth span => exact lookUp_reserved (.inl rfl) depth span.start
  | super depth method span => exact superMethod depth method span.start

theorem Beside.evaluateAll_step (es : List Expr) :
    Follows w fs (fun w => List.Forall₂ (Value.Renamed w)) (Lox.evaluateAll setting (n + 1) es)
      (Lox.evaluateAll setting (n + 1) (Expr.renameAll fs es)) := by
  cases es with
  | nil => exact pure .nil
  | cons e es =>
      refine (inside.evaluate _ _ e).bind fun _ v v' _ hv => ?_
      refine (inside.evaluateAll _ _ es).bind fun _ vs vs' hle hvs => ?_
      exact pure (.cons (hv.mono hle) hvs)

theorem Beside.callValue_step {callee callee' : Value} (hcallee : callee.Renamed w callee')
    {args args' : List Value} (hargs : List.Forall₂ (Value.Renamed w) args args')
    (location : Location) :
    Follows w fs Value.Renamed (Lox.callValue setting (n + 1) callee args location)
      (Lox.callValue setting (n + 1) callee' args' location) := by
  unfold Lox.callValue
  rcases Table.cases_of_rel hcallee.callable? with ⟨hnone, hnone'⟩ | ⟨c, c', hsome, hsome', hc⟩
  · rw [hnone, hnone']
    exact raiseAt location _
  · rw [hsome, hsome']
    dsimp only
    rw [hc.arity_eq, hargs.length_eq]
    split
    · exact inCall _ location (inside.invoke _ _ _ _ _ _ location hc hargs)
    · exact raiseAt location _

theorem Beside.invoke_step (hhost : setting.host.IgnoresNames) {callee callee' : Callable}
    (hcallee : callee.Renamed w callee') {args args' : List Value}
    (hargs : List.Forall₂ (Value.Renamed w) args args') (location : Location) :
    Follows w fs Value.Renamed (Lox.invoke setting (n + 1) callee args location)
      (Lox.invoke setting (n + 1) callee' args' location) := by
  cases hcallee with
  | function hclosure => exact inside.callFunction _ _ _ _ _ _ none none hclosure hargs .none
  | method hclosure hreceiver =>
      exact inside.callFunction _ _ _ _ _ _ (some _) (some _) hclosure hargs (.some hreceiver)
  | «class» hc => exact inside.instantiate _ _ _ _ _ _ hc hargs
  | native native => exact callNative hhost native hargs location

/-- **A function**, when its body follows. -/
theorem Beside.callFunction_step {closure closure' : Closure} {args args' : List Value}
    {receiver receiver' : Option Instance}
    (hclosure : closure.Renamed w receiver.isSome closure')
    (hargs : List.Forall₂ (Value.Renamed w) args args')
    (hreceiver : Option.Rel (Instance.Renamed w) receiver receiver') :
    Follows w fs Value.Renamed (Lox.callFunction setting (n + 1) closure args receiver)
      (Lox.callFunction setting (n + 1) closure' args' receiver') := by
  have hclosure' := hclosure
  cases hclosure with
  | mk plan f chain isInitializer hbounds hsuits =>
      refine (bodyChain plan f isInitializer hbounds hargs hreceiver).bind
        fun w₁ seen seen' hle hseen => ?_
      obtain ⟨name, params, body, span⟩ := f
      obtain ⟨hkeeps, hbody⟩ := hsuits.body
      refine (within hseen (inside.executeAll _ _ plan body hkeeps hbody)).bind
        fun w₂ flow flow' hle' hflow => ?_
      refine callResult ((hclosure'.mono hle).mono hle') ?_ hflow
      cases hreceiver with
      | none => exact .none
      | some hi => exact .some ((hi.mono hle).mono hle')

theorem Beside.instantiate_step {c c' : Class} (hc : c.Renamed w c') {args args' : List Value}
    (hargs : List.Forall₂ (Value.Renamed w) args args') :
    Follows w fs Value.Renamed (Lox.instantiate setting (n + 1) c args)
      (Lox.instantiate setting (n + 1) c' args') := by
  refine (newInstance hc).bind fun w₁ i i' hle hi => ?_
  rcases Table.cases_of_rel (hc.findMethod? initializerName) with
    ⟨hnone, hnone'⟩ | ⟨closure, closure', hsome, hsome', hclosure⟩
  · rw [hnone, hnone']
    exact pure (.instance hi)
  · rw [hsome, hsome']
    refine (inside.callFunction _ _ _ _ _ _ (some i) (some i') (hclosure.mono hle)
      (renamedValues_mono hle hargs) (.some hi)).bind fun w₂ _ _ hle' _ => ?_
    exact pure (.instance (hi.mono hle'))

/-- **A statement**, when its parts follow. -/
theorem Beside.execute_step (s : Stmt) {plan : Plan}
    (hsuits : plan.Suits fun way => s.scopeAt? way) :
    Follows w fs Flow.Renamed (Lox.execute setting (n + 1) s)
      (Lox.execute setting (n + 1) (s.rename plan fs)) := by
  cases s with
  | expression value span =>
      exact (inside.evaluate _ _ value).bind fun _ _ _ _ _ => pure .normal
  | print value span =>
      refine (inside.evaluate _ _ value).bind fun _ v v' _ hv => ?_
      rw [hv.text_eq]
      exact (print setting.host _).bind fun _ _ _ _ _ => pure .normal
  | block body span =>
      obtain ⟨hkeeps, hbody⟩ := hsuits.body
      refine chain.bind fun _ outer outer' _ houter => ?_
      refine (enter (f := plan []) .empty houter).bind fun _ inner inner' _ hinner => ?_
      exact within hinner (inside.executeAll _ _ plan body hkeeps hbody)
  | ifThenElse condition thenBranch elseBranch span =>
      cases elseBranch with
      | none =>
          refine (inside.evaluate _ _ condition).bind fun _ v v' _ hv => ?_
          rw [hv.isTruthy_eq]
          split
          · exact inside.execute _ _ _ thenBranch hsuits.thenBranch
          · exact pure .normal
      | some s =>
          refine (inside.evaluate _ _ condition).bind fun _ v v' _ hv => ?_
          rw [hv.isTruthy_eq]
          split
          · exact inside.execute _ _ _ thenBranch hsuits.thenBranch
          · exact inside.execute _ _ _ s hsuits.elseBranch
  | whileLoop condition body increment span =>
      exact inside.executeLoop _ _ _ condition body increment hsuits.loop
  | «break» span => exact pure .break
  | «continue» span => exact pure .continue
  | «return» value span =>
      cases value with
      | none => exact pure (.return .nil)
      | some e => exact (inside.evaluate _ _ e).bind fun _ _ _ _ hv => pure (.return hv)

/-- **A round of a loop and those that follow.** -/
theorem Beside.executeLoop_step (condition : Expr) (body : Stmt) (increment : Option Expr)
    {plan : Plan} (hsuits : plan.Suits fun way => body.scopeAt? way) :
    Follows w fs Flow.Renamed (Lox.executeLoop setting (n + 1) condition body increment)
      (Lox.executeLoop setting (n + 1) (condition.rename fs) (body.rename plan fs)
        (increment.map (·.rename fs))) := by
  refine (inside.evaluate _ _ condition).bind fun _ v v' _ hv => ?_
  rw [hv.isTruthy_eq]
  split
  · refine (inside.execute _ _ plan body hsuits).bind fun _ flow flow' _ hflow => ?_
    cases hflow with
    | normal | «continue» =>
        cases increment with
        | none => exact inside.executeLoop _ _ plan condition body none hsuits
        | some e =>
            refine (inside.evaluate _ _ e).bind fun _ _ _ _ _ => ?_
            exact inside.executeLoop _ _ plan condition body (some e) hsuits
    | «break» => exact pure .normal
    | «return» hv => exact pure (.return hv)
  · exact pure .normal

/-- **A declaration**, when its parts follow. -/
theorem Beside.executeDecl_step (d : Decl) (hkeeps : d.KeepsName (fs.headD .same)) {plan : Plan}
    (hsuits : plan.Suits fun way => d.scopeAt? way) :
    Follows w fs Flow.Renamed (Lox.executeDecl setting (n + 1) d)
      (Lox.executeDecl setting (n + 1) (d.rename plan fs)) := by
  cases d with
  | var name initial span =>
      cases initial with
      | none => exact (define name .nil).bind fun _ _ _ _ _ => pure .normal
      | some e =>
          refine (inside.evaluate _ _ e).bind fun _ v v' _ hv => ?_
          exact (define name hv).bind fun _ _ _ _ _ => pure .normal
  | function decl =>
      refine newId.bind fun _ id id' _ hid => chain.bind fun w₂ seen seen' _ hseen => ?_
      obtain ⟨hchain, hbounds, halong⟩ := hseen
      cases hid
      cases hchain
      have hclosure : Closure.Renamed w₂ false ⟨decl, seen, false⟩
          ⟨decl.rename plan fs, seen, false⟩ := by
        rw [← halong]
        exact .mk plan decl seen false hbounds hsuits
      -- the function keeps its name, under which it is bound
      have hdefine : Follows w₂ fs Any _ _ := define decl.name (.function id hclosure)
      rw [show fs.headD .same decl.name = decl.name from hkeeps] at hdefine
      rw [decl.name_rename]
      exact hdefine.bind fun _ _ _ _ _ => pure .normal
  | «class» name superclass methods span =>
      exact (declareClass name hkeeps superclass hsuits.methods).bind fun _ _ _ _ _ => pure .normal
  | stmt s => exact inside.execute _ _ plan s hsuits

theorem Beside.executeAll_step (ds : List Decl) (hkeeps : ∀ d ∈ ds, d.KeepsName (fs.headD .same))
    {plan : Plan} (hsuits : plan.Suits fun way => Decl.scopeIn? way ds) :
    Follows w fs Flow.Renamed (Lox.executeAll setting (n + 1) ds)
      (Lox.executeAll setting (n + 1) (Decl.renameAll plan fs ds)) := by
  cases ds with
  | nil => exact pure .normal
  | cons d ds =>
      refine (inside.executeDecl _ _ _ d (hkeeps d List.mem_cons_self) hsuits.head).bind
        fun _ flow flow' _ hflow => ?_
      cases hflow with
      | normal =>
          exact inside.executeAll _ _ _ ds (fun d' hd' => hkeeps d' (List.mem_cons_of_mem _ hd'))
            hsuits.tail
      | «break» => exact pure .break
      | «continue» => exact pure .continue
      | «return» hv => exact pure (.return hv)

end Step

/-- **Every call of the evaluator follows the same call under other names.** -/
theorem beside {setting : Setting} (hhost : setting.host.IgnoresNames) (n : Nat) :
    Beside setting n := by
  induction n with
  | zero => constructor <;> intros <;> exact .outOfFuel
  | succ n inside =>
      exact ⟨fun _ _ e => inside.evaluate_step e, fun _ _ es => inside.evaluateAll_step es,
        fun _ _ _ _ _ _ location hcallee hargs => inside.callValue_step hcallee hargs location,
        fun _ _ _ _ _ _ location hcallee hargs => inside.invoke_step hhost hcallee hargs location,
        fun _ _ _ _ _ _ _ _ hclosure hargs hreceiver =>
          inside.callFunction_step hclosure hargs hreceiver,
        fun _ _ _ _ _ _ hc hargs => inside.instantiate_step hc hargs,
        fun _ _ _ s hsuits => inside.execute_step s hsuits,
        fun _ _ _ condition body increment hsuits =>
          inside.executeLoop_step condition body increment hsuits,
        fun _ _ _ d hkeeps hsuits => inside.executeDecl_step d hkeeps hsuits,
        fun _ _ _ ds hkeeps hsuits => inside.executeAll_step ds hkeeps hsuits⟩

end Renaming

end Lox
