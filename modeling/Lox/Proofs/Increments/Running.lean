import Lox.Proofs.Increments.Steps

/-!
# Execution with moved increments

The tasks of both runs are worked on in pairs: an expression with the same expression in other scopes, a
loop with its moved form. The scripts of a pair go side by side, action by action. Only a round of a
moved loop does not: there the second run opens a block, and works on body and increment inside of it.

The bounds on the recursion go along. In the first run a round takes one unit, for body and increment
alike; in the second one the increment lies six calls of the evaluator inside the round. So with six
times as much fuel the second run goes at least as far as the first one, and the first one goes as far
as the second with the same amount. Where nothing is moved, neither is short.

## Contents
- `Slack.Leaves`: how the fuel of the two runs compares.
- `TaskPair`: the tasks of both runs, and what they yield.
- `Matches`: scripts that go side by side, one lemma for each kind of task.
- `round_follows`: a round with the increment behind the body.
- `beside`: every pair of tasks.
-/

namespace Lox.Increments

open Scopes Evaluation

/-! ## Fuel -/

namespace Slack

/-- Increments may be moved where one of the runs may be short of fuel. -/
def moves : Slack → Bool
  | .none => false
  | .first | .second => true

/-- How the bounds `n` and `n'` on the recursion compare, when the second run still has to go `k` calls
of the evaluator deeper to be where the first one is. -/
def Leaves (slack : Slack) (k n n' : Nat) : Prop :=
  match slack with
  | .none => k = 0 ∧ n' = n
  | .first => 6 * n + k ≤ n'
  | .second => n' ≤ n

theorem leaves_none (n : Nat) : Slack.none.Leaves 0 n n := ⟨rfl, rfl⟩

theorem leaves_first (n : Nat) : Slack.first.Leaves 0 n (6 * n) := Nat.le_refl _

theorem leaves_second (n : Nat) : Slack.second.Leaves 0 n n := Nat.le_refl _

variable {slack : Slack} {k n n' : Nat}

theorem Leaves.zero (h : slack.Leaves k n n') : slack.Leaves 0 n n' := by
  cases slack with
  | none => exact ⟨rfl, h.2⟩
  | first => exact Nat.le_trans (Nat.le_add_right _ k) h
  | second => exact h

/-- One call of the evaluator deeper in both runs. -/
theorem Leaves.inside (h : slack.Leaves 0 (n + 1) (n' + 1)) : slack.Leaves 0 n n' := by
  cases slack with
  | none => exact ⟨rfl, Nat.succ.inj h.2⟩
  | first | second =>
      simp only [Leaves] at h ⊢
      omega

/-- One call deeper in both runs, there is fuel for five more calls in the second one. -/
theorem Leaves.round (h : slack.Leaves 0 (n + 1) (n' + 1)) (hmoves : slack.moves = true) :
    slack.Leaves 5 n n' := by
  cases slack with
  | none => exact nomatch hmoves
  | first | second =>
      simp only [Leaves] at h ⊢
      omega

/-- The second run can go one call deeper, or it is short of fuel. -/
theorem Leaves.deeper (h : slack.Leaves (k + 1) n n') :
    (slack = .second ∧ n' = 0) ∨ ∃ m, n' = m + 1 ∧ slack.Leaves k n m := by
  cases n' with
  | zero =>
      cases slack with
      | none => exact nomatch h.1
      | first => exact absurd h (by simp [Leaves])
      | second => exact .inl ⟨rfl, rfl⟩
  | succ m =>
      refine .inr ⟨m, rfl, ?_⟩
      cases slack with
      | none => exact nomatch h.1
      | first => exact Nat.le_of_succ_le_succ h
      | second => exact Nat.le_of_succ_le h

end Slack

/-! ## Tasks -/

/-- The tasks of both runs, which see the chains `c` and `c'`, and how their results are related. -/
inductive TaskPair (moves : Bool) (w : Pairing) (c c' : Chain) :
    (t t' : Task) → (Pairing → t.Result → t'.Result → Prop) → Prop
  | expr {kind : ClassKind} {scopes scopes' : Scopes} (e : Expr)
      (hsees : Sees w scopes scopes' c c') (hplaced : InPlace kind scopes scopes') :
      TaskPair moves w c c' (.expr (e.resolve kind scopes).value)
        (.expr (e.resolve kind scopes').value) (Alike moves)
  | exprs {kind : ClassKind} {scopes scopes' : Scopes} (es : List Expr)
      (hsees : Sees w scopes scopes' c c') (hplaced : InPlace kind scopes scopes') :
      TaskPair moves w c c' (.exprs (Expr.resolveAll kind scopes es).value)
        (.exprs (Expr.resolveAll kind scopes' es).value) (fun w' => LikeValues (Paired moves w'))
  | call {callee callee' : Value} {args args' : List Value} (location : Location)
      (hcallee : Alike moves w callee callee') (hargs : LikeValues (Paired moves w) args args') :
      TaskPair moves w c c' (.call callee args location) (.call callee' args' location)
        (Alike moves)
  | invoke {callee callee' : Callable} {args args' : List Value} (location : Location)
      (hcallee : callee.Like (Paired moves w) callee')
      (hargs : LikeValues (Paired moves w) args args') :
      TaskPair moves w c c' (.invoke callee args location) (.invoke callee' args' location)
        (Alike moves)
  | function {closure closure' : Closure} {args args' : List Value}
      (receiver receiver' : Option Instance)
      (hclosure : closure.Like (Paired moves w) receiver.isSome closure')
      (hargs : LikeValues (Paired moves w) args args')
      (hreceiver : Option.Rel (Instance.Like (Paired moves w)) receiver receiver') :
      TaskPair moves w c c' (.function closure args receiver) (.function closure' args' receiver')
        (Alike moves)
  | construct {f f' : Class} {args args' : List Value} (hf : f.Like (Paired moves w) f')
      (hargs : LikeValues (Paired moves w) args args') :
      TaskPair moves w c c' (.construct f args) (.construct f' args') (Alike moves)
  | stmt {a : Surroundings} {scopes scopes' : Scopes} {s s' : Stmt}
      (hchains : Chains w scopes scopes' c c') (hplaced : InPlace a.enclosingClass scopes scopes')
      (hs : Stmt.Moved moves s s') (hordinary : s.Ordinary) :
      TaskPair moves w c c' (.stmt (s.resolve a scopes).value) (.stmt (s'.resolve a scopes').value)
        (FlowPair moves s.continues)
  | loop {a : Surroundings} {scopes scopes' : Scopes} {body body' : Stmt} (condition : Expr)
      (increment : Option Expr) (hchains : Chains w scopes scopes' c c')
      (hplaced : InPlace a.enclosingClass scopes scopes') (hbody : Stmt.Moved moves body body')
      (hordinary : body.Ordinary) :
      TaskPair moves w c c'
        (.loop (condition.resolve a.enclosingClass scopes).value (body.resolve a scopes).value
          (Expr.resolveOption a.enclosingClass scopes increment).value)
        (.loop (condition.resolve a.enclosingClass scopes').value (body'.resolve a scopes').value
          (Expr.resolveOption a.enclosingClass scopes' increment).value)
        (FlowPair moves false)
  /-- A loop whose increment is moved. -/
  | moved {a : Surroundings} {scopes scopes' : Scopes} {body body' : Stmt}
      (condition increment : Expr) (inner outer : Span) (hchains : Chains w scopes scopes' c c')
      (hplaced : InPlace a.enclosingClass scopes scopes') (hbody : Stmt.Moved moves body body')
      (hordinary : body.Ordinary) (hmoves : moves = true) (hcontinues : body.continues = false) :
      TaskPair moves w c c'
        (.loop (condition.resolve a.enclosingClass scopes).value (body.resolve a scopes).value
          (some (increment.resolve a.enclosingClass scopes).value))
        (.loop (condition.resolve a.enclosingClass scopes').value
          ((Stmt.block [.stmt body', .stmt (.expression increment inner)] outer).resolve a
            scopes').value none)
        (FlowPair moves false)
  | decl {a : Surroundings} {scopes scopes' : Scopes} {d d' : Decl}
      (hlevel : Level w scopes scopes' c c') (hplaced : InPlace a.enclosingClass scopes scopes')
      (hd : Decl.Moved moves d d') (hordinary : d.Ordinary) :
      TaskPair moves w c c' (.decl (d.resolve a scopes).value) (.decl (d'.resolve a scopes').value)
        (fun w' flow flow' => FlowPair moves d.continues w' flow flow' ∧
          Level w' (scopes.behind d) (scopes'.behind d) c c')
  | decls {a : Surroundings} {scopes scopes' : Scopes} {ds ds' : List Decl}
      (hlevel : Level w scopes scopes' c c') (hplaced : InPlace a.enclosingClass scopes scopes')
      (hds : Decl.MovedAll moves ds ds') (hordinary : Decl.OrdinaryAll ds) :
      TaskPair moves w c c' (.decls (Decl.resolveAll a scopes ds).value)
        (.decls (Decl.resolveAll a scopes' ds').value) (FlowPair moves (Decl.anyContinues ds))

/-- With the bounds `n` and `n'` on the recursion, the tasks of the two runs go side by side. -/
def Beside (setting : Setting) (slack : Slack) (n n' : Nat) : Prop :=
  ∀ ⦃w c c' t t' R⦄, TaskPair slack.moves w c c' t t' R →
    Follows slack slack.moves w c c' R (t.run setting n) (t'.run setting n')

/-! ## Scripts -/

section Scripts

variable {α β γ δ : Type} {setting : Setting} {slack : Slack} {n n' : Nat} {w : Pairing}
  {c c' : Chain} {R : Pairing → α → β → Prop}

/-- Scripts that go side by side. -/
def Matches (setting : Setting) (slack : Slack) (n n' : Nat) (w : Pairing) (c c' : Chain)
    (R : Pairing → α → β → Prop) (x : Script α) (y : Script β) : Prop :=
  Follows slack slack.moves w c c' R (x.run setting (·.run setting n))
    (y.run setting (·.run setting n'))

namespace Matches

theorem done {a : α} {b : β} (h : R w a b) :
    Matches setting slack n n' w c c' R (.done a) (.done b) := Follows.pure h

theorem step {x : Step γ} {y : Step δ} {S : Pairing → γ → δ → Prop}
    {next : γ → Script α} {next' : δ → Script β}
    (hstep : Follows .none slack.moves w c c' S x.run y.run)
    (hnext : ∀ w' a b, w ≤ w' → S w' a b →
      Matches setting slack n n' w' c c' R (next a) (next' b)) :
    Matches setting slack n n' w c c' R (.step x next) (.step y next') :=
  hstep.of_none.bind_of_adds hnext (fun _ _ => adds_script n _) (fun _ _ => adds_script n' _)

/-- A step at the end. -/
theorem last {x : Step α} {y : Step β} (hstep : Follows .none slack.moves w c c' R x.run y.run) :
    Matches setting slack n n' w c c' R (.step x .done) (.step y .done) :=
  step hstep fun _ _ _ _ h => done h

theorem print (text : String) {next : Script α} {next' : Script β}
    (hnext : ∀ w', w ≤ w' → Matches setting slack n n' w' c c' R next next') :
    Matches setting slack n n' w c c' R (.print text next) (.print text next') :=
  (Follows.print setting.host text).bind_of_adds (fun w' _ _ hle _ => hnext w' hle)
    (fun _ _ => adds_script n _) (fun _ _ => adds_script n' _)

variable {t t' : Task} {S : Pairing → t.Result → t'.Result → Prop} {next : t.Result → Script α}
  {next' : t'.Result → Script β}

/-- Work on other tasks. -/
theorem part_around (frame frame' : Frame)
    (hpart : Follows slack slack.moves w c c' S
      (frame.around setting.maxCallDepth (t.run setting n))
      (frame'.around setting.maxCallDepth (t'.run setting n')))
    (hnext : ∀ w' a b, w ≤ w' → S w' a b →
      Matches setting slack n n' w' c c' R (next a) (next' b)) :
    Matches setting slack n n' w c c' R (.part frame t next) (.part frame' t' next') :=
  hpart.bind_of_adds hnext (fun _ _ => adds_script n _) (fun _ _ => adds_script n' _)

end Matches

/-- The scripts of two tasks go side by side when the tasks do with one more unit of fuel. -/
theorem matches_script (t t' : Task) {S : Pairing → t.Result → t'.Result → Prop} :
    Matches setting slack n n' w c c' S (t.script setting.host) (t'.script setting.host) ↔
      Follows slack slack.moves w c c' S (t.run setting (n + 1)) (t'.run setting (n' + 1)) := by
  rw [Task.run_succ, Task.run_succ]
  rfl

section Step

variable (inside : Beside setting slack n n')

include inside

namespace Matches

/-- A task in the same scopes. -/
theorem part {t t' : Task} {S : Pairing → t.Result → t'.Result → Prop}
    {next : t.Result → Script α} {next' : t'.Result → Script β}
    (ht : TaskPair slack.moves w c c' t t' S)
    (hnext : ∀ w' a b, w ≤ w' → S w' a b →
      Matches setting slack n n' w' c c' R (next a) (next' b)) :
    Matches setting slack n n' w c c' R (.part .plain t next) (.part .plain t' next') :=
  part_around .plain .plain (inside ht) hnext

/-- A task at the end. -/
theorem tail {t t' : Task} {S : Pairing → t.Result → t'.Result → Prop}
    (ht : TaskPair slack.moves w c c' t t' S) :
    Matches setting slack n n' w c c' S (.part .plain t .done) (.part .plain t' .done) :=
  part inside ht fun _ _ _ _ h => done h

/-- A task in other scopes. -/
theorem part_within {t t' : Task} {S : Pairing → t.Result → t'.Result → Prop}
    {next : t.Result → Script α} {next' : t'.Result → Script β} {d d' : Chain}
    (ht : TaskPair slack.moves w d d' t t' S)
    (hnext : ∀ w' a b, w ≤ w' → S w' a b →
      Matches setting slack n n' w' c c' R (next a) (next' b)) :
    Matches setting slack n n' w c c' R (.part (.scopes d) t next) (.part (.scopes d') t' next') :=
  part_around (.scopes d) (.scopes d') (inside ht).within hnext

/-- A call at the end. -/
theorem tail_call {t t' : Task} {S : Pairing → t.Result → t'.Result → Prop} (location : Location)
    (ht : TaskPair slack.moves w c c' t t' S) :
    Matches setting slack n n' w c c' S (.part (.call location) t .done)
      (.part (.call location) t' .done) :=
  part_around (.call location) (.call location)
    ((inside ht).inCall setting.maxCallDepth location) fun _ _ _ _ h => done h

/-! ## Expressions and calls -/

theorem expr {kind : ClassKind} {scopes scopes' : Scopes} (e : Expr)
    (hsees : Sees w scopes scopes' c c') (hplaced : InPlace kind scopes scopes') :
    Matches setting slack n n' w c c' (Alike slack.moves)
      (Script.expr (e.resolve kind scopes).value) (Script.expr (e.resolve kind scopes').value) := by
  cases e with
  | literal value span => exact done (.ofLiteral value)
  | grouping e span => exact tail inside (.expr e hsees hplaced)
  | unary op operand span =>
      refine part inside (.expr operand hsees hplaced) fun w₁ v v' hle hv => ?_
      exact last (Follows.liftAt span.start (op.apply_like hv))
  | binary op left right span =>
      refine part inside (.expr left hsees hplaced) fun w₁ u u' hle₁ hu => ?_
      refine part inside (.expr right (hsees.mono hle₁) hplaced) fun w₂ v v' hle₂ hv => ?_
      exact last (Follows.liftAt span.start (op.apply_like (hu.mono hle₂) hv))
  | logical op left right span =>
      refine part inside (.expr left hsees hplaced) fun w₁ v v' hle hv => ?_
      rw [op.decides_like hv]
      split
      · exact done hv
      · exact tail inside (.expr right (hsees.mono hle) hplaced)
  | «variable» use => exact last (Follows.lookUp (hsees.leads use.name) use.span.start)
  | assign name depth value span =>
      refine part inside (.expr value hsees hplaced) fun w₁ v v' hle₁ hv => ?_
      refine step (Follows.assign ((hsees.mono hle₁).leads name) hv span.start)
        fun w₂ _ _ hle₂ _ => ?_
      exact done (hv.mono hle₂)
  | call callee args span =>
      refine part inside (.expr callee hsees hplaced) fun w₁ f f' hle₁ hf => ?_
      refine part inside (.exprs args (hsees.mono hle₁) hplaced) fun w₂ vs vs' hle₂ hvs => ?_
      exact tail inside (.call span.start (hf.mono hle₂) hvs)
  | get object name span =>
      refine part inside (.expr object hsees hplaced) fun w₁ v v' hle hv => ?_
      exact last (Follows.property hv name span.start)
  | set object name value span =>
      refine part inside (.expr object hsees hplaced) fun w₁ o o' hle₁ ho => ?_
      refine step (Follows.fieldOwner ho span.start) fun w₂ i i' hle₂ hi => ?_
      have hsees₂ := hsees.mono (le_trans hle₁ hle₂)
      refine part inside (.expr value hsees₂ hplaced) fun w₃ v v' hle₃ hv => ?_
      refine step (Follows.setField (hi.mono fun hf => hf.mono hle₃) name hv)
        fun w₄ _ _ hle₄ _ => ?_
      exact done (hv.mono hle₄)
  | this depth span =>
      cases kind with
      | none => exact last (Follows.lookUp .global span.start)
      | base | derived => exact last (Follows.lookUp (hsees.leads "this") span.start)
  | super depth method span =>
      cases kind with
      | none | base => exact last (Follows.defect .unresolvedSuper (some span.start))
      | derived => exact last (Follows.superMethod hsees hplaced method span.start)

theorem exprs {kind : ClassKind} {scopes scopes' : Scopes} (es : List Expr)
    (hsees : Sees w scopes scopes' c c') (hplaced : InPlace kind scopes scopes') :
    Matches setting slack n n' w c c' (fun w' => LikeValues (Paired slack.moves w'))
      (Task.script setting.host (.exprs (Expr.resolveAll kind scopes es).value))
      (Task.script setting.host (.exprs (Expr.resolveAll kind scopes' es).value)) := by
  cases es with
  | nil => exact done .nil
  | cons e es =>
      refine part inside (.expr e hsees hplaced) fun w₁ v v' hle₁ hv => ?_
      refine part inside (.exprs es (hsees.mono hle₁) hplaced) fun w₂ vs vs' hle₂ hvs => ?_
      exact done (.cons (hv.mono hle₂) hvs)

theorem call {callee callee' : Value} {args args' : List Value} (location : Location)
    (hcallee : Alike slack.moves w callee callee')
    (hargs : LikeValues (Paired slack.moves w) args args') :
    Matches setting slack n n' w c c' (Alike slack.moves) (Script.call callee args location)
      (Script.call callee' args' location) := by
  unfold Script.call
  rcases Table.cases_of_rel hcallee.callable? with ⟨hnone, hnone'⟩ | ⟨f, f', hsome, hsome', hf⟩
  · rw [hnone, hnone']
    exact last (Follows.raiseAt location .notCallable)
  · rw [hsome, hsome']
    dsimp only
    rw [hf.arity_eq, hargs.length_eq]
    split
    · exact tail_call inside location (.invoke location hf hargs)
    · exact last (Follows.raiseAt location _)

theorem invoke (hhost : setting.host.IgnoresFunctions) {callee callee' : Callable}
    {args args' : List Value} (location : Location)
    (hcallee : callee.Like (Paired slack.moves w) callee')
    (hargs : LikeValues (Paired slack.moves w) args args') :
    Matches setting slack n n' w c c' (Alike slack.moves)
      (Script.invoke setting.host args location callee)
      (Script.invoke setting.host args' location callee') := by
  cases hcallee with
  | function hclosure =>
      exact tail inside (.function none none hclosure hargs .none)
  | method hclosure hreceiver => exact tail inside (.function (some _) (some _) hclosure hargs (.some hreceiver))
  | «class» hf => exact tail inside (.construct hf hargs)
  | native native =>
      show Follows slack slack.moves w c c' (Alike slack.moves) _ _
      unfold Script.invoke
      rw [Script.run_native, Script.run_native]
      exact (Follows.callNative hhost native hargs location).of_none

/-- **A function**, whose body may have moved increments, and sees paired scopes. -/
theorem function {closure closure' : Closure} {args args' : List Value}
    {receiver receiver' : Option Instance}
    (hclosure : closure.Like (Paired slack.moves w) receiver.isSome closure')
    (hargs : LikeValues (Paired slack.moves w) args args')
    (hreceiver : Option.Rel (Instance.Like (Paired slack.moves w)) receiver receiver') :
    Matches setting slack n n' w c c' (Alike slack.moves) (Script.function closure args receiver)
      (Script.function closure' args' receiver') := by
  have hpaired := hclosure.related
  cases hpaired with
  | mk isInitializer hmoved hordinary hplaced hchains =>
      cases hmoved with
      | mk name params span hbody =>
          refine step (Follows.bodyChain hchains params rfl rfl hargs hreceiver)
            fun w₁ seen seen' hle₁ hlevel => ?_
          have hinner := hplaced.body (FunctionDecl.params_not_reserved hordinary)
          refine part_within inside (.decls hlevel hinner hbody
            (FunctionDecl.body_ordinary hordinary)) fun w₂ flow flow' hle₂ hflow => ?_
          have hle := le_trans hle₁ hle₂
          refine last (Follows.callResult (hclosure.mono fun hf => hf.mono hle) ?_ hflow)
          cases hreceiver with
          | none => exact .none
          | some hi => exact .some (hi.mono fun hf => hf.mono hle)

theorem construct {f f' : Class} {args args' : List Value}
    (hf : f.Like (Paired slack.moves w) f')
    (hargs : LikeValues (Paired slack.moves w) args args') :
    Matches setting slack n n' w c c' (Alike slack.moves) (Script.construct f args)
      (Script.construct f' args') := by
  refine step (Follows.newInstance hf) fun w₁ i i' hle₁ hi => ?_
  rcases Table.cases_of_rel (hf.findMethod? initializerName) with
    ⟨hnone, hnone'⟩ | ⟨closure, closure', hsome, hsome', hclosure⟩
  · rw [hnone, hnone']
    exact done (.instance hi)
  · rw [hsome, hsome']
    have hclosure₁ := hclosure.mono fun hf => hf.mono hle₁
    have hargs₁ := LikeValues.mono (fun hf => hf.mono hle₁) hargs
    refine part inside (.function (some i) (some i') hclosure₁ hargs₁ (.some hi))
      fun w₂ _ _ hle₂ _ => ?_
    exact done (.instance (hi.mono fun hf => hf.mono hle₂))

/-! ## Statements and declarations -/

/-- **A statement**, with moved increments in its parts or in itself. -/
theorem stmt {a : Surroundings} {scopes scopes' : Scopes} {s s' : Stmt}
    (hchains : Chains w scopes scopes' c c') (hplaced : InPlace a.enclosingClass scopes scopes')
    (hs : Stmt.Moved slack.moves s s') (hordinary : s.Ordinary) :
    Matches setting slack n n' w c c' (FlowPair slack.moves s.continues)
      (Script.stmt (s.resolve a scopes).value) (Script.stmt (s'.resolve a scopes').value) := by
  cases hs with
  | expression value span =>
      exact part inside (.expr value (.all hchains) hplaced) fun _ _ _ _ _ => done .normal
  | print value span =>
      refine part inside (.expr value (.all hchains) hplaced) fun w₁ v v' hle hv => ?_
      rw [hv.text_eq]
      exact print _ fun _ _ => done .normal
  | block span hbody =>
      have henter : Follows .none slack.moves w c c'
          (fun w' => Level w' scopes.enter scopes'.enter)
          (Eval.chain >>= Eval.enter Table.empty) (Eval.chain >>= Eval.enter Table.empty) := by
        refine Follows.chain.bind fun w₁ e e' hle he => ?_
        rw [he.1, he.2]
        exact Follows.enter .empty (fun _ hx => hx) (hchains.mono hle)
      refine step henter fun w₁ seen seen' hle hlevel => ?_
      exact part_within inside (.decls hlevel hplaced.enter hbody hordinary)
        fun _ _ _ _ hflow => done hflow
  | ifThen condition span hthen =>
      refine part inside (.expr condition (.all hchains) hplaced) fun w₁ v v' hle hv => ?_
      rw [hv.isTruthy_eq]
      split
      · exact tail inside (.stmt (hchains.mono hle) hplaced hthen hordinary.2)
      · exact done .normal
  | ifThenElse condition span hthen helse =>
      refine part inside (.expr condition (.all hchains) hplaced) fun w₁ v v' hle hv => ?_
      rw [hv.isTruthy_eq]
      split
      · exact part inside (.stmt (hchains.mono hle) hplaced hthen hordinary.2.1)
          fun _ _ _ _ hflow => done (hflow.weaken (Bool.or_eq_true _ _ ▸ .inl))
      · exact part inside (.stmt (hchains.mono hle) hplaced helse hordinary.2.2)
          fun _ _ _ _ hflow => done (hflow.weaken (Bool.or_eq_true _ _ ▸ .inr))
  | loop condition increment span hbody =>
      exact tail inside (.loop (a := { a with inLoop := true }) condition increment hchains hplaced
        hbody hordinary.2.1)
  | increment condition increment span inner outer hbody hmoves hcontinues =>
      -- here the second program has its increment in the body
      exact tail inside (.moved (a := { a with inLoop := true }) condition increment inner outer
        hchains hplaced hbody hordinary.2.1 hmoves hcontinues)
  | «break» span => exact done .break
  | «continue» span => exact done (.continue rfl)
  | «return» value span =>
      cases value with
      | none => exact done (.return .nil)
      | some e =>
          exact part inside (.expr e (.all hchains) hplaced) fun _ _ _ _ hv => done (.return hv)

/-- **A round of a loop and those that follow.** -/
theorem loop {a : Surroundings} {scopes scopes' : Scopes} {body body' : Stmt} (condition : Expr)
    (increment : Option Expr) (hchains : Chains w scopes scopes' c c')
    (hplaced : InPlace a.enclosingClass scopes scopes') (hbody : Stmt.Moved slack.moves body body')
    (hordinary : body.Ordinary) :
    Matches setting slack n n' w c c' (FlowPair slack.moves false)
      (Script.loop (condition.resolve a.enclosingClass scopes).value (body.resolve a scopes).value
        (Expr.resolveOption a.enclosingClass scopes increment).value)
      (Script.loop (condition.resolve a.enclosingClass scopes').value
        (body'.resolve a scopes').value
        (Expr.resolveOption a.enclosingClass scopes' increment).value) := by
  refine part inside (.expr condition (.all hchains) hplaced) fun w₁ v v' hle₁ hv => ?_
  rw [hv.isTruthy_eq]
  split
  · have hchains₁ := hchains.mono hle₁
    refine part inside (.stmt hchains₁ hplaced hbody hordinary) fun w₂ flow flow' hle₂ hflow => ?_
    have hchains₂ := hchains₁.mono hle₂
    cases hflow with
    | normal | «continue» =>
        cases increment with
        | none => exact tail inside (.loop condition none hchains₂ hplaced hbody hordinary)
        | some e =>
            refine part inside (.expr e (.all hchains₂) hplaced) fun w₃ _ _ hle₃ _ => ?_
            exact tail inside
              (.loop condition (some e) (hchains₂.mono hle₃) hplaced hbody hordinary)
    | «break» => exact done .normal
    | «return» hv => exact done (.return hv)
  · exact done .normal

/-- **A declaration**, behind which the scopes promise its name. -/
theorem decl {a : Surroundings} {scopes scopes' : Scopes} {d d' : Decl}
    (hlevel : Level w scopes scopes' c c') (hplaced : InPlace a.enclosingClass scopes scopes')
    (hd : Decl.Moved slack.moves d d') (hordinary : d.Ordinary) :
    Matches setting slack n n' w c c'
      (fun w' flow flow' => FlowPair slack.moves d.continues w' flow flow' ∧
        Level w' (scopes.behind d) (scopes'.behind d) c c')
      (Script.decl (d.resolve a scopes).value) (Script.decl (d'.resolve a scopes').value) := by
  cases hd with
  | var name initial span =>
      cases initial with
      | none =>
          exact step (Follows.define hlevel name fun _ _ _ => .nil)
            fun _ _ _ _ hlevel => done ⟨.normal, hlevel⟩
      | some e =>
          have hinside := hplaced.mark hordinary.1 false
          refine part inside (.expr e (hlevel.sees_mark name false) hinside)
            fun w₁ v v' hle hv => ?_
          exact step (Follows.define (hlevel.mono hle) name fun _ hle' _ => hv.mono hle')
            fun _ _ _ _ hlevel => done ⟨.normal, hlevel⟩
  | function hf =>
      have hf' := hf
      cases hf with
      | @mk body body' name params span hbody =>
          refine step Follows.newId fun w₁ id id' hle₁ hid => ?_
          refine step Follows.chain fun w₂ e e' hle₂ he => ?_
          cases hid
          rw [he.1, he.2]
          have hlevel₂ := hlevel.mono (le_trans hle₁ hle₂)
          have hinside : InPlace a.enclosingClass (around false (scopes.define name))
              (around false (scopes'.define name)) := hplaced.mark hordinary.1 true
          refine step (Follows.define hlevel₂ name fun w₃ hle₃ hlevel₃ => ?_)
            fun _ _ _ _ hlevel => done ⟨.normal, hlevel⟩
          exact .function _ (Paired.mk false hf' hordinary hinside hlevel₃.chains).like
  | «class» name superclass span hmethods =>
      refine step (x := ⟨_, _⟩) (y := ⟨_, _⟩) ?_ fun _ _ _ _ hlevel => done ⟨.normal, hlevel⟩
      have hclass := Follows.declareClass hlevel name superclass
        (a := { a with enclosingClass := if superclass.isSome then .derived else .base }) rfl
        hmethods hordinary.2
      cases superclass <;> exact hclass
  | stmt hs =>
      exact part inside (.stmt hlevel.chains hplaced hs hordinary)
        fun _ _ _ hle hflow => done ⟨hflow, hlevel.mono hle⟩

theorem decls {a : Surroundings} {scopes scopes' : Scopes} {ds ds' : List Decl}
    (hlevel : Level w scopes scopes' c c') (hplaced : InPlace a.enclosingClass scopes scopes')
    (hds : Decl.MovedAll slack.moves ds ds') (hordinary : Decl.OrdinaryAll ds) :
    Matches setting slack n n' w c c' (FlowPair slack.moves (Decl.anyContinues ds))
      (Task.script setting.host (.decls (Decl.resolveAll a scopes ds).value))
      (Task.script setting.host (.decls (Decl.resolveAll a scopes' ds').value)) := by
  cases hds with
  | nil => exact done .normal
  | @cons d d' ds ds' hd hds =>
      refine part inside (.decl hlevel hplaced hd hordinary.1) fun w₁ flow flow' _ h => ?_
      obtain ⟨hflow, hbehind⟩ := h
      cases hflow with
      | normal =>
          rw [hd.behind_eq]
          refine part inside (.decls hbehind (hplaced.behind hordinary.1) hds hordinary.2)
            fun _ _ _ _ hflow => ?_
          exact done (hflow.weaken (Bool.or_eq_true _ _ ▸ .inr))
      | «break» => exact done .break
      | «continue» h => exact done (.continue (Bool.or_eq_true _ _ ▸ .inl h))
      | «return» hv => exact done (.return hv)

end Matches

end Step

/-! ## Rounds -/

section Rounds

/-- What a round of a loop does behind its condition. -/
def round (setting : Setting) (n : Nat) (body : Stmt) (increment : Expr) : Eval Flow :=
  execute setting n body >>= fun
    | .normal | .continue => evaluate setting n increment >>= fun _ => pure .normal
    | flow => pure flow

/-- What comes behind a round. -/
def again (setting : Setting) (n : Nat) (condition : Expr) (body : Stmt) (increment : Option Expr) :
    Flow → Eval Flow
  | .break => pure .normal
  | .return value => pure (.return value)
  | .normal | .continue => executeLoop setting n condition body increment

/-- A loop goes round by round, with its increment in the round. -/
theorem executeLoop_some (n : Nat) (condition : Expr) (body : Stmt) (increment : Expr) :
    executeLoop setting (n + 1) condition body (some increment) =
      evaluate setting n condition >>= fun v =>
        if v.isTruthy then
          round setting n body increment >>= again setting n condition body (some increment)
        else pure .normal := by
  unfold executeLoop
  refine bind_congr fun v => ?_
  split
  · unfold round
    rw [bind_assoc]
    refine bind_congr fun flow => ?_
    cases flow with
    | normal | «continue» => simp only [bind_assoc, pure_bind, again]
    | «break» | «return» => simp only [pure_bind, again]
  · rfl

/-- Without an increment a round is the body. -/
theorem executeLoop_none (n : Nat) (condition : Expr) (body : Stmt) :
    executeLoop setting (n + 1) condition body none =
      evaluate setting n condition >>= fun v =>
        if v.isTruthy then execute setting n body >>= again setting n condition body none
        else pure .normal := by
  unfold executeLoop
  refine bind_congr fun v => ?_
  split
  · refine bind_congr fun flow => ?_
    cases flow <;> rfl
  · rfl

theorem adds_round (n : Nat) (body : Stmt) (increment : Expr) :
    Adds (round setting n body increment) := by
  refine (adds_run n (.stmt body)).bind fun flow => ?_
  cases flow with
  | normal | «continue» => exact (adds_run n (.expr increment)).bind fun _ => .pure _
  | «break» | «return» => exact .pure _

theorem adds_again (n : Nat) (condition : Expr) (body : Stmt) (increment : Option Expr)
    (flow : Flow) : Adds (again setting n condition body increment flow) := by
  cases flow with
  | normal | «continue» => exact adds_run n (.loop condition body increment)
  | «break» | «return» => exact .pure _

/-- A run that stops at once has shown no more than the other one. -/
theorem Follows.first_short {moves : Bool} {x : Eval α} {y : Eval β}
    (hx : ∀ m, x m = .error .outOfFuel m) (hy : Adds y) :
    Follows .first moves w c c' R x y := by
  intro m m' hm
  rw [hx m]
  refine .first rfl ?_
  rw [← hm.events_eq]
  exact hy m'

theorem Follows.second_short {moves : Bool} {x : Eval α} {y : Eval β} (hx : Adds x)
    (hy : ∀ m, y m = .error .outOfFuel m) : Follows .second moves w c c' R x y := by
  intro m m' hm
  rw [hy m']
  refine .second rfl ?_
  rw [hm.events_eq]
  exact hx m

/-- One call of the evaluator deeper in the second run alone. -/
theorem Follows.deeper {moves : Bool} {k : Nat} {t : Task} {S : Pairing → α → t.Result → Prop}
    {x : Eval α} (hleaves : slack.Leaves (k + 1) n n') (hx : Adds x)
    (h : ∀ m, slack.Leaves k n m → Follows slack moves w c c' S x (t.run setting (m + 1))) :
    Follows slack moves w c c' S x (t.run setting n') := by
  obtain ⟨rfl, rfl⟩ | ⟨m, rfl, hleft⟩ := hleaves.deeper
  · exact .second_short hx (t.run_zero setting)
  · exact h m hleft

variable (ih : ∀ n', slack.Leaves 0 n n' → Beside setting slack n n')

include ih

/-- The increment, behind the body in the block. -/
theorem increment_follows {a : Surroundings} {scopes scopes' : Scopes} (increment : Expr)
    (inner : Span) (hleaves : slack.Leaves 3 n n') (hsees : Sees w scopes scopes' c c')
    (hplaced : InPlace a.enclosingClass scopes scopes') :
    Follows slack slack.moves w c c' (FlowPair slack.moves false)
      (evaluate setting n (increment.resolve a.enclosingClass scopes).value >>= fun _ => pure .normal)
      (executeAll setting n' [((Decl.stmt (.expression increment inner)).resolve a scopes').value]) := by
  have hadds : Adds (evaluate setting n (increment.resolve a.enclosingClass scopes).value) :=
    adds_run n (.expr _)
  refine Follows.deeper (t := .decls [_]) hleaves (hadds.bind fun _ => .pure _) fun k₁ hk₁ => ?_
  refine Follows.bind_of_adds (R := fun _ _ flow => flow = .normal) ?_ ?_ (fun _ _ => .pure _) ?_
  · refine Follows.deeper (t := .decl _) hk₁ hadds fun k₂ hk₂ => ?_
    refine Follows.deeper (t := .stmt _) hk₂ hadds fun k₃ hk₃ => ?_
    rw [← bind_pure (evaluate setting n _)]
    exact (ih k₃ hk₃ (.expr increment hsees hplaced)).bind_of_adds (fun _ _ _ _ _ => .pure rfl)
      (fun _ _ => .pure _) (fun _ _ => .pure _)
  · rintro w₁ v _ _ rfl
    exact .deeper (t := .decls []) hk₁ (.pure _) fun k₂ _ => .pure .normal
  · intro _ flow
    cases flow with
    | normal => exact adds_run k₁ (.decls [])
    | «break» | «continue» | «return» => exact .pure _

/-- **A round with the increment behind the body.** -/
theorem round_follows {a : Surroundings} {scopes scopes' : Scopes} {body body' : Stmt}
    (increment : Expr) (inner outer : Span) (hleaves : slack.Leaves 5 n n')
    (hchains : Chains w scopes scopes' c c') (hplaced : InPlace a.enclosingClass scopes scopes')
    (hbody : Stmt.Moved slack.moves body body') (hordinary : body.Ordinary)
    (hcontinues : body.continues = false) :
    Follows slack slack.moves w c c' (FlowPair slack.moves false)
      (round setting n (body.resolve a scopes).value
        (increment.resolve a.enclosingClass scopes).value)
      (execute setting n' ((Stmt.block [.stmt body', .stmt (.expression increment inner)] outer).resolve
        a scopes').value) := by
  have hadds : Adds (round setting n (body.resolve a scopes).value
      (increment.resolve a.enclosingClass scopes).value) := adds_round n _ _
  -- the block around the body and its increment is a scope that the first run does not have
  refine Follows.deeper (t := .stmt _) hleaves hadds fun k₁ hk₁ => ?_
  refine Follows.extra fun w₁ j hle₁ hextra => ?_
  have hchains₁ : Chains w₁ scopes scopes'.enter c (j :: c') := .extra hextra (hchains.mono hle₁)
  refine Follows.deeper (t := .decls [_, _]) hk₁ hadds fun k₂ hk₂ => ?_
  refine Follows.bind_of_adds (R := FlowPair slack.moves false) ?_ ?_ ?_ ?_
  · refine Follows.deeper (t := .decl _) hk₂ (adds_run n (.stmt _)) fun k₃ hk₃ => ?_
    have hfollows := ih k₃ hk₃.zero (.stmt hchains₁ hplaced.extra hbody hordinary)
    rw [hcontinues] at hfollows
    exact hfollows
  · intro w₂ flow flow' hle₂ hflow
    cases hflow with
    | normal =>
        exact increment_follows ih increment inner hk₂ (.all (hchains₁.mono hle₂)) hplaced.extra
    | «break» => exact .pure .break
    | «continue» h => exact nomatch h
    | «return» hv => exact .pure (.return hv)
  · intro _ flow
    cases flow with
    | normal | «continue» => exact (adds_run n (.expr _)).bind fun _ => .pure _
    | «break» | «return» => exact .pure _
  · intro _ flow
    cases flow with
    | normal => exact adds_run k₂ (.decls [_])
    | «break» | «continue» | «return» => exact .pure _

/-- **A moved loop.** -/
theorem moved_follows {a : Surroundings} {scopes scopes' : Scopes} {body body' : Stmt}
    (condition increment : Expr) (inner outer : Span)
    (hleaves : slack.Leaves 0 (n + 1) (n' + 1)) (hmoves : slack.moves = true)
    (hchains : Chains w scopes scopes' c c') (hplaced : InPlace a.enclosingClass scopes scopes')
    (hbody : Stmt.Moved slack.moves body body') (hordinary : body.Ordinary)
    (hcontinues : body.continues = false) :
    Follows slack slack.moves w c c' (FlowPair slack.moves false)
      (executeLoop setting (n + 1) (condition.resolve a.enclosingClass scopes).value
        (body.resolve a scopes).value (some (increment.resolve a.enclosingClass scopes).value))
      (executeLoop setting (n' + 1) (condition.resolve a.enclosingClass scopes').value
        ((Stmt.block [.stmt body', .stmt (.expression increment inner)] outer).resolve a scopes').value
        none) := by
  rw [executeLoop_some, executeLoop_none]
  have inside := ih n' hleaves.inside
  refine (inside (.expr condition (.all hchains) hplaced)).bind_of_adds ?_ ?_ ?_
  · intro w₁ v v' hle₁ hv
    rw [hv.isTruthy_eq]
    split
    · have hchains₁ := hchains.mono hle₁
      refine (round_follows ih increment inner outer (hleaves.round hmoves) hchains₁ hplaced hbody
        hordinary hcontinues).bind_of_adds ?_ (fun _ _ => adds_again n _ _ _ _)
        (fun _ _ => adds_again n' _ _ _ _)
      intro w₂ flow flow' hle₂ hflow
      cases hflow with
      | normal =>
          exact inside (.moved condition increment inner outer (hchains₁.mono hle₂) hplaced hbody
            hordinary hmoves hcontinues)
      | «break» => exact .pure .normal
      | «continue» h => exact nomatch h
      | «return» hv => exact .pure (.return hv)
    · exact .pure .normal
  · intro _ v
    split
    · exact (adds_round n _ _).bind (adds_again n _ _ _)
    · exact .pure _
  · intro _ v
    split
    · exact (adds_run n' (.stmt _)).bind (adds_again n' _ _ _)
    · exact .pure _

end Rounds

/-! ## Every task -/

/-- **Every task of the second run follows the one of the first run that it is paired with**, unless one
of them is short of fuel. -/
theorem beside (hhost : setting.host.IgnoresFunctions) {n n' : Nat}
    (hleaves : slack.Leaves 0 n n') : Beside setting slack n n' := by
  induction n generalizing n' with
  | zero =>
      intro w c c' t t' R _
      cases slack with
      | none =>
          obtain ⟨-, rfl⟩ := hleaves
          intro m m' hm
          rw [t.run_zero, t'.run_zero]
          exact .error le_rfl hm
      | first => exact .first_short (t.run_zero setting) (adds_run n' t')
      | second =>
          obtain rfl := Nat.le_zero.1 hleaves
          exact .second_short (adds_run 0 t) (t'.run_zero setting)
  | succ n ih =>
      cases n' with
      | zero =>
          intro w c c' t t' R _
          cases slack with
          | none => exact nomatch hleaves.2
          | first => exact absurd hleaves (by simp [Slack.Leaves])
          | second => exact .second_short (adds_run (n + 1) t) (t'.run_zero setting)
      | succ n' =>
          intro w c c' t t' R ht
          have inside := ih hleaves.inside
          refine (matches_script t t').1 ?_
          cases ht with
          | expr e hsees hplaced => exact .expr inside e hsees hplaced
          | exprs es hsees hplaced => exact .exprs inside es hsees hplaced
          | call location hcallee hargs => exact .call inside location hcallee hargs
          | invoke location hcallee hargs => exact .invoke inside hhost location hcallee hargs
          | function receiver receiver' hclosure hargs hreceiver =>
              exact .function inside hclosure hargs hreceiver
          | construct hf hargs => exact .construct inside hf hargs
          | stmt hchains hplaced hs hordinary => exact .stmt inside hchains hplaced hs hordinary
          | loop condition increment hchains hplaced hbody hordinary =>
              exact .loop inside condition increment hchains hplaced hbody hordinary
          | moved condition increment inner outer hchains hplaced hbody hordinary hmoves hcontinues =>
              -- in a round the second run opens a block, which answers to nothing in the first one
              refine (matches_script (.loop _ _ _) (.loop _ _ _)).2 ?_
              exact moved_follows (fun _ h => ih h) condition increment inner outer hleaves hmoves
                hchains hplaced hbody hordinary hcontinues
          | decl hlevel hplaced hd hordinary => exact .decl inside hlevel hplaced hd hordinary
          | decls hlevel hplaced hds hordinary => exact .decls inside hlevel hplaced hds hordinary

end Scripts

end Lox.Increments
