import Lox.Proofs.Scoping.Validity
import Lox.Proofs.Evaluation.Steps

/-!
# Every moment keeps its promise

What one call of the evaluator leaves behind follows from what the calls inside it leave behind; by
induction on the bound on the recursion, every valid moment keeps its promise. And every moment that
is reached is valid, from the start of an input to the body of a function that was made long before:
the first moment of an input starts from what the inputs before it left behind.

## Contents
- `promise_expr`, `promise_stmt`, `promise_decl`, `promise_call`: one call of the evaluator.
- `promise_body`: calls of functions.
- `promise`: every valid moment that is reached keeps its promise.
-/

namespace Lox.Scoping

variable {h : History} {k : Nat}

/-! ## Expressions -/

theorem isIncomplete_of_errors {scopes : Scopes} {use : NameUse}
    (herrors : (use.resolve scopes).errors = []) : scopes.isIncomplete use.name = false := by
  unfold NameUse.resolve at herrors
  simp only [Checked.errors_bind, Checked.errors_pure, List.append_nil] at herrors
  exact Checked.eq_false_of_reportIf herrors

/-- `this` is bound where its distance leads. -/
theorem Runs.this {kind : ClassKind} {scopes : Scopes} {m : Machine}
    (hcontext : Context h m kind scopes) {d : Nat} (hd : scopes.distance? "this" = some d)
    (location : Location) :
    Runs h k none (Eval.lookUp "this" (scopes.distance? "this") location) m
      fun v memory => KnownValue h memory v := by
  obtain ⟨i, r, hr, hfound⟩ := lookUp_this hcontext.agrees hd location
  rw [hd]
  exact Runs.of_ok hfound (After.same hcontext.known rfl rfl) (hcontext.known.scopes i _ _ hr)

/-- What an assignment does with its value. It fails only in the initializer of its own variable, and
then the moment that is reached is the witness. -/
theorem Runs.assigned {n : Nat} {kind : ClassKind} {scopes : Scopes} {x : String}
    {depth : Option Nat} {value : Expr} {span : Span} {m m' : Machine} {v : Value}
    (hreached : Reached h k ⟨n + 1, .expr kind scopes (.assign x depth value span), m⟩)
    (heq : evaluate h.session.setting n (value.resolve kind scopes).value m = .ok v m')
    (hcontext : Context h m' kind scopes) (hordinary : ¬Reserved x)
    (hv : KnownValue h m'.memory v) :
    Runs h k none (Eval.assign x (scopes.distance? x) v span.start >>= fun _ => Pure.pure v) m'
      fun w memory => KnownValue h memory w := by
  cases hown : scopes.isIncomplete x with
  | true =>
      have hfails : (Eval.assign x (scopes.distance? x) v span.start >>= fun _ => Pure.pure v) m' =
          (.error (.failure (ownFailure x)) m' : EStateM.Result Stop Machine Value) := by
        exact bind_of_error (assign_own hcontext.sees hown v span.start)
      exact Runs.of_error hfails (After.same hcontext.known rfl rfl)
        (.inr ⟨x, rfl, _, hreached, .intro hown heq⟩)
  | false =>
      refine Runs.bind (Runs.assign hcontext.known hcontext.agrees hcontext.complete hordinary hown
        hv span.start) ?_
      intro _ m'' _ hafter _
      exact Runs.pure hafter.known (hv.later hafter.later)

/-- **An expression** keeps its promise when the expressions and the call inside it do. -/
theorem promise_expr {n : Nat} {kind : ClassKind} {scopes : Scopes} {e : Expr} {m : Machine}
    (hreached : Reached h k ⟨n + 1, .expr kind scopes e, m⟩)
    (hvalid : Valid h ⟨n + 1, .expr kind scopes e, m⟩)
    (hparts : ∀ {q}, Part h.session.setting ⟨n + 1, .expr kind scopes e, m⟩ q → Promise h k q) :
    Promise h k ⟨n + 1, .expr kind scopes e, m⟩ := by
  obtain ⟨hcontext, hordinary, herrors⟩ := hvalid
  have hknown := hcontext.known
  cases e with
  | literal value span => exact Runs.pure hknown (KnownValue.ofLiteral _ value)
  | grouping inner span =>
      have hinner : Promise h k ⟨n, .expr kind scopes inner, m⟩ := hparts .grouping
      exact hinner
  | unary op operand span =>
      show Runs h k none (evaluate _ n (operand.resolve kind scopes).value >>= fun v =>
        Eval.liftAt span.start (op.apply v)) m _
      refine Runs.bind (hparts .operand) ?_
      intro v m' _ hafter _
      exact Runs.liftAt hafter.known fun w hw =>
        UnaryOp.of_apply (fun _ => trivial) (fun _ => trivial) hw
  | binary op l r span =>
      show Runs h k none (evaluate _ n (l.resolve kind scopes).value >>= fun v =>
        evaluate _ n (r.resolve kind scopes).value >>= fun w =>
        Eval.liftAt span.start (op.apply v w)) m _
      refine Runs.bind (hparts .left) ?_
      intro v m' heq _ _
      refine Runs.bind (hparts (.right heq)) ?_
      intro w m'' _ hafter _
      exact Runs.liftAt hafter.known fun u hu =>
        BinaryOp.of_apply (fun _ => trivial) (fun _ => trivial) (fun _ => trivial) hu
  | logical op l r span =>
      show Runs h k none (evaluate _ n (l.resolve kind scopes).value >>= fun v =>
        if op.decides v then pure v else evaluate _ n (r.resolve kind scopes).value) m _
      refine Runs.bind (hparts .first) ?_
      intro v m' heq hafter hv
      cases hdecides : op.decides v with
      | true => exact Runs.pure hafter.known hv
      | false => exact hparts (.second heq hdecides)
  | «variable» use =>
      -- to read a variable in its own initializer is an error of the program
      have hread : scopes.isIncomplete use.name = false := by
        refine isIncomplete_of_errors ?_
        simpa [Expr.resolve] using herrors
      exact Runs.lookUp hknown hcontext.agrees hcontext.complete hread use.span.start
  | assign x depth value span =>
      show Runs h k none (evaluate _ n (value.resolve kind scopes).value >>= fun v =>
        Eval.assign x (scopes.distance? x) v span.start >>= fun _ => pure v) m _
      refine Runs.bind (hparts .assigned) ?_
      intro v m' heq hafter hv
      exact Runs.assigned hreached heq (hcontext.after hafter) hordinary.1 hv
  | call c es span =>
      show Runs h k none (evaluate _ n (c.resolve kind scopes).value >>= fun f =>
        evaluateAll _ n (Expr.resolveAll kind scopes es).value >>= fun vs =>
        callValue _ n f vs span.start) m _
      refine Runs.bind (hparts .callee) ?_
      intro f m' heq _ _
      refine Runs.bind (hparts (.args heq)) ?_
      intro vs m'' heqs _ _
      exact hparts (.called heq heqs)
  | get object name span =>
      show Runs h k none (evaluate _ n (object.resolve kind scopes).value >>= fun v =>
        Eval.property v name span.start) m _
      refine Runs.bind (hparts .object) ?_
      intro v m' _ hafter hv
      exact Runs.property hafter.known hv name span.start
  | set object name value span =>
      show Runs h k none (evaluate _ n (object.resolve kind scopes).value >>= fun o =>
        Eval.fieldOwner o span.start >>= fun i =>
        evaluate _ n (value.resolve kind scopes).value >>= fun v =>
        Eval.modifyMemory (·.setField i name v) >>= fun _ => pure v) m _
      refine Runs.bind (hparts .owner) ?_
      intro o m' heq hafter ho
      -- the value is evaluated only when there is an instance to set a field of
      cases o with
      | «instance» i =>
          refine Runs.bind_ok (x := Eval.fieldOwner (.instance i) span.start) (a := i) rfl ?_
          refine Runs.bind (hparts (.field heq)) ?_
          intro v m'' _ hafter' hv
          refine Runs.bind (Runs.setField hafter'.known i name hv) ?_
          intro _ m''' _ hafter'' _
          exact Runs.pure hafter''.known (hv.later hafter''.later)
      | nil | bool | number | string | function | «class» | method | native =>
          exact Runs.raiseAt hafter.known span.start .fieldOfNonInstance
  | this depth span =>
      have hplaced := hcontext.placed
      -- outside of classes it is an error of the program
      cases kind with
      | none => exact absurd herrors (List.cons_ne_nil _ _)
      | base =>
          obtain ⟨d, hd⟩ := hplaced
          exact Runs.this hcontext hd span.start
      | derived =>
          obtain ⟨d, hd, _⟩ := hplaced
          exact Runs.this hcontext hd span.start
  | super depth method span =>
      cases kind with
      | none | base => exact absurd herrors (List.cons_ne_nil _ _)
      | derived => exact Runs.superMethod hknown hcontext.agrees hcontext.placed method span.start

/-- Expressions one after the other. -/
theorem promise_exprs {n : Nat} {kind : ClassKind} {scopes : Scopes} {es : List Expr} {m : Machine}
    (hvalid : Valid h ⟨n + 1, .exprs kind scopes es, m⟩)
    (hparts : ∀ {q}, Part h.session.setting ⟨n + 1, .exprs kind scopes es, m⟩ q →
      Promise h k q) :
    Promise h k ⟨n + 1, .exprs kind scopes es, m⟩ := by
  cases es with
  | nil => exact Runs.pure hvalid.known nofun
  | cons e es =>
      show Runs h k none (evaluate _ n (e.resolve kind scopes).value >>= fun v =>
        evaluateAll _ n (Expr.resolveAll kind scopes es).value >>= fun vs => pure (v :: vs)) m _
      refine Runs.bind (hparts .head) ?_
      intro v m' heq _ hv
      refine Runs.bind (hparts (.tail heq)) ?_
      intro vs m'' _ hafter hvs
      exact Runs.pure hafter.known (KnownValues.cons (hv.later hafter.later) hvs)

/-! ## Statements -/

/-- **A statement** keeps its promise when what is inside it does. -/
theorem promise_stmt {n : Nat} {a : Surroundings} {scopes : Scopes} {s : Stmt} {m : Machine}
    (hvalid : Valid h ⟨n + 1, .stmt a scopes s, m⟩)
    (hparts : ∀ {q}, Part h.session.setting ⟨n + 1, .stmt a scopes s, m⟩ q → Promise h k q) :
    Promise h k ⟨n + 1, .stmt a scopes s, m⟩ := by
  have hknown : KnownMemory h m.memory := hvalid.known
  obtain ⟨hcontext, hcomplete, _, herrors⟩ := hvalid
  cases s with
  | expression e span =>
      show Runs h k none (evaluate _ n (e.resolve a.enclosingClass scopes).value >>= fun _ =>
        pure Flow.normal) m _
      refine Runs.bind (hparts .value) ?_
      intro v m' _ hafter _
      exact Runs.pure hafter.known trivial
  | print e span =>
      show Runs h k none (evaluate _ n (e.resolve a.enclosingClass scopes).value >>= fun v =>
        Eval.print h.session.setting.host v.text >>= fun _ => pure Flow.normal) m _
      refine Runs.bind (hparts .printed) ?_
      intro v m' _ hafter _
      refine Runs.bind (Runs.print hafter.known v.text) ?_
      intro _ m'' _ hafter' _
      exact Runs.pure hafter'.known trivial
  | block ds span =>
      have hbody : Promise h k ⟨n, .decls a scopes.enter ds, entered m⟩ := hparts .block
      -- names are added to the new scope alone
      have hentered : After h none m { m with memory := (m.memory.newScope Table.empty).2 } :=
        ⟨grows_newScope _ _, rfl, (hcontext.block hcomplete).known⟩
      exact Outcome.of_new hentered (Nat.le_refl _) (Runs.within hbody)
  | ifThenElse c t otherwise span =>
      cases otherwise with
      | none =>
          show Runs h k none (evaluate _ n (c.resolve a.enclosingClass scopes).value >>= fun v =>
            if v.isTruthy then execute _ n (t.resolve a scopes).value else pure .normal) m _
          refine Runs.bind (hparts .test) ?_
          intro v m' heq hafter _
          cases htrue : v.isTruthy with
          | true => exact hparts (.thenBranch heq htrue)
          | false => exact Runs.pure hafter.known trivial
      | some e =>
          show Runs h k none (evaluate _ n (c.resolve a.enclosingClass scopes).value >>= fun v =>
            if v.isTruthy then execute _ n (t.resolve a scopes).value
            else execute _ n (e.resolve a scopes).value) m _
          refine Runs.bind (hparts .test) ?_
          intro v m' heq _ _
          cases htrue : v.isTruthy with
          | true => exact hparts (.thenBranch heq htrue)
          | false => exact hparts (.elseBranch heq htrue)
  | whileLoop c b i span =>
      have hloop : Promise h k ⟨n, .loop a scopes c b i, m⟩ := hparts .loop
      exact hloop
  | «break» span | «continue» span =>
      -- outside of loops it is an error of the program
      simp only [Stmt.resolve, Checked.errors_bind_eq_nil] at herrors
      have hloop : a.inLoop = true := by simpa using Checked.eq_false_of_reportIf herrors.1
      exact Runs.pure hknown hloop
  | «return» e span =>
      simp only [Stmt.resolve, Checked.errors_bind_eq_nil] at herrors
      have hfunction : a.function ≠ .none :=
        beq_eq_false_iff_ne.1 (Checked.eq_false_of_reportIf herrors.1)
      cases e with
      | none => exact Runs.pure hknown ⟨hfunction, trivial⟩
      | some e =>
          show Runs h k none (evaluate _ n (e.resolve a.enclosingClass scopes).value >>= fun v =>
            pure (Flow.return v)) m _
          refine Runs.bind (hparts .returned) ?_
          intro v m' _ hafter hv
          exact Runs.pure hafter.known ⟨hfunction, hv⟩

/-- **A loop** keeps its promise when its parts and its further rounds do. -/
theorem promise_loop {n : Nat} {a : Surroundings} {scopes : Scopes} {c : Expr} {b : Stmt}
    {i : Option Expr} {m : Machine}
    (hparts : ∀ {q}, Part h.session.setting ⟨n + 1, .loop a scopes c b i, m⟩ q →
      Promise h k q) :
    Promise h k ⟨n + 1, .loop a scopes c b i, m⟩ := by
  show Runs h k none (executeLoop _ (n + 1) _ _ _) m _
  unfold executeLoop
  refine Runs.bind (hparts .condition) ?_
  intro v m' heq hafter _
  cases htrue : v.isTruthy with
  | false => exact Runs.pure hafter.known trivial
  | true =>
      refine Runs.bind (hparts (.round heq htrue)) ?_
      intro flow m'' hround hafter' hends
      -- a round that is cut short goes on like one that ends normally
      cases i with
      | none =>
          have hagain (hgoes : flow = .normal ∨ flow = .continue) :
              Promise h k ⟨n, .loop a scopes c b none, m''⟩ :=
            hparts (.again heq htrue hround hgoes)
          cases flow with
          | normal => exact hagain (.inl rfl)
          | «continue» => exact hagain (.inr rfl)
          | «break» => exact Runs.pure hafter'.known trivial
          | «return» w => exact Runs.pure hafter'.known hends
      | some e =>
          have hagain (hgoes : flow = .normal ∨ flow = .continue) :
              Runs h k none
                (evaluate h.session.setting n (e.resolve a.enclosingClass scopes).value >>= fun _ =>
                  executeLoop h.session.setting n (c.resolve a.enclosingClass scopes).value
                  (b.resolve { a with inLoop := true } scopes).value
                  (Expr.resolveOption a.enclosingClass scopes (some e)).value) m'' (Ends h a) := by
            refine Runs.bind (hparts (.increment heq htrue hround hgoes)) ?_
            intro w m₃ hstep _ _
            exact hparts (.incremented heq htrue hround hgoes hstep)
          cases flow with
          | normal => exact hagain (.inl rfl)
          | «continue» => exact hagain (.inr rfl)
          | «break» => exact Runs.pure hafter'.known trivial
          | «return» w => exact Runs.pure hafter'.known hends

/-! ## Declarations -/

/-- **A declaration** keeps its promise when what is inside it does. -/
theorem promise_decl {n : Nat} {a : Surroundings} {scopes : Scopes} {d : Decl} {m : Machine}
    (hreached : Reached h k ⟨n + 1, .decl a scopes d, m⟩)
    (hvalid : Valid h ⟨n + 1, .decl a scopes d, m⟩)
    (hparts : ∀ {q}, Part h.session.setting ⟨n + 1, .decl a scopes d, m⟩ q → Promise h k q) :
    Promise h k ⟨n + 1, .decl a scopes d, m⟩ := by
  obtain ⟨hcontext, hcomplete, hordinary, herrors⟩ := hvalid
  cases d with
  | var x initial span =>
      -- the name is bound in front, where it was only promised while the initializer ran
      have hdefine {m' : Machine} {v : Value} (hafter : After h none m m')
          (hv : KnownValue h m'.memory v) :
          Runs h k m.chain.head? (Eval.define x v >>= fun _ => pure Flow.normal) m'
            fun flow memory => Ends h a flow memory ∧
              (flow = .normal → Sees memory m.chain (scopes.define x)) := by
        have hgrows : Grows m.chain.head? m'.memory (m'.memory.define m.chain x v) :=
          grows_define _ _ _ hordinary.1
        have heq : (Eval.define x v >>= fun _ => pure Flow.normal : Eval Flow) m' =
            .ok .normal { m' with memory := m'.memory.define m.chain x v } := by
          rw [← hafter.chain]
          rfl
        have hsees := (hcontext.sees.later hafter.grows).define hordinary.1 v
        refine Runs.of_ok heq ⟨hgrows, rfl, ?_⟩ ⟨trivial, fun _ => hsees⟩
        exact hafter.known.define hordinary.1 (hv.later hgrows.toLater)
      cases initial with
      | none => exact hdefine (After.same hcontext.known rfl rfl) trivial
      | some e =>
          show Runs h k m.chain.head?
            (evaluate _ n (e.resolve a.enclosingClass (scopes.declare x)).value >>= fun v =>
              Eval.define x v >>= fun _ => pure Flow.normal) m _
          have hinitial : Promise h k
              ⟨n, .expr a.enclosingClass (scopes.declare x) e, m⟩ := hparts .initial
          refine Runs.bind (Runs.weaken hinitial) ?_
          intro v m' heq _ hv
          exact hdefine (Runs.of_eq hinitial heq).1 hv
  | function f =>
      refine Runs.mono (Runs.functionDecl hreached hcontext.known hcontext.sees hcomplete
        hcontext.placed hordinary herrors) ?_
      rintro flow m' _ ⟨rfl, hsees⟩
      exact ⟨trivial, fun _ => hsees⟩
  | «class» name superclass methods span =>
      refine Runs.mono (Runs.classDecl hreached hcontext.known hcontext.sees hcomplete hordinary
        herrors) ?_
      rintro flow m' _ ⟨rfl, hsees⟩
      exact ⟨trivial, fun _ => hsees⟩
  | stmt s =>
      have hstmt : Promise h k ⟨n, .stmt a scopes s, m⟩ := hparts .statement
      refine Runs.weaken (Runs.mono hstmt ?_)
      intro flow m' hafter hends
      exact ⟨hends, fun _ => hcontext.sees.later hafter.grows⟩

/-- Declarations one after the other. -/
theorem promise_decls {n : Nat} {a : Surroundings} {scopes : Scopes} {ds : List Decl} {m : Machine}
    (hvalid : Valid h ⟨n + 1, .decls a scopes ds, m⟩)
    (hparts : ∀ {q}, Part h.session.setting ⟨n + 1, .decls a scopes ds, m⟩ q → Promise h k q) :
    Promise h k ⟨n + 1, .decls a scopes ds, m⟩ := by
  cases ds with
  | nil => exact Runs.pure hvalid.known trivial
  | cons d ds =>
      show Runs h k m.chain.head? (executeAll _ (n + 1) ((d.resolve a scopes).value ::
        (Decl.resolveAll a (scopes.behind d) ds).value)) m _
      unfold executeAll
      refine Runs.bind (hparts .next) ?_
      intro flow m' heq hafter hends
      cases flow with
      | normal =>
          have hrest : Promise h k ⟨n, .decls a (scopes.behind d) ds, m'⟩ := hparts (.rest heq)
          unfold Promise at hrest
          rw [hafter.chain] at hrest
          exact hrest
      | «break» | «continue» | «return» => exact Runs.pure hafter.known hends.1


/-! ## Calls -/

/-- **A call** keeps its promise when the call inside it does. -/
theorem promise_call {n : Nat} {callee : Value} {args : List Value} {location : Location}
    {m : Machine} (hvalid : Valid h ⟨n + 1, .call callee args location, m⟩)
    (hparts : ∀ {q}, Part h.session.setting ⟨n + 1, .call callee args location, m⟩ q →
      Promise h k q) :
    Promise h k ⟨n + 1, .call callee args location, m⟩ := by
  have hknown : KnownMemory h m.memory := hvalid.1
  show Runs h k none (callValue _ (n + 1) callee args location) m _
  unfold callValue
  cases hcallable : callee.callable? with
  | none => exact Runs.raiseAt hknown location .notCallable
  | some c =>
      simp only
      split
      · rename_i harity
        exact Runs.inCall hknown fun hroom => hparts (.invoke hcallable harity hroom)
      · exact Runs.raiseAt hknown location (.wrongArity c.arity args.length)

theorem promise_invoke (hhonest : h.session.setting.host.Honest) {n : Nat} {callee : Callable}
    {args : List Value} {location : Location} {m : Machine}
    (hvalid : Valid h ⟨n + 1, .invoke callee args location, m⟩)
    (hparts : ∀ {q}, Part h.session.setting ⟨n + 1, .invoke callee args location, m⟩ q →
      Promise h k q) :
    Promise h k ⟨n + 1, .invoke callee args location, m⟩ := by
  cases callee with
  | function closure =>
      have hcall : Promise h k ⟨n, .function closure args none, m⟩ := hparts .function
      exact hcall
  | method closure receiver =>
      have hcall : Promise h k ⟨n, .function closure args (some receiver), m⟩ := hparts .method
      exact hcall
  | «class» c =>
      have hcall : Promise h k ⟨n, .construct c args, m⟩ := hparts .construct
      exact hcall
  | native nat => exact Runs.callNative hhonest hvalid.1 hvalid.2.2 nat location

theorem promise_construct {n : Nat} {c : Class} {args : List Value} {m : Machine}
    (hvalid : Valid h ⟨n + 1, .construct c args, m⟩)
    (hparts : ∀ {q}, Part h.session.setting ⟨n + 1, .construct c args, m⟩ q → Promise h k q) :
    Promise h k ⟨n + 1, .construct c args, m⟩ := by
  obtain ⟨hknown, hclass, _⟩ := hvalid
  have hgrows : Grows none m.memory (m.memory.newInstance c).2 := grows_of_scopes_eq rfl
  have hafter : After h none m { m with memory := (m.memory.newInstance c).2 } :=
    ⟨hgrows, rfl, hknown.newInstance c⟩
  show Runs h k none (instantiate _ (n + 1) c args) m _
  unfold instantiate
  refine Runs.bind_ok (x := Eval.take (·.newInstance c)) rfl (Outcome.after hafter ?_)
  cases hfind : c.findMethod? initializerName with
  | none => exact Runs.pure hafter.known (hclass.later hafter.later)
  | some closure =>
      have hcall : Promise h k ⟨n, .function closure args (some (m.memory.newInstance c).1),
        { m with memory := (m.memory.newInstance c).2 }⟩ := hparts (.initializer hfind)
      refine Runs.bind hcall ?_
      intro _ m' _ hafter' _
      exact Runs.pure hafter'.known ((hclass.later hafter.later).later hafter'.later)

/-! ## Bodies of functions -/

theorem Origin.body_resolved (o : Origin) : o.resolved.value.body =
    (Decl.resolveAll (o.around.inFunction o.kind)
      (Param.resolveAll o.outer.enter o.decl.params).value o.decl.body).value := by
  obtain ⟨around, scopes, kind, decl⟩ := o
  cases decl
  rfl

/-- A function without static errors has none in its body. -/
theorem Origin.errors_body {o : Origin} (herrors : o.resolved.errors = []) :
    (Decl.resolveAll (o.around.inFunction o.kind)
      (Param.resolveAll o.outer.enter o.decl.params).value o.decl.body).errors = [] := by
  obtain ⟨around, scopes, kind, decl⟩ := o
  cases decl
  simp only [Origin.resolved, FunctionDecl.resolve, Checked.errors_bind_eq_nil,
    Checked.errors_pure, and_true] at herrors
  exact herrors.2

/-- The scopes of a call suit the body of the function. -/
theorem valid_body {m m' : Machine} {o : Origin} {chain seen : Chain} {n : Nat}
    (hfits : Fits m.memory chain o) (hafter : After h none m m')
    (hsees : Sees m'.memory seen (Param.resolveAll o.outer.enter o.decl.params).value) :
    Valid h ⟨n, o.body, { m' with chain := seen }⟩ := by
  have hparams := FunctionDecl.params_not_reserved hfits.ordinary
  have houter : o.outer.Complete := by
    unfold Origin.outer
    split
    · exact hfits.complete.enterWith _
    · exact hfits.complete
  have hcomplete := Param.complete_resolveAll houter o.decl.params
  exact ⟨⟨hafter.known, hsees, Param.placed_resolveAll hfits.placed hparams, hcomplete.tail⟩,
    hcomplete, FunctionDecl.body_ordinary hfits.ordinary, Origin.errors_body hfits.errors⟩

/-- What is known of a call of a function: the moment of its body. -/
theorem exists_body {n : Nat} {closure : Closure} {args : List Value}
    {receiver : Option Instance} {m : Machine}
    (hreached : Reached h k ⟨n + 1, .function closure args receiver, m⟩)
    (hvalid : Valid h ⟨n + 1, .function closure args receiver, m⟩) :
    ∃ (o : Origin) (chain : Chain) (i : Nat) (rest : Chain) (m' : Machine),
      closure = o.closure chain ∧ Eval.bodyChain closure args receiver m = .ok (i :: rest) m' ∧
      m.memory.scopes.size ≤ i ∧ After h none m m' ∧
      Reached h k ⟨n, o.body, { m' with chain := i :: rest }⟩ ∧
      Valid h ⟨n, o.body, { m' with chain := i :: rest }⟩ := by
  obtain ⟨hknown, ⟨o, chain, k', maker, memory, rfl, hmethod, hmaker, hmakes, hlater, hfits⟩, hargs,
    hclass⟩ := hvalid
  obtain ⟨i, rest, m', hchain, hsize, hafter, hsees⟩ :=
    exists_bodyChain hknown hfits hmethod.symm hargs hclass
  exact ⟨o, chain, i, rest, m', rfl, hchain, hsize, hafter,
    .body hreached hchain hmaker hmakes hmethod.symm hlater, valid_body hfits hafter hsees⟩

/-- A call of a function yields a value, however its body ends. -/
theorem Runs.callResult {closure : Closure} {receiver : Option Instance} {a : Surroundings}
    {flow : Flow} {m : Machine} (hknown : KnownMemory h m.memory)
    (hclass : ∀ i ∈ receiver, KnownClass h m.memory i.ofClass)
    (hends : Ends h a flow m.memory) (hloop : a.inLoop = false) :
    Runs h k none (Eval.callResult closure receiver flow) m
      (fun v memory => KnownValue h memory v) := by
  have hjump (hjump : a.inLoop = true) : False := nomatch hloop.symm.trans hjump
  unfold Eval.callResult
  cases hinitializer : closure.isInitializer with
  | true =>
      cases receiver with
      | none => exact Runs.pure hknown trivial
      | some i => exact Runs.pure hknown (hclass i rfl)
  | false =>
      cases flow with
      | normal => exact Runs.pure hknown trivial
      | «return» v => exact Runs.pure hknown hends.2
      | «break» | «continue» => exact (hjump hends).elim

/-- **A call of a function** keeps its promise when its body does. -/
theorem promise_body {n : Nat} {closure : Closure} {args : List Value}
    {receiver : Option Instance} {m : Machine}
    (hreached : Reached h k ⟨n + 1, .function closure args receiver, m⟩)
    (hvalid : Valid h ⟨n + 1, .function closure args receiver, m⟩)
    (hbody : ∀ {q}, q.fuel = n → Reached h k q → Valid h q → Promise h k q) :
    Promise h k ⟨n + 1, .function closure args receiver, m⟩ := by
  obtain ⟨o, chain, i, rest, m', hclosure, hchain, hsize, hafter, hreached', hvalid'⟩ :=
    exists_body hreached hvalid
  have hpromise : Runs h k (some i) (executeAll h.session.setting n closure.declaration.body)
      { m' with chain := i :: rest } (Ends h (o.around.inFunction o.kind)) := by
    have hrun := hbody rfl hreached' hvalid'
    subst hclosure
    rw [show (o.closure chain).declaration.body = _ from o.body_resolved]
    exact hrun
  have hclass : ∀ i ∈ receiver, KnownClass h m.memory i.ofClass := hvalid.2.2.2
  show Runs h k none (callFunction _ (n + 1) closure args receiver) m _
  unfold callFunction
  refine Runs.bind_ok hchain (Outcome.of_new hafter hsize ?_)
  refine Runs.bind (Runs.within hpromise) ?_
  intro flow m'' _ hafter' hends
  refine Runs.weaken (Runs.callResult hafter'.known ?_ hends rfl)
  exact fun r hr => ((hclass r hr).later hafter.later).later hafter'.later

/-! ## Every moment -/

theorem Part.fuel_eq {setting : Setting} {p q : Moment} (hpart : Part setting p q) :
    p.fuel = q.fuel + 1 := by
  cases hpart <;> rfl

/-- **Every valid moment that is reached keeps its promise**, by induction on the bound on the
recursion. -/
theorem promise (hhonest : h.session.setting.host.Honest) {p : Moment} (hreached : Reached h k p)
    (hvalid : Valid h p) : Promise h k p := by
  obtain ⟨n, work, m⟩ := p
  induction n generalizing work m with
  | zero =>
      have hknown : KnownMemory h m.memory := hvalid.known
      cases work with
      | expr | exprs | stmt | decl | decls | loop | call | invoke | function | construct =>
          exact Runs.outOfFuel hknown ⟨_, hreached, rfl⟩
  | succ n ih =>
      -- what is inside has less fuel, and is valid because the parts before it have kept their promises
      have hinner {q : Moment} (hpart : Part h.session.setting ⟨n + 1, work, m⟩ q)
          (hq : Valid h q) : Promise h k q := by
        obtain ⟨n', work', m'⟩ := q
        cases Part.fuel_eq hpart
        exact ih work' m' (hreached.part hpart) hq
      have hparts {q : Moment} (hpart : Part h.session.setting ⟨n + 1, work, m⟩ q) :
          Promise h k q := hinner hpart (valid_part hvalid hinner hpart)
      cases work with
      | expr => exact promise_expr hreached hvalid hparts
      | exprs => exact promise_exprs hvalid hparts
      | stmt => exact promise_stmt hvalid hparts
      | loop => exact promise_loop hparts
      | decl => exact promise_decl hreached hvalid hparts
      | decls => exact promise_decls hvalid hparts
      | call => exact promise_call hvalid hparts
      | invoke => exact promise_invoke hhonest hvalid hparts
      | construct => exact promise_construct hvalid hparts
      | function =>
          refine promise_body hreached hvalid ?_
          rintro ⟨_, work', m'⟩ rfl hreached' hvalid'
          exact ih work' m' hreached' hvalid'


end Lox.Scoping
