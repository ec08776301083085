import Lox.Proofs.Scoping.Defects

/-!
# Jumps stay where they are allowed

Resolution refuses a `break` or a `continue` without a loop around it in the same function, and a
`return` without a function around it. Evaluation passes a jump on through blocks and branches until
a loop or a call takes it. The two fit together: how a statement may end can be read off what it
stands in, whatever machine it is executed on. What a call runs is the body of a function, and that
was resolved with no loop around it, wherever the function is called.

So the checks that a call makes of how its body ended, and the check that a program makes of how its
last declaration ended, never find anything to reject.

## Contents
- `Yields`: how a computation may end.
- `Permits`: how statements may end, by what they stand in.
- `Confined`, `confined`: every statement and declaration of the evaluator.
- `Contains`, `resolved_of_contains`: the constructs of a program and what they were resolved in.
- `KeepsJumps`, `keepsJumps`: programs whose jumps stay inside.
- `jumps_contained`: all programs, and the calls of all sessions.
-/

namespace Lox.Scoping

/-! ## How computations end -/

/-- Whenever a computation ends well, its result is as described. -/
def Yields {α : Type} (x : Eval α) (Q : α → Prop) : Prop :=
  ∀ m a m', x m = .ok a m' → Q a

namespace Yields

variable {α β : Type} {Q : α → Prop} {R : β → Prop}

theorem pure {a : α} (h : Q a) : Yields (Pure.pure a) Q := by
  intro m a' m' heq
  cases heq
  exact h

theorem outOfFuel : Yields (throw .outOfFuel : Eval α) Q := by
  intro m a m' heq
  cases heq

theorem bind {x : Eval α} {f : α → Eval β} (hx : Yields x Q) (hf : ∀ a, Q a → Yields (f a) R) :
    Yields (x >>= f) R := by
  intro m b m'' heq
  obtain ⟨a, m', hres, heq⟩ := ok_of_bind heq
  exact hf a (hx m a m' hres) m' b m'' heq

/-- A computation whose result does not matter, and one behind it. -/
theorem after {x : Eval α} {f : α → Eval β} (hf : ∀ a, Yields (f a) R) : Yields (x >>= f) R :=
  bind (Q := fun _ => True) (fun _ _ _ _ => trivial) fun a _ => hf a

theorem ite {b : Bool} {x y : Eval α} (hx : Yields x Q) (hy : Yields y Q) :
    Yields (if b then x else y) Q := by
  cases b with
  | true => exact hx
  | false => exact hy

theorem within {x : Eval α} (c : Chain) (hx : Yields x Q) : Yields (Eval.within c x) Q := by
  intro m a m'' heq
  obtain ⟨m', hres, -⟩ := Eval.ok_of_within heq
  exact hx _ a m' hres

theorem mono {x : Eval α} {Q' : α → Prop} (hx : Yields x Q) (himp : ∀ a, Q a → Q' a) :
    Yields x Q' := fun m a m' heq => himp a (hx m a m' heq)

/-- Computations go on in the same way when they do so for every result that there may be. -/
theorem bind_congr {x : Eval α} {f g : α → Eval β} (hx : Yields x Q)
    (hfg : ∀ a, Q a → f a = g a) : x >>= f = x >>= g := by
  funext m
  refine bind_eq rfl fun a m' hres => ?_
  rw [hfg a (hx m a m' hres)]

end Yields

/-- How a piece of program may end in what it stands in. -/
def Permits (a : Surroundings) : Flow → Prop
  | .normal => True
  | .break | .continue => a.inLoop = true
  | .return _ => a.function ≠ .none

/-- A loop takes the jumps that are its own and hands on the others. -/
theorem Permits.of_loop {a : Surroundings} {flow : Flow}
    (h : Permits { a with inLoop := true } flow) :
    flow = .normal ∨ flow = .break ∨ flow = .continue ∨
      ∃ v, flow = .return v ∧ a.function ≠ .none := by
  cases flow with
  | normal => exact .inl rfl
  | «break» => exact .inr (.inl rfl)
  | «continue» => exact .inr (.inr (.inl rfl))
  | «return» v => exact .inr (.inr (.inr ⟨v, rfl, h⟩))

/-- How a loop may end: by itself, or by leaving the function around it. -/
def EndsLoop (a : Surroundings) : Flow → Prop
  | .normal => True
  | .break | .continue => False
  | .return _ => a.function ≠ .none

theorem EndsLoop.permits {a : Surroundings} {flow : Flow} (h : EndsLoop a flow) :
    Permits a flow := by
  cases flow with
  | normal => trivial
  | «break» | «continue» => exact h.elim
  | «return» v => exact h

/-! ## Every call of the evaluator -/

/-- Statements and declarations without static errors end as what they stand in permits, with a given
bound on the recursion. -/
structure Confined (setting : Setting) (n : Nat) : Prop where
  stmt : ∀ a scopes s, (Stmt.resolve a scopes s).errors = [] →
    Yields (execute setting n (s.resolve a scopes).value) (Permits a)
  loop : ∀ a scopes c b i, (Stmt.resolve { a with inLoop := true } scopes b).errors = [] →
    Yields (executeLoop setting n c (b.resolve { a with inLoop := true } scopes).value i) (EndsLoop a)
  decl : ∀ a scopes d, (Decl.resolve a scopes d).errors = [] →
    Yields (executeDecl setting n (d.resolve a scopes).value) (Permits a)
  decls : ∀ a scopes ds, (Decl.resolveAll a scopes ds).errors = [] →
    Yields (executeAll setting n (Decl.resolveAll a scopes ds).value) (Permits a)

section Step

variable {setting : Setting} {n : Nat} {a : Surroundings} {scopes : Scopes}

/-- **A statement** ends as permitted when the statements inside it do. -/
theorem Confined.stmt_step (inside : Confined setting n) {s : Stmt}
    (herrors : (s.resolve a scopes).errors = []) :
    Yields (execute setting (n + 1) (s.resolve a scopes).value) (Permits a) := by
  cases s with
  | expression value span => exact .after fun _ => .pure trivial
  | print value span => exact .after fun _ => .after fun _ => .pure trivial
  | block body span =>
      simp only [Stmt.resolve, Checked.errors_bind_eq_nil] at herrors
      refine .after fun _ => .after fun inner => ?_
      exact .within inner (inside.decls a scopes.enter body herrors.1)
  | ifThenElse condition thenBranch otherwise span =>
      cases otherwise with
      | none =>
          simp only [Stmt.resolve, Checked.errors_bind_eq_nil] at herrors
          refine .after fun v => .ite (inside.stmt a scopes thenBranch herrors.2.1) ?_
          exact .pure trivial
      | some elseBranch =>
          simp only [Stmt.resolve, Checked.errors_bind_eq_nil] at herrors
          refine .after fun v => .ite (inside.stmt a scopes thenBranch herrors.2.1) ?_
          exact inside.stmt a scopes elseBranch herrors.2.2.1
  | whileLoop condition body increment span =>
      simp only [Stmt.resolve, Checked.errors_bind_eq_nil] at herrors
      exact (inside.loop a scopes _ body _ herrors.2.1).mono fun flow => EndsLoop.permits
  | «break» span | «continue» span =>
      simp only [Stmt.resolve, Checked.errors_bind_eq_nil] at herrors
      have hloop : a.inLoop = true := by simpa using Checked.eq_false_of_reportIf herrors.1
      exact .pure hloop
  | «return» value span =>
      simp only [Stmt.resolve, Checked.errors_bind_eq_nil] at herrors
      have hfunction : a.function ≠ .none :=
        beq_eq_false_iff_ne.1 (Checked.eq_false_of_reportIf herrors.1)
      cases value with
      | none => exact .pure hfunction
      | some e => exact .after fun _ => .pure hfunction

/-- **A loop** takes the jumps of its body. -/
theorem Confined.loop_step (inside : Confined setting n) {condition : Expr} {body : Stmt}
    {increment : Option Expr}
    (herrors : (body.resolve { a with inLoop := true } scopes).errors = []) :
    Yields (executeLoop setting (n + 1) condition
      (body.resolve { a with inLoop := true } scopes).value increment) (EndsLoop a) := by
  have hagain := inside.loop a scopes condition body increment herrors
  unfold executeLoop
  refine .after fun v => .ite ?_ (.pure trivial)
  refine .bind (inside.stmt { a with inLoop := true } scopes body herrors) fun flow hflow => ?_
  rcases Permits.of_loop hflow with rfl | rfl | rfl | ⟨value, rfl, hfunction⟩
  · cases increment with
    | none => exact hagain
    | some e => exact .after fun _ => hagain
  · exact .pure trivial
  -- a round that is cut short goes on as one that ends normally
  · cases increment with
    | none => exact hagain
    | some e => exact .after fun _ => hagain
  · exact .pure hfunction

/-- A declaration ends as permitted when the statement that it may be does. -/
theorem Confined.decl_step (inside : Confined setting n) {d : Decl}
    (herrors : (d.resolve a scopes).errors = []) :
    Yields (executeDecl setting (n + 1) (d.resolve a scopes).value) (Permits a) := by
  cases d with
  | var name initial span =>
      cases initial with
      | none => exact .after fun _ => .pure trivial
      | some e => exact .after fun _ => .after fun _ => .pure trivial
  | function f => exact .after fun _ => .after fun _ => .after fun _ => .pure trivial
  | «class» name superclass methods span => exact .after fun _ => .pure trivial
  | stmt s =>
      simp only [Decl.resolve, Checked.errors_bind_eq_nil] at herrors
      exact inside.stmt a scopes s herrors.1

/-- Declarations end as permitted when each of them does. -/
theorem Confined.decls_step (inside : Confined setting n) {ds : List Decl}
    (herrors : (Decl.resolveAll a scopes ds).errors = []) :
    Yields (executeAll setting (n + 1) (Decl.resolveAll a scopes ds).value) (Permits a) := by
  cases ds with
  | nil => exact .pure trivial
  | cons d ds =>
      simp only [Decl.resolveAll, Checked.errors_bind_eq_nil] at herrors
      show Yields (executeAll setting (n + 1) ((d.resolve a scopes).value ::
        (Decl.resolveAll a (scopes.behind d) ds).value)) (Permits a)
      unfold executeAll
      refine .bind (inside.decl a scopes d herrors.1) fun flow hflow => ?_
      cases flow with
      | normal => exact inside.decls a (scopes.behind d) ds herrors.2.1
      | «break» | «continue» | «return» => exact .pure hflow

end Step

/-- **Every statement and declaration ends as what it stands in permits**, by induction on the bound
on the recursion. -/
theorem confined (setting : Setting) (n : Nat) : Confined setting n := by
  induction n with
  | zero =>
      exact ⟨fun _ _ _ _ => .outOfFuel, fun _ _ _ _ _ _ => .outOfFuel, fun _ _ _ _ => .outOfFuel,
        fun _ _ _ _ => .outOfFuel⟩
  | succ n ih =>
      exact ⟨fun _ _ _ => ih.stmt_step, fun _ _ _ _ _ => ih.loop_step, fun _ _ _ => ih.decl_step,
        fun _ _ _ => ih.decls_step⟩

/-! ## The constructs of a program -/

/-- What is executed or called in a program. -/
inductive Construct
  | decl (d : Decl)
  | stmt (s : Stmt)
  | function (f : FunctionDecl)

/-- Declarations contain a construct, inside a loop of the same function or outside of all of them,
as the flag says. -/
inductive Contains (ds : List Decl) : Bool → Construct → Prop
  | top {d} : d ∈ ds → Contains ds false (.decl d)
  | statement {l s} : Contains ds l (.decl (.stmt s)) → Contains ds l (.stmt s)
  | block {l body span d} :
      Contains ds l (.stmt (.block body span)) → d ∈ body → Contains ds l (.decl d)
  | thenBranch {l c t e span} :
      Contains ds l (.stmt (.ifThenElse c t e span)) → Contains ds l (.stmt t)
  | elseBranch {l c t e span} :
      Contains ds l (.stmt (.ifThenElse c t (some e) span)) → Contains ds l (.stmt e)
  | loopBody {l c body i span} :
      Contains ds l (.stmt (.whileLoop c body i span)) → Contains ds true (.stmt body)
  | function {l f} : Contains ds l (.decl (.function f)) → Contains ds l (.function f)
  | method {l name superclass methods span f} :
      Contains ds l (.decl (.class name superclass methods span)) → f ∈ methods →
      Contains ds l (.function f)
  | body {l f d} : Contains ds l (.function f) → d ∈ f.body → Contains ds false (.decl d)

/-- A construct came out of resolution without errors, inside a loop or outside as the flag says. -/
def Resolved (l : Bool) : Construct → Prop
  | .decl d' => ∃ a scopes d, d' = (Decl.resolve a scopes d).value ∧
      (d.resolve a scopes).errors = [] ∧ a.inLoop = l
  | .stmt s' => ∃ a scopes s, s' = (Stmt.resolve a scopes s).value ∧
      (s.resolve a scopes).errors = [] ∧ a.inLoop = l
  | .function f' => ∃ a scopes kind f, f' = (FunctionDecl.resolve a scopes kind f).value ∧
      (f.resolve a scopes kind).errors = [] ∧ a.inLoop = l

/-- An accepted program has no static errors in its declarations. -/
theorem Program.errors_body {p : Program} (herrors : p.resolve.errors = []) :
    (Decl.resolveAll .topLevel [] p.body).errors = [] := by
  unfold Program.resolve at herrors
  exact ((Checked.errors_bind_eq_nil _ _).1 herrors).1

/-- Each of several resolved declarations was resolved in the same surroundings. -/
theorem exists_of_mem_resolveAll {a : Surroundings} {scopes : Scopes} {ds : List Decl} {d' : Decl}
    (herrors : (Decl.resolveAll a scopes ds).errors = [])
    (hmem : d' ∈ (Decl.resolveAll a scopes ds).value) :
    ∃ scopes' d, d' = (Decl.resolve a scopes' d).value ∧ (d.resolve a scopes').errors = [] := by
  induction ds generalizing scopes with
  | nil => exact nomatch hmem
  | cons d ds ih =>
      simp only [Decl.resolveAll, Checked.errors_bind_eq_nil] at herrors
      rcases List.mem_cons.1 hmem with rfl | hmem
      · exact ⟨scopes, d, rfl, herrors.1⟩
      · exact ih herrors.2.1 hmem

/-- **What a program contains was resolved where it stands.** -/
theorem resolved_of_contains {p : Program} (herrors : p.resolve.errors = []) {l : Bool}
    {c : Construct} (hcontains : Contains p.resolve.value.body l c) : Resolved l c := by
  -- resolving keeps the kind of a construct, so what is around came from one of the same kind, and the
  -- errors of that one are those of its parts
  induction hcontains with
  | top hmem =>
      obtain ⟨scopes, d, rfl, hd⟩ := exists_of_mem_resolveAll (Program.errors_body herrors) hmem
      exact ⟨_, scopes, d, rfl, hd, rfl⟩
  | statement _ ih =>
      obtain ⟨a, scopes, d, heq, hd, hl⟩ := ih
      cases d with
      | stmt s =>
          simp only [Decl.resolve, Checked.errors_bind_eq_nil] at hd
          exact ⟨a, scopes, s, Decl.stmt.inj heq, hd.1, hl⟩
      | var | function | «class» => exact nomatch heq
  | block _ hmem ih =>
      obtain ⟨a, scopes, s, heq, hs, hl⟩ := ih
      cases s with
      | block body span =>
          simp only [Stmt.resolve, Checked.errors_bind_eq_nil] at hs
          cases heq
          obtain ⟨scopes', d, rfl, hd⟩ := exists_of_mem_resolveAll hs.1 hmem
          exact ⟨a, scopes', d, rfl, hd, hl⟩
      | ifThenElse _ _ otherwise => cases otherwise <;> exact nomatch heq
      | expression | print | whileLoop | «break» | «continue» | «return» => exact nomatch heq
  | thenBranch _ ih =>
      obtain ⟨a, scopes, s, heq, hs, hl⟩ := ih
      cases s with
      | ifThenElse c t otherwise =>
          cases otherwise with
          | none =>
              simp only [Stmt.resolve, Checked.errors_bind_eq_nil] at hs
              cases heq
              exact ⟨a, scopes, t, rfl, hs.2.1, hl⟩
          | some e =>
              simp only [Stmt.resolve, Checked.errors_bind_eq_nil] at hs
              cases heq
              exact ⟨a, scopes, t, rfl, hs.2.1, hl⟩
      | expression | print | block | whileLoop | «break» | «continue» | «return» => exact nomatch heq
  | elseBranch _ ih =>
      obtain ⟨a, scopes, s, heq, hs, hl⟩ := ih
      cases s with
      | ifThenElse c t otherwise =>
          cases otherwise with
          | none => exact nomatch heq
          | some e =>
              simp only [Stmt.resolve, Checked.errors_bind_eq_nil] at hs
              cases heq
              exact ⟨a, scopes, e, rfl, hs.2.2.1, hl⟩
      | expression | print | block | whileLoop | «break» | «continue» | «return» => exact nomatch heq
  | loopBody _ ih =>
      obtain ⟨a, scopes, s, heq, hs, hl⟩ := ih
      cases s with
      | whileLoop c body i =>
          simp only [Stmt.resolve, Checked.errors_bind_eq_nil] at hs
          cases heq
          exact ⟨_, scopes, body, rfl, hs.2.1, rfl⟩
      | ifThenElse _ _ otherwise => cases otherwise <;> exact nomatch heq
      | expression | print | block | «break» | «continue» | «return» => exact nomatch heq
  | function _ ih =>
      obtain ⟨a, scopes, d, heq, hd, hl⟩ := ih
      cases d with
      | function f =>
          simp only [Decl.resolve, Checked.errors_bind_eq_nil] at hd
          exact ⟨a, _, _, f, Decl.function.inj heq, hd.2.1, hl⟩
      | var | stmt | «class» => exact nomatch heq
  | method _ hmem ih =>
      obtain ⟨a, scopes, d, heq, hd, hl⟩ := ih
      cases d with
      | «class» name superclass methods span =>
          simp only [Decl.resolve, Checked.errors_bind_eq_nil] at hd
          cases heq
          rw [FunctionDecl.resolveAll_value] at hmem
          obtain ⟨f, hf, rfl⟩ := List.mem_map.1 hmem
          exact ⟨_, _, _, f, rfl, FunctionDecl.errors_resolveAll hd.2.2.1 f hf, hl⟩
      | var | stmt | function => exact nomatch heq
  | body _ hmem ih =>
      obtain ⟨a, scopes, kind, ⟨name, params, body, span⟩, rfl, hf, _⟩ := ih
      simp only [FunctionDecl.resolve, Checked.errors_bind_eq_nil] at hf
      obtain ⟨scopes', d, rfl, hd⟩ := exists_of_mem_resolveAll hf.2.1 hmem
      exact ⟨_, scopes', d, rfl, hd, rfl⟩

/-! ## Programs -/

/-- How a loop or the body of a function may end. -/
def Returns (flow : Flow) : Prop := flow = .normal ∨ ∃ v, flow = .return v

theorem EndsLoop.returns {a : Surroundings} {flow : Flow} (h : EndsLoop a flow) : Returns flow := by
  cases flow with
  | normal => exact .inl rfl
  | «break» | «continue» => exact h.elim
  | «return» v => exact .inr ⟨v, rfl⟩

/-- Without a loop around there is no jump of a loop. -/
theorem Permits.returns {a : Surroundings} {flow : Flow} (hloop : a.inLoop = false)
    (h : Permits a flow) : Returns flow := by
  cases flow with
  | normal => exact .inl rfl
  | «break» | «continue» => exact nomatch hloop.symm.trans h
  | «return» v => exact .inr ⟨v, rfl⟩

/-- What a call yields whose body ended normally or by `return`: nothing is left to reject. -/
def resultOf (closure : Closure) (receiver : Option Instance) (flow : Flow) : Value :=
  match closure.isInitializer, receiver, flow with
  | true, some i, _ => .instance i
  | true, none, _ => .nil
  | false, _, .return v => v
  | false, _, _ => .nil

theorem callResult_of_returns (closure : Closure) (receiver : Option Instance) {flow : Flow}
    (hflow : Returns flow) :
    Eval.callResult closure receiver flow = pure (resultOf closure receiver flow) := by
  unfold Eval.callResult resultOf
  cases closure.isInitializer with
  | true => cases receiver <;> rfl
  | false =>
      rcases hflow with rfl | ⟨v, rfl⟩
      · rfl
      · rfl

/-- A call of a function whose body ends normally or by `return` rejects nothing. -/
theorem callFunction_of_returns {setting : Setting} {fuel : Nat} {closure : Closure}
    (hbody : Yields (executeAll setting fuel closure.declaration.body) Returns) (args : List Value)
    (receiver : Option Instance) :
    callFunction setting (fuel + 1) closure args receiver = (do
      let seen ← Eval.bodyChain closure args receiver
      let flow ← Eval.within seen (executeAll setting fuel closure.declaration.body)
      pure (resultOf closure receiver flow)) := by
  unfold callFunction
  refine congrArg (Eval.bodyChain closure args receiver >>= ·) (funext fun seen => ?_)
  exact (hbody.within seen).bind_congr fun flow => callResult_of_returns closure receiver

/-- The jumps of a program stay inside the constructs that they belong to, on every machine. -/
structure KeepsJumps (setting : Setting) (p : Program) : Prop where
  /-- Outside of loops no statement ends by the jump of a loop. -/
  statement : ∀ s fuel, Contains p.body false (.stmt s) →
    Yields (execute setting fuel s) fun flow => flow ≠ .break ∧ flow ≠ .continue
  loop : ∀ l condition body increment span fuel,
    Contains p.body l (.stmt (.whileLoop condition body increment span)) →
    Yields (execute setting fuel (.whileLoop condition body increment span)) Returns
  /-- The bodies of functions, of methods and initializers among them. -/
  body : ∀ l f fuel, Contains p.body l (.function f) →
    Yields (executeAll setting fuel f.body) Returns
  topLevel : ∀ fuel, Yields (executeAll setting fuel p.body) fun flow => flow = .normal
  /-- A call of one of the functions does without its check. -/
  call : ∀ l f chain initializes args receiver fuel, Contains p.body l (.function f) →
    callFunction setting (fuel + 1) ⟨f, chain, initializes⟩ args receiver = (do
      let seen ← Eval.bodyChain ⟨f, chain, initializes⟩ args receiver
      let flow ← Eval.within seen (executeAll setting fuel f.body)
      pure (resultOf ⟨f, chain, initializes⟩ receiver flow))
  /-- The program does without its check. -/
  program : ∀ fuel, executeProgram setting fuel p = (do
    let _ ← executeAll setting fuel p.body
    pure ())

/-- The body of a function that a program contains ends normally or by `return`. -/
theorem returns_of_contains {p : Program} (herrors : p.resolve.errors = []) {l : Bool}
    {f : FunctionDecl} (hcontains : Contains p.resolve.value.body l (.function f))
    (setting : Setting) (fuel : Nat) : Yields (executeAll setting fuel f.body) Returns := by
  obtain ⟨a, scopes, kind, ⟨name, params, body, span⟩, rfl, hf, _⟩ :=
    resolved_of_contains herrors hcontains
  simp only [FunctionDecl.resolve, Checked.errors_bind_eq_nil] at hf
  exact ((confined setting fuel).decls _ _ body hf.2.1).mono fun flow => Permits.returns rfl

/-- At the top level there is nothing to jump out of. -/
theorem normal_of_errors {p : Program} (herrors : p.resolve.errors = []) (setting : Setting)
    (fuel : Nat) :
    Yields (executeAll setting fuel p.resolve.value.body) fun flow => flow = .normal := by
  refine ((confined setting fuel).decls _ _ p.body (Program.errors_body herrors)).mono ?_
  intro flow hflow
  cases flow with
  | normal => rfl
  | «break» | «continue» => exact nomatch hflow
  | «return» v => exact absurd rfl hflow

/-- **The jumps of an accepted program stay inside it.** -/
theorem keepsJumps {p : Program} (herrors : p.resolve.errors = []) (setting : Setting) :
    KeepsJumps setting p.resolve.value where
  statement s fuel hcontains := by
    obtain ⟨a, scopes, s, rfl, hs, hloop⟩ := resolved_of_contains herrors hcontains
    refine ((confined setting fuel).stmt a scopes s hs).mono fun flow hflow => ?_
    rcases hflow.returns hloop with rfl | ⟨v, rfl⟩
    · exact ⟨nofun, nofun⟩
    · exact ⟨nofun, nofun⟩
  loop l condition body increment span fuel hcontains := by
    cases fuel with
    | zero => exact .outOfFuel
    | succ fuel =>
        -- the body of the loop was resolved inside a loop
        obtain ⟨a, scopes, s, heq, hs, hl⟩ := resolved_of_contains herrors hcontains.loopBody
        have hloop : a = { a with inLoop := true } := by rw [← hl]
        rw [hloop] at heq hs
        show Yields (executeLoop setting fuel condition body increment) Returns
        rw [heq]
        exact ((confined setting fuel).loop a scopes condition s increment hs).mono
          fun flow => EndsLoop.returns
  body _ f fuel hcontains := returns_of_contains herrors hcontains setting fuel
  topLevel := normal_of_errors herrors setting
  call _ f chain initializes args receiver fuel hcontains := by
    have hbody := returns_of_contains herrors hcontains setting fuel
    exact @callFunction_of_returns setting fuel ⟨f, chain, initializes⟩ hbody args receiver
  program fuel := by
    refine (normal_of_errors herrors setting fuel).bind_congr fun flow hflow => ?_
    rw [hflow]

/-! ## Sessions -/

/-- What is called while a session runs has a body that ends normally or by `return`. -/
theorem returns_of_reached {h : History} (hhonest : h.session.setting.host.Honest)
    (hready : Ready h h.session.machine) {k n : Nat} {closure : Closure} {args : List Value}
    {receiver : Option Instance} {m : Machine}
    (hreached : Reached h k ⟨n + 1, .function closure args receiver, m⟩) (setting : Setting)
    (fuel : Nat) : Yields (executeAll setting fuel closure.declaration.body) Returns := by
  obtain ⟨o, chain, i, rest, m', rfl, _, _, _, _, hvalid⟩ :=
    exists_body hreached (valid_of_reached hhonest hready hreached)
  obtain ⟨_, _, _, herrors⟩ := hvalid
  rw [show (o.closure chain).declaration.body = _ from o.body_resolved]
  exact ((confined setting fuel).decls _ _ o.decl.body herrors).mono fun flow => Permits.returns rfl

/-- **Jumps stay where resolution allowed them.** The jumps of every accepted program stay inside the
constructs that they belong to. In a session with an honest host the functions that are called, in
whichever input they were declared, do without the check of how their bodies end; and no input
ends because a jump left a function or the program, unless the host says so itself. -/
theorem jumps_contained (options : Options) (session : Session) (inputs : List (Nat × List Char))
    (hcreate : Session.create options = .ok session) (hhonest : options.host.Honest) :
    (∀ (p : Program) setting, p.resolve.errors = [] → KeepsJumps setting p.resolve.value) ∧
    (∀ k n closure args receiver m,
      Reached ⟨session, inputs⟩ k ⟨n + 1, .function closure args receiver, m⟩ →
      Yields (executeAll session.setting n closure.declaration.body) Returns ∧
      callFunction session.setting (n + 1) closure args receiver = (do
        let seen ← Eval.bodyChain closure args receiver
        let flow ← Eval.within seen (executeAll session.setting n closure.declaration.body)
        pure (resultOf closure receiver flow))) ∧
    (∀ fuel source e,
      internalError? ((session.after inputs).runWith fuel source).1 = some e →
      options.host.Raises (.internal e) ∨
        (∀ jump function, e.defect ≠ .escapedBody jump function) ∧
        ∀ jump, e.defect ≠ .escapedTopLevel jump) := by
  have hsession := Session.host_of_create hcreate
  have hhonest' : session.setting.host.Honest := by
    rw [hsession]
    exact hhonest
  refine ⟨?_, ?_, ?_⟩
  · intro p setting herrors
    exact keepsJumps herrors setting
  · intro k n closure args receiver m hreached
    have hbody := returns_of_reached (h := ⟨session, inputs⟩) hhonest' (ready_create hcreate)
      hreached session.setting n
    exact ⟨hbody, callFunction_of_returns hbody args receiver⟩
  · intro fuel source e hdefect
    have hstop := internalError?_eq_some.1 hdefect
    -- the input is the last one of a history
    let h : History := ⟨session, inputs ++ [(fuel, source)]⟩
    have hinput : h.inputs[inputs.length]? = some (fuel, source) := List.getElem?_concat_length
    have hbefore : h.session.after (h.inputs.take inputs.length) = session.after inputs := by
      show session.after ((inputs ++ [(fuel, source)]).take inputs.length) = _
      rw [List.take_left]
    rw [← hbefore] at hstop
    have hready : Ready h h.session.machine := ready_create hcreate
    rcases allowed_of_stop hhonest' hready hinput hstop with hraises | ⟨x, heq, _⟩
    · exact .inl (hsession ▸ hraises)
    · cases heq
      exact .inr ⟨nofun, nofun⟩

/-- A function that is declared in a loop: `while (true) { fun f() { return 1; } }`. -/
def loopFunctionSource : List Char :=
  "while (true) \x7b fun f() \x7b return 1; \x7d \x7d".toList

/-- The function of a program that is a loop around a block with a function. -/
def loopFunction? (p : Program) : Option FunctionDecl :=
  match p.body with
  | [.stmt (.whileLoop _ (.block [.function f] _) none _)] => some f
  | _ => none

theorem parse_loopFunctionSource : ∃ p f, Program.parse loopFunctionSource = .ok p ∧
    p.resolve.errors = [] ∧ loopFunction? p.resolve.value = some f := by
  have hrun : ((Program.parse loopFunctionSource).toOption.filter fun p =>
      p.resolve.errors.isEmpty && (loopFunction? p.resolve.value).isSome).isSome = true := by
    decide +kernel
  obtain ⟨p, hp⟩ := Option.isSome_iff_exists.1 hrun
  obtain ⟨hparse, hchecks⟩ := Option.filter_eq_some_iff.1 hp
  rw [Bool.and_eq_true] at hchecks
  obtain ⟨f, hf⟩ := Option.isSome_iff_exists.1 hchecks.2
  exact ⟨p, f, eq_ok_of_toOption hparse, List.isEmpty_iff.1 hchecks.1, hf⟩

theorem contains_of_loopFunction? {p : Program} {f : FunctionDecl} (h : loopFunction? p = some f) :
    Contains p.body true (.function f) := by
  unfold loopFunction? at h
  split at h
  · rename_i hbody
    cases h
    rw [hbody]
    exact (Contains.top List.mem_cons_self).statement.loopBody |>.block List.mem_cons_self |>.function
  · cases h

/-- A function in a loop, in a session that exists: the loop around it is not one of its body, which
ends normally or by `return`. -/
theorem jumps_contained_in_loop :
    ∃ p f, Session.create (Options.standard Host.plain) = .ok plainSession ∧
      Program.parse loopFunctionSource = .ok p ∧ p.resolve.errors = [] ∧
      Contains p.resolve.value.body true (.function f) ∧
      Yields (executeAll plainSession.setting ampleFuel f.body) Returns := by
  obtain ⟨p, f, hparse, herrors, hf⟩ := parse_loopFunctionSource
  have hcontains := contains_of_loopFunction? hf
  have hkeeps := (jumps_contained (Options.standard Host.plain) plainSession [] create_plainSession
    Host.honest_plain).1 p plainSession.setting herrors
  exact ⟨p, f, create_plainSession, hparse, herrors, hcontains, hkeeps.body true f _ hcontains⟩

end Lox.Scoping
