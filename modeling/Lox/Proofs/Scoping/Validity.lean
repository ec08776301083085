import Lox.Proofs.Scoping.Declarations

/-!
# What holds at a moment

A moment is valid when its machine suits its work: the chain agrees with the scopes in which the work
was resolved, everything in memory is known, and no static error was found. A moment keeps its
promise when the call of the evaluator that it is leaves behind what it should.

A moment inside another one is valid if the other one is, and the moments before it inside the same
one keep their promises.

## Contents
- `Context`, `Ends`: machines that suit scopes, and how statements may end.
- `Valid`, `Promise`: what holds at a moment, and what its call leaves behind.
- `valid_part`: from a moment to the ones inside it.
-/

namespace Lox.Scoping

variable {h : History} {k : Nat}

/-! ## Contexts -/

/-- A machine that suits the scopes in which a piece of program was resolved. Only a declaration in
front may be incomplete. -/
structure Context (h : History) (m : Machine) (kind : ClassKind) (scopes : Scopes) : Prop where
  known : KnownMemory h m.memory
  sees : Sees m.memory m.chain scopes
  placed : Scopes.Placed kind scopes
  complete : Scopes.Complete scopes.tail

namespace Context

variable {m m' : Machine} {kind : ClassKind} {scopes : Scopes}

theorem agrees (hcontext : Context h m kind scopes) : Agrees m.memory m.chain scopes :=
  hcontext.sees.agrees

/-- A machine still suits the scopes after a computation that adds no names to them. -/
theorem after (hcontext : Context h m kind scopes) (hafter : After h none m m') :
    Context h m' kind scopes where
  known := hafter.known
  sees := by
    rw [hafter.chain]
    exact hcontext.sees.later hafter.grows
  placed := hcontext.placed
  complete := hcontext.complete

/-- Behind a declaration the machine suits the scopes behind it. -/
theorem behind {head : Option Nat} {d : Decl} (hcontext : Context h m kind scopes)
    (hafter : After h head m m') (hd : d.Ordinary)
    (hsees : Sees m'.memory m.chain (scopes.behind d)) :
    Context h m' kind (scopes.behind d) where
  known := hafter.known
  sees := by
    rw [hafter.chain]
    exact hsees
  placed := hcontext.placed.behind (Decl.not_reserved hd)
  complete := by
    unfold Scopes.behind
    split
    · rw [Scopes.define, Scopes.tail_mark]
      exact hcontext.complete
    · exact hcontext.complete

/-- The initializer of a variable is evaluated while the variable is declared and not complete. -/
theorem declare {name : String} (hcontext : Context h m kind scopes) (hname : ¬Reserved name)
    (hnew : scopes.declaresHere name = false) : Context h m kind (scopes.declare name) where
  known := hcontext.known
  sees := hcontext.sees.declare hname hnew
  placed := hcontext.placed.mark hname false
  complete := by
    rw [Scopes.declare, Scopes.tail_mark]
    exact hcontext.complete

/-- A block begins with a new scope. -/
theorem block (hcontext : Context h m kind scopes) (hcomplete : scopes.Complete) :
    Context h (entered m) kind scopes.enter where
  known := by
    have hentries : ∀ e ∈ ([] : List (String × Value)), KnownValue h m.memory e.2 := nofun
    exact hcontext.known.newScope hentries
  sees := hcontext.sees.block
  placed := hcontext.placed.enter
  complete := hcomplete

end Context

/-- How a piece of program may end: a jump has something to jump out of. -/
def Ends (h : History) (a : Surroundings) (flow : Flow) (memory : Memory) : Prop :=
  match flow with
  | .normal => True
  | .break | .continue => a.inLoop = true
  | .return v => a.function ≠ .none ∧ KnownValue h memory v

/-! ## Moments -/

/-- What a callable is made of is known. -/
def KnownCallable (h : History) (m : Memory) : Callable → Prop
  | .function closure => Known h m closure false
  | .method closure receiver => Known h m closure true ∧ KnownClass h m receiver.ofClass
  | .class c => KnownClass h m c
  | .native _ => True

theorem KnownValue.callable {m : Memory} {v : Value} {c : Callable} (hv : KnownValue h m v)
    (hc : v.callable? = some c) : KnownCallable h m c := by
  cases v with
  | function | «class» | method | native =>
      cases hc
      exact hv
  | nil | bool | number | string | «instance» => exact nomatch hc

/-- The machine of a moment suits its work, which has no static errors. -/
def Valid (h : History) (p : Moment) : Prop :=
  match p.work with
  | .expr kind scopes e =>
    Context h p.machine kind scopes ∧ e.Ordinary ∧ (e.resolve kind scopes).errors = []
  | .exprs kind scopes es =>
    Context h p.machine kind scopes ∧ Expr.OrdinaryAll es ∧
      (Expr.resolveAll kind scopes es).errors = []
  | .stmt a scopes s =>
    Context h p.machine a.enclosingClass scopes ∧ scopes.Complete ∧ s.Ordinary ∧
      (s.resolve a scopes).errors = []
  | .loop a scopes condition body increment =>
    Context h p.machine a.enclosingClass scopes ∧ scopes.Complete ∧
      (condition.Ordinary ∧ body.Ordinary ∧ Expr.OrdinaryOption increment) ∧
      (condition.resolve a.enclosingClass scopes).errors = [] ∧
      (body.resolve { a with inLoop := true } scopes).errors = [] ∧
      (Expr.resolveOption a.enclosingClass scopes increment).errors = []
  | .decl a scopes d =>
    Context h p.machine a.enclosingClass scopes ∧ scopes.Complete ∧ d.Ordinary ∧
      (d.resolve a scopes).errors = []
  | .decls a scopes ds =>
    Context h p.machine a.enclosingClass scopes ∧ scopes.Complete ∧ Decl.OrdinaryAll ds ∧
      (Decl.resolveAll a scopes ds).errors = []
  | .call callee args _ =>
    KnownMemory h p.machine.memory ∧ KnownValue h p.machine.memory callee ∧
      KnownValues h p.machine.memory args
  | .invoke callee args _ =>
    KnownMemory h p.machine.memory ∧ KnownCallable h p.machine.memory callee ∧
      KnownValues h p.machine.memory args
  | .function closure args receiver =>
    KnownMemory h p.machine.memory ∧ Known h p.machine.memory closure receiver.isSome ∧
      KnownValues h p.machine.memory args ∧
      ∀ i ∈ receiver, KnownClass h p.machine.memory i.ofClass
  | .construct c args =>
    KnownMemory h p.machine.memory ∧ KnownClass h p.machine.memory c ∧
      KnownValues h p.machine.memory args

/-- The call of the evaluator at a moment leaves behind what it should. -/
def Promise (h : History) (k : Nat) (p : Moment) : Prop :=
  match p.work with
  | .expr kind scopes e =>
    Runs h k none (evaluate h.session.setting p.fuel (e.resolve kind scopes).value) p.machine
      fun v memory => KnownValue h memory v
  | .exprs kind scopes es =>
    Runs h k none (evaluateAll h.session.setting p.fuel (Expr.resolveAll kind scopes es).value)
      p.machine fun vs memory => KnownValues h memory vs
  | .stmt a scopes s =>
    Runs h k none (execute h.session.setting p.fuel (s.resolve a scopes).value) p.machine (Ends h a)
  | .loop a scopes condition body increment =>
    Runs h k none
      (executeLoop h.session.setting p.fuel (condition.resolve a.enclosingClass scopes).value
        (body.resolve { a with inLoop := true } scopes).value
        (Expr.resolveOption a.enclosingClass scopes increment).value) p.machine (Ends h a)
  | .decl a scopes d =>
    Runs h k p.machine.chain.head?
      (executeDecl h.session.setting p.fuel (d.resolve a scopes).value) p.machine
      fun flow memory => Ends h a flow memory ∧
        (flow = .normal → Sees memory p.machine.chain (scopes.behind d))
  | .decls a scopes ds =>
    Runs h k p.machine.chain.head?
      (executeAll h.session.setting p.fuel (Decl.resolveAll a scopes ds).value) p.machine (Ends h a)
  | .call callee args location =>
    Runs h k none (callValue h.session.setting p.fuel callee args location) p.machine
      fun v memory => KnownValue h memory v
  | .invoke callee args location =>
    Runs h k none (Lox.invoke h.session.setting p.fuel callee args location) p.machine
      fun v memory => KnownValue h memory v
  | .function closure args receiver =>
    Runs h k none (callFunction h.session.setting p.fuel closure args receiver) p.machine
      fun v memory => KnownValue h memory v
  | .construct c args =>
    Runs h k none (instantiate h.session.setting p.fuel c args) p.machine
      fun v memory => KnownValue h memory v

theorem Valid.known {p : Moment} (hvalid : Valid h p) : KnownMemory h p.machine.memory := by
  obtain ⟨fuel, work, m⟩ := p
  cases work with
  | expr | exprs | stmt | loop | decl | decls => exact hvalid.1.known
  | call | invoke | function | construct => exact hvalid.1

/-- What is known of a computation that ended well. -/
theorem Runs.of_eq {α : Type} {head : Option Nat} {x : Eval α} {m m' : Machine} {a : α}
    {Q : α → Memory → Prop} (hx : Runs h k head x m Q) (heq : x m = .ok a m') :
    After h head m m' ∧ Q a m'.memory := by
  unfold Runs at hx
  rw [heq] at hx
  exact hx

/-! ## From a moment to the ones inside it -/

section Inside

variable {p q : Moment}

/-- The moments inside an expression. -/
theorem valid_inside_expr {n : Nat} {kind : ClassKind} {scopes : Scopes} {e : Expr} {m : Machine}
    (hvalid : Valid h ⟨n, .expr kind scopes e, m⟩)
    (hparts : ∀ {q}, Part h.session.setting ⟨n, .expr kind scopes e, m⟩ q → Valid h q →
      Promise h k q)
    (hpart : Part h.session.setting ⟨n, .expr kind scopes e, m⟩ q) : Valid h q := by
  obtain ⟨hcontext, hordinary, herrors⟩ := hvalid
  cases hpart with
  | grouping => exact ⟨hcontext, hordinary, by simpa [Expr.resolve] using herrors⟩
  | operand => exact ⟨hcontext, hordinary, by simpa [Expr.resolve] using herrors⟩
  | object => exact ⟨hcontext, hordinary, by simpa [Expr.resolve] using herrors⟩
  | assigned => exact ⟨hcontext, hordinary.2, by simpa [Expr.resolve] using herrors⟩
  | left | first =>
      simp only [Expr.resolve, Checked.errors_bind_eq_nil] at herrors
      exact ⟨hcontext, hordinary.1, herrors.1⟩
  | right heq =>
      simp only [Expr.resolve, Checked.errors_bind_eq_nil] at herrors
      obtain ⟨hafter, _⟩ := (hparts .left ⟨hcontext, hordinary.1, herrors.1⟩).of_eq heq
      exact ⟨hcontext.after hafter, hordinary.2, herrors.2.1⟩
  | second heq =>
      simp only [Expr.resolve, Checked.errors_bind_eq_nil] at herrors
      obtain ⟨hafter, _⟩ := (hparts .first ⟨hcontext, hordinary.1, herrors.1⟩).of_eq heq
      exact ⟨hcontext.after hafter, hordinary.2, herrors.2.1⟩
  | callee =>
      simp only [Expr.resolve, Checked.errors_bind_eq_nil] at herrors
      exact ⟨hcontext, hordinary.1, herrors.1⟩
  | args heq =>
      simp only [Expr.resolve, Checked.errors_bind_eq_nil] at herrors
      obtain ⟨hafter, _⟩ := (hparts .callee ⟨hcontext, hordinary.1, herrors.1⟩).of_eq heq
      exact ⟨hcontext.after hafter, hordinary.2, herrors.2.1⟩
  | called heq heqs =>
      simp only [Expr.resolve, Checked.errors_bind_eq_nil] at herrors
      obtain ⟨hafter, hf⟩ := (hparts .callee ⟨hcontext, hordinary.1, herrors.1⟩).of_eq heq
      obtain ⟨hafter', hvs⟩ := (hparts (.args heq)
        ⟨hcontext.after hafter, hordinary.2, herrors.2.1⟩).of_eq heqs
      exact ⟨hafter'.known, hf.later hafter'.later, hvs⟩
  | owner =>
      simp only [Expr.resolve, Checked.errors_bind_eq_nil] at herrors
      exact ⟨hcontext, hordinary.1, herrors.2.1⟩
  | field heq =>
      simp only [Expr.resolve, Checked.errors_bind_eq_nil] at herrors
      obtain ⟨hafter, _⟩ := (hparts .owner ⟨hcontext, hordinary.1, herrors.2.1⟩).of_eq heq
      exact ⟨hcontext.after hafter, hordinary.2, herrors.1⟩

/-- The moments inside expressions one after the other. -/
theorem valid_inside_exprs {n : Nat} {kind : ClassKind} {scopes : Scopes} {es : List Expr}
    {m : Machine} (hvalid : Valid h ⟨n, .exprs kind scopes es, m⟩)
    (hparts : ∀ {q}, Part h.session.setting ⟨n, .exprs kind scopes es, m⟩ q → Valid h q →
      Promise h k q)
    (hpart : Part h.session.setting ⟨n, .exprs kind scopes es, m⟩ q) : Valid h q := by
  obtain ⟨hcontext, hordinary, herrors⟩ := hvalid
  cases hpart with
  | head =>
      simp only [Expr.resolveAll, Checked.errors_bind_eq_nil] at herrors
      exact ⟨hcontext, hordinary.1, herrors.1⟩
  | tail heq =>
      simp only [Expr.resolveAll, Checked.errors_bind_eq_nil] at herrors
      obtain ⟨hafter, _⟩ := (hparts .head ⟨hcontext, hordinary.1, herrors.1⟩).of_eq heq
      exact ⟨hcontext.after hafter, hordinary.2, herrors.2.1⟩

/-- The moments inside a statement. -/
theorem valid_inside_stmt {n : Nat} {a : Surroundings} {scopes : Scopes} {s : Stmt} {m : Machine}
    (hvalid : Valid h ⟨n, .stmt a scopes s, m⟩)
    (hparts : ∀ {q}, Part h.session.setting ⟨n, .stmt a scopes s, m⟩ q → Valid h q →
      Promise h k q)
    (hpart : Part h.session.setting ⟨n, .stmt a scopes s, m⟩ q) : Valid h q := by
  obtain ⟨hcontext, hcomplete, hordinary, herrors⟩ := hvalid
  cases hpart with
  | value | printed => exact ⟨hcontext, hordinary, by simpa [Stmt.resolve] using herrors⟩
  | block =>
      exact ⟨hcontext.block hcomplete, hcomplete.enter, hordinary,
        by simpa [Stmt.resolve] using herrors⟩
  | @test _ _ _ _ _ otherwise =>
      cases otherwise with
      | none =>
          simp only [Stmt.resolve, Checked.errors_bind_eq_nil] at herrors
          exact ⟨hcontext, hordinary.1, herrors.1⟩
      | some e =>
          simp only [Stmt.resolve, Checked.errors_bind_eq_nil] at herrors
          exact ⟨hcontext, hordinary.1, herrors.1⟩
  | @thenBranch _ _ _ _ _ otherwise _ _ _ _ heq =>
      cases otherwise with
      | none =>
          simp only [Stmt.resolve, Checked.errors_bind_eq_nil] at herrors
          obtain ⟨hafter, _⟩ := (hparts .test ⟨hcontext, hordinary.1, herrors.1⟩).of_eq heq
          exact ⟨hcontext.after hafter, hcomplete, hordinary.2, herrors.2.1⟩
      | some e =>
          simp only [Stmt.resolve, Checked.errors_bind_eq_nil] at herrors
          obtain ⟨hafter, _⟩ := (hparts .test ⟨hcontext, hordinary.1, herrors.1⟩).of_eq heq
          exact ⟨hcontext.after hafter, hcomplete, hordinary.2.1, herrors.2.1⟩
  | elseBranch heq =>
      simp only [Stmt.resolve, Checked.errors_bind_eq_nil] at herrors
      obtain ⟨hafter, _⟩ := (hparts .test ⟨hcontext, hordinary.1, herrors.1⟩).of_eq heq
      exact ⟨hcontext.after hafter, hcomplete, hordinary.2.2, herrors.2.2.1⟩
  | loop =>
      simp only [Stmt.resolve, Checked.errors_bind_eq_nil] at herrors
      exact ⟨hcontext, hcomplete, hordinary, herrors.1, herrors.2.1, herrors.2.2.1⟩
  | returned =>
      simp only [Stmt.resolve, Expr.resolveOption, Checked.errors_bind_eq_nil] at herrors
      exact ⟨hcontext, hordinary, herrors.2.2.1.1⟩

section Loop

variable {n : Nat} {a : Surroundings} {scopes : Scopes} {c : Expr} {b : Stmt} {i : Option Expr}
  {m m' m'' : Machine} {v : Value} {flow : Flow}

/-- Behind the condition of a loop the machine still suits the scopes. -/
theorem context_of_condition (hvalid : Valid h ⟨n + 1, .loop a scopes c b i, m⟩)
    (hparts : ∀ {q}, Part h.session.setting ⟨n + 1, .loop a scopes c b i, m⟩ q → Valid h q →
      Promise h k q)
    (heq : evaluate h.session.setting n (c.resolve a.enclosingClass scopes).value m = .ok v m') :
    Context h m' a.enclosingClass scopes := by
  obtain ⟨hcontext, _, hordinary, hcondition, _⟩ := hvalid
  obtain ⟨hafter, _⟩ := (hparts .condition ⟨hcontext, hordinary.1, hcondition⟩).of_eq heq
  exact hcontext.after hafter

/-- Behind one round of a loop the machine still suits the scopes. -/
theorem context_of_round (hvalid : Valid h ⟨n + 1, .loop a scopes c b i, m⟩)
    (hparts : ∀ {q}, Part h.session.setting ⟨n + 1, .loop a scopes c b i, m⟩ q → Valid h q →
      Promise h k q)
    (heq : evaluate h.session.setting n (c.resolve a.enclosingClass scopes).value m = .ok v m')
    (htrue : v.isTruthy = true)
    (hround : execute h.session.setting n (b.resolve { a with inLoop := true } scopes).value m' =
      .ok flow m'') : Context h m'' a.enclosingClass scopes := by
  have hcontext := context_of_condition hvalid hparts heq
  obtain ⟨_, hcomplete, hordinary, _, hbody, _⟩ := hvalid
  obtain ⟨hafter, _⟩ := (hparts (.round heq htrue)
    ⟨hcontext, hcomplete, hordinary.2.1, hbody⟩).of_eq hround
  exact hcontext.after hafter

/-- The moments inside a loop. -/
theorem valid_inside_loop (hvalid : Valid h ⟨n, .loop a scopes c b i, m⟩)
    (hparts : ∀ {q}, Part h.session.setting ⟨n, .loop a scopes c b i, m⟩ q → Valid h q →
      Promise h k q)
    (hpart : Part h.session.setting ⟨n, .loop a scopes c b i, m⟩ q) : Valid h q := by
  have ⟨hcontext, hcomplete, hordinary, hcondition, hbody, hincrement⟩ := hvalid
  cases hpart with
  | condition => exact ⟨hcontext, hordinary.1, hcondition⟩
  | round heq =>
      exact ⟨context_of_condition (a := a) hvalid hparts heq, hcomplete, hordinary.2.1, hbody⟩
  | increment heq htrue hround hgoes =>
      simp only [Expr.resolveOption, Checked.errors_bind_eq_nil] at hincrement
      exact ⟨context_of_round hvalid hparts heq htrue hround, hordinary.2.2, hincrement.1⟩
  | again heq htrue hround hgoes =>
      exact ⟨context_of_round hvalid hparts heq htrue hround, hcomplete, hordinary, hcondition,
        hbody, hincrement⟩
  | incremented heq htrue hround hgoes hstep =>
      have hcontext' := context_of_round hvalid hparts heq htrue hround
      -- the next round has the same increment, so its errors are kept as they are
      have herrors := hincrement
      simp only [Expr.resolveOption, Checked.errors_bind_eq_nil] at herrors
      obtain ⟨hafter, _⟩ := (hparts (.increment heq htrue hround hgoes)
        ⟨hcontext', hordinary.2.2, herrors.1⟩).of_eq hstep
      exact ⟨hcontext'.after hafter, hcomplete, hordinary, hcondition, hbody, hincrement⟩

end Loop

/-- The moments inside a declaration. -/
theorem valid_inside_decl {n : Nat} {a : Surroundings} {scopes : Scopes} {d : Decl} {m : Machine}
    (hvalid : Valid h ⟨n, .decl a scopes d, m⟩)
    (hpart : Part h.session.setting ⟨n, .decl a scopes d, m⟩ q) : Valid h q := by
  obtain ⟨hcontext, hcomplete, hordinary, herrors⟩ := hvalid
  cases hpart with
  | @initial _ _ _ x _ span =>
      simp only [Decl.resolve, Expr.resolveOption, Checked.errors_bind_eq_nil] at herrors
      have hnew : scopes.declaresHere x = false := Checked.eq_false_of_reportIf herrors.1
      exact ⟨hcontext.declare hordinary.1 hnew, hordinary.2, herrors.2.1.1⟩
  | statement => exact ⟨hcontext, hcomplete, hordinary, by simpa [Decl.resolve] using herrors⟩

/-- The moments inside declarations one after the other. -/
theorem valid_inside_decls {n : Nat} {a : Surroundings} {scopes : Scopes} {ds : List Decl}
    {m : Machine} (hvalid : Valid h ⟨n, .decls a scopes ds, m⟩)
    (hparts : ∀ {q}, Part h.session.setting ⟨n, .decls a scopes ds, m⟩ q → Valid h q →
      Promise h k q)
    (hpart : Part h.session.setting ⟨n, .decls a scopes ds, m⟩ q) : Valid h q := by
  obtain ⟨hcontext, hcomplete, hordinary, herrors⟩ := hvalid
  cases hpart with
  | next =>
      simp only [Decl.resolveAll, Checked.errors_bind_eq_nil] at herrors
      exact ⟨hcontext, hcomplete, hordinary.1, herrors.1⟩
  | rest heq =>
      simp only [Decl.resolveAll, Checked.errors_bind_eq_nil] at herrors
      obtain ⟨hafter, _, hsees⟩ := (hparts .next
        ⟨hcontext, hcomplete, hordinary.1, herrors.1⟩).of_eq heq
      exact ⟨hcontext.behind hafter hordinary.1 (hsees rfl), hcomplete.behind _, hordinary.2,
        herrors.2.1⟩

/-- The moments inside a call. -/
theorem valid_inside_call {n : Nat} {work : Work} {m : Machine}
    (hvalid : Valid h ⟨n, work, m⟩) (hcall : work.scopes? = none)
    (hpart : Part h.session.setting ⟨n, work, m⟩ q) : Valid h q := by
  cases hpart with
  | invoke hcallable _ _ => exact ⟨hvalid.1, hvalid.2.1.callable hcallable, hvalid.2.2⟩
  | function => exact ⟨hvalid.1, hvalid.2.1, hvalid.2.2, nofun⟩
  | @method _ _ receiver =>
      refine ⟨hvalid.1, hvalid.2.1.1, hvalid.2.2, ?_⟩
      intro i hi
      cases hi
      exact hvalid.2.1.2
  | construct => exact hvalid
  | @initializer _ c _ _ closure hfind =>
      obtain ⟨hknown, hclass, hargs⟩ := hvalid
      have hgrows : Grows none m.memory (m.memory.newInstance c).2 := grows_of_scopes_eq rfl
      refine ⟨hknown.newInstance c, (hclass.known hfind).later hgrows.toLater,
        hargs.later hgrows.toLater, ?_⟩
      intro i hi
      cases hi
      exact hclass.later hgrows.toLater
  -- the work of all others has static scopes
  | _ => exact nomatch hcall

/-- **From a moment to the ones inside it.** What comes before a moment inside the same one keeps
its promise. -/
theorem valid_part (hvalid : Valid h p)
    (hparts : ∀ {q}, Part h.session.setting p q → Valid h q → Promise h k q)
    (hpart : Part h.session.setting p q) : Valid h q := by
  obtain ⟨n, work, m⟩ := p
  cases work with
  | expr => exact valid_inside_expr hvalid hparts hpart
  | exprs => exact valid_inside_exprs hvalid hparts hpart
  | stmt => exact valid_inside_stmt hvalid hparts hpart
  | loop => exact valid_inside_loop hvalid hparts hpart
  | decl => exact valid_inside_decl hvalid hpart
  | decls => exact valid_inside_decls hvalid hparts hpart
  | call | invoke | function | construct => exact valid_inside_call hvalid rfl hpart

end Inside

end Lox.Scoping
