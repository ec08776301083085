import Lox.Recording

/-!
# Recording and reading back

A walk that records and the reading of what it recorded do what resolution does at once: the same
static errors, and a tree with the same depths. Each walk has nodes of its own, and leaves the entries
of all others as they are; its own nodes have no entries before it, so whatever is read at them later
was recorded by it.

## Contents
- `Node.Within`, `Node.Below`: the nodes of a subtree, and of some subtrees of a node.
- `Mirrors`: a walk and a reading do together what a resolution does.
- `Mirrors.bind`, `Mirrors.checked`, `Mirrors.use`: composition and leaves.
- `mirrors_expr`, `mirrors_stmt`, `mirrors_decl`: one for each kind of tree.
- `Resolutions.resolve_fst`: a program is resolved as if there were no table.
- `Resolutions.get?_resolve`: the entries of earlier nodes stay.
-/

namespace Lox

variable {inputs : Nat}

/-! ## Whose node is whose -/

namespace Node

/-- The nodes of the subtree at `node`. -/
def Within (node μ : Node inputs) : Prop := μ.input = node.input ∧ node.path <+: μ.path

/-- The nodes of the subtrees at the children of `node` whose positions satisfy `P`. -/
def Below (node : Node inputs) (P : Nat → Prop) (μ : Node inputs) : Prop :=
  ∃ i, P i ∧ (node.child i).Within μ

theorem within_of_child {node μ : Node inputs} {i : Nat} (h : (node.child i).Within μ) :
    node.Within μ :=
  ⟨h.1, (List.prefix_append _ _).trans h.2⟩

theorem within_of_below {node μ : Node inputs} {P : Nat → Prop} (h : node.Below P μ) :
    node.Within μ := by
  obtain ⟨i, _, hwithin⟩ := h
  exact within_of_child hwithin

/-- A node is in no subtree of its children. -/
theorem not_below_self {node : Node inputs} {P : Nat → Prop} : ¬node.Below P node := by
  rintro ⟨i, _, _, hprefix⟩
  have hlength := hprefix.length_le
  rw [show (node.child i).path = node.path ++ [i] from rfl, List.length_append] at hlength
  exact absurd hlength (by simp)

/-- The subtrees of two children are apart. -/
theorem eq_of_within {node μ : Node inputs} {i j : Nat} (hi : (node.child i).Within μ)
    (hj : (node.child j).Within μ) : i = j := by
  have hprefix := List.prefix_of_prefix_length_le hi.2 hj.2 (by simp [child])
  have hlist := (List.prefix_append_right_inj node.path).1 hprefix
  exact (List.singleton_prefix_cons_iff.1 hlist)

theorem not_below_of_below {node μ : Node inputs} {P Q : Nat → Prop} (h : node.Below P μ)
    (hPQ : ∀ i, P i → ¬Q i) : ¬node.Below Q μ := by
  rintro ⟨j, hQ, hj⟩
  obtain ⟨i, hP, hi⟩ := h
  exact hPQ i hP (eq_of_within hi hj ▸ hQ)

theorem earlier_inj {node μ : Node inputs} : node.earlier = μ.earlier ↔ node = μ := by
  obtain ⟨i, path⟩ := node
  obtain ⟨j, path'⟩ := μ
  simp only [earlier, mk.injEq, Fin.castSucc_inj]

/-- A node of an earlier program is none of the last one. -/
theorem input_earlier_ne (node : Node inputs) : node.earlier.input ≠ Fin.last inputs :=
  Fin.ne_of_lt (Fin.castSucc_lt_last node.input)

end Node

open Node

namespace Locals

theorem get?_set (locals : Locals inputs) (node μ : Node inputs) (depth : Nat) :
    (locals.set node depth).get? μ = if μ = node then some depth else locals.get? μ := by
  unfold get? set
  rw [List.lookup_cons]
  by_cases h : μ = node
  · rw [if_pos h, h, beq_self_eq_true]
  · rw [if_neg h, beq_false_of_ne h]

end Locals

/-! ## Walks and readings -/

open Recorder

/-- A walk and a reading do together what a resolution does. The walk finds the same errors and writes
only at its `own` nodes; and when these had no entries before it, reading a table that has its entries
for them gives the resolved tree. -/
structure Mirrors {τ : Type} (own : Node inputs → Prop) (walk : Recorder inputs Unit)
    (resolved : Checked τ) (read : Locals inputs → τ) : Prop where
  errors : ∀ r, (walk r).2.errors = r.errors ++ resolved.errors
  frame : ∀ r μ, ¬own μ → (walk r).2.locals.get? μ = r.locals.get? μ
  reads : ∀ r locals, (∀ μ, own μ → r.locals.get? μ = none) →
    (∀ μ, own μ → locals.get? μ = (walk r).2.locals.get? μ) → read locals = resolved.value

namespace Mirrors

variable {τ τ₁ : Type} {own own₁ own₂ : Node inputs → Prop} {node : Node inputs} {i : Nat}
  {P Q : Nat → Prop} {walk walk₁ walk₂ : Recorder inputs Unit} {resolved : Checked τ}
  {resolved₁ : Checked τ₁} {read : Locals inputs → τ} {read₁ : Locals inputs → τ₁}

theorem mono (h : Mirrors own₁ walk resolved read) (hown : ∀ μ, own₁ μ → own₂ μ) :
    Mirrors own₂ walk resolved read where
  errors := h.errors
  frame r μ hμ := h.frame r μ fun hμ₁ => hμ (hown μ hμ₁)
  reads r locals hfresh hagrees :=
    h.reads r locals (fun μ hμ => hfresh μ (hown μ hμ)) fun μ hμ => hagrees μ (hown μ hμ)

/-- A walk that does nothing. -/
theorem done (a : τ) : Mirrors own (pure ()) (pure a) fun _ => a where
  errors _ := (List.append_nil _).symm
  frame _ _ _ := rfl
  reads _ _ _ _ := rfl

theorem map {σ : Type} (h : Mirrors own walk resolved read) (f : τ → σ) :
    Mirrors own walk (resolved >>= fun a => pure (f a)) fun locals => f (read locals) where
  errors r := by
    rw [h.errors, Checked.errors_bind, Checked.errors_pure, List.append_nil]
  frame := h.frame
  reads r locals hfresh hagrees := congrArg f (h.reads r locals hfresh hagrees)

/-- **Sequencing.** The second walk writes at none of the nodes of the first one, so what the first one
recorded is still there at the end, and nothing is there yet when the second one begins. -/
theorem andThen {k : τ₁ → Checked τ} (read₂ : τ₁ → Locals inputs → τ)
    (h₁ : Mirrors own₁ walk₁ resolved₁ read₁)
    (h₂ : Mirrors own₂ walk₂ (k resolved₁.value) (read₂ resolved₁.value))
    (hdisjoint : ∀ μ, own₁ μ → ¬own₂ μ) :
    Mirrors (fun μ => own₁ μ ∨ own₂ μ) (walk₁ >>= fun _ => walk₂) (resolved₁ >>= k)
      fun locals => read₂ (read₁ locals) locals where
  errors r := by
    show (walk₂ (walk₁ r).2).2.errors = _
    rw [h₂.errors, h₁.errors, Checked.errors_bind, List.append_assoc]
  frame r μ hμ := by
    show (walk₂ (walk₁ r).2).2.locals.get? μ = _
    rw [h₂.frame _ μ fun h => hμ (.inr h), h₁.frame _ μ fun h => hμ (.inl h)]
  reads r locals hfresh hagrees := by
    have hfirst : read₁ locals = resolved₁.value := by
      refine h₁.reads r locals (fun μ hμ => hfresh μ (.inl hμ)) fun μ hμ => ?_
      rw [hagrees μ (.inl hμ)]
      exact h₂.frame _ μ (hdisjoint μ hμ)
    show read₂ (read₁ locals) locals = _
    rw [hfirst]
    refine h₂.reads (walk₁ r).2 locals (fun μ hμ => ?_) fun μ hμ => hagrees μ (.inr hμ)
    rw [h₁.frame r μ fun hμ₁ => hdisjoint μ hμ₁ hμ]
    exact hfresh μ (.inr hμ)

/-- Sequencing of walks through different children of a node. -/
theorem bindValue {k : τ₁ → Checked τ} (read₂ : τ₁ → Locals inputs → τ)
    (h₁ : Mirrors (node.Below P) walk₁ resolved₁ read₁)
    (h₂ : Mirrors (node.Below Q) walk₂ (k resolved₁.value) (read₂ resolved₁.value))
    (hPQ : ∀ i, P i → ¬Q i) :
    Mirrors (node.Below fun i => P i ∨ Q i) (walk₁ >>= fun _ => walk₂) (resolved₁ >>= k)
      fun locals => read₂ (read₁ locals) locals := by
  refine (h₁.andThen read₂ h₂ fun μ hμ => not_below_of_below hμ hPQ).mono ?_
  rintro μ (⟨i, hP, hi⟩ | ⟨i, hQ, hi⟩)
  · exact ⟨i, .inl hP, hi⟩
  · exact ⟨i, .inr hQ, hi⟩

/-- Sequencing when the second walk does not depend on what the first resolution made. -/
theorem bind {k : τ₁ → Checked τ} {read₂ : τ₁ → Locals inputs → τ}
    (h₁ : Mirrors (node.Below P) walk₁ resolved₁ read₁)
    (h₂ : ∀ a, Mirrors (node.Below Q) walk₂ (k a) (read₂ a)) (hPQ : ∀ i, P i → ¬Q i) :
    Mirrors (node.Below fun i => P i ∨ Q i) (walk₁ >>= fun _ => walk₂) (resolved₁ >>= k)
      fun locals => read₂ (read₁ locals) locals :=
  h₁.bindValue read₂ (h₂ _) hPQ

/-- The walk through a child. -/
theorem child (h : Mirrors (node.child i).Within walk resolved read) :
    Mirrors (node.Below (· = i)) walk resolved read :=
  h.mono fun _ hμ => ⟨i, rfl, hμ⟩

/-- The walk through some children, as a walk through the subtree. -/
theorem within (h : Mirrors (node.Below P) walk resolved read) :
    Mirrors node.Within walk resolved read :=
  h.mono fun _ => within_of_below

/-- Checks find errors and record nothing. -/
theorem checked {α : Type} {check : Checked α} {walk : α → Recorder inputs Unit}
    {k : α → Checked τ} (h : Mirrors own (walk check.value) (k check.value) read) :
    Mirrors own (ofChecked check >>= walk) (check >>= k) read where
  errors r := by
    show (walk check.value ⟨r.locals, r.errors ++ check.errors⟩).2.errors = _
    rw [h.errors, Checked.errors_bind, List.append_assoc]
  frame r μ hμ := h.frame ⟨r.locals, r.errors ++ check.errors⟩ μ hμ
  reads r locals hfresh hagrees :=
    h.reads ⟨r.locals, r.errors ++ check.errors⟩ locals hfresh hagrees

/-- A check at the end. -/
theorem check {c : Checked Unit} (a : τ) :
    Mirrors own (ofChecked c) (c >>= fun _ => pure a) fun _ => a where
  errors r := by
    rw [Checked.errors_bind, Checked.errors_pure, List.append_nil]
    rfl
  frame _ _ _ := rfl
  reads _ _ _ _ := rfl

/-- A use that is an error is not recorded. -/
theorem unrecorded {c : Checked Unit} (f : Option Nat → τ) :
    Mirrors node.Within (ofChecked c) (c >>= fun _ => pure (f none)) fun locals =>
      f (locals.get? node) where
  errors r := by
    rw [Checked.errors_bind, Checked.errors_pure, List.append_nil]
    rfl
  frame _ _ _ := rfl
  reads r locals hfresh hagrees := by
    have hself : node.Within node := ⟨rfl, List.prefix_refl _⟩
    show f (locals.get? node) = f none
    rw [hagrees node hself]
    exact congrArg f (hfresh node hself)

/-- **A use.** Its own node gets the depth, unless there is none; then the node stays without an
entry, and that is what is read. -/
theorem note (depth : Option Nat) (f : Option Nat → τ) :
    Mirrors (· = node) (Recorder.note node depth) (pure (f depth)) fun locals =>
      f (locals.get? node) := by
  cases depth with
  | none =>
      refine ⟨fun r => (List.append_nil _).symm, fun r μ _ => rfl, ?_⟩
      intro r locals hfresh hagrees
      show f (locals.get? node) = f none
      rw [hagrees node rfl]
      exact congrArg f (hfresh node rfl)
  | some depth =>
      refine ⟨fun r => (List.append_nil _).symm, fun r μ hμ => ?_, ?_⟩
      · show (r.locals.set node depth).get? μ = _
        rw [Locals.get?_set, if_neg hμ]
      · intro r locals _ hagrees
        show f (locals.get? node) = f (some depth)
        rw [hagrees node rfl]
        show f ((r.locals.set node depth).get? node) = _
        rw [Locals.get?_set, if_pos rfl]

theorem noteWithin (depth : Option Nat) (f : Option Nat → τ) :
    Mirrors node.Within (Recorder.note node depth) (pure (f depth)) fun locals =>
      f (locals.get? node) := by
  refine (note depth f).mono ?_
  rintro μ rfl
  exact ⟨rfl, List.prefix_refl _⟩

end Mirrors

open Checked

/-! ## Expressions -/

theorem mirrors_use (scopes : Scopes) (node : Node inputs) (use : NameUse) :
    Mirrors node.Within (use.record scopes node) (use.resolve scopes) fun locals =>
      use.annotate locals node :=
  .checked (.noteWithin (scopes.distance? use.name) fun depth => { use with depth })

mutual

theorem mirrors_expr (kind : ClassKind) (scopes : Scopes) (node : Node inputs) : (e : Expr) →
    Mirrors node.Within (e.record kind scopes node) (e.resolve kind scopes) fun locals =>
      e.annotate locals node
  | .literal value span => .done _
  | .grouping inner span => ((mirrors_expr kind scopes _ inner).child.map _).within
  | .unary op operand span => ((mirrors_expr kind scopes _ operand).child.map _).within
  | .binary op left right span => by
    refine ((mirrors_expr kind scopes (node.child 0) left).child.bind (fun l =>
      (mirrors_expr kind scopes (node.child 1) right).child.map fun r => Expr.binary op l r span) ?_).within
    rintro _ rfl
    exact Nat.zero_ne_one
  | .logical op left right span => by
    refine ((mirrors_expr kind scopes (node.child 0) left).child.bind (fun l =>
      (mirrors_expr kind scopes (node.child 1) right).child.map fun r => Expr.logical op l r span) ?_).within
    rintro _ rfl
    exact Nat.zero_ne_one
  | .variable use => (mirrors_use scopes node use).map Expr.variable
  | .assign name depth value span => by
    -- the node of the assignment itself comes behind its value
    refine ((mirrors_expr kind scopes (node.child 0) value).child.andThen
      (fun value locals => Expr.assign name (locals.get? node) value span)
      (.note (scopes.distance? name) fun depth => Expr.assign name depth _ span) ?_).mono ?_
    · rintro _ hbelow rfl
      exact not_below_self hbelow
    · rintro μ (hbelow | rfl)
      · exact within_of_below hbelow
      · exact ⟨rfl, List.prefix_refl _⟩
  | .call callee args span => by
    refine ((mirrors_expr kind scopes (node.child 0) callee).child.bind (fun callee =>
      (mirrors_exprs kind scopes node 1 args).map fun args => Expr.call callee args span) ?_).within
    rintro _ rfl
    exact Nat.not_succ_le_zero 0
  | .get object name span => ((mirrors_expr kind scopes _ object).child.map _).within
  | .set object name value span => by
    refine ((mirrors_expr kind scopes (node.child 1) value).child.bind (fun value =>
      (mirrors_expr kind scopes (node.child 0) object).child.map fun object =>
        Expr.set object name value span) ?_).within
    rintro _ rfl
    exact Nat.one_ne_zero
  | .this depth span => by
    cases kind with
    | none => exact .unrecorded fun depth => Expr.this depth span
    | base | derived => exact .noteWithin _ fun depth => Expr.this depth span
  | .super depth method span => by
    cases kind with
    | none | base => exact .unrecorded fun depth => Expr.super depth method span
    | derived => exact .noteWithin _ fun depth => Expr.super depth method span

theorem mirrors_exprs (kind : ClassKind) (scopes : Scopes) (node : Node inputs) (i : Nat) :
    (es : List Expr) →
    Mirrors (node.Below (i ≤ ·)) (Expr.recordAll kind scopes node i es)
      (Expr.resolveAll kind scopes es) fun locals => Expr.annotateAll locals node i es
  | [] => .done _
  | e :: es => by
    refine ((mirrors_expr kind scopes (node.child i) e).child.bind (fun e =>
      (mirrors_exprs kind scopes node (i + 1) es).map fun es => e :: es) ?_).mono ?_
    · rintro _ rfl
      exact Nat.not_succ_le_self _
    · rintro μ ⟨j, hj, hwithin⟩
      exact ⟨j, by omega, hwithin⟩

end

theorem mirrors_option (kind : ClassKind) (scopes : Scopes) (node : Node inputs)
    (e : Option Expr) :
    Mirrors node.Within (Expr.recordOption kind scopes node e) (Expr.resolveOption kind scopes e)
      fun locals => Expr.annotateOption locals node e := by
  cases e with
  | none => exact .done none
  | some e => exact (mirrors_expr kind scopes node e).map some

/-! ## Statements and declarations -/

theorem mirrors_superclass (scopes : Scopes) (name : String) (node : Node inputs)
    (superclass : Option NameUse) :
    Mirrors node.Within (recordSuperclass scopes name node superclass)
      (resolveSuperclass scopes name superclass) fun locals =>
        superclass.map (·.annotate locals node) := by
  cases superclass with
  | none => exact .done none
  | some use => exact .checked ((mirrors_use scopes node use).map some)

mutual

theorem mirrors_stmt (around : Surroundings) (scopes : Scopes) (node : Node inputs) : (s : Stmt) →
    Mirrors node.Within (s.record around scopes node) (s.resolve around scopes) fun locals =>
      s.annotate locals node
  | .expression value span => ((mirrors_expr _ scopes _ value).child.map _).within
  | .print value span => ((mirrors_expr _ scopes _ value).child.map _).within
  | .block body span => ((mirrors_decls around scopes.enter node 0 body).map _).within
  | .ifThenElse condition thenBranch none span => by
    refine ((mirrors_expr _ scopes (node.child 0) condition).child.bind (fun condition =>
      (mirrors_stmt around scopes (node.child 1) thenBranch).child.map fun thenBranch =>
        Stmt.ifThenElse condition thenBranch none span) ?_).within
    omega
  | .ifThenElse condition thenBranch (some elseBranch) span => by
    refine ((mirrors_expr _ scopes (node.child 0) condition).child.bind (fun condition =>
      (mirrors_stmt around scopes (node.child 1) thenBranch).child.bind (fun thenBranch =>
        (mirrors_stmt around scopes (node.child 2) elseBranch).child.map fun elseBranch =>
          Stmt.ifThenElse condition thenBranch (some elseBranch) span) ?_) ?_).within
    all_goals omega
  | .whileLoop condition body increment span => by
    refine ((mirrors_expr _ scopes (node.child 0) condition).child.bind (fun condition =>
      (mirrors_stmt _ scopes (node.child 1) body).child.bind (fun body =>
        (mirrors_option _ scopes (node.child 2) increment).child.map fun increment =>
          Stmt.whileLoop condition body increment span) ?_) ?_).within
    all_goals omega
  | .break span => .check _
  | .continue span => .check _
  | .return value span =>
    .checked (.checked ((mirrors_option _ scopes (node.child 0) value).child.map _).within)

theorem mirrors_decl (around : Surroundings) (scopes : Scopes) (node : Node inputs) : (d : Decl) →
    Mirrors node.Within (d.record around scopes node) (d.resolve around scopes) fun locals =>
      d.annotate locals node
  | .var name initial span =>
    .checked ((mirrors_option _ (scopes.declare name) (node.child 0) initial).child.map _).within
  | .function decl =>
    .checked ((mirrors_function around (scopes.define decl.name) .function node decl).map _)
  | .class name none methods span =>
    .checked ((mirrors_functions _ ((scopes.define name).enterClass false) node 1 methods).map
      fun methods => Decl.class name none methods span).within
  | .class name (some use) methods span => by
    have hmethods := (mirrors_functions { around with enclosingClass := .derived }
      ((scopes.define name).enterClass true) node 1 methods).map fun methods =>
        Decl.class name (some (use.resolve (scopes.define name)).value) methods span
    refine .checked (((mirrors_superclass (scopes.define name) name (node.child 0)
      (some use)).child.bindValue (fun superclass locals =>
        Decl.class name superclass (FunctionDecl.annotateAll locals node 1 methods) span)
          hmethods ?_).within)
    omega
  | .stmt s => (mirrors_stmt around scopes node s).map _

theorem mirrors_decls (around : Surroundings) (scopes : Scopes) (node : Node inputs) (i : Nat) :
    (ds : List Decl) →
    Mirrors (node.Below (i ≤ ·)) (Decl.recordAll around scopes node i ds)
      (Decl.resolveAll around scopes ds) fun locals => Decl.annotateAll locals node i ds
  | [] => .done _
  | d :: ds => by
    refine ((mirrors_decl around scopes (node.child i) d).child.bind (fun d' =>
      (mirrors_decls around (scopes.behind d) node (i + 1) ds).map fun ds => d' :: ds) ?_).mono ?_
    · omega
    · rintro μ ⟨j, hj, hwithin⟩
      exact ⟨j, by omega, hwithin⟩

theorem mirrors_function (around : Surroundings) (scopes : Scopes) (kind : FunctionKind)
    (node : Node inputs) : (f : FunctionDecl) →
    Mirrors node.Within (f.record around scopes kind node) (f.resolve around scopes kind)
      fun locals => f.annotate locals node
  | ⟨name, params, body, span⟩ =>
    .checked ((mirrors_decls (around.inFunction kind) _ node 0 body).map fun body =>
      FunctionDecl.mk name params body span).within

theorem mirrors_functions (around : Surroundings) (scopes : Scopes) (node : Node inputs)
    (i : Nat) : (fs : List FunctionDecl) →
    Mirrors (node.Below (i ≤ ·)) (FunctionDecl.recordAll around scopes node i fs)
      (FunctionDecl.resolveAll around scopes fs) fun locals =>
        FunctionDecl.annotateAll locals node i fs
  | [] => .done _
  | f :: fs => by
    refine ((mirrors_function around scopes (methodKind f.name) (node.child i) f).child.bind
      (fun f' => (mirrors_functions around scopes node (i + 1) fs).map fun fs => f' :: fs) ?_).mono ?_
    · omega
    · rintro μ ⟨j, hj, hwithin⟩
      exact ⟨j, by omega, hwithin⟩

end

/-! ## Programs -/

namespace Locals

/-- The nodes of a new program have no entries. -/
theorem get?_next_of_last (locals : Locals inputs) {μ : Node (inputs + 1)}
    (h : μ.input = Fin.last inputs) : locals.next.get? μ = none := by
  obtain ⟨entries⟩ := locals
  show List.lookup μ (entries.map fun entry => (entry.1.earlier, entry.2)) = none
  induction entries with
  | nil => rfl
  | cons entry rest ih =>
      obtain ⟨node, depth⟩ := entry
      have hne : μ ≠ node.earlier := by
        rintro rfl
        exact node.input_earlier_ne h
      rw [List.map_cons, List.lookup_cons, beq_false_of_ne hne]
      exact ih

/-- The nodes of earlier programs keep their entries. -/
theorem get?_next_earlier (locals : Locals inputs) (node : Node inputs) :
    locals.next.get? node.earlier = locals.get? node := by
  obtain ⟨entries⟩ := locals
  show List.lookup node.earlier (entries.map fun entry => (entry.1.earlier, entry.2)) =
    List.lookup node entries
  induction entries with
  | nil => rfl
  | cons entry rest ih =>
      obtain ⟨μ, depth⟩ := entry
      rw [List.map_cons, List.lookup_cons, List.lookup_cons]
      by_cases h : node = μ
      · rw [h, beq_self_eq_true, beq_self_eq_true]
      · rw [beq_false_of_ne h, beq_false_of_ne (mt earlier_inj.1 h)]
        exact ih

end Locals

theorem mirrors_program (node : Node inputs) (p : Program) :
    Mirrors (node.Below (0 ≤ ·)) (p.record node) p.resolve fun locals => p.annotate locals node :=
  (mirrors_decls .topLevel [] node 0 p.body).map fun body => Program.mk body p.span

namespace Resolutions

theorem input_of_below_root {n : Nat} {P : Nat → Prop} {μ : Node (n + 1)}
    (h : (Node.root n).Below P μ) : μ.input = Fin.last n := by
  obtain ⟨i, _, hinput, _⟩ := h
  exact hinput

/-- **The table does not matter.** Whatever is in it, a program is resolved as if there were none. -/
theorem resolve_fst (r : Resolutions) (p : Program) : (r.resolve p).1 = p.resolve := by
  have hmirrors := mirrors_program (Node.root r.inputs) p
  have herrors := hmirrors.errors ⟨r.locals.next, []⟩
  have hvalue := hmirrors.reads ⟨r.locals.next, []⟩
    (p.record (Node.root r.inputs) ⟨r.locals.next, []⟩).2.locals
    (fun μ hμ => r.locals.get?_next_of_last (input_of_below_root hμ)) fun _ _ => rfl
  show Checked.mk _ _ = p.resolve
  rw [hvalue, herrors, List.nil_append]

/-- **What was recorded for earlier programs stays.** -/
theorem get?_resolve (r : Resolutions) (p : Program) (node : Node r.inputs) :
    (r.resolve p).2.locals.get? node.earlier = r.locals.get? node := by
  have hframe := (mirrors_program (Node.root r.inputs) p).frame ⟨r.locals.next, []⟩ node.earlier
    fun h => node.input_earlier_ne (input_of_below_root h)
  exact hframe.trans (r.locals.get?_next_earlier node)

end Resolutions

end Lox
