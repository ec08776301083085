import Lox.Proofs.Renaming.Tables
import Lox.Proofs.Resolution.Recording
import Lox.Proofs.Scoping.Static

/-!
# Resolving programs with other names

Names are resolved by looking for them, so other names could lead elsewhere. They do not when the
namings of all scopes keep the names of the program apart: then a scope declares the other name of a
use if and only if it declared its name. So the walk of the resolver records for a program with other
names what it records for the program itself, and finds no error where it found none.

## Contents
- `Naming.Apart`: namings that keep names apart.
- `Scopes.Renamed`: static scopes with other names, and what is looked up in them.
- `Expr.record_rename`, `Stmt.record_rename`, `Decl.record_rename`: one for each kind of tree.
- `Expr.annotate_rename`, `Stmt.annotate_rename`, `Decl.annotate_rename`: reading depths back.
- `Resolutions.resolve_rename`: a program with other names is resolved to itself, with the same table.
-/

namespace Lox

/-! ## Static scopes with other names -/

/-- The namings that satisfy `K` keep the names that satisfy `P` apart: different names do not become
the same one, also not in different scopes. -/
structure Naming.Apart (P : String → Prop) (K : Naming → Prop) : Prop where
  same : K .same
  reserved : ∀ name, Reserved name → P name
  eq_of_eq : ∀ f g, K f → K g → ∀ m n, P m → P n → f m = g n → m = n

/-- The second scopes have other names than the first ones, as the namings say. -/
inductive Scopes.Renamed (P : String → Prop) (K : Naming → Prop) :
    List Naming → Scopes → Scopes → Prop
  | nil (fs : List Naming) : Renamed P K fs [] []
  | cons {f : Naming} {fs : List Naming} {scope scope' : Scope} {outer outer' : Scopes} (hf : K f)
      (hscope : scope.Renamed f Eq scope') (hnames : ∀ n, scope.has n = true → P n)
      (houter : Renamed P K fs outer outer') :
      Renamed P K (f :: fs) (scope :: outer) (scope' :: outer')

namespace Scopes.Renamed

variable {P : String → Prop} {K : Naming → Prop} {fs : List Naming} {scopes scopes' : Scopes}

theorem mark (h : Renamed P K fs scopes scopes') {name : String} (hname : P name)
    (complete : Bool) :
    Renamed P K fs (scopes.mark name complete)
      (scopes'.mark (fs.headD .same name) complete) := by
  cases h with
  | nil => exact .nil fs
  | cons hf hscope hnames houter =>
      refine .cons hf (hscope.put name rfl) ?_ houter
      intro n hn
      rw [Table.has_put, Bool.or_eq_true, decide_eq_true_eq] at hn
      rcases hn with rfl | hn
      · exact hname
      · exact hnames n hn

theorem define (h : Renamed P K fs scopes scopes') {name : String} (hname : P name) :
    Renamed P K fs (scopes.define name) (scopes'.define (fs.headD .same name)) := h.mark hname true

theorem declare (h : Renamed P K fs scopes scopes') {name : String} (hname : P name) :
    Renamed P K fs (scopes.declare name) (scopes'.declare (fs.headD .same name)) :=
  h.mark hname false

theorem enter (h : Renamed P K fs scopes scopes') {f : Naming} (hf : K f) :
    Renamed P K (f :: fs) scopes.enter scopes'.enter := by
  refine .cons hf .empty ?_ h
  intro n hn
  exact nomatch hn

theorem declaresHere (h : Renamed P K fs scopes scopes') (name : String) :
    scopes'.declaresHere (fs.headD .same name) = scopes.declaresHere name := by
  cases h with
  | nil => rfl
  | cons hf hscope hnames houter => exact hscope.has name

variable (hapart : Naming.Apart P K)

include hapart

theorem enterWith (h : Renamed P K fs scopes scopes') {name : String} (hname : Reserved name) :
    Renamed P K (.same :: fs) (scopes.enterWith name) (scopes'.enterWith name) :=
  (h.enter hapart.same).define (hapart.reserved name hname)

theorem enterClass (h : Renamed P K fs scopes scopes') (derived : Bool) :
    Renamed P K (Naming.ofClass derived fs) (scopes.enterClass derived)
      (scopes'.enterClass derived) := by
  cases derived with
  | false => exact h.enterWith hapart (.inl rfl)
  | true => exact (h.enterWith hapart (.inr rfl)).enterWith hapart (.inl rfl)

/-- A use has its other name from one of the namings. -/
theorem exists_naming (h : Renamed P K fs scopes scopes') (name : String) :
    ∃ g, K g ∧ Naming.ofUse fs (scopes.distance? name) name = g name := by
  induction h with
  | nil fs => exact ⟨.same, hapart.same, rfl⟩
  | @cons f fs scope scope' outer outer' hf hscope hnames houter ih =>
      unfold Scopes.distance?
      by_cases hhas : scope.has name = true
      · rw [if_pos hhas]
        exact ⟨f, hf, rfl⟩
      · rw [if_neg hhas]
        obtain ⟨g, hg, hname⟩ := ih
        refine ⟨g, hg, ?_⟩
        rw [← hname]
        cases outer.distance? name <;> rfl

variable {f : Naming} {scope scope' : Scope} {outer outer' : Scopes}

/-- **The innermost scope has the other name of a use as it has its name**, also when the use leads
further out. -/
theorem get?_head (h : Renamed P K (f :: fs) (scope :: outer) (scope' :: outer')) {name : String}
    (hname : P name) :
    scope'.get? (Naming.ofUse (f :: fs) (Scopes.distance? (scope :: outer) name) name) =
      scope.get? name := by
  obtain ⟨g, hg, hother⟩ := h.exists_naming hapart name
  cases h with
  | cons hf hscope hnames houter =>
      by_cases hhas : scope.has name = true
      · -- the scope declares the name, so the naming is its own
        unfold Scopes.distance?
        rw [if_pos hhas]
        exact hscope.get?_eq name
      · -- it does not, and what it declares stays apart from the name
        have hapart' : ∀ n, scope.has n = true → f n ≠ g name := by
          intro n hn heq
          exact hhas (hapart.eq_of_eq f g hf hg n name (hnames n hn) hname heq ▸ hn)
        have hnone : scope.get? name = none := Option.not_isSome_iff_eq_none.1 hhas
        have hnone' : scope'.get? (g name) = none :=
          Option.not_isSome_iff_eq_none.1 (Bool.eq_false_iff.1 (hscope.has_eq_false hapart'))
        rw [hother, hnone, hnone']

/-- **A use leads as far under its other name.** -/
theorem distance? (h : Renamed P K fs scopes scopes') {name : String} (hname : P name) :
    scopes'.distance? (Naming.ofUse fs (scopes.distance? name) name) = scopes.distance? name := by
  induction h with
  | nil fs => rfl
  | @cons f fs scope scope' outer outer' hf hscope hnames houter ih =>
      have hhead : scope'.has _ = scope.has name := congrArg Option.isSome
        (get?_head hapart (.cons hf hscope hnames houter) hname)
      rw [Scopes.distance?, hhead]
      by_cases hhas : scope.has name = true
      · rw [if_pos hhas, Scopes.distance?, if_pos hhas]
      · -- the naming in front is not the one of the use
        have hother : Naming.ofUse (f :: fs) ((outer.distance? name).map (· + 1)) name =
            Naming.ofUse fs (outer.distance? name) name := by
          cases outer.distance? name <;> rfl
        rw [if_neg hhas, Scopes.distance?, if_neg hhas, hother, ih]

/-- The scopes of receivers and superclasses are where they were. -/
theorem distance?_reserved (h : Renamed P K fs scopes scopes') {name : String}
    (hname : Reserved name) : scopes'.distance? name = scopes.distance? name := by
  have hsame := h.distance? hapart (hapart.reserved name hname)
  rwa [Naming.ofUse_reserved fs _ hname] at hsame

theorem isIncomplete (h : Renamed P K fs scopes scopes') {name : String} (hname : P name) :
    scopes'.isIncomplete (Naming.ofUse fs (scopes.distance? name) name) =
      scopes.isIncomplete name := by
  cases h with
  | nil => rfl
  | cons hf hscope hnames houter =>
      have hhead := get?_head hapart (.cons hf hscope hnames houter) hname
      unfold Scopes.isIncomplete
      dsimp only
      rw [hhead]

end Scopes.Renamed

/-! ## The walk of the resolver -/

section Recording

variable {P : String → Prop} {K : Naming → Prop} {inputs : Nat} {fs : List Naming}
  {scopes scopes' : Scopes}

open Checked Recorder

theorem NameUse.record_rename (hapart : Naming.Apart P K)
    (h : Scopes.Renamed P K fs scopes scopes') (node : Node inputs)
    (use : NameUse) (hname : P use.name) :
    ((use.resolve scopes).value.rename fs).record scopes' node = use.record scopes node := by
  show (do
    ofChecked (reportIf (scopes'.isIncomplete (Naming.ofUse fs (scopes.distance? use.name) use.name))
      use.span .ownInitializer)
    note node (scopes'.distance? (Naming.ofUse fs (scopes.distance? use.name) use.name))) = _
  rw [h.isIncomplete hapart hname, h.distance? hapart hname]
  rfl

theorem andThen_congr {x x' y y' : Recorder inputs Unit} (hx : x' = x) (hy : y' = y) :
    (x' >>= fun _ => y') = (x >>= fun _ => y) := by
  rw [hx, hy]

mutual

theorem Expr.record_rename (hapart : Naming.Apart P K) (kind : ClassKind)
    (h : Scopes.Renamed P K fs scopes scopes')
    (node : Node inputs) (e : Expr) (hnames : ∀ n ∈ e.names, P n) :
    ((e.resolve kind scopes).value.rename fs).record kind scopes' node =
      e.record kind scopes node := by
  cases e with
  | literal value span => rfl
  | grouping inner span => exact inner.record_rename hapart kind h _ hnames
  | unary op operand span => exact operand.record_rename hapart kind h _ hnames
  | binary op left right span | logical op left right span =>
      refine andThen_congr (left.record_rename hapart kind h _ fun n hn => ?_)
        (right.record_rename hapart kind h _ fun n hn => ?_)
      · exact hnames n (List.mem_append_left _ hn)
      · exact hnames n (List.mem_append_right _ hn)
  | «variable» use =>
      exact use.record_rename hapart h node (hnames use.name List.mem_cons_self)
  | assign name depth value span =>
      refine andThen_congr (value.record_rename hapart kind h _ fun n hn => ?_) ?_
      · exact hnames n (List.mem_cons_of_mem _ hn)
      · exact congrArg (note node) (h.distance? hapart (hnames name List.mem_cons_self))
  | call callee args span =>
      refine andThen_congr (callee.record_rename hapart kind h _ fun n hn => ?_)
        (Expr.recordAll_rename hapart kind h node 1 args fun n hn => ?_)
      · exact hnames n (List.mem_append_left _ hn)
      · exact hnames n (List.mem_append_right _ hn)
  | get object name span => exact object.record_rename hapart kind h _ hnames
  | set object name value span =>
      refine andThen_congr (value.record_rename hapart kind h _ fun n hn => ?_)
        (object.record_rename hapart kind h _ fun n hn => ?_)
      · exact hnames n (List.mem_append_right _ hn)
      · exact hnames n (List.mem_append_left _ hn)
  | this depth span =>
      cases kind with
      | none => rfl
      | base | derived => exact congrArg (note node) (h.distance?_reserved hapart (.inl rfl))
  | super depth method span =>
      cases kind with
      | none | base => rfl
      | derived => exact congrArg (note node) (h.distance?_reserved hapart (.inr rfl))

theorem Expr.recordAll_rename (hapart : Naming.Apart P K) (kind : ClassKind)
    (h : Scopes.Renamed P K fs scopes scopes')
    (node : Node inputs) (i : Nat) (es : List Expr) (hnames : ∀ n ∈ Expr.namesAll es, P n) :
    Expr.recordAll kind scopes' node i (Expr.renameAll fs (Expr.resolveAll kind scopes es).value) =
      Expr.recordAll kind scopes node i es := by
  cases es with
  | nil => rfl
  | cons e es =>
      refine andThen_congr (e.record_rename hapart kind h _ fun n hn => ?_)
        (Expr.recordAll_rename hapart kind h node (i + 1) es fun n hn => ?_)
      · exact hnames n (List.mem_append_left _ hn)
      · exact hnames n (List.mem_append_right _ hn)

end

theorem Expr.recordOption_rename (hapart : Naming.Apart P K) (kind : ClassKind)
    (h : Scopes.Renamed P K fs scopes scopes')
    (node : Node inputs) (e : Option Expr) (hnames : ∀ n ∈ Expr.namesOption e, P n) :
    Expr.recordOption kind scopes' node
        ((Expr.resolveOption kind scopes e).value.map (·.rename fs)) =
      Expr.recordOption kind scopes node e := by
  cases e with
  | none => rfl
  | some e => exact e.record_rename hapart kind h node hnames

/-- A check that finds nothing leaves no trace. -/
theorem ofChecked_bind {α β : Type} {x : Checked α} (h : x.errors = [])
    (k : α → Recorder inputs β) : (ofChecked x >>= k) = k x.value := by
  funext r
  show k x.value { r with errors := r.errors ++ x.errors } = _
  rw [h, List.append_nil]

theorem checkNew_rename (h : Scopes.Renamed P K fs scopes scopes') {name : String} {span : Span}
    (hnew : (checkNew scopes name span).errors = []) :
    checkNew scopes' (fs.headD .same name) span = checkNew scopes name span := by
  unfold checkNew at hnew ⊢
  rw [h.declaresHere, Checked.eq_false_of_reportIf hnew]
  rfl

/-- The parameters of a function under their other names. -/
theorem Param.resolveAll_rename (h : Scopes.Renamed P K fs scopes scopes') (params : List Param)
    (hnames : ∀ p ∈ params, P p.name) (herrors : (Param.resolveAll scopes params).errors = []) :
    (Param.resolveAll scopes' (params.map (·.rename (fs.headD .same)))).errors = [] ∧
      Scopes.Renamed P K fs (Param.resolveAll scopes params).value
        (Param.resolveAll scopes' (params.map (·.rename (fs.headD .same)))).value := by
  induction params generalizing scopes scopes' with
  | nil => exact ⟨rfl, h⟩
  | cons p ps ih =>
      obtain ⟨hnew, hrest⟩ := (Checked.errors_bind_eq_nil _ _).1 herrors
      have hp := hnames p List.mem_cons_self
      obtain ⟨herrors', hscopes⟩ :=
        ih (h.define hp) (fun q hq => hnames q (List.mem_cons_of_mem _ hq)) hrest
      refine ⟨(Checked.errors_bind_eq_nil _ _).2 ⟨?_, herrors'⟩, hscopes⟩
      exact (congrArg Checked.errors (checkNew_rename h hnew)).trans hnew

theorem recordSuperclass_rename (hapart : Naming.Apart P K)
    (h : Scopes.Renamed P K fs scopes scopes') {name : String} (hname : P name)
    (node : Node inputs) (superclass : Option NameUse) (hnames : ∀ use ∈ superclass, P use.name)
    (herrors : (resolveSuperclass scopes name superclass).errors = []) :
    recordSuperclass scopes' name node
        ((resolveSuperclass scopes name superclass).value.map (·.rename fs)) =
      recordSuperclass scopes name node superclass := by
  cases superclass with
  | none => rfl
  | some use =>
      have huse := hnames use rfl
      obtain ⟨hother, _⟩ := (Checked.errors_bind_eq_nil _ _).1 herrors
      have hne : (use.name == name) = false := Checked.eq_false_of_reportIf hother
      obtain ⟨g, hg, hnaming⟩ := h.exists_naming hapart use.name
      -- the class keeps its name, and that of another one does not become it
      have hne' : (Naming.ofUse fs (scopes.distance? use.name) use.name == name) = false := by
        rw [hnaming]
        refine beq_false_of_ne fun heq => beq_eq_false_iff_ne.1 hne ?_
        exact hapart.eq_of_eq g .same hg hapart.same _ _ huse hname heq
      refine andThen_congr ?_ (use.record_rename hapart h node huse)
      show ofChecked (reportIf (Naming.ofUse fs (scopes.distance? use.name) use.name == name)
        use.span .inheritsFromItself) = _
      rw [hne', hne]

/-- Behind a declaration, the innermost scope has its other name. -/
theorem Scopes.Renamed.behind (h : Scopes.Renamed P K fs scopes scopes') {plan : Plan}
    (around : Surroundings) {d : Decl} (hnames : ∀ n ∈ d.names, P n)
    (hkeeps : (d.resolve around scopes).value.KeepsName (fs.headD .same)) :
    Scopes.Renamed P K fs (scopes.behind d)
      (scopes'.behind ((d.resolve around scopes).value.rename plan fs)) := by
  cases d with
  | var name initial span => exact h.define (hnames name List.mem_cons_self)
  | function decl =>
      obtain ⟨name, params, body, span⟩ := decl
      have hdefine := h.define (hnames name List.mem_cons_self)
      rwa [show fs.headD .same name = name from hkeeps] at hdefine
  | «class» name superclass methods span =>
      have hdefine := h.define (hnames name List.mem_cons_self)
      rwa [show fs.headD .same name = name from hkeeps] at hdefine
  | stmt s => exact h

/-- All namings of a plan are among those that keep names apart. -/
def Plan.Within (K : Naming → Prop) (plan : Plan) : Prop := ∀ way, K (plan way)

theorem Plan.Within.below {plan : Plan} (h : plan.Within K) (i : Nat) : (plan.below i).Within K :=
  fun way => h (i :: way)

theorem Plan.Within.next {plan : Plan} (h : plan.Within K) : plan.next.Within K := by
  intro way
  cases way with
  | nil => exact h []
  | cons i way => exact h ((i + 1) :: way)

mutual

theorem Stmt.record_rename (hapart : Naming.Apart P K) {plan : Plan} (hplan : plan.Within K)
    {fs : List Naming} {scopes scopes' : Scopes} (h : Scopes.Renamed P K fs scopes scopes')
    (around : Surroundings) (node : Node inputs)
    (s : Stmt) (hnames : ∀ n ∈ s.names, P n)
    (hsuits : plan.Suits fun way => (s.resolve around scopes).value.scopeAt? way)
    (herrors : (s.resolve around scopes).errors = []) :
    ((s.resolve around scopes).value.rename plan fs).record around scopes' node =
      s.record around scopes node := by
  cases s with
  | expression value span | print value span =>
      exact value.record_rename hapart _ h _ hnames
  | block body span =>
      obtain ⟨hkeeps, hbody⟩ := hsuits.body
      simp only [Stmt.resolve, Checked.errors_bind_eq_nil] at herrors
      exact Decl.recordAll_rename hapart hplan (h.enter (hplan [])) around node 0 body hnames hkeeps
        hbody herrors.1
  | ifThenElse condition thenBranch elseBranch span =>
      cases elseBranch with
      | none =>
          simp only [Stmt.resolve, Checked.errors_bind_eq_nil] at herrors
          obtain ⟨_, hthen, _⟩ := herrors
          refine andThen_congr (condition.record_rename hapart _ h _ fun n hn => ?_)
            (thenBranch.record_rename hapart (hplan.below 1) h around _ (fun n hn => ?_)
              hsuits.thenBranch hthen)
          · exact hnames n (List.mem_append_left _ hn)
          · exact hnames n (List.mem_append_right _ hn)
      | some elseBranch =>
          simp only [Stmt.resolve, Checked.errors_bind_eq_nil] at herrors
          obtain ⟨_, hthen, helse, _⟩ := herrors
          refine andThen_congr (condition.record_rename hapart _ h _ fun n hn => ?_)
            (andThen_congr (thenBranch.record_rename hapart (hplan.below 1) h around _
              (fun n hn => ?_) hsuits.thenBranch hthen)
            (elseBranch.record_rename hapart (hplan.below 2) h around _ (fun n hn => ?_)
              hsuits.elseBranch helse))
          · exact hnames n (List.mem_append_left _ (List.mem_append_left _ hn))
          · exact hnames n (List.mem_append_left _ (List.mem_append_right _ hn))
          · exact hnames n (List.mem_append_right _ hn)
  | whileLoop condition body increment span =>
      simp only [Stmt.resolve, Checked.errors_bind_eq_nil] at herrors
      obtain ⟨_, hbody, _⟩ := herrors
      refine andThen_congr (condition.record_rename hapart _ h _ fun n hn => ?_)
        (andThen_congr (body.record_rename hapart (hplan.below 1) h _ _ (fun n hn => ?_)
          hsuits.loop hbody)
        (Expr.recordOption_rename hapart _ h _ increment fun n hn => ?_))
      · exact hnames n (List.mem_append_left _ (List.mem_append_left _ hn))
      · exact hnames n (List.mem_append_left _ (List.mem_append_right _ hn))
      · exact hnames n (List.mem_append_right _ hn)
  | «break» span | «continue» span => rfl
  | «return» value span =>
      -- whether there is a value is all that the check of initializers looks at
      have hsome : ((Expr.resolveOption around.enclosingClass scopes value).value.map
          (·.rename fs)).isSome = value.isSome := by
        cases value <;> rfl
      refine andThen_congr rfl (andThen_congr ?_ ?_)
      · show ofChecked (reportIf (((Expr.resolveOption around.enclosingClass scopes value).value.map
          (·.rename fs)).isSome && around.function == .initializer) span .returnFromInitializer) = _
        rw [hsome]
      · exact Expr.recordOption_rename hapart _ h _ value hnames

theorem Decl.record_rename (hapart : Naming.Apart P K) {plan : Plan} (hplan : plan.Within K)
    {fs : List Naming} {scopes scopes' : Scopes} (h : Scopes.Renamed P K fs scopes scopes')
    (around : Surroundings) (node : Node inputs)
    (d : Decl) (hnames : ∀ n ∈ d.names, P n)
    (hkeeps : (d.resolve around scopes).value.KeepsName (fs.headD .same))
    (hsuits : plan.Suits fun way => (d.resolve around scopes).value.scopeAt? way)
    (herrors : (d.resolve around scopes).errors = []) :
    ((d.resolve around scopes).value.rename plan fs).record around scopes' node =
      d.record around scopes node := by
  cases d with
  | var name initial span =>
      obtain ⟨hnew, _⟩ := (Checked.errors_bind_eq_nil _ _).1 herrors
      refine andThen_congr (congrArg ofChecked (checkNew_rename h hnew))
        (Expr.recordOption_rename hapart _ (h.declare ?_) _ initial fun n hn => ?_)
      · exact hnames name List.mem_cons_self
      · exact hnames n (List.mem_cons_of_mem _ hn)
  | function decl =>
      obtain ⟨hnew, hdecl⟩ := (Checked.errors_bind_eq_nil _ _).1 herrors
      obtain ⟨hdecl, _⟩ := (Checked.errors_bind_eq_nil _ _).1 hdecl
      have hcheck := checkNew_rename h hnew
      have hdefine := h.define (hnames decl.name List.mem_cons_self)
      -- functions and classes keep their names
      have hname : fs.headD .same decl.name = decl.name := by
        obtain ⟨name, params, body, span⟩ := decl
        exact hkeeps
      rw [hname] at hcheck hdefine
      have hrest := decl.record_rename hapart hplan hdefine around .function node
        (fun n hn => hnames n (List.mem_cons_of_mem _ hn)) hsuits hdecl
      obtain ⟨name, params, body, span⟩ := decl
      exact andThen_congr (congrArg ofChecked hcheck) hrest
  | «class» name superclass methods span =>
      simp only [Decl.resolve, Checked.errors_bind_eq_nil] at herrors
      obtain ⟨hnew, hsuper, hmethods, _⟩ := herrors
      have hname : P name := hnames name List.mem_cons_self
      have hcheck := checkNew_rename h hnew
      have hdefine := h.define hname
      rw [show fs.headD .same name = name from hkeeps] at hcheck hdefine
      refine andThen_congr (congrArg ofChecked hcheck) (andThen_congr ?_ ?_)
      · refine recordSuperclass_rename hapart hdefine hname _ superclass (fun use huse => ?_) hsuper
        cases huse
        exact hnames use.name (List.mem_cons_of_mem _ (List.mem_append_left _ List.mem_cons_self))
      · have hnamed : ∀ n ∈ FunctionDecl.namesAll methods, P n :=
          fun n hn => hnames n (List.mem_append_right _ hn)
        cases superclass with
        | none =>
            exact FunctionDecl.recordAll_rename hapart hplan.next (hdefine.enterClass hapart false) _
              node 1 methods hnamed hsuits.methods hmethods
        | some use =>
            exact FunctionDecl.recordAll_rename hapart hplan.next (hdefine.enterClass hapart true) _
              node 1 methods hnamed hsuits.methods hmethods
  | stmt s =>
      obtain ⟨hs, _⟩ := (Checked.errors_bind_eq_nil _ _).1 herrors
      exact s.record_rename hapart hplan h around node hnames hsuits hs

theorem Decl.recordAll_rename (hapart : Naming.Apart P K) {plan : Plan} (hplan : plan.Within K)
    {fs : List Naming} {scopes scopes' : Scopes} (h : Scopes.Renamed P K fs scopes scopes')
    (around : Surroundings) (node : Node inputs)
    (i : Nat) (ds : List Decl) (hnames : ∀ n ∈ Decl.namesAll ds, P n)
    (hkeeps : ∀ d ∈ (Decl.resolveAll around scopes ds).value, d.KeepsName (fs.headD .same))
    (hsuits : plan.Suits fun way => Decl.scopeIn? way (Decl.resolveAll around scopes ds).value)
    (herrors : (Decl.resolveAll around scopes ds).errors = []) :
    Decl.recordAll around scopes' node i
        (Decl.renameAll plan fs (Decl.resolveAll around scopes ds).value) =
      Decl.recordAll around scopes node i ds := by
  cases ds with
  | nil => rfl
  | cons d ds =>
      simp only [Decl.resolveAll, Checked.errors_bind_eq_nil] at herrors
      obtain ⟨hd, hds, _⟩ := herrors
      have hfirst : ∀ n ∈ d.names, P n := fun n hn => hnames n (List.mem_append_left _ hn)
      refine andThen_congr (d.record_rename hapart (hplan.below 0) h around _ hfirst
          (hkeeps _ List.mem_cons_self) hsuits.head hd)
        (Decl.recordAll_rename hapart hplan.next (h.behind around hfirst
          (hkeeps _ List.mem_cons_self)) around node (i + 1) ds (fun n hn => ?_)
          (fun d' hd' => hkeeps d' (List.mem_cons_of_mem _ hd')) hsuits.tail hds)
      exact hnames n (List.mem_append_right _ hn)

theorem FunctionDecl.record_rename (hapart : Naming.Apart P K) {plan : Plan}
    (hplan : plan.Within K) {fs : List Naming} {scopes scopes' : Scopes}
    (h : Scopes.Renamed P K fs scopes scopes') (around : Surroundings)
    (kind : FunctionKind) (node : Node inputs) (f : FunctionDecl) (hnames : ∀ n ∈ f.names, P n)
    (hsuits : plan.Suits fun way => (f.resolve around scopes kind).value.scopeAt? way)
    (herrors : (f.resolve around scopes kind).errors = []) :
    ((f.resolve around scopes kind).value.rename plan fs).record around scopes' kind node =
      f.record around scopes kind node := by
  obtain ⟨name, params, body, span⟩ := f
  obtain ⟨hkeeps, hbody⟩ := hsuits.body
  simp only [FunctionDecl.resolve, Checked.errors_bind_eq_nil] at herrors
  obtain ⟨hparams, hrest, _⟩ := herrors
  obtain ⟨herrors', hscopes⟩ := Param.resolveAll_rename (h.enter (hplan [])) params
    (fun p hp => hnames p.name (List.mem_append_left _ (List.mem_map_of_mem hp))) hparams
  refine (ofChecked_bind herrors' _).trans (.trans ?_ (ofChecked_bind hparams _).symm)
  exact Decl.recordAll_rename hapart hplan hscopes _ node 0 body
    (fun n hn => hnames n (List.mem_append_right _ hn)) hkeeps hbody hrest

theorem FunctionDecl.recordAll_rename (hapart : Naming.Apart P K) {plan : Plan}
    (hplan : plan.Within K) {fs : List Naming} {scopes scopes' : Scopes}
    (h : Scopes.Renamed P K fs scopes scopes') (around : Surroundings)
    (node : Node inputs) (i : Nat) (functions : List FunctionDecl)
    (hnames : ∀ n ∈ FunctionDecl.namesAll functions, P n)
    (hsuits : plan.Suits fun way =>
      FunctionDecl.scopeIn? way (FunctionDecl.resolveAll around scopes functions).value)
    (herrors : (FunctionDecl.resolveAll around scopes functions).errors = []) :
    FunctionDecl.recordAll around scopes' node i
        (FunctionDecl.renameAll plan fs (FunctionDecl.resolveAll around scopes functions).value) =
      FunctionDecl.recordAll around scopes node i functions := by
  cases functions with
  | nil => rfl
  | cons f rest =>
      simp only [FunctionDecl.resolveAll, Checked.errors_bind_eq_nil] at herrors
      obtain ⟨hf, hrest, _⟩ := herrors
      have hname : ((f.resolve around scopes (methodKind f.name)).value.rename (plan.below 0)
          fs).name = f.name := by
        obtain ⟨name, params, body, span⟩ := f
        rfl
      refine andThen_congr ?_ (FunctionDecl.recordAll_rename hapart hplan.next h around node (i + 1)
        rest (fun n hn => ?_) hsuits.tailFunctions hrest)
      · rw [hname]
        exact f.record_rename hapart (hplan.below 0) h around _ _
          (fun n hn => hnames n (List.mem_append_left _ hn)) hsuits.headFunction hf
      · exact hnames n (List.mem_append_right _ hn)

end

end Recording

/-! ## Reading depths back -/

section Reading

variable {inputs : Nat} (locals : Locals inputs)

mutual

theorem Expr.annotate_rename (fs : List Naming) (node : Node inputs) : (e : Expr) →
    ((e.annotate locals node).rename fs).annotate locals node = (e.annotate locals node).rename fs
  | .literal _ _ | .variable _ | .this _ _ | .super _ _ _ => rfl
  | .grouping inner span => congrArg (Expr.grouping · span) (inner.annotate_rename fs _)
  | .unary op operand span => congrArg (Expr.unary op · span) (operand.annotate_rename fs _)
  | .binary op left right span =>
      congrArg₂ (Expr.binary op · · span) (left.annotate_rename fs _) (right.annotate_rename fs _)
  | .logical op left right span =>
      congrArg₂ (Expr.logical op · · span) (left.annotate_rename fs _) (right.annotate_rename fs _)
  | .assign name _ value span =>
      congrArg (Expr.assign (Naming.ofUse fs (locals.get? node) name) (locals.get? node) · span)
        (value.annotate_rename fs _)
  | .call callee args span =>
      congrArg₂ (Expr.call · · span) (callee.annotate_rename fs _)
        (Expr.annotateAll_rename fs node 1 args)
  | .get object name span => congrArg (Expr.get · name span) (object.annotate_rename fs _)
  | .set object name value span =>
      congrArg₂ (Expr.set · name · span) (object.annotate_rename fs _) (value.annotate_rename fs _)

theorem Expr.annotateAll_rename (fs : List Naming) (node : Node inputs) (i : Nat) :
    (es : List Expr) → Expr.annotateAll locals node i (Expr.renameAll fs
      (Expr.annotateAll locals node i es)) = Expr.renameAll fs (Expr.annotateAll locals node i es)
  | [] => rfl
  | e :: es =>
      congrArg₂ List.cons (e.annotate_rename fs _) (Expr.annotateAll_rename fs node (i + 1) es)

end

theorem Expr.annotateOption_rename (fs : List Naming) (node : Node inputs) (e : Option Expr) :
    Expr.annotateOption locals node ((Expr.annotateOption locals node e).map (·.rename fs)) =
      (Expr.annotateOption locals node e).map (·.rename fs) := by
  cases e with
  | none => rfl
  | some e => exact congrArg some (e.annotate_rename locals fs node)

mutual

theorem Stmt.annotate_rename (plan : Plan) (fs : List Naming) (node : Node inputs) : (s : Stmt) →
    ((s.annotate locals node).rename plan fs).annotate locals node =
      (s.annotate locals node).rename plan fs
  | .expression value span =>
      congrArg (Stmt.expression · span) (value.annotate_rename locals fs _)
  | .print value span => congrArg (Stmt.print · span) (value.annotate_rename locals fs _)
  | .block body span => congrArg (Stmt.block · span) (Decl.annotateAll_rename plan _ node 0 body)
  | .ifThenElse condition thenBranch none span =>
      congrArg₂ (Stmt.ifThenElse · · none span) (condition.annotate_rename locals fs _)
        (thenBranch.annotate_rename (plan.below 1) fs _)
  | .ifThenElse condition thenBranch (some elseBranch) span => by
      simp only [Stmt.annotate, Stmt.rename, condition.annotate_rename locals fs,
        thenBranch.annotate_rename (plan.below 1) fs, elseBranch.annotate_rename (plan.below 2) fs]
  | .whileLoop condition body increment span => by
      simp only [Stmt.annotate, Stmt.rename, condition.annotate_rename locals fs,
        body.annotate_rename (plan.below 1) fs, Expr.annotateOption_rename]
  | .break _ | .continue _ => rfl
  | .return value span =>
      congrArg (Stmt.return · span) (Expr.annotateOption_rename locals fs _ value)

theorem Decl.annotate_rename (plan : Plan) (fs : List Naming) (node : Node inputs) : (d : Decl) →
    ((d.annotate locals node).rename plan fs).annotate locals node =
      (d.annotate locals node).rename plan fs
  | .var name initial span =>
      congrArg (Decl.var (fs.headD .same name) · span)
        (Expr.annotateOption_rename locals fs _ initial)
  | .function decl => congrArg Decl.function (decl.annotate_rename plan fs node)
  | .class name none methods span =>
      congrArg (Decl.class name none · span)
        (FunctionDecl.annotateAll_rename plan.next _ node 1 methods)
  | .class name (some use) methods span =>
      congrArg (Decl.class name (some ((use.annotate locals (node.child 0)).rename fs)) · span)
        (FunctionDecl.annotateAll_rename plan.next _ node 1 methods)
  | .stmt s => congrArg Decl.stmt (s.annotate_rename plan fs node)

theorem Decl.annotateAll_rename (plan : Plan) (fs : List Naming) (node : Node inputs) (i : Nat) :
    (ds : List Decl) →
    Decl.annotateAll locals node i (Decl.renameAll plan fs (Decl.annotateAll locals node i ds)) =
      Decl.renameAll plan fs (Decl.annotateAll locals node i ds)
  | [] => rfl
  | d :: ds =>
      congrArg₂ List.cons (d.annotate_rename (plan.below 0) fs _)
        (Decl.annotateAll_rename plan.next fs node (i + 1) ds)

theorem FunctionDecl.annotate_rename (plan : Plan) (fs : List Naming) (node : Node inputs) :
    (f : FunctionDecl) →
    ((f.annotate locals node).rename plan fs).annotate locals node =
      (f.annotate locals node).rename plan fs
  | ⟨name, params, body, span⟩ =>
      congrArg (fun body => FunctionDecl.mk name (params.map (Param.rename (plan []))) body span)
        (Decl.annotateAll_rename plan _ node 0 body)

theorem FunctionDecl.annotateAll_rename (plan : Plan) (fs : List Naming) (node : Node inputs)
    (i : Nat) : (functions : List FunctionDecl) →
    FunctionDecl.annotateAll locals node i
        (FunctionDecl.renameAll plan fs (FunctionDecl.annotateAll locals node i functions)) =
      FunctionDecl.renameAll plan fs (FunctionDecl.annotateAll locals node i functions)
  | [] => rfl
  | f :: rest =>
      congrArg₂ List.cons (f.annotate_rename (plan.below 0) fs _)
        (FunctionDecl.annotateAll_rename plan.next fs node (i + 1) rest)

end

end Reading

/-- **A program with other names is resolved to itself**: it is accepted, each use keeps its depth, and
the table of the session has the same entries. -/
theorem Resolutions.resolve_rename (r : Resolutions) {P : String → Prop} {K : Naming → Prop}
    (hapart : Naming.Apart P K) {plan : Plan} (hplan : plan.Within K) {p : Program}
    (haccepted : p.resolve.errors = []) (hnames : ∀ n ∈ p.names, P n)
    (hsuits : plan.Suits p.resolve.value.scopeAt?) :
    r.resolve (p.resolve.value.rename plan) =
      (⟨p.resolve.value.rename plan, []⟩, (r.resolve p).2) := by
  have hfirst := r.resolve_fst p
  have herrors : ((p.record (.root r.inputs)) ⟨r.locals.next, []⟩).2.errors = [] :=
    (congrArg Checked.errors hfirst).trans haccepted
  have hvalue := congrArg Checked.value hfirst
  have hglobal : ∀ d ∈ p.resolve.value.body, d.KeepsName (List.headD [.same] .same) :=
    fun d _ => d.keepsName_same
  have hresolved : (Decl.resolveAll .topLevel [] p.body).errors = [] :=
    ((Checked.errors_bind_eq_nil _ _).1 haccepted).1
  have hrecord : (p.resolve.value.rename plan).record (.root r.inputs) =
      p.record (.root r.inputs) :=
    Decl.recordAll_rename hapart hplan (.nil [.same]) .topLevel _ 0 p.body hnames hglobal hsuits
      hresolved
  -- what is read back is what the program was resolved to, under the other names
  have hannotate : (p.resolve.value.rename plan).annotate
      ((p.record (.root r.inputs)) ⟨r.locals.next, []⟩).2.locals (.root r.inputs) =
        p.resolve.value.rename plan := by
    rw [← hvalue]
    exact congrArg (Program.mk · p.span) (Decl.annotateAll_rename _ plan [.same] _ 0 p.body)
  unfold Resolutions.resolve
  dsimp only
  rw [hrecord, hannotate, herrors]

end Lox
