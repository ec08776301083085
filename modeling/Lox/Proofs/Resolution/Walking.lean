import Lox.Proofs.Resolution.Covering
import Lox.Proofs.Resolution.Recording
import Lox.Proofs.Scoping.Static
import Mathlib.Data.List.Forall2

/-!
# The walk through a program

The walk that resolves names comes to every node of a program once. It carries along a stack of scopes
and what it is inside of; that these say what the node at hand stands in is the invariant of the walk.

## Contents
- `Shows`, `Stands`, `Knows`, `KnowsAt`: the invariant.
- `Listed`, `resolveAll_params`: the declarations of a scope, and its parameters.
- `covers_expr`, `covers_stmt`, `covers_decl`: one for each kind of tree.
- `covers_program`: whole programs.
-/

namespace Lox.Resolving

open Recorder Checked

variable {inputs : Nat}

/-! ## The invariant -/

/-- The scopes of the walk declare the same names as those around a node. -/
def Shows (scopes : Scopes) (names : List (List String)) : Prop :=
  List.Forall₂ (fun scope names => ∀ name, scope.has name = names.contains name) scopes names

namespace Shows

variable {scopes : Scopes} {names : List String} {outer : List (List String)}

/-- The walk finds the distances that there are. -/
theorem distance?_eq {names : List (List String)} (h : Shows scopes names) (name : String) :
    scopes.distance? name = distance? names name := by
  induction h with
  | nil => rfl
  | @cons scope declared scopes names hscope _ ih =>
      unfold Scopes.distance? distance?
      rw [List.findIdx?_cons, hscope, ih]
      rfl

theorem declaresHere_eq (h : Shows scopes (names :: outer)) (name : String) :
    scopes.declaresHere name = names.contains name := by
  cases h with
  | cons hscope _ => exact hscope name

/-- One more name in the innermost scope. -/
theorem mark (h : Shows scopes (names :: outer)) (name : String) (complete : Bool) :
    Shows (scopes.mark name complete) ((names ++ [name]) :: outer) := by
  cases h with
  | cons hscope houter =>
      refine .cons (fun x => ?_) houter
      rw [Table.has_put, hscope, Bool.eq_iff_iff]
      simp only [Bool.or_eq_true, decide_eq_true_eq, List.contains_iff_mem, List.mem_append,
        List.mem_singleton]
      exact or_comm.trans (or_congr_right eq_comm)

/-- It does not matter how a name is marked. -/
theorem remark {names : List (List String)} {name : String} {complete complete' : Bool}
    (h : Shows (scopes.mark name complete) names) : Shows (scopes.mark name complete') names := by
  cases scopes with
  | nil => exact h
  | cons scope scopes =>
      cases h with
      | cons hscope houter =>
          refine .cons (fun x => ?_) houter
          rw [← hscope, Table.has_put, Table.has_put]

theorem behind (h : Shows scopes (names :: outer)) (d : Decl) :
    Shows (scopes.behind d) ((names ++ declared [d]) :: outer) := by
  unfold Scopes.behind declared
  rw [List.filterMap_cons, List.filterMap_nil]
  cases d.name? with
  | none =>
      show Shows scopes ((names ++ []) :: outer)
      rwa [List.append_nil]
  | some name => exact h.mark name true

theorem enter {names : List (List String)} (h : Shows scopes names) :
    Shows scopes.enter ([] :: names) :=
  .cons (fun _ => rfl) h

theorem enterWith {names : List (List String)} (h : Shows scopes names) (name : String) :
    Shows (scopes.enterWith name) ([name] :: names) :=
  h.enter.mark name true

theorem enterClass {names : List (List String)} (h : Shows scopes names) (derived : Bool) :
    Shows (scopes.enterClass derived) ((Enclosure.methods derived).scopes ++ names) := by
  cases derived with
  | false => exact h.enterWith "this"
  | true => exact (h.enterWith "super").enterWith "this"

theorem isEmpty_eq {names : List (List String)} (h : Shows scopes names) :
    scopes.isEmpty = names.isEmpty := by
  cases h <;> rfl

end Shows

/-- The kind of the innermost class. -/
def classKind : Option Bool → ClassKind
  | none => .none
  | some false => .base
  | some true => .derived

/-- The kind of the innermost function. -/
def functionKind : Option (String × Bool) → FunctionKind
  | none => .none
  | some (_, false) => .function
  | some (name, true) => methodKind name

/-- What the walk of an expression carries along says what the expression stands in. -/
structure Knows (kind : ClassKind) (scopes : Scopes) (around : List Enclosure) : Prop where
  shows : Shows scopes (scopesAround around)
  class_eq : kind = classKind (innermostClass? around)
  incomplete_eq : ∀ name, scopes.isIncomplete name = inInitializerOf name around

/-- What the walk of a statement carries along, the scopes apart. A statement stands in no
initializer. -/
structure Stands (s : Surroundings) (around : List Enclosure) : Prop where
  class_eq : s.enclosingClass = classKind (innermostClass? around)
  function_eq : s.function = functionKind (innermostFunction? around)
  inLoop_eq : s.inLoop = inLoop around
  settled : ∀ name, inInitializerOf name around = false

/-- What the walk of a statement carries along. -/
structure KnowsAll (s : Surroundings) (scopes : Scopes) (around : List Enclosure) : Prop extends
    Stands s around where
  shows : Shows scopes (scopesAround around)
  complete : scopes.Complete

/-- What the walk carries along when it comes to a declaration: of the innermost scope, the names that
are declared in front of it. -/
structure KnowsAt (s : Surroundings) (scopes : Scopes) (around : List Enclosure) (d : Decl) : Prop where
  behind : KnowsAll s (scopes.behind d) around
  here : ∀ name, scopes.declaresHere name = (earlierNames around).contains name

namespace KnowsAll

variable {s : Surroundings} {scopes : Scopes} {around : List Enclosure}

theorem knows (h : KnowsAll s scopes around) : Knows s.enclosingClass scopes around where
  shows := h.shows
  class_eq := h.class_eq
  incomplete_eq name := by
    rw [h.complete.isIncomplete_eq_false, h.settled]

end KnowsAll

/-! ## Declarations in a scope -/

theorem declared_append (ds ds' : List Decl) : declared (ds ++ ds') = declared ds ++ declared ds' :=
  List.filterMap_append

/-- At a declaration of a local scope. -/
theorem knowsAt_scope {s : Surroundings} {scopes : Scopes} {around : List Enclosure}
    {params : List Param} {before : List Decl} (hstands : Stands s around)
    (hshows : Shows scopes ((params.map (·.name) ++ declared before) :: scopesAround around))
    (hcomplete : scopes.Complete) (d : Decl) :
    KnowsAt s scopes (.scope params before d :: around) d where
  behind :=
    { class_eq := hstands.class_eq
      function_eq := hstands.function_eq
      inLoop_eq := hstands.inLoop_eq
      settled := hstands.settled
      complete := hcomplete.behind d
      shows := by
        have hbehind := hshows.behind d
        rwa [List.append_assoc, ← declared_append] at hbehind }
  here := hshows.declaresHere_eq

/-- The declarations of a list are children of a tree, from position `i` on, and the walk knows what
each of them stands in when it comes to it. -/
def Listed (s : Surroundings) (scopes : Scopes) (around : List Enclosure) (t : Subtree) (i : Nat)
    (ds : List Decl) : Prop :=
  ∀ before d after, ds = before ++ d :: after →
    ∃ inner, t.child? (i + before.length) = some (inner, .ofDecl d) ∧
      KnowsAt s (before.foldl Scopes.behind scopes) (inner ++ around) d

theorem Listed.tail {s : Surroundings} {scopes : Scopes} {around : List Enclosure} {t : Subtree}
    {i : Nat} {d : Decl} {ds : List Decl} (h : Listed s scopes around t i (d :: ds)) :
    Listed s (scopes.behind d) around t (i + 1) ds := by
  intro before d' after hds
  obtain ⟨inner, hchild, hknows⟩ := h (d :: before) d' after (congrArg (d :: ·) hds)
  refine ⟨inner, ?_, hknows⟩
  rw [← hchild, List.length_cons, Nat.add_assoc, Nat.add_comm 1]

theorem Shows.foldl_behind {scopes : Scopes} {names : List String} {outer : List (List String)}
    (h : Shows scopes (names :: outer)) (ds : List Decl) :
    Shows (ds.foldl Scopes.behind scopes) ((names ++ declared ds) :: outer) := by
  induction ds generalizing scopes names with
  | nil =>
      show Shows scopes ((names ++ []) :: outer)
      rwa [List.append_nil]
  | cons d ds ih =>
      have hrest := ih (h.behind d)
      rwa [List.append_assoc, ← declared_append] at hrest

theorem complete_foldl_behind {scopes : Scopes} (h : scopes.Complete) (ds : List Decl) :
    Scopes.Complete (ds.foldl Scopes.behind scopes) := by
  induction ds generalizing scopes with
  | nil => exact h
  | cons d ds ih => exact ih (h.behind d)

/-- The declarations of a block, or of the body of a function behind its parameters. -/
theorem listed_scope {s : Surroundings} {scopes : Scopes} {around : List Enclosure}
    (outer : List Enclosure) {t : Subtree} (params : List Param) {body : List Decl}
    (hchild : ∀ i, t.child? i =
      (declChild? params body i).map fun (scope, d) => (scope ++ outer, d))
    (hstands : Stands s (outer ++ around))
    (hshows : Shows scopes (params.map (·.name) :: scopesAround (outer ++ around)))
    (hcomplete : scopes.Complete) : Listed s scopes around t 0 body := by
  intro before d after hbody
  refine ⟨.scope params before d :: outer, ?_, ?_⟩
  · rw [hchild, declChild?, hbody, Nat.zero_add, List.getElem?_append_right Nat.le.refl,
      Nat.sub_self, List.take_left]
    rfl
  · exact knowsAt_scope hstands (hshows.foldl_behind before) (complete_foldl_behind hcomplete before) d

theorem declChild?_eq_none (params : List Param) (body : List Decl) (i : Nat) :
    declChild? params body (i + body.length) = none := by
  rw [declChild?, List.getElem?_eq_none (Nat.le_add_left _ i)]
  rfl

/-! ## Parameters -/

/-- The parameters of a function come into its scope one after the other, and each one is compared with
those in front of it. -/
theorem resolveAll_params {scopes : Scopes} {outer : List (List String)} (front params : List Param)
    (hshows : Shows scopes (front.map (·.name) :: outer)) (hcomplete : scopes.Complete) :
    (Param.resolveAll scopes params).errors =
        ((params.zipIdx front.length).flatMap fun e =>
          violationIf ((((front ++ params).take e.2).map (·.name)).contains e.1.name) e.1.span
            (.alreadyDeclared e.1.name)) ∧
      Shows (Param.resolveAll scopes params).value ((front ++ params).map (·.name) :: outer) ∧
      (Param.resolveAll scopes params).value.Complete := by
  induction params generalizing front scopes with
  | nil =>
      rw [List.append_nil]
      exact ⟨rfl, hshows, hcomplete⟩
  | cons p params ih =>
      have hnext : Shows (scopes.define p.name) ((front ++ [p]).map (·.name) :: outer) := by
        rw [List.map_append]
        exact hshows.mark p.name true
      obtain ⟨herrors, hvalue⟩ := ih (front ++ [p]) hnext (hcomplete.define p.name)
      rw [List.append_assoc, List.length_append] at herrors
      rw [List.append_assoc] at hvalue
      refine ⟨?_, hvalue⟩
      have hfirst : (checkNew scopes p.name p.span).errors =
          violationIf ((front.map (·.name)).contains p.name) p.span (.alreadyDeclared p.name) := by
        unfold checkNew reportIf violationIf
        rw [hshows.declaresHere_eq]
        split <;> rfl
      show (checkNew scopes p.name p.span).errors ++ _ = _
      rw [hfirst, List.zipIdx_cons, List.flatMap_cons]
      dsimp only
      rw [List.take_left]
      exact congrArg _ herrors

/-! ## Expressions -/

variable {around : List Enclosure} {kind : ClassKind} {scopes : Scopes}

/-- What a check finds. -/
theorem errors_reportIf (broken : Bool) (span : Span) (cause : StaticError.Cause) :
    (reportIf broken span cause).errors = violationIf broken span cause := by
  unfold reportIf violationIf
  split <;> rfl

theorem does_note (h : Knows kind scopes around) (node : Node inputs) (name : String) :
    Does (Recorder.note node (scopes.distance? name)) []
      ((distance? (scopesAround around) name).map (node, ·)).toList := by
  rw [← h.shows.distance?_eq]
  exact Does.note node (scopes.distance? name)

theorem does_use (h : Knows kind scopes around) (node : Node inputs) (use : NameUse) :
    Does (use.record scopes node) (useViolations around use)
      ((distance? (scopesAround around) use.name).map (node, ·)).toList := by
  have hcheck : useViolations around use =
      (reportIf (scopes.isIncomplete use.name) use.span .ownInitializer).errors ++ [] := by
    rw [List.append_nil, errors_reportIf, h.incomplete_eq]
    rfl
  rw [hcheck]
  exact Does.behindCheck (does_note h node use.name)

mutual

theorem covers_expr (h : Knows kind scopes around) (node : Node inputs) : (e : Expr) →
    Covers Everywhere around (.expr e) node (e.record kind scopes node)
  | .literal value span => .leaf (fun _ => rfl) Does.nothing
  | .grouping inner span =>
    .plain (.same rfl (covers_expr h (node.child 0) inner)) (child?_eq_none fun _ => rfl) rfl rfl
  | .unary op operand span =>
    .plain (.same rfl (covers_expr h (node.child 0) operand)) (child?_eq_none fun _ => rfl) rfl rfl
  | .binary op left right span =>
    .plain (.next (.same rfl (covers_expr h (node.child 0) left))
      (.same rfl (covers_expr h (node.child 1) right)) fun _ _ hlt => hlt)
      (child?_eq_none fun _ => rfl) rfl rfl
  | .logical op left right span =>
    .plain (.next (.same rfl (covers_expr h (node.child 0) left))
      (.same rfl (covers_expr h (node.child 1) right)) fun _ _ hlt => hlt)
      (child?_eq_none fun _ => rfl) rfl rfl
  | .variable use => .leaf (fun _ => rfl) (does_use h node use)
  | .assign name depth value span => by
    refine .whole (.same rfl (covers_expr h (node.child 0) value)) (child?_eq_none fun _ => rfl)
      fun errors written hdoes => ?_
    -- the entry of the assignment is written after those of its value
    have hnote := hdoes.andThen (does_note h node name)
    rw [List.append_nil] at hnote
    exact hnote
  | .call callee args span =>
    .plain (.next (.same rfl (covers_expr h (node.child 0) callee))
      (covers_exprs h node 1 args (fun _ _ hlt => hlt) fun k e hk => by
        show ((exprChild? (.call callee args span) (1 + k)).map _) = _
        rw [Nat.add_comm 1 k, exprChild?, hk]
        rfl) fun _ _ hlt => hlt)
      (child?_eq_none fun i => by
        show ((exprChild? (.call callee args span) (i + (1 + args.length))).map _) = _
        rw [← Nat.add_assoc, Nat.add_right_comm, exprChild?, List.getElem?_eq_none (Nat.le_add_left _ i)]
        rfl) rfl rfl
  | .get object name span =>
    .plain (.same rfl (covers_expr h (node.child 0) object)) (child?_eq_none fun _ => rfl) rfl rfl
  | .set object name value span => by
    -- the value is looked at first, although it is the second child
    have hvalue := Covers.same (t := .expr (.set object name value span)) (i := 1) rfl
      (covers_expr h (node.child 1) value)
    have hobject := Covers.same (t := .expr (.set object name value span)) (i := 0) rfl
      (covers_expr h (node.child 0) object)
    refine .plain (hvalue.andThen hobject ?_) ?_ rfl rfl
    · intro i hi j hj
      cases List.mem_singleton.1 hi
      cases List.mem_singleton.1 hj
      exact Nat.zero_lt_one
    · intro i hi
      refine child?_eq_none (n := 2) (fun _ => rfl) i fun hmem => hi ?_
      exact (List.mem_cons.1 hmem).elim (fun h0 => h0 ▸ List.mem_cons_of_mem _ List.mem_cons_self)
        fun h1 => List.mem_cons.2 (.inl (List.mem_singleton.1 h1))
  | .this depth span => by
    refine .leaf (fun _ => rfl) ?_
    have hkind := h.class_eq
    have hnote := does_note h node "this"
    unfold Subtree.violations Subtree.depth? Subtree.misplaced
    cases hclass : innermostClass? around with
    | none =>
        rw [hclass] at hkind
        subst hkind
        exact Does.check (report span .thisOutsideClass)
    | some derived =>
        rw [hclass] at hkind
        subst hkind
        cases derived <;> exact hnote
  | .super depth method span => by
    refine .leaf (fun _ => rfl) ?_
    have hkind := h.class_eq
    have hnote := does_note h node "super"
    unfold Subtree.violations Subtree.depth? Subtree.misplaced
    cases hclass : innermostClass? around with
    | none =>
        rw [hclass] at hkind
        subst hkind
        exact Does.check (report span .superOutsideClass)
    | some derived =>
        rw [hclass] at hkind
        subst hkind
        cases derived with
        | false => exact Does.check (report span .superWithoutSuperclass)
        | true => exact hnote

theorem covers_exprs (h : Knows kind scopes around) {t : Subtree} (node : Node inputs) (i : Nat) :
    (es : List Expr) → (∀ i j, i < j → t.VisitsFirst i j) →
    (∀ k e, es[k]? = some e → t.child? (i + k) = some ([], .expr e)) →
    Covers (Through (List.range' i es.length)) around t node (Expr.recordAll kind scopes node i es)
  | [], _, _ => .nowhere
  | e :: es, hfirst, hchild => by
    have hhead := Covers.same (hchild 0 e rfl) (covers_expr h (node.child i) e)
    have htail := covers_exprs h node (i + 1) es hfirst fun k e hk => by
      rw [← hchild (k + 1) e hk, Nat.add_assoc, Nat.add_comm 1]
    have hall := hhead.next htail hfirst
    rwa [Nat.add_comm 1] at hall

end

theorem covers_option (inner : List Enclosure) (h : Knows kind scopes (inner ++ around))
    {t : Subtree} (node : Node inputs) {i : Nat} {e : Option Expr}
    (hchild : t.child? i = optionChild? inner e) :
    Covers (Through (List.range' i 1)) around t node
      (Expr.recordOption kind scopes (node.child i) e) := by
  cases e with
  | none => exact .absent hchild
  | some e => exact .child hchild (covers_expr h (node.child i) e)

/-! ## Statements and declarations -/

theorem functionKind_beq_none (f : Option (String × Bool)) :
    (functionKind f == .none) = (f == none) := by
  match f with
  | none => rfl
  | some (name, false) => rfl
  | some (name, true) =>
      show (methodKind name == .none) = false
      unfold methodKind
      split <;> rfl

theorem functionKind_beq_initializer (f : Option (String × Bool)) :
    (functionKind f == .initializer) = (f == some ("init", true)) := by
  match f with
  | none => rfl
  | some (name, false) =>
      show false = ((name, false) == ("init", true))
      simp
  | some (name, true) =>
      show (methodKind name == .initializer) = ((name, true) == ("init", true))
      unfold methodKind initializerName
      split <;> rename_i hname <;> simp [hname]

theorem does_jump {s : Surroundings} (h : Stands s around) (span : Span) (keyword : String) :
    Does (ofChecked (reportIf (!s.inLoop) span (.jumpOutsideLoop keyword)) : Recorder inputs Unit)
      (violationIf (!inLoop around) span (.jumpOutsideLoop keyword)) [] := by
  rw [← h.inLoop_eq, ← errors_reportIf]
  exact Does.check _

theorem violations_return {s : Surroundings} (h : Stands s around) (value : Option Expr)
    (span : Span) : stmtViolations around (.return value span) =
      (reportIf (s.function == .none) span .returnOutsideFunction).errors ++
        (reportIf (value.isSome && s.function == .initializer) span .returnFromInitializer).errors := by
  rw [errors_reportIf, errors_reportIf, h.function_eq, functionKind_beq_none,
    functionKind_beq_initializer]
  rfl

/-- The parameters of a function, in its scope. -/
theorem errors_params {names : List (List String)} (h : Shows scopes names)
    (hcomplete : scopes.Complete) (params : List Param) :
    (Param.resolveAll scopes.enter params).errors = paramViolations params :=
  (resolveAll_params [] params h.enter hcomplete.enter).1

theorem errors_checkNew {s : Surroundings} {d : Decl} (h : KnowsAt s scopes around d) (name : String)
    (span : Span) : (checkNew scopes name span).errors = declarationViolations around name span := by
  unfold checkNew declarationViolations
  rw [errors_reportIf, h.here]

/-- In the initializer of a variable. -/
theorem KnowsAt.initial {s : Surroundings} {name : String} {e : Option Expr} {span : Span}
    (h : KnowsAt s scopes around (.var name e span)) :
    Knows s.enclosingClass (scopes.declare name) (.initializer name :: around) where
  shows := h.behind.shows.remark
  class_eq := h.behind.class_eq
  incomplete_eq x := by
    have hempty : scopes.isEmpty = (scopesAround around).isEmpty := by
      rw [← h.behind.shows.isEmpty_eq]
      cases scopes <;> rfl
    show _ = ((name == x && !(scopesAround around).isEmpty) || inInitializerOf x around)
    rw [h.behind.settled, Bool.or_false, ← hempty]
    cases scopes with
    | nil => simp [Scopes.declare, Scopes.mark, Scopes.isIncomplete]
    | cons scope outer =>
        show ((scope.put name false).get? x == some false) = _
        rw [Table.get?_put]
        by_cases hname : name = x
        · simp [hname]
        · -- all other names of the scope are complete
          have hcomplete := h.behind.complete (scope.put name true) List.mem_cons_self x
          rw [Table.get?_put, if_neg hname] at hcomplete
          simp [hname, hcomplete]

/-- In the body of a function, in front of its parameters. -/
theorem Stands.inFunction {s : Surroundings} (h : Stands s around) (name : String) (isMethod : Bool) :
    Stands (s.inFunction (functionKind (some (name, isMethod))))
      ([.function name isMethod] ++ around) where
  class_eq := h.class_eq
  function_eq := rfl
  inLoop_eq := rfl
  settled := h.settled

/-- In the methods of a class. -/
theorem KnowsAll.inClass {s : Surroundings} (h : KnowsAll s scopes around) (derived : Bool) :
    KnowsAll { s with enclosingClass := classKind (some derived) } (scopes.enterClass derived)
      (.methods derived :: around) where
  class_eq := rfl
  function_eq := h.function_eq
  inLoop_eq := h.inLoop_eq
  settled := h.settled
  shows := h.shows.enterClass derived
  complete := (h.complete.enterSuper derived).enterWith "this"

/-- In the body of a loop. -/
theorem KnowsAll.loop {s : Surroundings} (h : KnowsAll s scopes around) :
    KnowsAll { s with inLoop := true } scopes ([.loop] ++ around) where
  class_eq := h.class_eq
  function_eq := h.function_eq
  inLoop_eq := rfl
  settled := h.settled
  shows := h.shows
  complete := h.complete

theorem record_function (s : Surroundings) (scopes : Scopes) (kind : FunctionKind)
    (node : Node inputs) (f : FunctionDecl) : f.record s scopes kind node =
      ofChecked (Param.resolveAll scopes.enter f.params) >>= fun scopes =>
        Decl.recordAll (s.inFunction kind) scopes node 0 f.body := by
  cases f
  rfl

theorem functionChild?_eq_none (isMethod : Bool) (f : FunctionDecl) (i : Nat) :
    functionChild? isMethod f (i + f.body.length) = none := by
  rw [functionChild?, declChild?_eq_none]
  rfl

theorem methodChild?_eq (name : String) (superclass : Option NameUse) {methods : List FunctionDecl}
    (span : Span) (i : Nat) (f : FunctionDecl) (h : methods[i]? = some f) :
    (Subtree.decl (.class name superclass methods span)).child? (1 + i) =
      some ([.methods superclass.isSome], .method f) := by
  show declarationChild? _ (1 + i) = _
  rw [Nat.add_comm 1 i, declarationChild?, h]
  rfl

theorem classChild?_eq_none (name : String) (superclass : Option NameUse)
    (methods : List FunctionDecl) (span : Span) (i : Nat) :
    (Subtree.decl (.class name superclass methods span)).child? (i + (1 + methods.length)) =
      none := by
  show declarationChild? _ (i + (1 + methods.length)) = _
  rw [Nat.add_comm 1, ← Nat.add_assoc, declarationChild?, List.getElem?_eq_none (Nat.le_add_left _ i)]
  rfl

/-- The superclass of a class is looked up outside the scopes of its methods. -/
theorem covers_superclass (h : Knows kind scopes around) (node : Node inputs) (name : String)
    (superclass : Option NameUse) (methods : List FunctionDecl) (span : Span) :
    Covers (Through (List.range' 0 1)) around (.decl (.class name superclass methods span)) node
      (recordSuperclass scopes name (node.child 0) superclass) := by
  cases superclass with
  | none => exact .absent rfl
  | some use =>
      refine .same (c := .superclass name use) rfl (.leaf (fun _ => rfl) ?_)
      show Does _ (violationIf (use.name == name) use.span .inheritsFromItself ++ _) _
      rw [← errors_reportIf]
      exact Does.behindCheck (does_use h (node.child 0) use)

mutual

theorem covers_stmt {s : Surroundings} {scopes : Scopes} {around : List Enclosure}
    (h : KnowsAll s scopes around) (node : Node inputs) :
    (st : Stmt) → Covers Everywhere around (.stmt st) node (st.record s scopes node)
  | .expression value span =>
    .plain (.same rfl (covers_expr h.knows (node.child 0) value)) (child?_eq_none fun _ => rfl) rfl rfl
  | .print value span =>
    .plain (.same rfl (covers_expr h.knows (node.child 0) value)) (child?_eq_none fun _ => rfl) rfl rfl
  | .block body span => by
    have hlisted : Listed s scopes.enter around (.stmt (.block body span)) 0 body := by
      refine listed_scope [] [] (fun i => ?_) h.toStands h.shows.enter
        h.complete.enter
      show declChild? [] body i = _
      cases declChild? [] body i <;> simp
    exact .plain (covers_decls node 0 body hlisted fun _ _ hlt => hlt)
      (child?_eq_none (declChild?_eq_none [] body)) rfl rfl
  | .ifThenElse condition thenBranch none span =>
    .plain (.next (.same rfl (covers_expr h.knows (node.child 0) condition))
      (.same rfl (covers_stmt h (node.child 1) thenBranch)) fun _ _ hlt => hlt)
      (child?_eq_none fun i => by cases i <;> rfl) rfl rfl
  | .ifThenElse condition thenBranch (some elseBranch) span =>
    .plain (.next (.same rfl (covers_expr h.knows (node.child 0) condition))
      (.next (.same rfl (covers_stmt h (node.child 1) thenBranch))
        (.same rfl (covers_stmt h (node.child 2) elseBranch)) fun _ _ hlt => hlt) fun _ _ hlt => hlt)
      (child?_eq_none fun _ => rfl) rfl rfl
  | .whileLoop condition body increment span =>
    .plain (.next (.same rfl (covers_expr h.knows (node.child 0) condition))
      (.next (.child rfl (covers_stmt h.loop (node.child 1) body))
        (covers_option [] h.knows node rfl) fun _ _ hlt => hlt) fun _ _ hlt => hlt)
      (child?_eq_none fun _ => rfl) rfl rfl
  | .break span => .leaf (fun _ => rfl) (does_jump h.toStands span "break")
  | .continue span => .leaf (fun _ => rfl) (does_jump h.toStands span "continue")
  | .return value span => by
    refine .whole (covers_option [] h.knows node rfl) (child?_eq_none fun _ => rfl)
      fun errors written hdoes => ?_
    show Does _ (stmtViolations around (.return value span) ++ errors) written
    rw [violations_return h.toStands, List.append_assoc]
    exact Does.behindCheck (Does.behindCheck hdoes)

theorem covers_decl {s : Surroundings} {scopes : Scopes} {around : List Enclosure}
    (node : Node inputs) : (d : Decl) → KnowsAt s scopes around d →
    Covers Everywhere around (.ofDecl d) node (d.record s scopes node)
  | .var name initial span, h =>
    .checked (covers_option [.initializer name] h.initial node rfl)
      (child?_eq_none fun _ => rfl) (errors_checkNew h name span).symm rfl
  | .function f, h => by
    have hbody := covers_body (t := .decl (.function f)) h.behind node false f (fun _ => rfl)
      fun _ _ hlt => hlt
    refine .whole hbody (child?_eq_none (functionChild?_eq_none false f))
      fun errors written hdoes => ?_
    show Does _ (declarationViolations around f.name f.span ++ paramViolations f.params ++ errors)
      written
    rw [← errors_checkNew h, ← errors_params h.behind.shows h.behind.complete, List.append_assoc]
    refine Does.behindCheck ?_
    rw [record_function]
    exact Does.behindCheck hdoes
  | .class name superclass methods span, h => by
    have hmethods := covers_methods (t := .decl (.class name superclass methods span))
      (h.behind.inClass superclass.isSome) node 1 methods (fun _ _ hlt => hlt)
      (methodChild?_eq name superclass span)
    have hall := (covers_superclass h.behind.knows node name superclass methods span).next hmethods
      fun _ _ hlt => hlt
    refine .checked ?_ (child?_eq_none (classChild?_eq_none name superclass methods span))
      (errors_checkNew h name span).symm rfl
    cases superclass <;> exact hall
  | .stmt st, h => covers_stmt h.behind node st

theorem covers_decls {s : Surroundings} {scopes : Scopes} {around : List Enclosure} {t : Subtree}
    (node : Node inputs) (i : Nat) :
    (ds : List Decl) → Listed s scopes around t i ds → (∀ i j, i < j → t.VisitsFirst i j) →
    Covers (Through (List.range' i ds.length)) around t node (Decl.recordAll s scopes node i ds)
  | [], _, _ => .nowhere
  | d :: ds, hlisted, hfirst => by
    obtain ⟨inner, hchild, hknows⟩ := hlisted [] d ds rfl
    have hhead := Covers.child hchild (covers_decl (node.child i) d hknows)
    have hall := hhead.next (covers_decls node (i + 1) ds hlisted.tail hfirst) hfirst
    rwa [Nat.add_comm 1] at hall

theorem covers_body {s : Surroundings} {scopes : Scopes} {around : List Enclosure}
    (h : KnowsAll s scopes around) {t : Subtree} (node : Node inputs) (isMethod : Bool) :
    (f : FunctionDecl) → (∀ i, t.child? i = functionChild? isMethod f i) →
    (∀ i j, i < j → t.VisitsFirst i j) →
    Covers (Through (List.range' 0 f.body.length)) around t node
      (Decl.recordAll (s.inFunction (functionKind (some (f.name, isMethod))))
        (Param.resolveAll scopes.enter f.params).value node 0 f.body)
  | ⟨name, params, body, span⟩, hchild, hfirst => by
    obtain ⟨_, hshows, hcomplete⟩ := resolveAll_params [] params h.shows.enter h.complete.enter
    have hlisted := listed_scope [.function name isMethod] params hchild
      (h.toStands.inFunction name isMethod) hshows hcomplete
    exact covers_decls node 0 body hlisted hfirst

theorem covers_methods {s : Surroundings} {scopes : Scopes} {around : List Enclosure}
    {derived : Bool} (h : KnowsAll s scopes (.methods derived :: around)) {t : Subtree}
    (node : Node inputs) (i : Nat) :
    (fs : List FunctionDecl) → (∀ i j, i < j → t.VisitsFirst i j) →
    (∀ k f, fs[k]? = some f → t.child? (i + k) = some ([.methods derived], .method f)) →
    Covers (Through (List.range' i fs.length)) around t node
      (FunctionDecl.recordAll s scopes node i fs)
  | [], _, _ => .nowhere
  | f :: fs, hfirst, hchild => by
    have hbody := covers_body (t := .method f) h (node.child i) true f (fun _ => rfl)
      fun _ _ hlt => hlt
    have hmethod : Covers Everywhere (.methods derived :: around) (.method f) (node.child i)
        (f.record s scopes (methodKind f.name) (node.child i)) := by
      rw [record_function]
      exact .checked hbody (child?_eq_none (functionChild?_eq_none true f))
        (errors_params h.shows h.complete f.params).symm rfl
    have hhead : Covers (Through (List.range' i 1)) around t node
        (f.record s scopes (methodKind f.name) (node.child i)) := .child (hchild 0 f rfl) hmethod
    have htail := covers_methods h node (i + 1) fs hfirst fun k f hk => by
      rw [← hchild (k + 1) f hk, Nat.add_assoc, Nat.add_comm 1]
    have hall := hhead.next htail hfirst
    rwa [Nat.add_comm 1] at hall

end

/-! ## Programs -/

/-- **The walk through a program comes to each of its nodes once.** -/
theorem covers_program (node : Node inputs) (p : Program) :
    Covers Everywhere [] (.program p) node (p.record node) := by
  have hknows : KnowsAll .topLevel [] [] :=
    { class_eq := rfl
      function_eq := rfl
      inLoop_eq := rfl
      settled := fun _ => rfl
      shows := .nil
      complete := Scopes.Complete.nil }
  have hlisted : Listed .topLevel [] [] (.program p) 0 p.body := by
    intro before d after hbody
    have hglobal (ds : List Decl) : ds.foldl Scopes.behind [] = [] := by
      induction ds with
      | nil => rfl
      | cons d ds ih => rwa [List.foldl_cons, Scopes.behind_nil]
    refine ⟨[], ?_, ?_⟩
    · show p.body[0 + before.length]?.map _ = _
      rw [hbody, Nat.zero_add, List.getElem?_append_right Nat.le.refl, Nat.sub_self]
      rfl
    · rw [hglobal]
      refine ⟨?_, fun _ => rfl⟩
      rwa [Scopes.behind_nil]
  refine .plain (covers_decls node 0 p.body hlisted fun _ _ hlt => hlt)
    (child?_eq_none fun i => ?_) rfl rfl
  show p.body[i + p.body.length]?.map _ = _
  rw [List.getElem?_eq_none (Nat.le_add_left _ i)]
  rfl

end Lox.Resolving
