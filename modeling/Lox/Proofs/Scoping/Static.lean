import Lox.Proofs.Scoping.Moments
import Lox.Proofs.Parsing.Names

/-!
# What is known of static scopes

While names are resolved, a declaration is incomplete only in the innermost scope, and only while its
initializer is looked at; and the scopes of `this` and `super` lie where the surroundings say.

## Contents
- `Complete`: scopes without incomplete declarations.
- `Placed`: where the scopes of `this` and `super` are.
- `Param.resolveAll_value`, `FunctionDecl.resolveAll_value`: what lists resolve to.
-/

namespace Lox

namespace Scopes

/-! ## Marks -/

/-- No declaration is incomplete. -/
def Complete (scopes : Scopes) : Prop := ∀ scope ∈ scopes, ∀ x, scope.get? x ≠ some false

theorem Complete.nil : Complete [] := nofun

theorem Complete.tail {scopes : Scopes} (h : Complete scopes) : Complete scopes.tail :=
  fun scope hmem => h scope (List.mem_of_mem_tail hmem)

theorem Complete.enter {scopes : Scopes} (h : Complete scopes) : Complete scopes.enter := by
  intro scope hmem x
  rcases List.mem_cons.1 hmem with rfl | hmem
  · exact nofun
  · exact h scope hmem x

theorem Complete.define {scopes : Scopes} (h : Complete scopes) (name : String) :
    Complete (scopes.define name) := by
  cases scopes with
  | nil => exact h
  | cons scope outer =>
      intro scope' hmem x
      rcases List.mem_cons.1 hmem with rfl | hmem
      · rw [Table.get?_put]
        split
        · exact nofun
        · exact h scope List.mem_cons_self x
      · exact h scope' (List.mem_cons_of_mem _ hmem) x

theorem Complete.enterWith {scopes : Scopes} (h : Complete scopes) (name : String) :
    Complete (scopes.enterWith name) := h.enter.define name

theorem Complete.enterSuper {scopes : Scopes} (h : Complete scopes) (derived : Bool) :
    Complete (scopes.enterSuper derived) := by
  unfold Scopes.enterSuper
  split
  · exact h.enterWith _
  · exact h

theorem Complete.behind {scopes : Scopes} (h : Complete scopes) (d : Decl) :
    Complete (scopes.behind d) := by
  unfold Scopes.behind
  split
  · exact h.define _
  · exact h

/-- Among complete declarations every name may be read. -/
theorem Complete.isIncomplete_eq_false {scopes : Scopes} (h : Complete scopes) (name : String) :
    scopes.isIncomplete name = false := by
  cases scopes with
  | nil => rfl
  | cons scope outer => exact beq_eq_false_iff_ne.2 (h scope List.mem_cons_self name)

theorem tail_mark (scopes : Scopes) (name : String) (complete : Bool) :
    (scopes.mark name complete).tail = scopes.tail := by
  cases scopes <;> rfl

/-! ## Distances -/

@[simp] theorem distance?_enter (scopes : Scopes) (name : String) :
    scopes.enter.distance? name = (scopes.distance? name).map (· + 1) := rfl

/-- Marking a name leaves the distances of the others. -/
theorem distance?_mark_of_ne (scopes : Scopes) {name x : String} (complete : Bool)
    (h : name ≠ x) : (scopes.mark name complete).distance? x = scopes.distance? x := by
  cases scopes with
  | nil => rfl
  | cons scope outer =>
      show (if (scope.put name complete).has x then _ else _) = if scope.has x then _ else _
      rw [Table.has_put, decide_eq_false h, Bool.false_or]

theorem distance?_enterWith (scopes : Scopes) (name : String) :
    (scopes.enterWith name).distance? name = some 0 := by
  show (if ((Table.empty : Scope).put name true).has name then _ else _) = some 0
  rw [Table.has_put, decide_eq_true rfl, Bool.true_or]
  rfl

theorem distance?_enterWith_of_ne (scopes : Scopes) {name x : String} (h : name ≠ x) :
    (scopes.enterWith name).distance? x = (scopes.distance? x).map (· + 1) :=
  distance?_mark_of_ne scopes.enter true h

/-- A distance leads to a scope that declares the name. -/
theorem getElem?_of_distance? {scopes : Scopes} {x : String} {d : Nat}
    (h : scopes.distance? x = some d) : ∃ scope, scopes[d]? = some scope ∧ scope.has x = true := by
  induction scopes generalizing d with
  | nil => exact nomatch h
  | cons scope outer ih =>
      unfold distance? at h
      split at h
      · rename_i hhas
        cases h
        exact ⟨scope, rfl, hhas⟩
      · obtain ⟨d', hd', rfl⟩ := Option.map_eq_some_iff.1 h
        exact ih hd'

/-- A name that is read is marked complete where its distance leads, since it is not in its own
initializer. -/
theorem get?_of_distance? {scopes : Scopes} (hcomplete : Complete scopes.tail) {x : String}
    {d : Nat} (h : scopes.distance? x = some d) (hread : scopes.isIncomplete x = false)
    {scope : Scope} (hscope : scopes[d]? = some scope) (hhas : scope.has x = true) :
    scope.get? x = some true := by
  obtain ⟨mark, hmark⟩ := Option.isSome_iff_exists.1 hhas
  cases mark with
  | true => exact hmark
  | false =>
      cases scopes with
      | nil => exact nomatch h
      | cons head outer =>
          cases d with
          | zero =>
              cases hscope
              change (scope.get? x == some false) = false at hread
              rw [hmark] at hread
              exact absurd hread (by decide)
          | succ d =>
              -- further out every declaration is complete
              exact absurd hmark (hcomplete scope (List.mem_of_getElem? hscope) x)

/-- An incomplete name is declared in the innermost scope. -/
theorem distance?_of_isIncomplete {scopes : Scopes} {x : String}
    (h : scopes.isIncomplete x = true) : scopes.distance? x = some 0 := by
  cases scopes with
  | nil => exact nomatch h
  | cons scope outer =>
      have hmark : scope.get? x = some false := eq_of_beq h
      unfold distance?
      rw [if_pos]
      exact Option.isSome_iff_exists.2 ⟨_, hmark⟩

/-! ## Receivers and superclasses -/

/-- Where the scopes of `this` and `super` are, by the class around. -/
def Placed (kind : ClassKind) (scopes : Scopes) : Prop :=
  match kind with
  | .none => True
  | .base => ∃ d, scopes.distance? "this" = some d
  | .derived => ∃ d, scopes.distance? "this" = some d ∧ scopes.distance? "super" = some (d + 1)

theorem Placed.enter {kind : ClassKind} {scopes : Scopes} (h : Placed kind scopes) :
    Placed kind scopes.enter := by
  cases kind with
  | none => trivial
  | base =>
      obtain ⟨d, hthis⟩ := h
      exact ⟨d + 1, by rw [distance?_enter, hthis]; rfl⟩
  | derived =>
      obtain ⟨d, hthis, hsuper⟩ := h
      exact ⟨d + 1, by rw [distance?_enter, hthis]; rfl, by rw [distance?_enter, hsuper]; rfl⟩

theorem Placed.mark {kind : ClassKind} {scopes : Scopes} (h : Placed kind scopes) {name : String}
    (hname : ¬Reserved name) (complete : Bool) : Placed kind (scopes.mark name complete) := by
  have hthis : name ≠ "this" := fun heq => hname (.inl heq)
  have hsuper : name ≠ "super" := fun heq => hname (.inr heq)
  unfold Placed at h ⊢
  simp only [distance?_mark_of_ne _ _ hthis, distance?_mark_of_ne _ _ hsuper]
  exact h

theorem Placed.behind {kind : ClassKind} {scopes : Scopes} (h : Placed kind scopes) {d : Decl}
    (hd : ∀ name ∈ d.name?, ¬Reserved name) : Placed kind (scopes.behind d) := by
  unfold Scopes.behind
  cases hname : d.name? with
  | none => exact h
  | some name => exact h.mark (hd name hname) true

/-- The methods of a class see its receiver, and around it its superclass if there is one. -/
theorem placed_enterClass (scopes : Scopes) (derived : Bool) :
    Placed (if derived then .derived else .base)
      ((scopes.enterSuper derived).enterWith "this") := by
  cases derived with
  | false => exact ⟨0, distance?_enterWith _ _⟩
  | true =>
      refine ⟨0, distance?_enterWith _ _, ?_⟩
      rw [distance?_enterWith_of_ne _ (by decide)]
      show Option.map _ ((scopes.enterWith "super").distance? "super") = _
      rw [distance?_enterWith]
      rfl

end Scopes

/-! ## Checks -/

/-- A check in two steps finds no errors when neither step does. -/
theorem Checked.errors_bind_eq_nil {α β : Type} (x : Checked α) (f : α → Checked β) :
    (x >>= f).errors = [] ↔ x.errors = [] ∧ (f x.value).errors = [] := by
  rw [Checked.errors_bind, List.append_eq_nil_iff]

/-- A check without errors found that its condition does not hold. -/
theorem Checked.eq_false_of_reportIf {condition : Bool} {span : Span} {cause : StaticError.Cause}
    (h : (reportIf condition span cause).errors = []) : condition = false := by
  unfold reportIf at h
  split at h
  · exact nomatch h
  · rename_i hnot
    exact (Bool.not_eq_true _).mp hnot

/-! ## Lists -/

/-- The parameters are the names of the scope of a function. -/
theorem Param.resolveAll_value (outer : Scopes) (params : List Param) :
    (Param.resolveAll (Scopes.enter outer) params).value =
      Table.ofList (params.map fun p => (p.name, true)) :: outer := by
  have hgeneral (scope : Scope) : (Param.resolveAll (scope :: outer) params).value =
      (params.map fun p => (p.name, true)).foldl (fun t e => t.put e.1 e.2) scope :: outer := by
    induction params generalizing scope with
    | nil => rfl
    | cons p ps ih => exact ih _
  exact hgeneral Table.empty

/-- A scope without reserved names leaves receivers and superclasses where they are. -/
theorem Scopes.Placed.push {kind : ClassKind} {scopes : Scopes} (h : Placed kind scopes)
    {scope : Scope} (hscope : ∀ name, Reserved name → scope.has name = false) :
    Placed kind (scope :: scopes) := by
  have hdistance {name : String} (hname : Reserved name) :
      distance? (scope :: scopes) name = (scopes.distance? name).map (· + 1) := by
    show (if scope.has name then _ else _) = _
    rw [hscope name hname]
    rfl
  have hthis := hdistance (.inl rfl)
  have hsuper := hdistance (.inr rfl)
  cases kind with
  | none => trivial
  | base =>
      obtain ⟨d, hd⟩ := h
      exact ⟨d + 1, by rw [hthis, hd]; rfl⟩
  | derived =>
      obtain ⟨d, hd, hd'⟩ := h
      exact ⟨d + 1, by rw [hthis, hd]; rfl, by rw [hsuper, hd']; rfl⟩

/-- The body of a function sees what its declaration sees. -/
theorem Param.placed_resolveAll {kind : ClassKind} {outer : Scopes}
    (h : Scopes.Placed kind outer) {params : List Param} (hparams : ∀ p ∈ params, ¬Reserved p.name) :
    Scopes.Placed kind (Param.resolveAll outer.enter params).value := by
  rw [Param.resolveAll_value]
  refine h.push fun name hname => ?_
  rw [Bool.eq_false_iff]
  intro hhas
  rw [Table.has_ofList, List.map_map] at hhas
  obtain ⟨p, hp, rfl⟩ := List.mem_map.1 hhas
  exact hparams p hp hname

theorem Param.complete_resolveAll {outer : Scopes} (h : outer.Complete) (params : List Param) :
    Scopes.Complete (Param.resolveAll outer.enter params).value := by
  rw [Param.resolveAll_value]
  intro scope hmem x
  rcases List.mem_cons.1 hmem with rfl | hmem
  · intro hmark
    obtain ⟨p, _, heq⟩ := List.mem_map.1 (Table.mem_of_get?_ofList hmark)
    injection heq with _ heq
    exact nomatch heq
  · exact h scope hmem x

theorem FunctionDecl.resolveAll_value (around : Surroundings) (scopes : Scopes)
    (fs : List FunctionDecl) :
    (FunctionDecl.resolveAll around scopes fs).value =
      fs.map fun f => (f.resolve around scopes (methodKind f.name)).value := by
  induction fs with
  | nil => rfl
  | cons f fs ih =>
      unfold FunctionDecl.resolveAll
      simp only [Checked.value_bind, Checked.value_pure, List.map_cons, ih]

theorem FunctionDecl.errors_resolveAll {around : Surroundings} {scopes : Scopes}
    {fs : List FunctionDecl} (h : (FunctionDecl.resolveAll around scopes fs).errors = []) :
    ∀ f ∈ fs, (f.resolve around scopes (methodKind f.name)).errors = [] := by
  induction fs with
  | nil => exact nofun
  | cons f fs ih =>
      unfold FunctionDecl.resolveAll at h
      simp only [Checked.errors_bind_eq_nil, Checked.errors_pure, and_true] at h
      intro f' hmem
      rcases List.mem_cons.1 hmem with rfl | hmem
      · exact h.1
      · exact ih h.2 f' hmem

theorem FunctionDecl.ordinary_of_mem {fs : List FunctionDecl} (h : FunctionDecl.OrdinaryAll fs) :
    ∀ f ∈ fs, f.Ordinary := by
  induction fs with
  | nil => exact nofun
  | cons f fs ih =>
      intro f' hmem
      rcases List.mem_cons.1 hmem with rfl | hmem
      · exact h.1
      · exact ih h.2 f' hmem

theorem FunctionDecl.name_not_reserved {f : FunctionDecl} (hf : f.Ordinary) :
    ¬Reserved f.name := by
  cases f
  exact hf.1

theorem FunctionDecl.params_not_reserved {f : FunctionDecl} (hf : f.Ordinary) :
    ∀ p ∈ f.params, ¬Reserved p.name := by
  cases f
  exact hf.2.1

theorem FunctionDecl.body_ordinary {f : FunctionDecl} (hf : f.Ordinary) :
    Decl.OrdinaryAll f.body := by
  cases f
  exact hf.2.2

/-- The name of an ordinary declaration is not reserved. -/
theorem Decl.not_reserved {d : Decl} (h : d.Ordinary) : ∀ name ∈ d.name?, ¬Reserved name := by
  cases d with
  | var => rintro _ ⟨⟩; exact h.1
  | function f => rintro _ ⟨⟩; exact FunctionDecl.name_not_reserved h
  | «class» => rintro _ ⟨⟩; exact h.1
  | stmt => exact nofun

end Lox
