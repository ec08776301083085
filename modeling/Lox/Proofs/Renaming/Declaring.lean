import Lox.Proofs.Renaming.Resolving
import Mathlib.Data.List.Pairwise

/-!
# One variable of one scope

A program that is accepted declares no name twice in a local scope. So when a scope declares a
variable, no function or class of the scope has its name, and the exchange of that name with one that
does not occur leaves all functions and classes alone.

## Contents
- `LocalScope.declaresVariable`: a variable is declared in a scope, by `var` or as a parameter.
- `LocalScope.Distinct`: no name is declared twice, and each is a name of the program.
- `Program.distinct_of_scopeAt?`: the scopes of accepted programs.
- `Plan.suits_only`, `Naming.apart_exchange`: renaming one variable to a new name.
-/

namespace Lox

/-- A declaration of a variable. -/
def Decl.declaresVariable (name : String) : Decl → Bool
  | .var n _ _ => n == name
  | .function _ | .class _ _ _ _ | .stmt _ => false

namespace LocalScope

/-- A variable is declared in a scope, by `var` or as a parameter. -/
def declaresVariable (scope : LocalScope) (name : String) : Bool :=
  scope.params.any (·.name == name) || scope.body.any (·.declaresVariable name)

/-- The names that a scope declares, in order. -/
def declared (scope : LocalScope) : List String :=
  scope.params.map (·.name) ++ scope.body.filterMap Decl.name?

/-- No name is declared twice, and each is one of `names`. -/
structure Distinct (names : List String) (scope : LocalScope) : Prop where
  nodup : scope.declared.Nodup
  subset : ∀ name ∈ scope.declared, name ∈ names

theorem Distinct.mono {names names' : List String} {scope : LocalScope}
    (h : scope.Distinct names) (hsubset : ∀ name ∈ names, name ∈ names') :
    scope.Distinct names' :=
  ⟨h.nodup, fun name hname => hsubset name (h.subset name hname)⟩

/-- What has the name of a variable of the scope is that variable. -/
theorem Distinct.isVariable {names : List String} {scope : LocalScope} (h : scope.Distinct names)
    {name : String} (hvariable : scope.declaresVariable name = true) {d : Decl}
    (hd : d ∈ scope.body) (hname : d.name? = some name) : d.declaresVariable name = true := by
  obtain ⟨_, hbody, hdisjoint⟩ := List.nodup_append.1 h.nodup
  have hmem : name ∈ scope.body.filterMap Decl.name? := List.mem_filterMap.2 ⟨d, hd, hname⟩
  unfold declaresVariable at hvariable
  rw [Bool.or_eq_true] at hvariable
  rcases hvariable with hparam | hvar
  · obtain ⟨p, hp, heq⟩ := List.any_eq_true.1 hparam
    exact absurd (eq_of_beq heq) (hdisjoint _ (List.mem_map_of_mem hp) _ hmem)
  · obtain ⟨v, hv, hdeclares⟩ := List.any_eq_true.1 hvar
    have hvname : v.name? = some name := by
      cases v with
      | var n initial span => exact congrArg some (eq_of_beq hdeclares)
      | function | «class» | stmt => exact nomatch hdeclares
    -- two declarations of one name are the same one
    by_cases heq : v = d
    · exact heq ▸ hdeclares
    · have hpairwise := List.pairwise_filterMap.1 hbody
      have hsymm : Std.Symm fun a b : Decl =>
          ∀ n, a.name? = some n → ∀ m, b.name? = some m → n ≠ m :=
        ⟨fun a b hab n hn m hm => (hab m hm n hn).symm⟩
      exact absurd rfl (hpairwise.forall hv hd heq name hvname name hname)

end LocalScope

/-! ## The scopes of accepted programs -/

theorem Decl.name?_resolve (around : Surroundings) (scopes : Scopes) (d : Decl) :
    (d.resolve around scopes).value.name? = d.name? := by
  cases d with
  | function decl =>
      obtain ⟨name, params, body, span⟩ := decl
      rfl
  | var | «class» | stmt => rfl

theorem Decl.filterMap_name?_resolveAll (around : Surroundings) (scopes : Scopes) (ds : List Decl) :
    (Decl.resolveAll around scopes ds).value.filterMap Decl.name? = ds.filterMap Decl.name? := by
  induction ds generalizing scopes with
  | nil => rfl
  | cons d ds ih =>
      show List.filterMap Decl.name? ((d.resolve around scopes).value ::
        (Decl.resolveAll around (scopes.behind d) ds).value) = _
      rw [List.filterMap_cons, List.filterMap_cons, Decl.name?_resolve, ih]

/-- A name that is declared was not declared yet. -/
theorem Decl.has_eq_false_of_name? {around : Surroundings} {scope : Scope} {outer : Scopes} {d : Decl}
    {name : String} (hname : d.name? = some name)
    (herrors : (d.resolve around (scope :: outer)).errors = []) : scope.has name = false := by
  cases d with
  | var n initial span =>
      cases hname
      exact Checked.eq_false_of_reportIf ((Checked.errors_bind_eq_nil _ _).1 herrors).1
  | function decl =>
      cases hname
      exact Checked.eq_false_of_reportIf ((Checked.errors_bind_eq_nil _ _).1 herrors).1
  | «class» n superclass methods span =>
      cases hname
      exact Checked.eq_false_of_reportIf ((Checked.errors_bind_eq_nil _ _).1 herrors).1
  | stmt s => exact nomatch hname

/-- Names that are declared one after the other, each in a scope that does not have it yet. -/
theorem nodup_of_declared {scope : Scope} {name : String} {names : List String}
    (hname : scope.has name = false) (hnodup : names.Nodup)
    (hnew : ∀ n ∈ names, (scope.put name true).has n = false) :
    (name :: names).Nodup ∧ ∀ n ∈ name :: names, scope.has n = false := by
  have hput : ∀ n ∈ names, name ≠ n ∧ scope.has n = false := by
    intro n hn
    have hfree := hnew n hn
    rwa [Table.has_put, Bool.or_eq_false_iff, decide_eq_false_iff_not] at hfree
  refine ⟨List.nodup_cons.2 ⟨fun hmem => (hput name hmem).1 rfl, hnodup⟩, fun n hn => ?_⟩
  rcases List.mem_cons.1 hn with rfl | hn
  · exact hname
  · exact (hput n hn).2

/-- Declarations declare no name twice, and none that the scope declares before them. -/
theorem Decl.nodup_of_resolveAll {around : Surroundings} {scope : Scope} {outer : Scopes}
    {ds : List Decl} (herrors : (Decl.resolveAll around (scope :: outer) ds).errors = []) :
    (ds.filterMap Decl.name?).Nodup ∧
      ∀ name ∈ ds.filterMap Decl.name?, scope.has name = false := by
  induction ds generalizing scope with
  | nil => exact ⟨List.nodup_nil, nofun⟩
  | cons d ds ih =>
      simp only [Decl.resolveAll, Checked.errors_bind_eq_nil] at herrors
      obtain ⟨hd, hds, _⟩ := herrors
      rw [List.filterMap_cons]
      cases hname : d.name? with
      | none =>
          rw [Scopes.behind, hname] at hds
          exact ih hds
      | some name =>
          rw [Scopes.behind, hname] at hds
          obtain ⟨hnodup, hnew⟩ := ih hds
          exact nodup_of_declared (Decl.has_eq_false_of_name? hname hd) hnodup hnew

/-- Parameters have different names. -/
theorem Param.nodup_of_resolveAll {scope : Scope} {outer : Scopes} {params : List Param}
    (herrors : (Param.resolveAll (scope :: outer) params).errors = []) :
    (params.map (·.name)).Nodup ∧ ∀ name ∈ params.map (·.name), scope.has name = false := by
  induction params generalizing scope with
  | nil => exact ⟨List.nodup_nil, nofun⟩
  | cons p ps ih =>
      obtain ⟨hp, hps⟩ := (Checked.errors_bind_eq_nil _ _).1 herrors
      obtain ⟨hnodup, hnew⟩ := ih hps
      exact nodup_of_declared (Checked.eq_false_of_reportIf hp) hnodup hnew

/-- The scope of a function. -/
theorem LocalScope.distinct_of_function {around : Surroundings} {scopes : Scopes}
    {params : List Param} {body : List Decl}
    (hparams : (Param.resolveAll scopes.enter params).errors = [])
    (hbody : (Decl.resolveAll around (Param.resolveAll scopes.enter params).value body).errors = [])
    {names : List String} (hnames : ∀ name ∈ body.filterMap Decl.name?, name ∈ names) :
    (LocalScope.mk params
      (Decl.resolveAll around (Param.resolveAll scopes.enter params).value body).value).Distinct
        (params.map (·.name) ++ names) := by
  obtain ⟨hfirst, _⟩ := Param.nodup_of_resolveAll hparams
  rw [Param.resolveAll_value] at hbody ⊢
  obtain ⟨hsecond, hnew⟩ := Decl.nodup_of_resolveAll hbody
  constructor
  · unfold LocalScope.declared
    rw [Decl.filterMap_name?_resolveAll, List.nodup_append]
    refine ⟨hfirst, hsecond, fun a ha b hb heq => ?_⟩
    -- the body declares no parameter again
    subst heq
    have hhas : (Table.ofList (params.map fun p => (p.name, true))).has a = true := by
      rw [Table.has_ofList, List.map_map]
      exact ha
    exact nomatch hhas.symm.trans (hnew a hb)
  · intro name hname
    unfold LocalScope.declared at hname
    rw [Decl.filterMap_name?_resolveAll] at hname
    rcases List.mem_append.1 hname with hparam | hdecl
    · exact List.mem_append_left _ hparam
    · exact List.mem_append_right _ (hnames name hdecl)

theorem Decl.mem_names_of_name? {d : Decl} {name : String} (h : d.name? = some name) :
    name ∈ d.names := by
  cases d with
  | var | function | «class» =>
      cases h
      exact List.mem_cons_self
  | stmt s => exact nomatch h

theorem Decl.mem_namesAll {ds : List Decl} :
    ∀ name ∈ ds.filterMap Decl.name?, name ∈ Decl.namesAll ds := by
  induction ds with
  | nil => exact nofun
  | cons d ds ih =>
      intro name hname
      obtain ⟨d', hd', hsome⟩ := List.mem_filterMap.1 hname
      rcases List.mem_cons.1 hd' with rfl | hd'
      · exact List.mem_append_left _ (Decl.mem_names_of_name? hsome)
      · exact List.mem_append_right _ (ih name (List.mem_filterMap.2 ⟨d', hd', hsome⟩))

/-- The scope of a block or a function is opened at its root, the others in its body. -/
theorem LocalScope.distinct_of_body {around : Surroundings} {scopes : Scopes} {params : List Param}
    {body : List Decl} {way : List Nat} {scope : LocalScope}
    (hparams : (Param.resolveAll scopes.enter params).errors = [])
    (hbody : (Decl.resolveAll around (Param.resolveAll scopes.enter params).value body).errors = [])
    (hinside : Decl.scopeIn? way
        (Decl.resolveAll around (Param.resolveAll scopes.enter params).value body).value =
      some scope → scope.Distinct (Decl.namesAll body))
    (hscope : (if way = [] then some ⟨params,
          (Decl.resolveAll around (Param.resolveAll scopes.enter params).value body).value⟩
        else Decl.scopeIn? way
          (Decl.resolveAll around (Param.resolveAll scopes.enter params).value body).value) =
      some scope) :
    scope.Distinct (params.map (·.name) ++ Decl.namesAll body) := by
  by_cases hway : way = []
  · rw [if_pos hway] at hscope
    cases hscope
    exact distinct_of_function hparams hbody Decl.mem_namesAll
  · rw [if_neg hway] at hscope
    exact (hinside hscope).mono fun name hname => List.mem_append_right _ hname

mutual

theorem Stmt.distinct_of_scopeAt? {around : Surroundings} {scopes : Scopes} {scope : LocalScope}
    (way : List Nat) (s : Stmt) (herrors : (s.resolve around scopes).errors = [])
    (hscope : (s.resolve around scopes).value.scopeAt? way = some scope) :
    scope.Distinct s.names := by
  cases s with
  | expression | print | «break» | «continue» | «return» => exact nomatch hscope
  | block body span =>
      simp only [Stmt.resolve, Checked.errors_bind_eq_nil] at herrors
      have hparams : (Param.resolveAll scopes.enter []).errors = [] := rfl
      exact LocalScope.distinct_of_body hparams herrors.1
        (Decl.distinct_of_scopeIn? way body herrors.1) hscope
  | ifThenElse condition thenBranch elseBranch span =>
      cases elseBranch with
      | none =>
          simp only [Stmt.resolve, Checked.errors_bind_eq_nil] at herrors
          obtain ⟨_, hthen, _⟩ := herrors
          match way with
          | 1 :: way =>
              refine (thenBranch.distinct_of_scopeAt? way hthen hscope).mono fun name hname => ?_
              exact List.mem_append_right _ hname
          | [] | 0 :: _ | (_ + 2) :: _ => exact nomatch hscope
      | some elseBranch =>
          simp only [Stmt.resolve, Checked.errors_bind_eq_nil] at herrors
          obtain ⟨_, hthen, helse, _⟩ := herrors
          match way with
          | 1 :: way =>
              refine (thenBranch.distinct_of_scopeAt? way hthen hscope).mono fun name hname => ?_
              exact List.mem_append_left _ (List.mem_append_right _ hname)
          | 2 :: way =>
              refine (elseBranch.distinct_of_scopeAt? way helse hscope).mono fun name hname => ?_
              exact List.mem_append_right _ hname
          | [] | 0 :: _ | (_ + 3) :: _ => exact nomatch hscope
  | whileLoop condition body increment span =>
      simp only [Stmt.resolve, Checked.errors_bind_eq_nil] at herrors
      obtain ⟨_, hbody, _⟩ := herrors
      match way with
      | 1 :: way =>
          refine (body.distinct_of_scopeAt? way hbody hscope).mono fun name hname => ?_
          exact List.mem_append_left _ (List.mem_append_right _ hname)
      | [] | 0 :: _ | (_ + 2) :: _ => exact nomatch hscope

theorem Decl.distinct_of_scopeAt? {around : Surroundings} {scopes : Scopes} {scope : LocalScope}
    (way : List Nat) (d : Decl) (herrors : (d.resolve around scopes).errors = [])
    (hscope : (d.resolve around scopes).value.scopeAt? way = some scope) :
    scope.Distinct d.names := by
  cases d with
  | var name initial span => exact nomatch hscope
  | function decl =>
      simp only [Decl.resolve, Checked.errors_bind_eq_nil] at herrors
      obtain ⟨_, hdecl, _⟩ := herrors
      refine (decl.distinct_of_scopeAt? way hdecl hscope).mono fun name hname => ?_
      exact List.mem_cons_of_mem _ hname
  | «class» name superclass methods span =>
      simp only [Decl.resolve, Checked.errors_bind_eq_nil] at herrors
      obtain ⟨_, _, hmethods, _⟩ := herrors
      match way with
      | (i + 1) :: way =>
          refine (FunctionDecl.distinct_of_scopeIn? (i :: way) methods hmethods hscope).mono
            fun name hname => ?_
          exact List.mem_append_right _ hname
      | [] | 0 :: _ => exact nomatch hscope
  | stmt s =>
      simp only [Decl.resolve, Checked.errors_bind_eq_nil] at herrors
      exact s.distinct_of_scopeAt? way herrors.1 hscope

theorem Decl.distinct_of_scopeIn? {around : Surroundings} {scopes : Scopes} {scope : LocalScope}
    (way : List Nat) (ds : List Decl) (herrors : (Decl.resolveAll around scopes ds).errors = [])
    (hscope : Decl.scopeIn? way (Decl.resolveAll around scopes ds).value = some scope) :
    scope.Distinct (Decl.namesAll ds) := by
  cases ds with
  | nil => exact nomatch hscope
  | cons d ds =>
      simp only [Decl.resolveAll, Checked.errors_bind_eq_nil] at herrors
      obtain ⟨hd, hds, _⟩ := herrors
      match way with
      | [] => exact nomatch hscope
      | 0 :: way =>
          refine (d.distinct_of_scopeAt? way hd hscope).mono fun name hname => ?_
          exact List.mem_append_left _ hname
      | (i + 1) :: way =>
          refine (Decl.distinct_of_scopeIn? (i :: way) ds hds hscope).mono fun name hname => ?_
          exact List.mem_append_right _ hname

theorem FunctionDecl.distinct_of_scopeAt? {around : Surroundings} {scopes : Scopes}
    {scope : LocalScope} {kind : FunctionKind} (way : List Nat) (f : FunctionDecl)
    (herrors : (f.resolve around scopes kind).errors = [])
    (hscope : (f.resolve around scopes kind).value.scopeAt? way = some scope) :
    scope.Distinct f.names := by
  obtain ⟨name, params, body, span⟩ := f
  simp only [FunctionDecl.resolve, Checked.errors_bind_eq_nil] at herrors
  obtain ⟨hparams, hbody, _⟩ := herrors
  exact LocalScope.distinct_of_body hparams hbody (Decl.distinct_of_scopeIn? way body hbody) hscope

theorem FunctionDecl.distinct_of_scopeIn? {around : Surroundings} {scopes : Scopes}
    {scope : LocalScope} (way : List Nat) (functions : List FunctionDecl)
    (herrors : (FunctionDecl.resolveAll around scopes functions).errors = [])
    (hscope : FunctionDecl.scopeIn? way (FunctionDecl.resolveAll around scopes functions).value =
      some scope) :
    scope.Distinct (FunctionDecl.namesAll functions) := by
  cases functions with
  | nil => exact nomatch hscope
  | cons f rest =>
      simp only [FunctionDecl.resolveAll, Checked.errors_bind_eq_nil] at herrors
      obtain ⟨hf, hrest, _⟩ := herrors
      match way with
      | [] => exact nomatch hscope
      | 0 :: way =>
          refine (f.distinct_of_scopeAt? way hf hscope).mono fun name hname => ?_
          exact List.mem_append_left _ hname
      | (i + 1) :: way =>
          refine (FunctionDecl.distinct_of_scopeIn? (i :: way) rest hrest hscope).mono
            fun name hname => ?_
          exact List.mem_append_right _ hname

end

/-- **No local scope of an accepted program declares a name twice.** -/
theorem Program.distinct_of_scopeAt? {p : Program} (haccepted : p.resolve.errors = [])
    {way : List Nat} {scope : LocalScope} (hscope : p.resolve.value.scopeAt? way = some scope) :
    scope.Distinct p.names :=
  Decl.distinct_of_scopeIn? way p.body ((Checked.errors_bind_eq_nil _ _).1 haccepted).1 hscope

/-! ## One name for another -/

section Exchange

variable {old new : String} (hold : ¬Reserved old) (hnew : ¬Reserved new)

/-- The exchange of a name with a new one keeps all names but the new one apart. -/
theorem Naming.apart_exchange : Naming.Apart (· ≠ new) fun f => f = .same ∨
    f = .exchange old new hold hnew where
  same := .inl rfl
  reserved name hname heq := hnew (heq ▸ hname)
  eq_of_eq f g hf hg m n hm hn heq := by
    have hof (k : String) (hk : k ≠ new) : Naming.exchange old new hold hnew k =
        if k = old then new else k := by
      show (if k = old then new else if k = new then old else k) = _
      rw [if_neg hk]
    rcases hf with rfl | rfl
    · rcases hg with rfl | rfl
      · exact heq
      · rw [hof n hn, Naming.same_of] at heq
        split at heq
        · exact absurd heq hm
        · exact heq
    · rcases hg with rfl | rfl
      · rw [hof m hm, Naming.same_of] at heq
        split at heq
        · exact absurd heq.symm hn
        · exact heq
      · exact Naming.injective _ heq

/-- **The exchange of a variable's name with a new one leaves functions and classes alone.** -/
theorem Plan.suits_only {p : Program} (haccepted : p.resolve.errors = []) {way : List Nat}
    {scope : LocalScope} (hscope : p.resolve.value.scopeAt? way = some scope)
    (hdeclared : scope.declaresVariable old = true) (hfresh : new ∉ p.names) :
    (Plan.only way (.exchange old new hold hnew)).Suits p.resolve.value.scopeAt? := by
  have hdistinct := Program.distinct_of_scopeAt? haccepted hscope
  -- what is no variable is called neither by the old name nor by the new one
  have hkeeps {d : Decl} (hd : d ∈ scope.body) {name : String} (hname : d.name? = some name)
      (hother : d.declaresVariable old = false) :
      Naming.exchange old new hold hnew name = name := by
    have hne : name ≠ old := by
      rintro rfl
      exact nomatch hother.symm.trans (hdistinct.isVariable hdeclared hd hname)
    have hne' : name ≠ new := by
      rintro rfl
      have hmem : name ∈ scope.declared :=
        List.mem_append_right _ (List.mem_filterMap.2 ⟨d, hd, hname⟩)
      exact hfresh (hdistinct.subset name hmem)
    show (if name = old then new else if name = new then old else name) = name
    rw [if_neg hne, if_neg hne']
  intro way' scope' hscope'
  unfold Plan.only
  by_cases hway : way' = way
  · subst hway
    cases hscope.symm.trans hscope'
    rw [if_pos rfl]
    intro d hd
    cases d with
    | function decl => exact hkeeps hd rfl rfl
    | «class» name superclass methods span => exact hkeeps hd rfl rfl
    | var | stmt => trivial
  · rw [if_neg hway]
    exact Plan.Suits.same _ way' scope' hscope'

theorem Plan.within_only (way : List Nat) :
    (Plan.only way (.exchange old new hold hnew)).Within fun f => f = .same ∨
      f = .exchange old new hold hnew := by
  intro way'
  unfold Plan.only
  split
  · exact .inr rfl
  · exact .inl rfl

end Exchange

end Lox
