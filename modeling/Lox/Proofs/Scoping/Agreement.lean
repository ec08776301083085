import Lox.Proofs.Scoping.Growth

/-!
# Chains of scopes and static scopes

A chain agrees with static scopes when it has one scope for each of them, in order, and the global
scope behind them; and what the static scopes promise is there: names with complete declarations are
bound, and `this` and `super` are bound to an instance and to a class. A chain that agrees agrees for
good, because memory only grows.

The scope in front of a chain is known exactly, as long as no declaration is executed in it: it binds
the names whose declarations are complete, and no others. This is finer than what is promised, and
it is what decides the fate of an assignment to a variable in its own initializer.

## Contents
- `Shows`, `Agrees`, `Sees`: a scope, a chain, and a chain that is known exactly in front.
- `Agrees.later`, `Sees.later`: later memories.
- `Agrees.at_distance`: what lies at the distance of a name.
- `Agrees.declare`, `Agrees.define`, `Sees.block`, `Sees.body`: what declarations and new scopes do.
-/

namespace Lox.Scoping

/-! ## Agreement -/

/-- A scope of the memory holds what a static scope promises. -/
structure Shows (m : Memory) (i : Nat) (scope : Scope) : Prop where
  bound : ∀ x, scope.get? x = some true → (m.scope i).has x = true
  receiver : scope.has "this" = true → ∃ r, (m.scope i).get? "this" = some (.instance r)
  superclass : scope.has "super" = true → ∃ c, (m.scope i).get? "super" = some (.class c)

/-- A chain holds what static scopes promise, scope by scope, and ends in the global scope. -/
inductive Agrees (m : Memory) : Chain → Scopes → Prop
  | globals : globalScope < m.scopes.size → Agrees m globalChain []
  | scope {i chain scope scopes} :
      i < m.scopes.size → Shows m i scope → Agrees m chain scopes →
      Agrees m (i :: chain) (scope :: scopes)

/-- The scope in front of a chain binds only what the static scope in front promises. -/
def Exact (m : Memory) : Chain → Scopes → Prop
  | i :: _, scope :: _ => ∀ x, (m.scope i).has x = true → scope.get? x = some true
  | _, _ => True

/-- A chain that agrees with static scopes and is known exactly in front. -/
structure Sees (m : Memory) (chain : Chain) (scopes : Scopes) : Prop where
  agrees : Agrees m chain scopes
  exact : Exact m chain scopes

/-! ## Later memories -/

theorem Shows.later {m m' : Memory} {i : Nat} {scope : Scope} (h : Shows m i scope)
    (hi : i < m.scopes.size) (hlater : Later m m') : Shows m' i scope where
  bound x hx := hlater.keeps i x hi (h.bound x hx)
  receiver hx := by
    obtain ⟨r, hr⟩ := h.receiver hx
    exact ⟨r, hlater.fixed i _ _ (.inl rfl) hi hr⟩
  superclass hx := by
    obtain ⟨c, hc⟩ := h.superclass hx
    exact ⟨c, hlater.fixed i _ _ (.inr rfl) hi hc⟩

namespace Agrees

/-- A chain that agrees with static scopes agrees with them for good. -/
theorem later {m m' : Memory} {chain : Chain} {scopes : Scopes} (h : Agrees m chain scopes)
    (hlater : Later m m') : Agrees m' chain scopes := by
  induction h with
  | globals hsize => exact .globals (Nat.lt_of_lt_of_le hsize hlater.size_le)
  | scope hi hshows _ ih =>
      exact .scope (Nat.lt_of_lt_of_le hi hlater.size_le) (hshows.later hi hlater) ih

theorem length_eq {m : Memory} {chain : Chain} {scopes : Scopes} (h : Agrees m chain scopes) :
    chain.length = scopes.length + 1 := by
  induction h with
  | globals => rfl
  | scope _ _ _ ih => exact congrArg (· + 1) ih

theorem getLast?_eq {m : Memory} {chain : Chain} {scopes : Scopes} (h : Agrees m chain scopes) :
    chain.getLast? = some globalScope := by
  induction h with
  | globals => rfl
  | scope _ _ hrest ih =>
      cases hrest with
      | globals => rfl
      | scope => exact ih

/-- Each scope of the chain holds what the static scope at its place promises. -/
theorem shows_of_getElem? {m : Memory} {chain : Chain} {scopes : Scopes}
    (h : Agrees m chain scopes) {d : Nat} {scope : Scope} (hscope : scopes[d]? = some scope) :
    ∃ i rest, chain.ancestor? d = some (i :: rest) ∧ chain[d]? = some i ∧ i < m.scopes.size ∧
      Shows m i scope := by
  induction h generalizing d with
  | globals => exact nomatch hscope
  | @scope i chain _ _ hi hshows _ ih =>
      cases d with
      | zero =>
          cases hscope
          exact ⟨i, chain, rfl, rfl, hi, hshows⟩
      | succ d => exact ih hscope

/-- At the distance of a name lies a scope that shows what the static scope there promises. -/
theorem at_distance {m : Memory} {chain : Chain} {scopes : Scopes} (h : Agrees m chain scopes)
    {x : String} {d : Nat} (hd : scopes.distance? x = some d) :
    ∃ i rest scope, chain.ancestor? d = some (i :: rest) ∧ i < m.scopes.size ∧
      scopes[d]? = some scope ∧ scope.has x = true ∧ Shows m i scope := by
  obtain ⟨scope, hscope, hx⟩ := Scopes.getElem?_of_distance? hd
  obtain ⟨i, rest, hancestor, _, hi, hshows⟩ := h.shows_of_getElem? hscope
  exact ⟨i, rest, scope, hancestor, hi, hscope, hx, hshows⟩

end Agrees

/-- What adds no names to the scopes that are there leaves a chain known exactly in front. -/
theorem Exact.later {m m' : Memory} {chain : Chain} {scopes : Scopes} (h : Exact m chain scopes)
    (hagrees : Agrees m chain scopes) (hgrows : Grows none m m') : Exact m' chain scopes := by
  cases hagrees with
  | globals => trivial
  | scope hi _ _ => exact fun x hx => h x (hgrows.adds _ x hi nofun hx)

theorem Sees.later {m m' : Memory} {chain : Chain} {scopes : Scopes} (h : Sees m chain scopes)
    (hgrows : Grows none m m') : Sees m' chain scopes :=
  ⟨h.agrees.later hgrows.toLater, h.exact.later h.agrees hgrows⟩

/-! ## Declarations -/

/-- Marking a name with which nothing is promised keeps what is promised with the others. -/
theorem Shows.declare {m : Memory} {i : Nat} {scope : Scope} (h : Shows m i scope) {name : String}
    (hname : ¬Reserved name) : Shows m i (scope.put name false) where
  bound x hx := by
    rw [Table.get?_put] at hx
    split at hx
    · exact nomatch hx
    · exact h.bound x hx
  receiver hx := by
    rw [Table.has_put, decide_eq_false (fun heq => hname (.inl heq)), Bool.false_or] at hx
    exact h.receiver hx
  superclass hx := by
    rw [Table.has_put, decide_eq_false (fun heq => hname (.inr heq)), Bool.false_or] at hx
    exact h.superclass hx

/-- A name that is bound may be promised. -/
theorem Shows.define {m : Memory} {i : Nat} {scope : Scope} (h : Shows m i scope) {name : String}
    (hname : ¬Reserved name) (hbound : (m.scope i).has name = true) :
    Shows m i (scope.put name true) where
  bound x hx := by
    rw [Table.get?_put] at hx
    split at hx
    · rename_i heq
      exact heq ▸ hbound
    · exact h.bound x hx
  receiver hx := by
    rw [Table.has_put, decide_eq_false (fun heq => hname (.inl heq)), Bool.false_or] at hx
    exact h.receiver hx
  superclass hx := by
    rw [Table.has_put, decide_eq_false (fun heq => hname (.inr heq)), Bool.false_or] at hx
    exact h.superclass hx

theorem Agrees.declare {m : Memory} {chain : Chain} {scopes : Scopes} (h : Agrees m chain scopes)
    {name : String} (hname : ¬Reserved name) : Agrees m chain (scopes.declare name) := by
  cases h with
  | globals hsize => exact .globals hsize
  | scope hi hshows hrest => exact .scope hi (hshows.declare hname) hrest

/-- A new name may be declared before it is bound: the scope in front stays known exactly. -/
theorem Sees.declare {m : Memory} {chain : Chain} {scopes : Scopes} (h : Sees m chain scopes)
    {name : String} (hname : ¬Reserved name) (hnew : scopes.declaresHere name = false) :
    Sees m chain (scopes.declare name) where
  agrees := h.agrees.declare hname
  exact := by
    obtain ⟨hagrees, hexact⟩ := h
    cases hagrees with
    | globals => trivial
    | @scope i _ scope _ _ _ _ =>
        intro x hx
        have hmark : scope.get? x = some true := hexact x hx
        -- `x` is bound, so it was marked before, and the new name was not
        have hne : name ≠ x := by
          rintro rfl
          change scope.has name = false at hnew
          unfold Table.has at hnew
          rw [hmark] at hnew
          exact nomatch hnew
        rw [Table.get?_put_of_ne _ _ hne]
        exact hmark

/-- Behind a declaration the name is bound and promised. -/
theorem Sees.define {m : Memory} {chain : Chain} {scopes : Scopes} (h : Sees m chain scopes)
    {name : String} (hname : ¬Reserved name) (v : Value) :
    Sees (m.define chain name v) chain (scopes.define name) := by
  have hlater : Later m (m.define chain name v) := (grows_define m chain v hname).toLater
  obtain ⟨hagrees, hexact⟩ := h
  cases hagrees with
  | globals hsize =>
      exact ⟨.globals (Nat.lt_of_lt_of_le hsize hlater.size_le), trivial⟩
  | @scope i outer scope _ hi hshows hrest =>
      have hscope : (m.define (i :: outer) name v).scope i = (m.scope i).put name v := by
        show (m.bind i name v).scope i = _
        rw [scope_bind, if_pos ⟨rfl, hi⟩]
      have hbound : ((m.define (i :: outer) name v).scope i).has name = true := by
        rw [hscope, Table.has_put, decide_eq_true rfl, Bool.true_or]
      -- the scope in front gains one name on both sides, and the others are as they were
      refine ⟨.scope (Nat.lt_of_lt_of_le hi hlater.size_le)
        ((hshows.later hi hlater).define hname hbound) (hrest.later hlater), ?_⟩
      intro x hx
      rw [hscope, Table.has_put, Bool.or_eq_true] at hx
      rw [Table.get?_put]
      split
      · rfl
      · rename_i hne
        rcases hx with heq | hx
        · exact absurd (of_decide_eq_true heq) hne
        · exact hexact x hx

/-! ## New scopes -/

/-- A new scope in front of a chain, with bindings that show a static scope. -/
theorem Agrees.push {m : Memory} {chain : Chain} {scopes : Scopes} (h : Agrees m chain scopes)
    (bindings : Table Value) {scope : Scope}
    (hbound : ∀ x, scope.get? x = some true → bindings.has x = true)
    (hthis : scope.has "this" = true → ∃ r, bindings.get? "this" = some (.instance r))
    (hsuper : scope.has "super" = true → ∃ c, bindings.get? "super" = some (.class c)) :
    Agrees (m.newScope bindings).2 (m.scopes.size :: chain) (scope :: scopes) := by
  refine .scope (by rw [size_newScope]; exact Nat.lt_succ_self _) ⟨?_, ?_, ?_⟩
    (h.later (grows_newScope m bindings).toLater)
  all_goals rw [scope_newScope_self]
  · exact hbound
  · exact hthis
  · exact hsuper

/-- A block begins with an empty scope. -/
theorem Sees.block {m : Memory} {chain : Chain} {scopes : Scopes} (h : Sees m chain scopes) :
    Sees (m.newScope Table.empty).2 (m.scopes.size :: chain) scopes.enter where
  agrees := h.agrees.push Table.empty nofun nofun nofun
  exact := by
    intro x hx
    rw [scope_newScope_self] at hx
    exact nomatch hx

/-- A scope with one name: marked, and bound to a value that suits it. -/
theorem Agrees.pushOne {m : Memory} {chain : Chain} {scopes : Scopes} (h : Agrees m chain scopes)
    {name : String} {v : Value} (hthis : name = "this" → ∃ r, v = .instance r)
    (hsuper : name = "super" → ∃ c, v = .class c) :
    Agrees (m.newScope (Table.ofList [(name, v)])).2 (m.scopes.size :: chain)
      (scopes.enterWith name) := by
  have hget (x : String) : (Table.ofList [(name, v)]).get? x = if name = x then some v else none :=
    Table.get?_put Table.empty name x v
  have hmark (x : String) : ((Table.empty : Scope).put name true).has x = true → name = x := by
    intro hx
    rw [Table.has_put, Bool.or_eq_true] at hx
    rcases hx with heq | hx
    · exact of_decide_eq_true heq
    · exact nomatch hx
  refine h.push _ ?_ ?_ ?_
  · intro x hx
    have heq : name = x := hmark x (Option.isSome_iff_exists.2 ⟨_, hx⟩)
    unfold Table.has
    rw [hget, if_pos heq]
    rfl
  · intro hx
    have heq := hmark _ hx
    obtain ⟨r, rfl⟩ := hthis heq
    exact ⟨r, by rw [hget, if_pos heq]⟩
  · intro hx
    have heq := hmark _ hx
    obtain ⟨c, rfl⟩ := hsuper heq
    exact ⟨c, by rw [hget, if_pos heq]⟩

theorem map_fst_bindParams (params : List Param) (args : List Value) :
    (Eval.bindParams params args).map (·.1) = params.map (·.name) := by
  induction params generalizing args with
  | nil => rfl
  | cons p ps ih => exact congrArg (p.name :: ·) (ih _)

/-- The scope of a call binds the parameters and nothing else. -/
theorem Sees.body {m : Memory} {chain : Chain} {scopes : Scopes} (h : Agrees m chain scopes)
    {params : List Param} (hparams : ∀ p ∈ params, ¬Reserved p.name) (args : List Value) :
    Sees (m.newScope (Table.ofList (Eval.bindParams params args))).2 (m.scopes.size :: chain)
      (Param.resolveAll scopes.enter params).value := by
  rw [Param.resolveAll_value]
  have hnames : (params.map fun p => (p.name, true)).map (·.1) = params.map (·.name) := by
    rw [List.map_map]
    rfl
  -- missing arguments are bound to `nil`, so both tables have the same names
  have hiff (x : String) : (Table.ofList (Eval.bindParams params args)).has x = true ↔
      (Table.ofList (params.map fun p => (p.name, true))).has x = true := by
    rw [Table.has_ofList, Table.has_ofList, map_fst_bindParams, hnames]
  have hfree {name : String} (hname : Reserved name) :
      (Table.ofList (params.map fun p => (p.name, true))).has name ≠ true := by
    intro hx
    rw [Table.has_ofList, hnames] at hx
    obtain ⟨p, hp, rfl⟩ := List.mem_map.1 hx
    exact hparams p hp hname
  constructor
  · refine h.push _ (fun x hx => (hiff x).2 (Option.isSome_iff_exists.2 ⟨_, hx⟩)) ?_ ?_
    · exact fun hx => absurd hx (hfree (.inl rfl))
    · exact fun hx => absurd hx (hfree (.inr rfl))
  · intro x hx
    rw [scope_newScope_self, hiff] at hx
    obtain ⟨mark, hmark⟩ := Option.isSome_iff_exists.1 hx
    -- every parameter is complete from the start
    obtain ⟨p, _, heq⟩ := List.mem_map.1 (Table.mem_of_get?_ofList hmark)
    injection heq with _ heq
    rw [hmark, ← heq]

end Lox.Scoping
