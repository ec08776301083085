import Lox.Session

/-!
# New sessions

A new session consists of what its options say, and of globals that are native functions: the built-in
ones, unless the session goes without them, and behind them those of its host.

## Contents
- `globalsOf_induction`: what is so of the globals of every new session.
- `Session.eq_of_create`, `Session.host_of_create`: what a new session consists of.
-/

namespace Lox

section Globals

variable {P : Table Value → Prop} (hempty : P .empty)
  (hput : ∀ (t : Table Value) (name : String) (n : Native), P t → P (t.put name (.native n)))

include hput

theorem defineHostFunctions_induction {t t' : Table Value} (ht : P t)
    {functions : List (String × HostFunction)} (heq : defineHostFunctions t functions = .ok t') :
    P t' := by
  induction functions generalizing t with
  | nil =>
      cases heq
      exact ht
  | cons e rest ih =>
      obtain ⟨name, f⟩ := e
      unfold defineHostFunctions at heq
      split at heq
      · exact nomatch heq
      · exact ih (hput t name _ ht) heq

include hempty

theorem builtinBindings_induction : P builtinBindings := by
  unfold builtinBindings Table.ofList
  rw [List.foldl_map]
  exact List.foldlRecOn _ _ hempty fun t ht b _ => hput t b.name b.native ht

/-- **The globals of a new session** have every property that a table without names has, and that a table
keeps when a name is bound to a native function. -/
theorem globalsOf_induction {options : Options} {globals : Table Value}
    (heq : globalsOf options = .ok globals) : P globals := by
  unfold globalsOf at heq
  refine defineHostFunctions_induction hput ?_ heq
  split
  · exact builtinBindings_induction hempty hput
  · exact hempty

end Globals

/-- What a new session consists of. -/
theorem Session.eq_of_create {options : Options} {session : Session}
    (hcreate : Session.create options = .ok session) :
    ∃ maxCallDepth globals, globalsOf options = .ok globals ∧
      session =
        ⟨⟨options.host, maxCallDepth⟩, options.echo, Machine.initial globals, .empty⟩ := by
  unfold Session.create at hcreate
  split at hcreate
  · exact nomatch hcreate
  · split at hcreate
    · exact nomatch hcreate
    · rename_i hglobals
      cases hcreate
      exact ⟨_, _, hglobals, rfl⟩

/-- A new session has the host of its options. -/
theorem Session.host_of_create {options : Options} {session : Session}
    (hcreate : Session.create options = .ok session) : session.setting.host = options.host := by
  obtain ⟨_, _, _, rfl⟩ := eq_of_create hcreate
  rfl

end Lox
