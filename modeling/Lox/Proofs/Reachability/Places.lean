import Lox.Proofs.Receivers.Classes

/-!
# Places and what leads to them

What can change lies in the places of the memory: the scopes, with their bindings, and the instances,
with their fields. A value leads to places right away: a function to the scopes around its declaration,
a class to those around its methods and the methods that it inherits, an instance to its own fields and
to what its class leads to. From these places other values lead on. A place is **reachable** from some
values when it can be found in this way, starting from them or from the globals.

A set of places is **closed** in a memory when the values in its places lead to none outside it. As long
as a program starts from values of a closed set, and puts none but these into new places, it stays in
it, and what lies outside is as before.

## Contents
- `Place`, `Memory.table`: places, and what is bound in them.
- `Value.LeadsTo`, `Memory.Reachable`: reachable places.
- `Value.In`: values that lead to places of a set.
- `Confined`: memories that differ in a closed set alone.
- `Confined.bind` to `Confined.newInstance`: what can be done inside the set.
-/

namespace Lox

/-! ## Places -/

/-- A place of the memory: a scope, or the fields of an instance. -/
inductive Place
  | scope (i : Nat)
  | object (id : Nat)
deriving DecidableEq

/-- What is bound in a place. -/
def Memory.table (m : Memory) : Place → Table Value
  | .scope i => m.scope i
  | .object id => m.fields.getD id Table.empty

/-- A place that the memory has. -/
def Memory.Has (m : Memory) : Place → Prop
  | .scope i => i < m.scopes.size
  | .object id => id < m.fields.size

/-- A place holds a value, under some name. -/
def Memory.HoldsAt (m : Memory) (p : Place) (v : Value) : Prop :=
  ∃ name, (m.table p).get? name = some v

theorem Memory.table_of_not_has {m : Memory} {p : Place} (h : ¬m.Has p) : m.table p = Table.empty := by
  cases p with
  | scope i => exact dif_neg h
  | object id => exact dif_neg h

/-! ## Reachable places -/

/-- A chain of scopes leads to each of them. -/
def Chain.LeadsTo (chain : Chain) (p : Place) : Prop := ∃ i ∈ chain, p = .scope i

/-- A function leads to the scopes around its declaration. -/
def Closure.LeadsTo (closure : Closure) (p : Place) : Prop := Chain.LeadsTo closure.chain p

/-- A class leads to the scopes around its methods, and around those that it inherits. -/
def Class.LeadsTo (c : Class) (p : Place) : Prop :=
  ∃ d ∈ c.ancestry, ∃ closure, d.Defines closure ∧ closure.LeadsTo p

/-- An instance leads to its own fields, and to what its class leads to. -/
def Instance.LeadsTo (i : Instance) (p : Place) : Prop := p = .object i.id ∨ i.ofClass.LeadsTo p

/-- The places to which a value leads right away. -/
def Value.LeadsTo : Value → Place → Prop
  | .function _ closure, p => closure.LeadsTo p
  | .class c, p => c.LeadsTo p
  | .method _ closure receiver, p => closure.LeadsTo p ∨ receiver.LeadsTo p
  | .instance i, p => i.LeadsTo p
  | .nil, _ | .bool _, _ | .number _, _ | .string _, _ | .native _, _ => False

/-- The places that are reachable from values, or from the globals. -/
inductive Memory.Reachable (m : Memory) (roots : List Value) : Place → Prop
  | globals : Reachable m roots (.scope globalScope)
  | root {v p} : v ∈ roots → v.LeadsTo p → Reachable m roots p
  | held {p v q} : Reachable m roots p → m.HoldsAt p v → v.LeadsTo q → Reachable m roots q

namespace Reachability

/-! ## Sets of places -/

variable (S : Place → Prop)

/-- The scopes of a chain are in a set. -/
def ChainIn (chain : Chain) : Prop := ∀ i ∈ chain, S (.scope i)

/-- A function leads to places of a set. -/
def ClosureIn (closure : Closure) : Prop := ChainIn S closure.chain

/-- A class leads to places of a set. -/
def ClassIn (c : Class) : Prop := ∀ d ∈ c.ancestry, ∀ closure, d.Defines closure → ClosureIn S closure

/-- An instance leads to places of a set. -/
def InstanceIn (i : Instance) : Prop := S (.object i.id) ∧ ClassIn S i.ofClass

/-- A value leads to places of a set. -/
def ValueIn : Value → Prop
  | .function _ closure => ClosureIn S closure
  | .class c => ClassIn S c
  | .method _ closure receiver => ClosureIn S closure ∧ InstanceIn S receiver
  | .instance i => InstanceIn S i
  | .nil | .bool _ | .number _ | .string _ | .native _ => True

/-- Values lead to places of a set. -/
def ValuesIn (vs : List Value) : Prop := ∀ v ∈ vs, ValueIn S v

variable {S}

theorem chainIn_iff {chain : Chain} : ChainIn S chain ↔ ∀ p, Chain.LeadsTo chain p → S p := by
  constructor
  · rintro h p ⟨i, hi, rfl⟩
    exact h i hi
  · exact fun h i hi => h _ ⟨i, hi, rfl⟩

theorem classIn_iff {c : Class} : ClassIn S c ↔ ∀ p, c.LeadsTo p → S p := by
  constructor
  · rintro h p ⟨d, hd, closure, hdefines, hleads⟩
    exact chainIn_iff.1 (h d hd closure hdefines) p hleads
  · intro h d hd closure hdefines
    exact chainIn_iff.2 fun p hleads => h p ⟨d, hd, closure, hdefines, hleads⟩

theorem instanceIn_iff {i : Instance} : InstanceIn S i ↔ ∀ p, i.LeadsTo p → S p := by
  constructor
  · rintro ⟨hobject, hclass⟩ p (rfl | hleads)
    · exact hobject
    · exact classIn_iff.1 hclass p hleads
  · exact fun h => ⟨h _ (.inl rfl), classIn_iff.2 fun p hleads => h p (.inr hleads)⟩

/-- A value is one of a set when all places to which it leads are. -/
theorem valueIn_iff {v : Value} : ValueIn S v ↔ ∀ p, v.LeadsTo p → S p := by
  cases v with
  | nil | bool | number | string | native => exact ⟨fun _ _ h => h.elim, fun _ => trivial⟩
  | function id closure => exact chainIn_iff
  | «class» c => exact classIn_iff
  | «instance» i => exact instanceIn_iff
  | method id closure receiver =>
      constructor
      · rintro ⟨hclosure, hreceiver⟩ p (hleads | hleads)
        · exact chainIn_iff.1 hclosure p hleads
        · exact instanceIn_iff.1 hreceiver p hleads
      · exact fun h => ⟨chainIn_iff.2 fun p hleads => h p (.inl hleads),
          instanceIn_iff.2 fun p hleads => h p (.inr hleads)⟩

theorem valueIn_ofLiteral (l : Literal) : ValueIn S (.ofLiteral l) := by cases l <;> trivial

/-- A superclass leads nowhere else. -/
theorem ClassIn.superclass {c d : Class} (h : ClassIn S c) (hd : c.superclass = some d) :
    ClassIn S d := fun e he =>
  h e (Class.mem_ancestry_trans (Class.mem_ancestry_superclass hd) he)

/-- A method leads nowhere else than its class. -/
theorem ClassIn.findMethod? {c : Class} (h : ClassIn S c) {name : String} {closure : Closure}
    (hfind : c.findMethod? name = some closure) : ClosureIn S closure := by
  obtain ⟨d, hd, hdefines⟩ := Class.exists_of_findMethod? hfind
  exact h d hd closure hdefines

theorem ValuesIn.cons {v : Value} {vs : List Value} (hv : ValueIn S v) (hvs : ValuesIn S vs) :
    ValuesIn S (v :: vs) := by
  intro w hw
  obtain rfl | hw := List.mem_cons.1 hw
  · exact hv
  · exact hvs w hw

theorem ValuesIn.headD {vs : List Value} (h : ValuesIn S vs) : ValueIn S (vs.headD .nil) := by
  cases vs with
  | nil => trivial
  | cons v vs => exact h v List.mem_cons_self

/-- The values of a table lead to places of a set. -/
def TableIn (S : Place → Prop) (t : Table Value) : Prop := ∀ x v, t.get? x = some v → ValueIn S v

theorem TableIn.empty : TableIn S Table.empty := nofun

theorem TableIn.put {t : Table Value} (h : TableIn S t) (x : String) {v : Value}
    (hv : ValueIn S v) : TableIn S (t.put x v) := by
  intro y w hw
  rw [Table.get?_put] at hw
  split at hw
  · cases hw
    exact hv
  · exact h y w hw

theorem TableIn.ofList {entries : List (String × Value)} (h : ∀ e ∈ entries, ValueIn S e.2) :
    TableIn S (Table.ofList entries) :=
  fun _ _ hv => h _ (Table.mem_of_get?_ofList hv)

/-- Parameters are bound to arguments. -/
theorem TableIn.bindParams {args : List Value} (h : ValuesIn S args) (params : List Param) :
    TableIn S (Table.ofList (Eval.bindParams params args)) := by
  refine .ofList ?_
  induction params generalizing args with
  | nil => exact fun e he => nomatch he
  | cons p params ih =>
      intro e he
      obtain rfl | he := List.mem_cons.1 he
      · exact h.headD
      · exact ih (fun v hv => h v (List.mem_of_mem_drop hv)) e he

/-! ## Memories that differ in a closed set -/

/-- A memory that differs from an earlier one in the places of a set alone. The set holds the globals
and every place that is still to come, and it is closed. -/
structure Confined (S : Place → Prop) (before m : Memory) : Prop where
  globals : S (.scope globalScope)
  newScopes : ∀ i, m.scopes.size ≤ i → S (.scope i)
  newObjects : ∀ id, m.fields.size ≤ id → S (.object id)
  closed : ∀ p, S p → TableIn S (m.table p)
  outside : ∀ p, ¬S p → m.table p = before.table p

namespace Confined

variable {before m m' : Memory}

/-- A memory in which only places of the set have changed, and hold what leads to places of the set. -/
theorem change (h : Confined S before m) (hscopes : m.scopes.size ≤ m'.scopes.size)
    (hfields : m.fields.size ≤ m'.fields.size)
    (htable : ∀ p, m'.table p = m.table p ∨ S p ∧ TableIn S (m'.table p)) :
    Confined S before m' where
  globals := h.globals
  newScopes i hi := h.newScopes i (Nat.le_trans hscopes hi)
  newObjects id hid := h.newObjects id (Nat.le_trans hfields hid)
  closed p hp := by
    obtain hsame | ⟨_, hin⟩ := htable p
    · rw [hsame]
      exact h.closed p hp
    · exact hin
  outside p hp := by
    obtain hsame | ⟨hin, _⟩ := htable p
    · rw [hsame, h.outside p hp]
    · exact absurd hin hp

/-- A name is bound in a scope of the set. -/
theorem bind (h : Confined S before m) {i : Nat} (hi : S (.scope i)) (name : String) {v : Value}
    (hv : ValueIn S v) : Confined S before (m.bind i name v) := by
  refine h.change (Nat.le_of_eq (Scoping.size_bind m i name v).symm) (Nat.le_refl _) fun p => ?_
  cases p with
  | object id => exact .inl rfl
  | scope j =>
      show (m.bind i name v).scope j = m.scope j ∨ S (.scope j) ∧ TableIn S ((m.bind i name v).scope j)
      rw [Scoping.scope_bind]
      split
      · rename_i hij
        obtain ⟨rfl, _⟩ := hij
        exact .inr ⟨hi, (h.closed (.scope i) hi).put name hv⟩
      · exact .inl rfl

/-- A name is bound in the innermost scope of a chain of the set. -/
theorem define (h : Confined S before m) {chain : Chain} (hchain : ChainIn S chain) (name : String)
    {v : Value} (hv : ValueIn S v) : Confined S before (m.define chain name v) := by
  cases chain with
  | nil => exact h
  | cons i outer => exact h.bind (hchain i List.mem_cons_self) name hv

/-- A field of an instance of the set is set. -/
theorem setField (h : Confined S before m) {i : Instance} (hi : InstanceIn S i) (name : String)
    {v : Value} (hv : ValueIn S v) : Confined S before (m.setField i name v) := by
  refine h.change (Nat.le_refl _) (Nat.le_of_eq Array.size_modify.symm) fun p => ?_
  cases p with
  | scope j => exact .inl rfl
  | object id =>
      show (m.fields.modify i.id (·.put name v)).getD id Table.empty = m.table (.object id) ∨
        S (.object id) ∧ TableIn S ((m.fields.modify i.id (·.put name v)).getD id Table.empty)
      rw [Table.getD_modify]
      split
      · rename_i hid
        obtain ⟨rfl, _⟩ := hid
        exact .inr ⟨hi.1, (h.closed (.object i.id) hi.1).put name hv⟩
      · exact .inl rfl

/-- A new scope is one of the set. -/
theorem newScope (h : Confined S before m) {bindings : Table Value} (hbindings : TableIn S bindings) :
    Confined S before (m.newScope bindings).2 := by
  refine h.change (by rw [Scoping.size_newScope]; exact Nat.le_succ _) (Nat.le_refl _) fun p => ?_
  cases p with
  | object id => exact .inl rfl
  | scope j =>
      show (m.newScope bindings).2.scope j = m.scope j ∨
        S (.scope j) ∧ TableIn S ((m.newScope bindings).2.scope j)
      rw [Scoping.scope_newScope]
      split
      · rename_i hj
        exact .inr ⟨h.newScopes j (Nat.le_of_eq hj.symm), hbindings⟩
      · exact .inl rfl

/-- The fields of a new instance are a place of the set. -/
theorem newInstance (h : Confined S before m) (c : Class) :
    Confined S before (m.newInstance c).2 := by
  refine h.change (Nat.le_refl _) (by exact Nat.le_of_lt (by simp [Memory.newInstance])) fun p => ?_
  cases p with
  | scope j => exact .inl rfl
  | object id =>
      show (m.fields.push Table.empty).getD id Table.empty = m.table (.object id) ∨
        S (.object id) ∧ TableIn S ((m.fields.push Table.empty).getD id Table.empty)
      rw [Table.getD_push]
      split
      · rename_i hid
        exact .inr ⟨h.newObjects id (Nat.le_of_eq hid.symm), .empty⟩
      · exact .inl rfl

theorem newId (h : Confined S before m) : Confined S before m.newId.2 :=
  h.change (Nat.le_refl _) (Nat.le_refl _) fun _ => .inl rfl

/-- Nothing outside what is reachable was changed so far. -/
theorem start (m : Memory) (roots : List Value) :
    Confined (fun p => m.Has p → m.Reachable roots p) m m where
  globals _ := .globals
  newScopes i hi hhas := absurd hhas (Nat.not_lt_of_le hi)
  newObjects id hid hhas := absurd hhas (Nat.not_lt_of_le hid)
  closed p hp x v hv := by
    -- a place that is still to come holds nothing
    by_cases hhas : m.Has p
    · exact valueIn_iff.2 fun q hleads _ => .held (hp hhas) ⟨x, hv⟩ hleads
    · rw [Memory.table_of_not_has hhas] at hv
      exact nomatch hv
  outside _ _ := rfl

end Confined

end Reachability

end Lox
