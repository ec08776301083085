import Lox.Proofs.Scoping.Static

/-!
# How memory grows

Memory only grows: scopes are added, bindings are added, and none is taken away. Two things are
finer than that. What is bound under `this` and `super` never changes. And a name is added to an
existing scope only by a declaration that is executed in that scope, so that the evaluation of an
expression adds none.

## Contents
- `Table.getD_push`, `Table.getD_modify`: the tables of an array that changes.
- `Later.trans`, `Grows`: later memories, and memories that add names to at most one scope.
- `scope_newScope`, `scope_bind`: the scopes of changed memories.
- `grows_newScope`, `grows_rebind`, `grows_define`: how each change of memory makes it grow.
- `Memory.Holds`, `holds_newScope` to `holds_bind`: the values in a memory, and those that each
  change puts into it.
-/

namespace Lox

/-! ## Tables in an array -/

namespace Table

variable {α : Type}

theorem getD_push (tables : Array (Table α)) (t : Table α) (i : Nat) :
    (tables.push t).getD i Table.empty =
      if i = tables.size then t else tables.getD i Table.empty := by
  simp only [Array.getD_eq_getD_getElem?, Array.getElem?_push]
  split <;> rfl

theorem getD_modify (tables : Array (Table α)) (i : Nat) (g : Table α → Table α) (j : Nat) :
    (tables.modify i g).getD j Table.empty =
      if i = j ∧ j < tables.size then g (tables.getD j Table.empty)
      else tables.getD j Table.empty := by
  simp only [Array.getD_eq_getD_getElem?, Array.getElem?_modify]
  by_cases hi : i = j
  · by_cases hj : j < tables.size
    · simp [hi, hj]
    · simp [hi, hj]
  · simp [hi]

end Table

namespace Scoping

/-! ## Later memories -/

namespace Later

theorem refl (m : Memory) : Later m m := ⟨Nat.le_refl _, fun _ _ _ h => h, fun _ _ _ _ _ h => h⟩

theorem trans {m m' m'' : Memory} (h : Later m m') (h' : Later m' m'') : Later m m'' where
  size_le := Nat.le_trans h.size_le h'.size_le
  keeps i x hi hx := h'.keeps i x (Nat.lt_of_lt_of_le hi h.size_le) (h.keeps i x hi hx)
  fixed i x v hx hi hv :=
    h'.fixed i x v hx (Nat.lt_of_lt_of_le hi h.size_le) (h.fixed i x v hx hi hv)

end Later

/-- A later memory that adds names to no scope that was there before, except the one given. -/
structure Grows (head : Option Nat) (m m' : Memory) : Prop extends Later m m' where
  adds : ∀ i x, i < m.scopes.size → some i ≠ head → (m'.scope i).has x = true →
    (m.scope i).has x = true

namespace Grows

theorem refl (head : Option Nat) (m : Memory) : Grows head m m :=
  ⟨Later.refl m, fun _ _ _ _ h => h⟩

theorem trans {head : Option Nat} {m m' m'' : Memory} (h : Grows head m m')
    (h' : Grows head m' m'') : Grows head m m'' where
  toLater := h.toLater.trans h'.toLater
  adds i x hi hne hx :=
    h.adds i x hi hne (h'.adds i x (Nat.lt_of_lt_of_le hi h.size_le) hne hx)

/-- What adds nothing adds nothing elsewhere. -/
theorem weaken {head : Option Nat} {m m' : Memory} (h : Grows none m m') : Grows head m m' where
  toLater := h.toLater
  adds i x hi _ hx := h.adds i x hi nofun hx

/-- What adds names to a new scope adds none to the ones that were there before. -/
theorem of_new {i : Nat} {m m' m'' : Memory} (h : Grows none m m') (hi : m.scopes.size ≤ i)
    (h' : Grows (some i) m' m'') : Grows none m m'' where
  toLater := h.toLater.trans h'.toLater
  adds j x hj _ hx := by
    have hne : some j ≠ some i := by
      intro heq
      have := Option.some.inj heq
      omega
    exact h.adds j x hj nofun (h'.adds j x (Nat.lt_of_lt_of_le hj h.size_le) hne hx)

end Grows

/-! ## The scopes of changed memories -/

theorem scope_newScope (m : Memory) (bindings : Table Value) (i : Nat) :
    (m.newScope bindings).2.scope i = if i = m.scopes.size then bindings else m.scope i :=
  Table.getD_push m.scopes bindings i

theorem scope_newScope_of_lt {m : Memory} (bindings : Table Value) {i : Nat}
    (h : i < m.scopes.size) : (m.newScope bindings).2.scope i = m.scope i := by
  rw [scope_newScope, if_neg (Nat.ne_of_lt h)]

theorem scope_newScope_self (m : Memory) (bindings : Table Value) :
    (m.newScope bindings).2.scope m.scopes.size = bindings := by
  rw [scope_newScope, if_pos rfl]

@[simp] theorem size_newScope (m : Memory) (bindings : Table Value) :
    (m.newScope bindings).2.scopes.size = m.scopes.size + 1 := Array.size_push _

@[simp] theorem size_bind (m : Memory) (i : Nat) (x : String) (v : Value) :
    (m.bind i x v).scopes.size = m.scopes.size := Array.size_modify

theorem scope_bind (m : Memory) (i : Nat) (x : String) (v : Value) (j : Nat) :
    (m.bind i x v).scope j =
      if i = j ∧ j < m.scopes.size then (m.scope j).put x v else m.scope j :=
  Table.getD_modify m.scopes i (·.put x v) j

@[simp] theorem size_define (m : Memory) (chain : Chain) (x : String) (v : Value) :
    (m.define chain x v).scopes.size = m.scopes.size := by
  unfold Memory.define
  split
  · rfl
  · exact size_bind m _ x v

/-! ## How memory grows -/

/-- What leaves the scopes alone adds nothing. -/
theorem grows_of_scopes_eq {m m' : Memory} (h : m'.scopes = m.scopes) : Grows none m m' := by
  have hscope (i : Nat) : m'.scope i = m.scope i := by
    unfold Memory.scope
    rw [h]
  have hlater : Later m m' := by
    refine ⟨Nat.le_of_eq (congrArg Array.size h).symm, ?_, ?_⟩
    · intro i x _ hx
      rw [hscope]
      exact hx
    · intro i x v _ _ hv
      rw [hscope]
      exact hv
  refine ⟨hlater, ?_⟩
  intro i x _ _ hx
  rw [hscope] at hx
  exact hx

theorem grows_newScope (m : Memory) (bindings : Table Value) :
    Grows none m (m.newScope bindings).2 where
  size_le := by rw [size_newScope]; exact Nat.le_succ _
  keeps i x hi hx := by rw [scope_newScope_of_lt bindings hi]; exact hx
  fixed i x v _ hi hv := by rw [scope_newScope_of_lt bindings hi]; exact hv
  adds i x hi _ hx := by rw [scope_newScope_of_lt bindings hi] at hx; exact hx

/-- Binding a name in a scope changes neither the other scopes nor the other names. -/
theorem grows_bind (m : Memory) (i : Nat) {x : String} (v : Value) (hx : ¬Reserved x) :
    Grows (some i) m (m.bind i x v) where
  size_le := Nat.le_of_eq (size_bind m i x v).symm
  keeps j y hj hy := by
    rw [scope_bind]
    split
    · rw [Table.has_put, hy, Bool.or_true]
    · exact hy
  fixed j y w hy _ hw := by
    rw [scope_bind]
    split
    -- the name that is bound is not reserved, and only reserved names are fixed
    · rw [Table.get?_put_of_ne _ _ (fun heq => hx (by rw [heq]; exact hy)), hw]
    · exact hw
  adds j y hj hne hy := by
    rw [scope_bind, if_neg (fun h => hne (congrArg some h.1.symm))] at hy
    exact hy

/-- Binding a name again adds none. -/
theorem grows_rebind {m : Memory} {i : Nat} {x : String} (v : Value) (hx : ¬Reserved x)
    (hbound : (m.scope i).has x = true) : Grows none m (m.bind i x v) where
  toLater := (grows_bind m i v hx).toLater
  adds j y hj _ hy := by
    by_cases hij : i = j
    · subst hij
      rw [scope_bind, if_pos ⟨rfl, hj⟩, Table.has_put, Bool.or_eq_true] at hy
      rcases hy with heq | hy
      · rw [← of_decide_eq_true heq]
        exact hbound
      · exact hy
    · rw [scope_bind, if_neg (fun h => hij h.1)] at hy
      exact hy

theorem grows_define (m : Memory) (chain : Chain) {x : String} (v : Value) (hx : ¬Reserved x) :
    Grows chain.head? m (m.define chain x v) := by
  cases chain with
  | nil => exact Grows.refl _ m
  | cons i outer => exact grows_bind m i v hx

end Scoping

/-! ## The values in a memory -/

/-- A value is bound in a scope, or lies in a field of an instance. -/
inductive Memory.Holds (m : Memory) (v : Value) : Prop
  | bound (i : Nat) (x : String) : (m.scope i).get? x = some v → Holds m v
  | field (i : Instance) (x : String) : (m.fieldsOf i).get? x = some v → Holds m v

namespace Scoping

variable {m : Memory} {v w : Value}

theorem holds_newScope {entries : List (String × Value)}
    (h : (m.newScope (Table.ofList entries)).2.Holds v) : m.Holds v ∨ ∃ x, (x, v) ∈ entries := by
  cases h with
  | bound i x hv =>
      rw [scope_newScope] at hv
      split at hv
      · exact .inr ⟨x, Table.mem_of_get?_ofList hv⟩
      · exact .inl (.bound i x hv)
  | field i x hv => exact .inl (.field i x hv)

theorem holds_newId (h : m.newId.2.Holds v) : m.Holds v := by
  cases h with
  | bound i x hv => exact .bound i x hv
  | field i x hv => exact .field i x hv

theorem holds_newInstance {c : Class} (h : (m.newInstance c).2.Holds v) : m.Holds v := by
  cases h with
  | bound i x hv => exact .bound i x hv
  | field i x hv =>
      change ((m.fields.push Table.empty).getD i.id Table.empty).get? x = some v at hv
      rw [Table.getD_push] at hv
      split at hv
      · exact nomatch hv
      · exact .field i x hv

theorem holds_setField {i : Instance} {name : String} (h : (m.setField i name w).Holds v) :
    m.Holds v ∨ v = w := by
  cases h with
  | bound j x hv => exact .inl (.bound j x hv)
  | field j x hv =>
      change ((m.fields.modify i.id (·.put name w)).getD j.id Table.empty).get? x = some v at hv
      rw [Table.getD_modify] at hv
      split at hv
      · rw [Table.get?_put] at hv
        split at hv
        · cases hv
          exact .inr rfl
        · exact .inl (.field j x hv)
      · exact .inl (.field j x hv)

theorem holds_bind {i : Nat} {name : String} (h : (m.bind i name w).Holds v) :
    m.Holds v ∨ v = w := by
  cases h with
  | bound j x hv =>
      rw [scope_bind] at hv
      split at hv
      · rw [Table.get?_put] at hv
        split at hv
        · cases hv
          exact .inr rfl
        · exact .inl (.bound j x hv)
      · exact .inl (.bound j x hv)
  | field j x hv => exact .inl (.field j x hv)

end Scoping

end Lox
