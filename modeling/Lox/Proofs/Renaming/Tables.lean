import Lox.Proofs.Renaming.Syntax
import Lox.Table
import Mathlib.Data.List.Forall2

/-!
# Tables with other names

The static scopes of the resolver and the scopes in memory are both tables. With other names for the
variables of a scope, its table has the other names in the same order, and what was bound to a name is
now bound to the other one, possibly changed itself.

## Contents
- `Table.Renamed`: a table with other names for what another one binds.
- `get?`, `has`, `put`, `ofList`, `names`: what is read from it, and how it is made.
- `Table.RenamedAll`: the same for the tables of an array.
-/

namespace Lox

namespace Table

variable {α β : Type} {f : Naming} {R S : α → β → Prop}

/-- Two bindings, when the second one is under the other name and what they bind is related. -/
def RenamedBinding (f : Naming) (R : α → β → Prop) (e : String × α) (e' : String × β) : Prop :=
  e'.1 = f e.1 ∧ R e.2 e'.2

/-- The second table binds, under the other names, what is related to what the first one binds. -/
def Renamed (f : Naming) (R : α → β → Prop) (t : Table α) (t' : Table β) : Prop :=
  List.Forall₂ (RenamedBinding f R) t.entries t'.entries

theorem isSome_of_rel {a : Option α} {b : Option β} (h : Option.Rel R a b) :
    b.isSome = a.isSome := by
  cases h <;> rfl

/-- Both are absent, or both are there. -/
theorem cases_of_rel {a : Option α} {b : Option β} (h : Option.Rel R a b) :
    (a = none ∧ b = none) ∨ ∃ x y, a = some x ∧ b = some y ∧ R x y := by
  cases h with
  | none => exact .inl ⟨rfl, rfl⟩
  | @some x y hxy => exact .inr ⟨x, y, rfl, rfl, hxy⟩

theorem eq_of_rel {a b : Option α} (h : Option.Rel Eq a b) : b = a := by
  cases h with
  | some h => rw [h]
  | none => rfl

theorem rel_find? {entries : List (String × α)} {entries' : List (String × β)}
    (h : List.Forall₂ (RenamedBinding f R) entries entries') (name : String) :
    Option.Rel R (find? name entries) (find? (f name) entries') := by
  induction h with
  | nil => exact .none
  | @cons e e' rest rest' he _ ih =>
      obtain ⟨n, a⟩ := e
      obtain ⟨n', b⟩ := e'
      obtain ⟨rfl, hab⟩ := he
      unfold find?
      by_cases hn : n = name
      · rw [if_pos hn, if_pos (congrArg f hn)]
        exact .some hab
      · rw [if_neg hn, if_neg fun h => hn (f.injective h)]
        exact ih

theorem replace_renamed {entries : List (String × α)} {entries' : List (String × β)}
    (h : List.Forall₂ (RenamedBinding f R) entries entries') (name : String) {a : α} {b : β}
    (hab : R a b) :
    List.Forall₂ (RenamedBinding f R) (replace name a entries) (replace (f name) b entries') := by
  induction h with
  | nil => exact .cons ⟨rfl, hab⟩ .nil
  | @cons e e' rest rest' he hrest ih =>
      obtain ⟨n, c⟩ := e
      obtain ⟨n', d⟩ := e'
      obtain ⟨rfl, hcd⟩ := he
      unfold replace
      by_cases hn : n = name
      · rw [if_pos hn, if_pos (congrArg f hn)]
        exact .cons ⟨rfl, hab⟩ hrest
      · rw [if_neg hn, if_neg fun h => hn (f.injective h)]
        exact .cons ⟨rfl, hcd⟩ ih

namespace Renamed

variable {t : Table α} {t' : Table β}

theorem empty : Renamed f R (Table.empty : Table α) (Table.empty : Table β) := .nil

theorem mono (h : Renamed f R t t') (hRS : ∀ a b, R a b → S a b) : Renamed f S t t' := by
  refine List.Forall₂.imp ?_ h
  intro e e' he
  exact ⟨he.1, hRS _ _ he.2⟩

/-- What is bound to a name is bound to the other name. -/
theorem get? (h : Renamed f R t t') (name : String) :
    Option.Rel R (t.get? name) (t'.get? (f name)) := rel_find? h name

theorem get?_eq {t t' : Table α} (h : Renamed f Eq t t') (name : String) :
    t'.get? (f name) = t.get? name := eq_of_rel (h.get? name)

theorem has (h : Renamed f R t t') (name : String) : t'.has (f name) = t.has name :=
  isSome_of_rel (h.get? name)

/-- A name that no bound one becomes is not bound. -/
theorem has_eq_false (h : Renamed f R t t') {name : String}
    (hname : ∀ n, t.has n = true → f n ≠ name) : t'.has name = false := by
  -- the exchange is its own inverse
  have hself : f (f name) = name := f.involutive name
  rw [← hself, h.has (f name)]
  cases hhas : t.has (f name) with
  | false => rfl
  | true => exact absurd hself (hname _ hhas)

theorem put (h : Renamed f R t t') (name : String) {a : α} {b : β} (hab : R a b) :
    Renamed f R (t.put name a) (t'.put (f name) b) := replace_renamed h name hab

theorem ofList {entries : List (String × α)} {entries' : List (String × β)}
    (h : List.Forall₂ (RenamedBinding f R) entries entries') :
    Renamed f R (Table.ofList entries) (Table.ofList entries') := by
  have hfold {t : Table α} {t' : Table β} (ht : Renamed f R t t') :
      Renamed f R (entries.foldl (fun t e => t.put e.1 e.2) t)
        (entries'.foldl (fun t e => t.put e.1 e.2) t') := by
    induction h generalizing t t' with
    | nil => exact ht
    | @cons e e' rest rest' he _ ih =>
        rw [List.foldl_cons, List.foldl_cons, he.1]
        exact ih (ht.put e.1 he.2)
  exact hfold empty

/-- A table with one name, which stays as it is. -/
theorem single (name : String) {a : α} {b : β} (hab : R a b) :
    Renamed .same R (Table.ofList [(name, a)]) (Table.ofList [(name, b)]) :=
  ofList (.cons ⟨rfl, hab⟩ .nil)

/-- The names are the other names, in the same order. -/
theorem names (h : Renamed f R t t') : t'.names = t.names.map f := by
  obtain ⟨entries⟩ := t
  obtain ⟨entries'⟩ := t'
  have hentries : List.Forall₂ (RenamedBinding f R) entries entries' := h
  show entries'.map (·.1) = (entries.map (·.1)).map f
  clear h
  induction hentries with
  | nil => rfl
  | cons he _ ih => rw [List.map_cons, List.map_cons, List.map_cons, he.1, ih]

end Renamed

/-! ## Many tables -/

/-- The tables of two arrays, the second ones with other names; each table has a naming of its own. -/
structure RenamedAll (naming : Nat → Naming) (R : α → β → Prop) (tables : Array (Table α))
    (tables' : Array (Table β)) : Prop where
  size_eq : tables'.size = tables.size
  renamed : ∀ i, (tables.getD i Table.empty).Renamed (naming i) R (tables'.getD i Table.empty)

namespace RenamedAll

variable {naming naming' : Nat → Naming} {tables : Array (Table α)} {tables' : Array (Table β)}

/-- Namings that agree where there are tables. -/
theorem mono (h : RenamedAll naming R tables tables')
    (hnaming : ∀ i, i < tables.size → naming' i = naming i) (hRS : ∀ a b, R a b → S a b) :
    RenamedAll naming' S tables tables' := by
  refine ⟨h.size_eq, fun i => ?_⟩
  by_cases hi : i < tables.size
  · rw [hnaming i hi]
    exact (h.renamed i).mono hRS
  · have hout : tables.getD i Table.empty = Table.empty := by
      rw [Array.getD_eq_getD_getElem?, Array.getElem?_eq_none (Nat.le_of_not_lt hi)]
      rfl
    have hout' : tables'.getD i Table.empty = Table.empty := by
      rw [Array.getD_eq_getD_getElem?,
        Array.getElem?_eq_none (Nat.le_of_not_lt (h.size_eq ▸ hi))]
      rfl
    rw [hout, hout']
    exact .empty

theorem push (h : RenamedAll naming R tables tables') {t : Table α} {t' : Table β}
    (ht : t.Renamed (naming tables.size) R t') :
    RenamedAll naming R (tables.push t) (tables'.push t') := by
  refine ⟨by rw [Array.size_push, Array.size_push, h.size_eq], fun i => ?_⟩
  rw [getD_push, getD_push, h.size_eq]
  by_cases hi : i = tables.size
  · rw [if_pos hi, if_pos hi, hi]
    exact ht
  · rw [if_neg hi, if_neg hi]
    exact h.renamed i

theorem put (h : RenamedAll naming R tables tables') (i : Nat) (name : String) {a : α} {b : β}
    (hab : R a b) :
    RenamedAll naming R (tables.modify i (·.put name a))
      (tables'.modify i (·.put (naming i name) b)) := by
  refine ⟨by rw [Array.size_modify, Array.size_modify, h.size_eq], fun j => ?_⟩
  rw [getD_modify, getD_modify, h.size_eq]
  by_cases hj : i = j ∧ j < tables.size
  · rw [if_pos hj, if_pos hj, hj.1]
    exact (h.renamed j).put name hab
  · rw [if_neg hj, if_neg hj]
    exact h.renamed j

end RenamedAll

end Table

end Lox
