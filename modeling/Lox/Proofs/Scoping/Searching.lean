import Lox.Environment
import Lox.Diagnostic.Report
import Lox.Proofs.Scoping.Growth

/-!
# Names that are searched and names at a depth

A name can be used by searching the chain of scopes, or by its depth. Both ways agree when the depth is
the **nearest** one at which a scope binds the name: they read the same value, and they change the memory
in the same way. A depth fails when it **lacks** the name: the chain has no scope there, or the scope does
not bind the name.

An assignment **rebinds** a name in one scope: the name has another value there, and everything else is as
it was, also the order of the names. So a chain that shares the scope sees the new value where it finds
the name in that scope, and a chain that does not share it, or finds the name further inside, sees nothing.

## Contents
- `Memory.Nearest`, `Memory.owner?_eq_some_iff`: the nearest scope that binds a name is what a search finds.
- `Memory.Lacks`, `Memory.bound_or_lacks`: the depths at which a name cannot be used.
- `Memory.Rebound`, `Memory.rebound_bind`: what an assignment changes.
- `Memory.Rebound.get?`, `Memory.Rebound.getAt`: what other chains see of it.
- `Chain.get_succeeds_iff`, `Chain.getAt_eq_error_iff`: which uses of a name succeed.
- `searching_agrees_with_depths`: both ways to use a name, side by side.
- `Eval.lookUp_eq_access`, `Eval.assign_eq_access`: these are the uses of names in a running program.
-/

namespace Lox

namespace Memory

variable {m m' : Memory} {chain : Chain} {name : String} {value : Value}

/-! ## The nearest scope -/

/-- A scope binds a name. -/
def Binds (m : Memory) (i : Nat) (name : String) : Prop := (m.scope i).has name = true

/-- The least depth at which a scope of a chain binds a name, and this scope. -/
structure Nearest (m : Memory) (chain : Chain) (name : String) (depth i : Nat) : Prop where
  at_depth : chain[depth]? = some i
  binds : m.Binds i name
  least : ∀ d < depth, ∀ j, chain[d]? = some j → ¬m.Binds j name

theorem binds_iff {i : Nat} : m.Binds i name ↔ ∃ v, (m.scope i).get? name = some v :=
  Option.isSome_iff_exists

/-- Only scopes that are there bind names. -/
theorem Binds.lt_size {i : Nat} (h : m.Binds i name) : i < m.scopes.size := by
  rcases Nat.lt_or_ge i m.scopes.size with hlt | hle
  · exact hlt
  · obtain ⟨v, hv⟩ := binds_iff.1 h
    have hempty : m.scope i = Table.empty := by
      unfold Memory.scope
      rw [Array.getD_eq_getD_getElem?, Array.getElem?_eq_none hle]
      rfl
    rw [hempty] at hv
    exact nomatch hv

theorem Nearest.mem {depth i : Nat} (h : m.Nearest chain name depth i) : i ∈ chain :=
  List.mem_of_getElem? h.at_depth

/-- A scope that binds the name in front of a chain is the nearest one. -/
theorem nearest_zero {i : Nat} (h : m.Binds i name) : m.Nearest (i :: chain) name 0 i :=
  ⟨rfl, h, fun d hd => absurd hd (Nat.not_lt_zero d)⟩

/-- A scope in front of a chain that does not bind the name is passed. -/
theorem nearest_succ_iff {i j depth : Nat} (h : ¬m.Binds i name) :
    m.Nearest (i :: chain) name (depth + 1) j ↔ m.Nearest chain name depth j := by
  constructor
  · intro hnearest
    refine ⟨hnearest.at_depth, hnearest.binds, ?_⟩
    intro d hd k hk
    exact hnearest.least (d + 1) (Nat.succ_lt_succ hd) k hk
  · intro hnearest
    refine ⟨hnearest.at_depth, hnearest.binds, ?_⟩
    intro d hd k hk
    cases d with
    | zero =>
        cases hk
        exact h
    | succ d => exact hnearest.least d (Nat.lt_of_succ_lt_succ hd) k hk

/-- A search finds the nearest scope that binds the name. -/
theorem owner?_eq_some_iff {i : Nat} :
    m.owner? name chain = some i ↔ ∃ depth, m.Nearest chain name depth i := by
  induction chain with
  | nil => exact ⟨nofun, fun ⟨_, h⟩ => nomatch h.at_depth⟩
  | cons j outer ih =>
      unfold owner?
      split
      · rename_i hj
        refine ⟨fun heq => ⟨0, Option.some.inj heq ▸ nearest_zero hj⟩, ?_⟩
        rintro ⟨depth, h⟩
        cases depth with
        | zero => exact h.at_depth
        | succ d => exact absurd hj (h.least 0 (Nat.succ_pos d) j rfl)
      · rename_i hj
        rw [ih]
        refine ⟨fun ⟨depth, h⟩ => ⟨depth + 1, (nearest_succ_iff hj).2 h⟩, ?_⟩
        rintro ⟨depth, h⟩
        cases depth with
        | zero =>
            cases h.at_depth
            exact absurd h.binds hj
        | succ d => exact ⟨d, (nearest_succ_iff hj).1 h⟩

/-- A search ends without a scope when no scope of the chain binds the name. -/
theorem owner?_eq_none_iff : m.owner? name chain = none ↔ ∀ i ∈ chain, ¬m.Binds i name := by
  induction chain with
  | nil => exact ⟨fun _ => nofun, fun _ => rfl⟩
  | cons j outer ih =>
      unfold owner?
      split
      · rename_i hj
        exact ⟨nofun, fun h => absurd hj (h j List.mem_cons_self)⟩
      · rename_i hj
        rw [ih, List.forall_mem_cons]
        exact ⟨fun h => ⟨hj, h⟩, fun h => h.2⟩

/-- There is a nearest scope as soon as a scope of the chain binds the name. -/
theorem exists_nearest_iff :
    (∃ depth i, m.Nearest chain name depth i) ↔ ∃ i ∈ chain, m.Binds i name := by
  constructor
  · rintro ⟨depth, i, h⟩
    exact ⟨i, h.mem, h.binds⟩
  · rintro ⟨i, hi, hbinds⟩
    cases howner : m.owner? name chain with
    | none => exact absurd hbinds (owner?_eq_none_iff.1 howner i hi)
    | some j =>
        obtain ⟨depth, h⟩ := owner?_eq_some_iff.1 howner
        exact ⟨depth, j, h⟩

/-! ## The scope at a depth -/

/-- Why a name cannot be used at a depth. A chain of `n` scopes has one link less than scopes, so that
it has fewer than `depth` links when `n ≤ depth`. -/
inductive Lacks (m : Memory) (chain : Chain) (depth : Nat) (name : String) : Defect → Prop
  | tooShort : chain.length ≤ depth → Lacks m chain depth name (.chainTooShort depth)
  | unbound {i : Nat} : chain[depth]? = some i → ¬m.Binds i name →
      Lacks m chain depth name (.nameMissing name depth)

theorem ancestor?_of_getElem? {depth i : Nat} (h : chain[depth]? = some i) :
    ∃ outer, chain.ancestor? depth = some (i :: outer) := by
  induction chain generalizing depth with
  | nil => exact nomatch h
  | cons j outer ih =>
      cases depth with
      | zero =>
          cases h
          exact ⟨outer, rfl⟩
      | succ d => exact ih h

theorem ancestor?_of_length_le {depth : Nat} (h : chain.length ≤ depth) :
    chain.ancestor? depth = none := by
  induction chain generalizing depth with
  | nil => cases depth <;> rfl
  | cons j outer ih =>
      cases depth with
      | zero => exact absurd h (Nat.not_succ_le_zero _)
      | succ d => exact ih (Nat.le_of_succ_le_succ h)

/-- At a depth there is a scope with a value for the name, or the name is lacking. -/
theorem bound_or_lacks (m : Memory) (chain : Chain) (depth : Nat) (name : String) :
    (∃ i v, chain[depth]? = some i ∧ (m.scope i).get? name = some v) ∨
      ∃ d, m.Lacks chain depth name d := by
  cases hi : chain[depth]? with
  | none => exact .inr ⟨_, .tooShort (List.getElem?_eq_none_iff.1 hi)⟩
  | some i =>
      cases hv : (m.scope i).get? name with
      | none => exact .inr ⟨_, .unbound hi (by unfold Binds Table.has; rw [hv]; exact nofun)⟩
      | some v => exact .inl ⟨i, v, rfl, hv⟩

theorem not_lacks {depth i : Nat} {d : Defect} (hi : chain[depth]? = some i) (h : m.Binds i name) :
    ¬m.Lacks chain depth name d := by
  intro hlacks
  cases hlacks with
  | tooShort hle =>
      rw [List.getElem?_eq_none_iff.2 hle] at hi
      exact nomatch hi
  | unbound hj hnot =>
      rw [hi] at hj
      cases hj
      exact hnot h

/-- A name is lacking at a depth for one reason. -/
theorem Lacks.unique {depth : Nat} {d d' : Defect} (h : m.Lacks chain depth name d)
    (h' : m.Lacks chain depth name d') : d = d' := by
  cases h with
  | tooShort hle =>
      cases h' with
      | tooShort => rfl
      | unbound hi _ =>
          rw [List.getElem?_eq_none_iff.2 hle] at hi
          exact nomatch hi
  | unbound hi _ =>
      cases h' with
      | tooShort hle =>
          rw [List.getElem?_eq_none_iff.2 hle] at hi
          exact nomatch hi
      | unbound => rfl

theorem getAt_of_bound {depth i : Nat} {v : Value} (hi : chain[depth]? = some i)
    (hv : (m.scope i).get? name = some v) : m.getAt chain depth name = .ok v := by
  obtain ⟨outer, hancestor⟩ := ancestor?_of_getElem? hi
  unfold getAt
  rw [hancestor]
  simp only [hv]

theorem ownerAt_of_bound {depth i : Nat} (hi : chain[depth]? = some i) (h : m.Binds i name) :
    m.ownerAt chain depth name = .ok i := by
  obtain ⟨outer, hancestor⟩ := ancestor?_of_getElem? hi
  unfold ownerAt
  rw [hancestor]
  exact if_pos h

theorem assignAt_of_bound {depth i : Nat} (hi : chain[depth]? = some i) (h : m.Binds i name)
    (value : Value) : m.assignAt chain depth name value = .ok (m.bind i name value) := by
  unfold assignAt
  rw [ownerAt_of_bound hi h]
  rfl

theorem getAt_of_lacks {depth : Nat} {d : Defect} (h : m.Lacks chain depth name d) :
    m.getAt chain depth name = .error d := by
  unfold getAt
  cases h with
  | tooShort hle => rw [ancestor?_of_length_le hle]
  | unbound hi hnot =>
      obtain ⟨outer, hancestor⟩ := ancestor?_of_getElem? hi
      rw [hancestor]
      simp only [Option.not_isSome_iff_eq_none.1 hnot]

theorem ownerAt_of_lacks {depth : Nat} {d : Defect} (h : m.Lacks chain depth name d) :
    m.ownerAt chain depth name = .error d := by
  unfold ownerAt
  cases h with
  | tooShort hle => rw [ancestor?_of_length_le hle]
  | unbound hi hnot =>
      obtain ⟨outer, hancestor⟩ := ancestor?_of_getElem? hi
      rw [hancestor]
      exact if_neg hnot

theorem assignAt_of_lacks {depth : Nat} {d : Defect} (h : m.Lacks chain depth name d)
    (value : Value) : m.assignAt chain depth name value = .error d := by
  unfold assignAt
  rw [ownerAt_of_lacks h]
  rfl

/-! ## Rebinding a name -/

/-- A memory that differs from an earlier one in the value of one name in one scope alone. -/
structure Rebound (m m' : Memory) (i : Nat) (name : String) (value : Value) : Prop where
  here : (m'.scope i).get? name = some value
  elsewhere : ∀ j n, ¬(j = i ∧ n = name) → (m'.scope j).get? n = (m.scope j).get? n
  has_eq : ∀ j n, (m'.scope j).has n = (m.scope j).has n
  /-- The names of each scope are the same ones in the same order. -/
  names_eq : ∀ j, (m'.scope j).names = (m.scope j).names
  size_eq : m'.scopes.size = m.scopes.size
  fields_eq : m'.fields = m.fields
  nextId_eq : m'.nextId = m.nextId

/-- Binding a name again where it is bound rebinds it. -/
theorem rebound_bind {i : Nat} (h : m.Binds i name) (value : Value) :
    m.Rebound (m.bind i name value) i name value := by
  have hscope (j : Nat) : (m.bind i name value).scope j =
      if j = i then (m.scope i).put name value else m.scope j := by
    rw [Scoping.scope_bind]
    by_cases hj : j = i
    · subst hj
      rw [if_pos ⟨rfl, h.lt_size⟩, if_pos rfl]
    · rw [if_neg (fun hand => hj hand.1.symm), if_neg hj]
  refine ⟨?_, ?_, ?_, ?_, Scoping.size_bind m i name value, rfl, rfl⟩
  · rw [hscope, if_pos rfl, Table.get?_put_self]
  · intro j n hne
    rw [hscope]
    split
    · rename_i hj
      subst hj
      exact Table.get?_put_of_ne _ _ fun heq => hne ⟨rfl, heq.symm⟩
    · rfl
  · intro j n
    rw [hscope]
    split
    · rename_i hj
      subst hj
      rw [Table.has_put]
      by_cases hn : name = n
      · subst hn
        rw [decide_eq_true rfl, Bool.true_or]
        exact h.symm
      · rw [decide_eq_false hn, Bool.false_or]
    · rfl
  · intro j
    rw [hscope]
    split
    · rename_i hj
      subst hj
      rw [Table.names_put]
      exact if_pos h
    · rfl

namespace Rebound

variable {i : Nat}

/-- The nearest scope stays the nearest one. -/
theorem nearest (h : m.Rebound m' i name value) {other : Chain} {n : String} {depth j : Nat}
    (hnearest : m.Nearest other n depth j) : m'.Nearest other n depth j where
  at_depth := hnearest.at_depth
  binds := (h.has_eq j n).trans hnearest.binds
  least d hd k hk hbinds := hnearest.least d hd k hk ((h.has_eq k n).symm.trans hbinds)

/-- A search finds the same scope as before. -/
theorem owner?_eq (h : m.Rebound m' i name value) (n : String) (other : Chain) :
    m'.owner? n other = m.owner? n other := by
  induction other with
  | nil => rfl
  | cons j outer ih =>
      unfold owner?
      rw [h.has_eq, ih]

/-- What a search sees: the new value when it ends at the name in the scope, else what it saw before. -/
theorem get? (h : m.Rebound m' i name value) (n : String) (other : Chain) :
    m'.get? n other =
      if n = name ∧ m.owner? n other = some i then some value else m.get? n other := by
  unfold Memory.get?
  rw [h.owner?_eq]
  cases howner : m.owner? n other with
  | none =>
      rw [if_neg (fun hand => nomatch hand.2)]
      rfl
  | some j =>
      show (m'.scope j).get? n = if _ then _ else (m.scope j).get? n
      split
      · rename_i hand
        cases hand.2
        rw [hand.1]
        exact h.here
      · rename_i hnot
        exact h.elsewhere j n fun hand => hnot ⟨hand.2, congrArg some hand.1⟩

/-- What is seen at a depth: the new value for the name in the scope, else what was seen before. -/
theorem getAt (h : m.Rebound m' i name value) (n : String) (depth : Nat) (other : Chain) :
    m'.getAt other depth n =
      if n = name ∧ other[depth]? = some i then .ok value else m.getAt other depth n := by
  obtain ⟨j, v, hj, hv⟩ | ⟨d, hlacks⟩ := m.bound_or_lacks other depth n
  · split
    · rename_i hand
      cases hj.symm.trans hand.2
      exact getAt_of_bound hj (hand.1 ▸ h.here)
    · rename_i hnot
      rw [getAt_of_bound hj hv]
      refine getAt_of_bound hj ?_
      rw [h.elsewhere j n fun hand => hnot ⟨hand.2, hj.trans (congrArg some hand.1)⟩, hv]
  · have hlacks' : m'.Lacks other depth n d := by
      cases hlacks with
      | tooShort hle => exact .tooShort hle
      | unbound hk hnot => exact .unbound hk (by unfold Binds; rw [h.has_eq]; exact hnot)
    rw [getAt_of_lacks hlacks', getAt_of_lacks hlacks, if_neg]
    rintro ⟨rfl, hi⟩
    exact not_lacks hi (binds_iff.2 ⟨value, h.here⟩) hlacks'

end Rebound

end Memory

/-! ## What is done with the memory -/

/-- What something that is done with the memory answers, without the memory that it leaves. -/
def Access.answer {α : Type} (a : Access α) (m : Memory) : Except Failure α :=
  match a m with
  | .ok x _ => .ok x
  | .error f _ => .error f

/-- Something that is done with the memory succeeds. -/
def Access.Succeeds {α : Type} (a : Access α) (m : Memory) : Prop := ∃ x m', a m = .ok x m'

namespace Chain

variable {m m' : Memory} {chain : Chain} {name : String} {depth i : Nat}

theorem get_of_nearest {v : Value} (h : m.Nearest chain name depth i)
    (hv : (m.scope i).get? name = some v) (location : Option Location) :
    chain.get name location m = .ok v m := by
  have howner : m.owner? name chain = some i := Memory.owner?_eq_some_iff.2 ⟨depth, h⟩
  have hget : m.get? name chain = some v := by
    unfold Memory.get?
    rw [howner]
    exact hv
  unfold get
  rw [hget]

theorem assign_of_nearest (h : m.Nearest chain name depth i) (value : Value)
    (location : Option Location) :
    chain.assign name value location m = .ok () (m.bind i name value) := by
  have howner : m.owner? name chain = some i := Memory.owner?_eq_some_iff.2 ⟨depth, h⟩
  unfold assign Memory.assign?
  rw [howner]
  rfl

theorem get_of_unbound (h : ∀ i ∈ chain, ¬m.Binds i name) (location : Option Location) :
    chain.get name location m = .error (.runtime ⟨.undefinedVariable name, location⟩) m := by
  unfold get Memory.get?
  rw [Memory.owner?_eq_none_iff.2 h]
  rfl

theorem assign_of_unbound (h : ∀ i ∈ chain, ¬m.Binds i name) (value : Value)
    (location : Option Location) :
    chain.assign name value location m =
      .error (.runtime ⟨.undefinedVariable name, location⟩) m := by
  unfold assign Memory.assign?
  rw [Memory.owner?_eq_none_iff.2 h]
  rfl

/-- What is right at a nearest scope, and fails without one, succeeds when a scope of the chain binds the
name. -/
theorem succeeds_iff_of_search {α : Type} {a : Access α}
    (hnearest : ∀ depth i, m.Nearest chain name depth i → a.Succeeds m)
    (hunbound : (∀ i ∈ chain, ¬m.Binds i name) → ∃ f, a m = .error f m) :
    a.Succeeds m ↔ ∃ i ∈ chain, m.Binds i name := by
  constructor
  · rintro ⟨x, m', hok⟩
    refine Classical.byContradiction fun hnone => ?_
    obtain ⟨f, hfails⟩ := hunbound fun i hi h => hnone ⟨i, hi, h⟩
    rw [hfails] at hok
    exact nomatch hok
  · intro h
    obtain ⟨depth, i, h⟩ := Memory.exists_nearest_iff.2 h
    exact hnearest depth i h

theorem get_succeeds_iff (location : Option Location) :
    (chain.get name location).Succeeds m ↔ ∃ i ∈ chain, m.Binds i name := by
  refine succeeds_iff_of_search (fun depth i h => ?_) fun h => ⟨_, get_of_unbound h location⟩
  obtain ⟨v, hv⟩ := Memory.binds_iff.1 h.binds
  exact ⟨v, m, get_of_nearest h hv location⟩

theorem assign_succeeds_iff (value : Value) (location : Option Location) :
    (chain.assign name value location).Succeeds m ↔ ∃ i ∈ chain, m.Binds i name :=
  succeeds_iff_of_search (fun _ _ h => ⟨(), _, assign_of_nearest h value location⟩)
    fun h => ⟨_, assign_of_unbound h value location⟩

theorem getAt_of_bound {v : Value} (hi : chain[depth]? = some i)
    (hv : (m.scope i).get? name = some v) : chain.getAt depth name m = .ok v m := by
  unfold getAt
  rw [Memory.getAt_of_bound hi hv]

theorem assignAt_of_bound (hi : chain[depth]? = some i) (h : m.Binds i name) (value : Value) :
    chain.assignAt depth name value m = .ok () (m.bind i name value) := by
  unfold assignAt
  rw [Memory.assignAt_of_bound hi h]

theorem getAt_of_lacks {d : Defect} (h : m.Lacks chain depth name d) :
    chain.getAt depth name m = .error (.internal ⟨d, none⟩) m := by
  unfold getAt
  rw [Memory.getAt_of_lacks h]

theorem assignAt_of_lacks {d : Defect} (h : m.Lacks chain depth name d) (value : Value) :
    chain.assignAt depth name value m = .error (.internal ⟨d, none⟩) m := by
  unfold assignAt
  rw [Memory.assignAt_of_lacks h]

/-- What is right where a depth has the name, and fails where it lacks the name, fails nowhere else. -/
theorem eq_error_iff_of_depth {α : Type} {a : Access α}
    (hbound : ∀ i, chain[depth]? = some i → m.Binds i name → a.Succeeds m)
    (hlacks : ∀ d, m.Lacks chain depth name d → a m = .error (.internal ⟨d, none⟩) m)
    {f : Failure} :
    a m = .error f m' ↔ (∃ d, m.Lacks chain depth name d ∧ f = .internal ⟨d, none⟩) ∧ m' = m := by
  constructor
  · intro hfails
    obtain ⟨i, v, hi, hv⟩ | ⟨d, h⟩ := m.bound_or_lacks chain depth name
    · obtain ⟨x, m'', hok⟩ := hbound i hi (Memory.binds_iff.2 ⟨v, hv⟩)
      rw [hok] at hfails
      exact nomatch hfails
    · rw [hlacks d h] at hfails
      cases hfails
      exact ⟨⟨d, h, rfl⟩, rfl⟩
  · rintro ⟨⟨d, h, rfl⟩, rfl⟩
    exact hlacks d h

/-- A name cannot be read at the depths that lack it, and at no others. -/
theorem getAt_eq_error_iff {f : Failure} :
    chain.getAt depth name m = .error f m' ↔
      (∃ d, m.Lacks chain depth name d ∧ f = .internal ⟨d, none⟩) ∧ m' = m := by
  refine eq_error_iff_of_depth (fun i hi h => ?_) fun d h => getAt_of_lacks h
  obtain ⟨v, hv⟩ := Memory.binds_iff.1 h
  exact ⟨v, m, getAt_of_bound hi hv⟩

/-- A name cannot be assigned to at the depths that lack it, and at no others. -/
theorem assignAt_eq_error_iff {value : Value} {f : Failure} :
    chain.assignAt depth name value m = .error f m' ↔
      (∃ d, m.Lacks chain depth name d ∧ f = .internal ⟨d, none⟩) ∧ m' = m :=
  eq_error_iff_of_depth (fun _ hi h => ⟨(), _, assignAt_of_bound hi h value⟩)
    fun _ h => assignAt_of_lacks h value

/-! ## What other chains see -/

theorem answer_get (location : Option Location) :
    (chain.get name location).answer m =
      match m.get? name chain with
      | some value => .ok value
      | none => .error (.runtime ⟨.undefinedVariable name, location⟩) := by
  unfold Access.answer get
  cases m.get? name chain <;> rfl

theorem answer_getAt :
    (chain.getAt depth name).answer m =
      (m.getAt chain depth name).mapError fun d => .internal ⟨d, none⟩ := by
  unfold Access.answer getAt
  cases m.getAt chain depth name <;> rfl

/-- What a search of any chain answers when a name was rebound. -/
theorem answer_get_of_rebound {value : Value} (h : m.Rebound m' i name value) (other : Chain)
    (n : String) (location : Option Location) :
    (other.get n location).answer m' =
      if n = name ∧ m.owner? n other = some i then .ok value
      else (other.get n location).answer m := by
  rw [answer_get, answer_get, h.get?]
  by_cases hseen : n = name ∧ m.owner? n other = some i
  · rw [if_pos hseen, if_pos hseen]
  · rw [if_neg hseen, if_neg hseen]

/-- What is answered at any depth of any chain when a name was rebound. -/
theorem answer_getAt_of_rebound {value : Value} (h : m.Rebound m' i name value) (other : Chain)
    (n : String) (d : Nat) :
    (other.getAt d n).answer m' =
      if n = name ∧ other[d]? = some i then .ok value else (other.getAt d n).answer m := by
  rw [answer_getAt, answer_getAt, h.getAt]
  by_cases hseen : n = name ∧ other[d]? = some i
  · rw [if_pos hseen, if_pos hseen]
    rfl
  · rw [if_neg hseen, if_neg hseen]

end Chain

/-! ## Both ways side by side -/

/-- **Searching for a name and using it at its depth are the same.** A search finds the nearest scope that
binds the name: it reads what is read at that depth, and it assigns with the effect of an assignment at that
depth. An assignment changes the value of one name in one scope, and nothing else; other chains see the new
value where they end at the name in that scope. Without a scope that binds the name a search fails with
`LOX-R001`; at a depth that lacks the name, and at no other, its use is an internal error. What fails changes
nothing. -/
theorem searching_agrees_with_depths (m : Memory) (chain : Chain) (name : String) :
    -- searches succeed
    ((∃ depth i, m.Nearest chain name depth i) ↔ ∃ i ∈ chain, m.Binds i name) ∧
    (∀ location, ((chain.get name location).Succeeds m ↔ ∃ i ∈ chain, m.Binds i name) ∧
      ∀ value, (chain.assign name value location).Succeeds m ↔ ∃ i ∈ chain, m.Binds i name) ∧
    -- they agree with the least depth
    (∀ depth i, m.Nearest chain name depth i →
      (∃ v, (m.scope i).get? name = some v ∧ chain.getAt depth name m = .ok v m ∧
        ∀ location, chain.get name location m = .ok v m) ∧
      ∀ value, ∃ m', chain.assignAt depth name value m = .ok () m' ∧
        ∀ location, chain.assign name value location m = .ok () m' ∧
          chain.get name location m' = .ok value m') ∧
    -- what an assignment at a depth changes, and who sees it
    (∀ depth i, chain[depth]? = some i → m.Binds i name → ∀ value, ∃ m',
      chain.assignAt depth name value m = .ok () m' ∧ m.Rebound m' i name value ∧
      chain.getAt depth name m' = .ok value m' ∧
      ∀ other n,
        (∀ location, (other.get n location).answer m' =
          if n = name ∧ m.owner? n other = some i then .ok value
          else (other.get n location).answer m) ∧
        ∀ d, (other.getAt d n).answer m' =
          if n = name ∧ other[d]? = some i then .ok value else (other.getAt d n).answer m) ∧
    -- searches fail
    ((¬∃ i ∈ chain, m.Binds i name) → ∀ location,
      chain.get name location m = .error (.runtime ⟨.undefinedVariable name, location⟩) m ∧
      (∀ value, chain.assign name value location m =
        .error (.runtime ⟨.undefinedVariable name, location⟩) m) ∧
      (RuntimeError.mk (.undefinedVariable name) location).diagnostic.definition.id = "LOX-R001") ∧
    -- uses at a depth fail
    (∀ depth f m',
      (chain.getAt depth name m = .error f m' ↔
        (∃ d, m.Lacks chain depth name d ∧ f = .internal ⟨d, none⟩) ∧ m' = m) ∧
      ∀ value, chain.assignAt depth name value m = .error f m' ↔
        (∃ d, m.Lacks chain depth name d ∧ f = .internal ⟨d, none⟩) ∧ m' = m) := by
  refine ⟨Memory.exists_nearest_iff, ?_, ?_, ?_, ?_, ?_⟩
  · intro location
    exact ⟨Chain.get_succeeds_iff location, fun value => Chain.assign_succeeds_iff value location⟩
  · intro depth i h
    obtain ⟨v, hv⟩ := Memory.binds_iff.1 h.binds
    refine ⟨⟨v, hv, Chain.getAt_of_bound h.at_depth hv, Chain.get_of_nearest h hv⟩, ?_⟩
    intro value
    have hrebound := Memory.rebound_bind h.binds value
    refine ⟨_, Chain.assignAt_of_bound h.at_depth h.binds value, ?_⟩
    intro location
    exact ⟨Chain.assign_of_nearest h value location,
      Chain.get_of_nearest (hrebound.nearest h) hrebound.here location⟩
  · intro depth i hi h value
    have hrebound := Memory.rebound_bind h value
    exact ⟨_, Chain.assignAt_of_bound hi h value, hrebound,
      Chain.getAt_of_bound hi hrebound.here, fun other n =>
        ⟨Chain.answer_get_of_rebound hrebound other n,
          Chain.answer_getAt_of_rebound hrebound other n⟩⟩
  · intro hnone location
    have hunbound : ∀ i ∈ chain, ¬m.Binds i name := fun i hi h => hnone ⟨i, hi, h⟩
    exact ⟨Chain.get_of_unbound hunbound location,
      fun value => Chain.assign_of_unbound hunbound value location, rfl⟩
  · intro depth f m'
    exact ⟨Chain.getAt_eq_error_iff, fun value => Chain.assignAt_eq_error_iff⟩

/-- Two chains that share their outer scopes. The inner ones are empty, the shared one binds `x` to nil, and
so do the globals to a text. -/
def siblings : Memory :=
  ⟨#[.ofList [("x", .string "global")], .ofList [("y", .nil), ("x", .nil)], .empty, .empty], #[], 0⟩

/-- An assignment is seen from a sibling, and not by the globals, whose `x` is another one. Searching for a
name that nothing binds fails. -/
theorem assignment_seen_by_sibling :
    siblings.Nearest [2, 1, 0] "x" 1 1 ∧
    (∃ m', Chain.assign [2, 1, 0] "x" (.bool true) none siblings = .ok () m' ∧
      Chain.assignAt [2, 1, 0] 1 "x" (.bool true) siblings = .ok () m' ∧
      (m'.scope 1).names = ["y", "x"] ∧
      (Chain.get [3, 1, 0] "x" none).answer m' = .ok (.bool true) ∧
      (Chain.get [0] "x" none).answer m' = .ok (.string "global")) ∧
    (¬∃ i ∈ [2, 1, 0], siblings.Binds i "z") ∧
    Chain.get [2, 1, 0] "z" none siblings =
      .error (.runtime ⟨.undefinedVariable "z", none⟩) siblings := by
  have hnearest : siblings.Nearest [2, 1, 0] "x" 1 1 := by
    refine ⟨rfl, rfl, ?_⟩
    intro d hd j hj
    obtain rfl : d = 0 := Nat.lt_one_iff.1 hd
    cases hj
    exact nofun
  have hunbound : ¬∃ i ∈ [2, 1, 0], siblings.Binds i "z" := by
    rintro ⟨i, hi, h⟩
    have hall : ∀ i ∈ [2, 1, 0], (siblings.scope i).has "z" = false := by decide
    rw [Memory.Binds, hall i hi] at h
    exact nomatch h
  obtain ⟨_, _, hagrees, hchanges, -, -⟩ := searching_agrees_with_depths siblings [2, 1, 0] "x"
  obtain ⟨_, _, _, _, hfails, -⟩ := searching_agrees_with_depths siblings [2, 1, 0] "z"
  obtain ⟨m', hassignAt, hsearch⟩ := (hagrees 1 1 hnearest).2 (.bool true)
  obtain ⟨m'', hassignAt', hrebound, -, hseen⟩ := hchanges 1 1 rfl rfl (.bool true)
  cases hassignAt.symm.trans hassignAt'
  refine ⟨hnearest, ⟨m', (hsearch none).1, hassignAt, ?_, ?_, ?_⟩, hunbound, (hfails hunbound none).1⟩
  · rw [hrebound.names_eq]
    rfl
  · rw [(hseen [3, 1, 0] "x").1 none]
    rfl
  · rw [(hseen [0] "x").1 none]
    rfl

/-! ## Names in a running program -/

/-- Something that is done with the memory of a machine, in the scopes that it sees. -/
def Eval.access {α : Type} (a : Chain → Access α) : Eval α := fun s =>
  match a s.chain s.memory with
  | .ok x memory => .ok x { s with memory }
  | .error f memory => .error (.failure f) { s with memory }

/-- A program reads a resolved name at its depth, and searches the globals for any other. -/
theorem Eval.lookUp_eq_access (name : String) (depth : Option Nat) (location : Location) :
    Eval.lookUp name depth location = Eval.access fun chain =>
      match depth with
      | none => globalChain.get name (some location)
      | some d => chain.getAt d name := by
  funext s
  cases depth with
  | none =>
      unfold Eval.lookUp Eval.access Chain.get
      dsimp only
      cases s.memory.get? name globalChain <;> rfl
  | some d =>
      unfold Eval.lookUp Eval.access Chain.getAt
      dsimp only
      cases s.memory.getAt s.chain d name <;> rfl

/-- A program assigns to a resolved name at its depth, and searches the globals for any other. -/
theorem Eval.assign_eq_access (name : String) (depth : Option Nat) (value : Value)
    (location : Location) :
    Eval.assign name depth value location = Eval.access fun chain =>
      match depth with
      | none => globalChain.assign name value (some location)
      | some d => chain.assignAt d name value := by
  funext s
  cases depth with
  | none =>
      unfold Eval.assign Eval.access Chain.assign Memory.assign?
      dsimp only
      cases s.memory.owner? name globalChain <;> rfl
  | some d =>
      unfold Eval.assign Eval.access Chain.assignAt Memory.assignAt
      dsimp only
      cases s.memory.ownerAt s.chain d name <;> rfl

end Lox
