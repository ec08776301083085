import Lox.Proofs.Scoping.Growth

/-!
# Classes and their methods in memory

A class inherits from a chain of classes, and each of them was there before those that inherit from
it. A method is a closure that stands in the method table of one class. What ties it to that class is
its chain of scopes: the scope in front holds the superclass, exactly if the class has one.

That tie lasts, because what is bound under `this` and `super` in a scope that is there is settled:
it is never changed, and nothing is added under these names.

## Contents
- `Class.ancestry`, `Class.Defines`: the classes that a class inherits from, and method tables.
- `Settles`: later memories in which receivers and superclasses are settled.
- `Aligned`: chains in which the superclass next to a receiver is one of its classes.
- `Housed`, `SoundClass`, `SoundValue`, `SoundMemory`: objects whose methods are where they belong.
- `unique_home`: a method belongs to one class of an ancestry.
-/

namespace Lox

/-! ## Ancestries -/

/-- A class and the classes that it inherits from, the nearest first. -/
def Class.ancestry : Class → List Class
  | ⟨id, name, superclass, methods⟩ =>
    ⟨id, name, superclass, methods⟩ ::
      match superclass with
      | some c => c.ancestry
      | none => []

/-- A class has a closure in its own method table. -/
def Class.Defines (c : Class) (closure : Closure) : Prop := ∃ name, (name, closure) ∈ c.methods

namespace Class

/-- What a class has when its superclass has it, every class has. -/
theorem inherited {P : Class → Prop} (step : ∀ c, (∀ d, c.superclass = some d → P d) → P c) :
    (c : Class) → P c
  | ⟨_, _, none, _⟩ => step _ nofun
  | ⟨_, _, some d, _⟩ => step _ fun _ heq => Option.some.inj heq ▸ inherited step d

theorem ancestry_of_none {c : Class} (h : c.superclass = none) : c.ancestry = [c] := by
  obtain ⟨id, name, superclass, methods⟩ := c
  cases h
  rfl

theorem ancestry_of_some {c d : Class} (h : c.superclass = some d) :
    c.ancestry = c :: d.ancestry := by
  obtain ⟨id, name, superclass, methods⟩ := c
  cases h
  rfl

theorem mem_ancestry {c d : Class} :
    d ∈ c.ancestry ↔ d = c ∨ ∃ e, c.superclass = some e ∧ d ∈ e.ancestry := by
  cases hsuper : c.superclass with
  | none => simp [ancestry_of_none hsuper]
  | some e => simp [ancestry_of_some hsuper]

theorem mem_ancestry_self (c : Class) : c ∈ c.ancestry := mem_ancestry.2 (.inl rfl)

theorem mem_ancestry_superclass {c d : Class} (h : c.superclass = some d) : d ∈ c.ancestry :=
  mem_ancestry.2 (.inr ⟨d, h, d.mem_ancestry_self⟩)

theorem mem_ancestry_trans {c d e : Class} (hd : d ∈ c.ancestry) (he : e ∈ d.ancestry) :
    e ∈ c.ancestry := by
  induction c using inherited with
  | step c ih =>
      rcases mem_ancestry.1 hd with rfl | ⟨b, hb, hd⟩
      · exact he
      · exact mem_ancestry.2 (.inr ⟨b, hb, ih b hb hd⟩)

/-- Of two classes that a class inherits from, one inherits from the other. -/
theorem ancestry_total {c d e : Class} (hd : d ∈ c.ancestry) (he : e ∈ c.ancestry) :
    d ∈ e.ancestry ∨ e ∈ d.ancestry := by
  induction c using inherited with
  | step c ih =>
      rcases mem_ancestry.1 hd with rfl | ⟨b, hb, hdb⟩
      · exact .inr he
      rcases mem_ancestry.1 he with rfl | ⟨b', hb', heb⟩
      · exact .inl hd
      · cases hb.symm.trans hb'
        exact ih b hb hdb heb

/-- A method that is found stands in the table of a class that the class inherits from. -/
theorem exists_of_findMethod? {c : Class} {name : String} {closure : Closure}
    (hfind : c.findMethod? name = some closure) : ∃ d ∈ c.ancestry, d.Defines closure := by
  induction c using inherited with
  | step c ih =>
      obtain ⟨id, className, superclass, methods⟩ := c
      unfold findMethod? at hfind
      cases hown : Table.find? name methods with
      | some own =>
          rw [hown] at hfind
          cases hfind
          exact ⟨_, mem_ancestry_self _, name, Table.mem_of_find? hown⟩
      | none =>
          rw [hown] at hfind
          cases superclass with
          | none => exact nomatch hfind
          | some b =>
              obtain ⟨d, hd, hdefines⟩ := ih b rfl hfind
              exact ⟨d, mem_ancestry.2 (.inr ⟨b, rfl, hd⟩), hdefines⟩

end Class

namespace Receivers

/-! ## Settled names -/

/-- A later memory: what is bound under reserved names in scopes that were there is the same, and so
is what is not bound under them. -/
structure Settles (m m' : Memory) : Prop where
  size_le : m.scopes.size ≤ m'.scopes.size
  nextId_le : m.nextId ≤ m'.nextId
  settled : ∀ i x, Reserved x → i < m.scopes.size → (m'.scope i).get? x = (m.scope i).get? x

namespace Settles

variable {m m' m'' : Memory}

theorem refl (m : Memory) : Settles m m := ⟨Nat.le_refl _, Nat.le_refl _, fun _ _ _ _ => rfl⟩

theorem trans (h : Settles m m') (h' : Settles m' m'') : Settles m m'' where
  size_le := Nat.le_trans h.size_le h'.size_le
  nextId_le := Nat.le_trans h.nextId_le h'.nextId_le
  settled i x hx hi :=
    (h'.settled i x hx (Nat.lt_of_lt_of_le hi h.size_le)).trans (h.settled i x hx hi)

/-- What leaves the scopes alone settles them. -/
theorem of_scopes_eq (hscopes : m'.scopes = m.scopes) (hid : m.nextId ≤ m'.nextId) :
    Settles m m' where
  size_le := Nat.le_of_eq (congrArg Array.size hscopes).symm
  nextId_le := hid
  settled i x _ _ := by
    unfold Memory.scope
    rw [hscopes]

theorem newScope (m : Memory) (bindings : Table Value) : Settles m (m.newScope bindings).2 where
  size_le := by
    rw [Scoping.size_newScope]
    exact Nat.le_succ _
  nextId_le := Nat.le_refl _
  settled i x _ hi := by rw [Scoping.scope_newScope_of_lt bindings hi]

theorem newId (m : Memory) : Settles m m.newId.2 := of_scopes_eq rfl (Nat.le_succ _)

theorem bind (m : Memory) (i : Nat) {x : String} (v : Value) (hx : ¬Reserved x) :
    Settles m (m.bind i x v) where
  size_le := Nat.le_of_eq (Scoping.size_bind m i x v).symm
  nextId_le := Nat.le_refl _
  settled j y hy _ := by
    rw [Scoping.scope_bind]
    split
    · exact Table.get?_put_of_ne _ _ fun heq => hx (heq ▸ hy)
    · rfl

theorem define (m : Memory) (chain : Chain) {x : String} (v : Value) (hx : ¬Reserved x) :
    Settles m (m.define chain x v) := by
  cases chain with
  | nil => exact refl m
  | cons i outer => exact bind m i v hx

end Settles

/-! ## Chains -/

/-- The scopes of a chain are there, and where a scope with a superclass lies right outside a scope
with a receiver, the superclass is one of the classes of the receiver. -/
inductive Aligned (m : Memory) : Chain → Prop
  | nil : Aligned m []
  | cons {i chain} :
      i < m.scopes.size →
      (∀ r j outer c, chain = j :: outer → (m.scope i).get? "this" = some (.instance r) →
        (m.scope j).get? "super" = some (.class c) → c ∈ r.ofClass.ancestry) →
      Aligned m chain → Aligned m (i :: chain)

namespace Aligned

variable {m m' : Memory} {chain : Chain}

theorem settles (h : Aligned m chain) (hsettles : Settles m m') : Aligned m' chain := by
  induction h with
  | nil => exact .nil
  | @cons i chain hi hinherits hchain ih =>
      refine .cons (Nat.lt_of_lt_of_le hi hsettles.size_le) ?_ ih
      intro r j outer c heq hthis hsuper
      subst heq
      cases hchain with
      | cons hj _ _ =>
          rw [hsettles.settled i _ (.inl rfl) hi] at hthis
          rw [hsettles.settled j _ (.inr rfl) hj] at hsuper
          exact hinherits r j outer c rfl hthis hsuper

/-- A new scope without a receiver in front of a chain. -/
theorem push (h : Aligned m chain) {bindings : Table Value}
    (hthis : ∀ r, bindings.get? "this" ≠ some (.instance r)) :
    Aligned (m.newScope bindings).2 (m.scopes.size :: chain) := by
  refine .cons (by rw [Scoping.size_newScope]; exact Nat.lt_succ_self _) ?_
    (h.settles (Settles.newScope m bindings))
  intro r j outer c _ hr _
  rw [Scoping.scope_newScope_self] at hr
  exact absurd hr (hthis r)

theorem ancestor (h : Aligned m chain) {d : Nat} {outer : Chain}
    (hd : chain.ancestor? d = some outer) : Aligned m outer := by
  induction h generalizing d with
  | nil => cases d <;> exact nomatch hd
  | cons hi hinherits hchain ih =>
      cases d with
      | zero =>
          cases hd
          exact .cons hi hinherits hchain
      | succ d => exact ih hd

end Aligned

/-- One scope further out. -/
theorem ancestor?_succ {chain : Chain} {d i j : Nat} {rest outer : Chain}
    (hd : chain.ancestor? d = some (i :: rest))
    (hd' : chain.ancestor? (d + 1) = some (j :: outer)) : rest = j :: outer := by
  induction d generalizing chain with
  | zero =>
      cases chain with
      | nil => exact nomatch hd
      | cons k chain =>
          cases hd
          cases rest with
          | nil => exact nomatch hd'
          | cons k' rest =>
              cases hd'
              rfl
  | succ d ih =>
      cases chain with
      | nil => exact nomatch hd
      | cons k chain => exact ih hd hd'

theorem ancestor?_of_succ {chain : Chain} {d i j : Nat} {outer : Chain}
    (hd : chain.ancestor? d = some (i :: j :: outer)) :
    chain.ancestor? (d + 1) = some (j :: outer) := by
  induction d generalizing chain with
  | zero =>
      cases chain with
      | nil => exact nomatch hd
      | cons k chain =>
          cases hd
          rfl
  | succ d ih =>
      cases chain with
      | nil => exact nomatch hd
      | cons k chain => exact ih hd

/-- The scope in front of a chain holds neither a receiver nor a superclass. -/
def Plain (m : Memory) (chain : Chain) : Prop :=
  ∃ i outer, chain = i :: outer ∧ i < m.scopes.size ∧
    (∀ r, (m.scope i).get? "this" ≠ some (.instance r)) ∧
    ∀ c, (m.scope i).get? "super" ≠ some (.class c)

theorem Plain.settles {m m' : Memory} {chain : Chain} (h : Plain m chain)
    (hsettles : Settles m m') : Plain m' chain := by
  obtain ⟨i, outer, hchain, hi, hthis, hsuper⟩ := h
  refine ⟨i, outer, hchain, Nat.lt_of_lt_of_le hi hsettles.size_le, ?_, ?_⟩
  · rw [hsettles.settled i _ (.inl rfl) hi]
    exact hthis
  · rw [hsettles.settled i _ (.inr rfl) hi]
    exact hsuper

/-- A new scope without reserved names. -/
theorem Plain.push (m : Memory) (chain : Chain) {bindings : Table Value}
    (hbindings : ∀ x, Reserved x → bindings.get? x = none) :
    Plain (m.newScope bindings).2 (m.scopes.size :: chain) := by
  refine ⟨_, _, rfl, by rw [Scoping.size_newScope]; exact Nat.lt_succ_self _, ?_, ?_⟩
  · intro r
    rw [Scoping.scope_newScope_self, hbindings _ (.inl rfl)]
    exact nofun
  · intro c
    rw [Scoping.scope_newScope_self, hbindings _ (.inr rfl)]
    exact nofun

/-! ## Objects -/

/-- A closure that may run: its body binds no reserved name, and its chain is aligned. -/
structure SoundClosure (m : Memory) (closure : Closure) : Prop where
  ordinary : closure.declaration.Ordinary
  aligned : Aligned m closure.chain

/-- The scope in front of a chain holds the superclass of a class, exactly if it has one. -/
def Holds (m : Memory) (chain : Chain) (superclass : Option Class) : Prop :=
  ∃ j outer, chain = j :: outer ∧ j < m.scopes.size ∧
    ∀ c, (m.scope j).get? "super" = some (.class c) ↔ superclass = some c

theorem Holds.settles {m m' : Memory} {chain : Chain} {superclass : Option Class}
    (h : Holds m chain superclass) (hsettles : Settles m m') : Holds m' chain superclass := by
  obtain ⟨j, outer, hchain, hj, hsuper⟩ := h
  refine ⟨j, outer, hchain, Nat.lt_of_lt_of_le hj hsettles.size_le, ?_⟩
  rw [hsettles.settled j _ (.inr rfl) hj]
  exact hsuper

/-- A class that came after its superclass, and whose methods see that superclass. -/
structure Housed (m : Memory) (c : Class) : Prop where
  older : ∀ d, c.superclass = some d → d.id < c.id
  id_lt : c.id < m.nextId
  methods : ∀ closure, c.Defines closure →
    SoundClosure m closure ∧ Holds m closure.chain c.superclass

/-- A class is sound when it and all classes that it inherits from are as they should be. -/
def SoundClass (m : Memory) (c : Class) : Prop := ∀ d ∈ c.ancestry, Housed m d

/-- A closure is a method of an instance: it stands in the table of one of its classes. -/
def Owns (r : Instance) (closure : Closure) : Prop := ∃ d ∈ r.ofClass.ancestry, d.Defines closure

/-- A value is sound when its classes are, and when a bound method belongs to its receiver. -/
def SoundValue (m : Memory) : Value → Prop
  | .function _ closure => SoundClosure m closure
  | .class c => SoundClass m c
  | .method _ closure receiver => SoundClass m receiver.ofClass ∧ Owns receiver closure
  | .instance i => SoundClass m i.ofClass
  | .nil | .bool _ | .number _ | .string _ | .native _ => True

section Later

variable {m m' : Memory} (hsettles : Settles m m')

include hsettles

theorem SoundClosure.settles {closure : Closure} (h : SoundClosure m closure) :
    SoundClosure m' closure := ⟨h.ordinary, h.aligned.settles hsettles⟩

theorem SoundClass.settles {c : Class} (h : SoundClass m c) : SoundClass m' c := by
  intro d hd
  obtain ⟨holder, hid, hmethods⟩ := h d hd
  refine ⟨holder, Nat.lt_of_lt_of_le hid hsettles.nextId_le, fun closure hdefines => ?_⟩
  obtain ⟨hsound, hholds⟩ := hmethods closure hdefines
  exact ⟨hsound.settles hsettles, hholds.settles hsettles⟩

theorem SoundValue.settles {v : Value} (h : SoundValue m v) : SoundValue m' v := by
  cases v with
  | function _ closure => exact SoundClosure.settles hsettles h
  | «class» c => exact SoundClass.settles hsettles h
  | method _ closure receiver => exact ⟨SoundClass.settles hsettles h.1, h.2⟩
  | «instance» i => exact SoundClass.settles hsettles h
  | nil | bool | number | string | native => trivial

end Later

namespace SoundClass

variable {m : Memory} {c d : Class}

theorem ancestor (h : SoundClass m c) (hd : d ∈ c.ancestry) : SoundClass m d :=
  fun e he => h e (Class.mem_ancestry_trans hd he)

/-- **Each class is newer than those that it inherits from.** -/
theorem descends (h : SoundClass m c) : c.ancestry.Pairwise fun d e => e.id < d.id := by
  induction c using Class.inherited with
  | step c ih =>
      cases hsuper : c.superclass with
      | none =>
          rw [Class.ancestry_of_none hsuper]
          exact List.pairwise_singleton _ _
      | some b =>
          have hb : SoundClass m b := h.ancestor (Class.mem_ancestry_superclass hsuper)
          have hpairs := ih b hsuper hb
          have hlt : b.id < c.id := (h c c.mem_ancestry_self).older b hsuper
          rw [Class.ancestry_of_some hsuper, List.pairwise_cons]
          refine ⟨fun e he => ?_, hpairs⟩
          rcases Class.mem_ancestry.1 he with rfl | ⟨a, ha, he⟩
          · exact hlt
          · rw [Class.ancestry_of_some ha, List.pairwise_cons] at hpairs
            exact Nat.lt_trans (hpairs.1 e he) hlt

/-- A class that another one inherits from is not newer. -/
theorem id_le (h : SoundClass m c) (hd : d ∈ c.ancestry) : d.id ≤ c.id := by
  rcases Class.mem_ancestry.1 hd with rfl | ⟨b, hb, hd⟩
  · exact Nat.le_refl _
  · have hpairs := h.descends
    rw [Class.ancestry_of_some hb, List.pairwise_cons] at hpairs
    exact Nat.le_of_lt (hpairs.1 d hd)

/-- No class inherits from a class that has the same superclass. -/
theorem eq_of_superclass_eq (h : SoundClass m c) (hd : d ∈ c.ancestry)
    (hsuper : d.superclass = c.superclass) : d = c := by
  rcases Class.mem_ancestry.1 hd with rfl | ⟨b, hb, hd⟩
  · rfl
  · have hle : d.id ≤ b.id := (h.ancestor (Class.mem_ancestry_superclass hb)).id_le hd
    have hlt : b.id < d.id :=
      (h d (Class.mem_ancestry.2 (.inr ⟨b, hb, hd⟩))).older b (hsuper.trans hb)
    omega

end SoundClass

/-- **A method belongs to one class of an ancestry.** The superclass that it sees tells which. -/
theorem unique_home {m : Memory} {c d e : Class} {closure : Closure} (hc : SoundClass m c)
    (hd : d ∈ c.ancestry) (he : e ∈ c.ancestry) (hclosure : d.Defines closure)
    (hclosure' : e.Defines closure) : d = e := by
  obtain ⟨j, outer, hchain, _, hsuper⟩ := ((hc d hd).methods closure hclosure).2
  obtain ⟨j', outer', hchain', _, hsuper'⟩ := ((hc e he).methods closure hclosure').2
  cases hchain.symm.trans hchain'
  have hsame : d.superclass = e.superclass := by
    refine Option.ext fun b => ?_
    rw [← hsuper b, hsuper' b]
  rcases Class.ancestry_total hd he with hinherits | hinherits
  · exact (hc.ancestor he).eq_of_superclass_eq hinherits hsame
  · exact ((hc.ancestor hd).eq_of_superclass_eq hinherits hsame.symm).symm

/-! ## Memories -/

/-- Values, one after the other. -/
def SoundValues (m : Memory) (vs : List Value) : Prop := ∀ v ∈ vs, SoundValue m v

theorem SoundValues.settles {m m' : Memory} {vs : List Value} (h : SoundValues m vs)
    (hsettles : Settles m m') : SoundValues m' vs := fun v hv => (h v hv).settles hsettles

/-- A memory is sound when the values in it are. -/
def SoundMemory (m : Memory) : Prop := ∀ v, m.Holds v → SoundValue m v

namespace SoundMemory

variable {m m' : Memory} (hm : SoundMemory m)

include hm

/-- A memory in which receivers and superclasses are settled is sound when what is new in it is. -/
theorem step (hsettles : Settles m m') (hnew : ∀ v, m'.Holds v → m.Holds v ∨ SoundValue m' v) :
    SoundMemory m' := by
  intro v hv
  rcases hnew v hv with hold | hnew
  · exact (hm v hold).settles hsettles
  · exact hnew

theorem newScope {entries : List (String × Value)} (hentries : ∀ e ∈ entries, SoundValue m e.2) :
    SoundMemory (m.newScope (Table.ofList entries)).2 := by
  have hsettles := Settles.newScope m (Table.ofList entries)
  refine hm.step hsettles fun v hv => ?_
  rcases Scoping.holds_newScope hv with hold | ⟨x, hmem⟩
  · exact .inl hold
  · exact .inr ((hentries _ hmem).settles hsettles)

theorem newId : SoundMemory m.newId.2 :=
  hm.step (Settles.newId m) fun _ hv => .inl (Scoping.holds_newId hv)

theorem newInstance (c : Class) : SoundMemory (m.newInstance c).2 :=
  hm.step (Settles.of_scopes_eq rfl (Nat.le_refl _)) fun _ hv => .inl (Scoping.holds_newInstance hv)

theorem setField (i : Instance) (name : String) {v : Value} (hv : SoundValue m v) :
    SoundMemory (m.setField i name v) := by
  have hsettles : Settles m (m.setField i name v) := Settles.of_scopes_eq rfl (Nat.le_refl _)
  refine hm.step hsettles fun w hw => ?_
  rcases Scoping.holds_setField hw with hold | rfl
  · exact .inl hold
  · exact .inr (hv.settles hsettles)

theorem bind (i : Nat) {name : String} {v : Value} (hname : ¬Reserved name)
    (hv : SoundValue m v) : SoundMemory (m.bind i name v) := by
  have hsettles := Settles.bind m i v hname
  refine hm.step hsettles fun w hw => ?_
  rcases Scoping.holds_bind hw with hold | rfl
  · exact .inl hold
  · exact .inr (hv.settles hsettles)

theorem define (chain : Chain) {name : String} {v : Value} (hname : ¬Reserved name)
    (hv : SoundValue m v) : SoundMemory (m.define chain name v) := by
  cases chain with
  | nil => exact hm
  | cons i outer => exact hm.bind i hname hv

end SoundMemory

end Receivers

end Lox
