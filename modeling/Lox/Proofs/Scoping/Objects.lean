import Lox.Proofs.Scoping.Agreement

/-!
# What is known of the objects of a session

Functions, classes, methods and instances lie in scopes and fields, and come back long after they
were made, in other scopes and for other inputs. Of each closure that can come back it is known where
it was made: at a moment of the session that was reached, in front of a chain that agreed with the
scopes of its declaration, and still does.

What is known of an object at some time is known of it at every later time, so that a memory keeps
being known when it takes up objects that are known.

## Contents
- `Fits`, `Known`: a chain that fits a declaration, and closures whose making is known.
- `KnownClass`, `KnownValue`, `KnownMemory`: objects made of such closures.
- `KnownMemory.step`: a memory that took up known objects.
-/

namespace Lox.Scoping

variable {h : History}

/-! ## Closures -/

/-- A chain of scopes in front of which a declaration of a function may become a closure. -/
structure Fits (m : Memory) (chain : Chain) (o : Origin) : Prop where
  agrees : Agrees m chain o.scopes
  complete : o.scopes.Complete
  placed : Scopes.Placed o.around.enclosingClass o.outer
  errors : o.resolved.errors = []
  ordinary : o.decl.Ordinary

theorem Fits.later {m m' : Memory} {chain : Chain} {o : Origin} (hfits : Fits m chain o)
    (hlater : Later m m') : Fits m' chain o :=
  { hfits with agrees := hfits.agrees.later hlater }

/-- A closure is known when a moment of the session made it, in front of a chain that fits. -/
def Known (h : History) (m : Memory) (closure : Closure) (isMethod : Bool) : Prop :=
  ∃ o chain k maker memory,
    closure = o.closure chain ∧ o.isMethod = isMethod ∧ Reached h k maker ∧
      Makes h.session.setting maker o chain memory ∧ Later memory m ∧ Fits m chain o

theorem Known.later {m m' : Memory} {closure : Closure} {isMethod : Bool}
    (hknown : Known h m closure isMethod) (hlater : Later m m') : Known h m' closure isMethod := by
  obtain ⟨o, chain, k, maker, memory, hclosure, hmethod, hreached, hmakes, hmade, hfits⟩ := hknown
  exact ⟨o, chain, k, maker, memory, hclosure, hmethod, hreached, hmakes, hmade.trans hlater,
    hfits.later hlater⟩

/-! ## Classes and values -/

/-- A class is known when its methods are, and its superclass. -/
inductive KnownClass (h : History) (m : Memory) : Class → Prop
  | intro {c : Class} :
      (∀ name closure, Table.find? name c.methods = some closure → Known h m closure true) →
      (∀ d, c.superclass = some d → KnownClass h m d) → KnownClass h m c

namespace KnownClass

theorem superclass {m : Memory} {c d : Class} (hc : KnownClass h m c)
    (hd : c.superclass = some d) : KnownClass h m d := by
  cases hc with
  | intro _ hsuper => exact hsuper d hd

theorem later {m m' : Memory} {c : Class} (hc : KnownClass h m c) (hlater : Later m m') :
    KnownClass h m' c := by
  induction hc with
  | intro hmethods _ ih =>
      exact .intro (fun name closure hfind => (hmethods name closure hfind).later hlater) ih

/-- The methods that a class has, or finds in a superclass, are known. -/
theorem known {m : Memory} {c : Class} (hc : KnownClass h m c) {name : String} {closure : Closure}
    (hfind : c.findMethod? name = some closure) : Known h m closure true := by
  induction hc with
  | @intro c hmethods _ ih =>
      obtain ⟨id, className, superclass, methods⟩ := c
      unfold Class.findMethod? at hfind
      cases hown : Table.find? name methods with
      | some own =>
          rw [hown] at hfind
          cases hfind
          exact hmethods name _ hown
      | none =>
          rw [hown] at hfind
          cases superclass with
          | none => exact nomatch hfind
          | some d => exact ih d rfl hfind

end KnownClass

/-- A value is known when the closures in it are. -/
def KnownValue (h : History) (m : Memory) : Value → Prop
  | .function _ closure => Known h m closure false
  | .class c => KnownClass h m c
  | .method _ closure receiver => Known h m closure true ∧ KnownClass h m receiver.ofClass
  | .instance i => KnownClass h m i.ofClass
  | .nil | .bool _ | .number _ | .string _ | .native _ => True

theorem KnownValue.later {m m' : Memory} {v : Value} (hv : KnownValue h m v)
    (hlater : Later m m') : KnownValue h m' v := by
  cases v with
  | function _ closure => exact Known.later hv hlater
  | «class» c => exact KnownClass.later hv hlater
  | method _ closure receiver => exact ⟨Known.later hv.1 hlater, KnownClass.later hv.2 hlater⟩
  | «instance» i => exact KnownClass.later hv hlater
  | nil | bool | number | string | native => trivial

theorem KnownValue.ofLiteral (m : Memory) (l : Literal) : KnownValue h m (.ofLiteral l) := by
  cases l <;> trivial

/-- Values, one after the other. -/
def KnownValues (h : History) (m : Memory) (vs : List Value) : Prop := ∀ v ∈ vs, KnownValue h m v

theorem KnownValues.later {m m' : Memory} {vs : List Value} (hvs : KnownValues h m vs)
    (hlater : Later m m') : KnownValues h m' vs := fun v hv => (hvs v hv).later hlater

theorem KnownValues.cons {m : Memory} {v : Value} {vs : List Value} (hv : KnownValue h m v)
    (hvs : KnownValues h m vs) : KnownValues h m (v :: vs) := by
  intro w hw
  rcases List.mem_cons.1 hw with rfl | hw
  · exact hv
  · exact hvs w hw

/-- An argument, or `nil` in place of one that is missing, is known. -/
theorem KnownValues.headD {m : Memory} {vs : List Value} (hvs : KnownValues h m vs) :
    KnownValue h m (vs.headD .nil) := by
  cases vs with
  | nil => trivial
  | cons v vs => exact hvs v List.mem_cons_self

theorem KnownValues.bindParams {m : Memory} {params : List Param} {args : List Value}
    (hargs : KnownValues h m args) :
    ∀ e ∈ Eval.bindParams params args, KnownValue h m e.2 := by
  induction params generalizing args with
  | nil => exact nofun
  | cons p ps ih =>
      intro e he
      rcases List.mem_cons.1 he with rfl | he
      · exact hargs.headD
      · exact ih (fun v hv => hargs v (List.mem_of_mem_drop hv)) e he

/-! ## Memories -/

/-- A memory is known when the values in its scopes and fields are. -/
structure KnownMemory (h : History) (m : Memory) : Prop where
  scopes : ∀ i x v, (m.scope i).get? x = some v → KnownValue h m v
  fields : ∀ i x v, (m.fieldsOf i).get? x = some v → KnownValue h m v

namespace KnownMemory

theorem holds {m : Memory} (hm : KnownMemory h m) {v : Value} (hv : m.Holds v) :
    KnownValue h m v := by
  cases hv with
  | bound i x hv => exact hm.scopes i x v hv
  | field i x hv => exact hm.fields i x v hv

/-- A later memory is known when what is new in it is. -/
theorem step {m m' : Memory} (hm : KnownMemory h m) (hlater : Later m m')
    (hnew : ∀ v, m'.Holds v → m.Holds v ∨ KnownValue h m' v) : KnownMemory h m' := by
  have hvalues (v : Value) (hv : m'.Holds v) : KnownValue h m' v := by
    rcases hnew v hv with hold | hnew
    · exact (hm.holds hold).later hlater
    · exact hnew
  exact ⟨fun i x v hv => hvalues v (.bound i x hv), fun i x v hv => hvalues v (.field i x hv)⟩

theorem newScope {m : Memory} (hm : KnownMemory h m) {entries : List (String × Value)}
    (hentries : ∀ e ∈ entries, KnownValue h m e.2) :
    KnownMemory h (m.newScope (Table.ofList entries)).2 := by
  have hlater := (grows_newScope m (Table.ofList entries)).toLater
  refine hm.step hlater fun v hv => ?_
  rcases holds_newScope hv with hold | ⟨x, hmem⟩
  · exact .inl hold
  · exact .inr ((hentries _ hmem).later hlater)

theorem newId {m : Memory} (hm : KnownMemory h m) : KnownMemory h m.newId.2 := by
  have hgrows : Grows none m m.newId.2 := grows_of_scopes_eq rfl
  exact hm.step hgrows.toLater fun v hv => .inl (holds_newId hv)

theorem newInstance {m : Memory} (hm : KnownMemory h m) (c : Class) :
    KnownMemory h (m.newInstance c).2 := by
  have hgrows : Grows none m (m.newInstance c).2 := grows_of_scopes_eq rfl
  exact hm.step hgrows.toLater fun v hv => .inl (holds_newInstance hv)

theorem setField {m : Memory} (hm : KnownMemory h m) (i : Instance) (name : String) {v : Value}
    (hv : KnownValue h m v) : KnownMemory h (m.setField i name v) := by
  have hgrows : Grows none m (m.setField i name v) := grows_of_scopes_eq rfl
  refine hm.step hgrows.toLater fun w hw => ?_
  rcases holds_setField hw with hold | rfl
  · exact .inl hold
  · exact .inr (hv.later hgrows.toLater)

/-- Binding a value that is known afterwards. -/
theorem bind {m : Memory} (hm : KnownMemory h m) {i : Nat} {name : String} {v : Value}
    (hlater : Later m (m.bind i name v)) (hv : KnownValue h (m.bind i name v) v) :
    KnownMemory h (m.bind i name v) := by
  refine hm.step hlater fun w hw => ?_
  rcases holds_bind hw with hold | rfl
  · exact .inl hold
  · exact .inr hv

theorem define {m : Memory} (hm : KnownMemory h m) {chain : Chain} {name : String} {v : Value}
    (hname : ¬Reserved name) (hv : KnownValue h (m.define chain name v) v) :
    KnownMemory h (m.define chain name v) := by
  cases chain with
  | nil => exact hm
  | cons i outer => exact hm.bind (grows_bind m i v hname).toLater hv

end KnownMemory

end Lox.Scoping
