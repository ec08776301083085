import Lox.Proofs.Renaming.Values
import Lox.Proofs.Evaluation.Pairs

/-!
# Two runs side by side

A program with other names is executed beside the program itself. Both machines have the same scopes
and instances in memory; the scopes bind the same under other names, and the values are those of the
two runs. A computation follows another one when, from such machines, it ends as the other one does,
in machines of this kind again. The world grows with the scopes that are made on the way.

## Contents
- `Memory.Renamed`, `Machine.Renamed`: the machines of the two runs.
- `Stop.UpToName`: the same reason to stop, up to the name that an internal error tells.
- `Renaming.Follows`: a computation does what another one does, under other names.
- `Follows.bind`, `Follows.within`, `Follows.inCall`, `Follows.lookUp` and the others: the steps.
- `Follows.superMethod` to `Follows.callNative`: the parts of constructs.
- `Host.IgnoresNames`: a host that does not look into functions.
-/

namespace Lox

/-! ## Machines -/

/-- The memories of the two runs. The globals keep their names. -/
structure Memory.Renamed (w : World) (m m' : Memory) : Prop where
  size_eq : m.scopes.size = w.length
  scopes : Table.RenamedAll w.naming (Value.Renamed w) m.scopes m'.scopes
  fields : Table.RenamedAll (fun _ => .same) (Value.Renamed w) m.fields m'.fields
  nextId_eq : m'.nextId = m.nextId
  global : w.head? = some .same

/-- The machines of the two runs. -/
structure Machine.Renamed (w : World) (m m' : Machine) : Prop where
  memory : m.memory.Renamed w m'.memory
  chain_eq : m'.chain = m.chain
  bounds : w.Bounds m.chain
  callDepth_eq : m'.callDepth = m.callDepth
  events_eq : m'.events = m.events
  draws_eq : m'.draws = m.draws

/-- The same reason to stop, except that the name in an internal error may be another one. -/
inductive Stop.UpToName : Stop → Stop → Prop
  | refl (stop : Stop) : UpToName stop stop
  | nameMissing (name name' : String) (depth : Nat) (location : Option Location) :
      UpToName (.failure (.internal ⟨.nameMissing name depth, location⟩))
        (.failure (.internal ⟨.nameMissing name' depth, location⟩))

theorem Stop.UpToName.inCallAt {stop stop' : Stop} (h : stop.UpToName stop') (location : Location) :
    (stop.inCallAt location).UpToName (stop'.inCallAt location) := by
  cases h with
  | refl => exact .refl _
  | nameMissing name name' depth => exact .nameMissing name name' depth _

namespace Memory.Renamed

variable {w : World} {m m' : Memory}

theorem naming_global (h : m.Renamed w m') : w.naming globalScope = .same := by
  unfold World.naming globalScope
  rw [List.getD_eq_getElem?_getD, ← List.head?_eq_getElem?, h.global]
  rfl

theorem scope (h : m.Renamed w m') (i : Nat) :
    (m.scope i).Renamed (w.naming i) (Value.Renamed w) (m'.scope i) := h.scopes.renamed i

/-- Globals have their names. -/
theorem owner?_global (h : m.Renamed w m') (name : String) :
    m'.owner? name globalChain = m.owner? name globalChain := by
  have hhas := (h.scope globalScope).has name
  rw [h.naming_global, Naming.same_of] at hhas
  unfold globalChain Memory.owner?
  rw [hhas]
  rfl

theorem get?_global (h : m.Renamed w m') (name : String) :
    Option.Rel (Value.Renamed w) (m.get? name globalChain) (m'.get? name globalChain) := by
  have hget := (h.scope globalScope).get? name
  rw [h.naming_global, Naming.same_of] at hget
  unfold Memory.get?
  rw [h.owner?_global]
  unfold globalChain Memory.owner?
  split
  · exact hget
  · exact .none

/-- A new scope, with a naming of its own. -/
theorem newScope (h : m.Renamed w m') {f : Naming} {t t' : Table Value}
    (ht : t.Renamed f (Value.Renamed w) t') :
    (m.newScope t).2.Renamed (w ++ [f]) (m'.newScope t').2 := by
  have hle : w <+: w ++ [f] := List.prefix_append w [f]
  have hvalue : ∀ v v' : Value, v.Renamed w v' → v.Renamed (w ++ [f]) v' := fun _ _ hv => hv.mono hle
  constructor
  case size_eq =>
    show (m.scopes.push t).size = _
    rw [Array.size_push, List.length_append, h.size_eq]
    rfl
  case scopes =>
    refine (h.scopes.mono (fun i hi => ?_) hvalue).push ?_
    · exact World.naming_mono hle (h.size_eq ▸ hi)
    · rw [h.size_eq, World.naming_new]
      exact ht.mono hvalue
  case fields => exact h.fields.mono (fun _ _ => rfl) hvalue
  case nextId_eq => exact h.nextId_eq
  case global =>
    rw [List.head?_append, h.global]
    rfl

theorem newInstance (h : m.Renamed w m') (c c' : Class) :
    (m.newInstance c).2.Renamed w (m'.newInstance c').2 :=
  ⟨h.size_eq, h.scopes, h.fields.push .empty, h.nextId_eq, h.global⟩

theorem newId (h : m.Renamed w m') : m.newId.2.Renamed w m'.newId.2 :=
  ⟨h.size_eq, h.scopes, h.fields, congrArg (· + 1) h.nextId_eq, h.global⟩

theorem setField (h : m.Renamed w m') {i i' : Instance} (hi : i.Renamed w i') (name : String)
    {v v' : Value} (hv : v.Renamed w v') :
    (m.setField i name v).Renamed w (m'.setField i' name v') := by
  cases hi with
  | mk id hclass =>
      exact ⟨h.size_eq, h.scopes, h.fields.put id name hv, h.nextId_eq, h.global⟩

theorem bind (h : m.Renamed w m') (i : Nat) (name : String) {v v' : Value}
    (hv : v.Renamed w v') :
    (m.bind i name v).Renamed w (m'.bind i (w.naming i name) v') := by
  refine ⟨?_, h.scopes.put i name hv, h.fields, h.nextId_eq, h.global⟩
  rw [← h.size_eq]
  exact Array.size_modify

end Memory.Renamed

theorem Machine.Renamed.like {w : World} {m m' : Machine} (h : m.Renamed w m') :
    m.Like (Closure.Renamed w) m' := by
  refine ⟨?_, ?_, h.callDepth_eq, h.events_eq⟩
  · rw [Value.like_renamed]
    exact h.memory.fields
  · have hnames := (h.memory.scope globalScope).names
    rw [h.memory.naming_global] at hnames
    rw [hnames]
    exact List.map_id _

namespace Renaming

open Evaluation

/-! ## Computations -/

variable {α β γ δ : Type}

/-- The ends of two computations that began in the world `w`, in machines that see `c`. -/
inductive Ends (w : World) (c : Chain) (R : World → α → β → Prop) :
    EStateM.Result Stop Machine α → EStateM.Result Stop Machine β → Prop
  | ok {w' : World} {m m' : Machine} {a : α} {b : β} (hle : w <+: w') (hm : m.Renamed w' m')
      (hchain : m.chain = c) (h : R w' a b) : Ends w c R (.ok a m) (.ok b m')
  | error {w' : World} {m m' : Machine} {stop stop' : Stop} (hle : w <+: w')
      (hm : m.Renamed w' m') (hchain : m.chain = c) (h : stop.UpToName stop') :
      Ends w c R (.error stop m) (.error stop' m')

theorem Ends.later {w w' : World} {c : Chain} {R : World → α → β → Prop}
    {r : EStateM.Result Stop Machine α} {r' : EStateM.Result Stop Machine β} (hle : w <+: w')
    (h : Ends w' c R r r') : Ends w c R r r' := by
  cases h with
  | ok hle' hm hchain h => exact .ok (hle.trans hle') hm hchain h
  | error hle' hm hchain h => exact .error (hle.trans hle') hm hchain h

/-- From machines of the world `w` that see scopes with the namings `fs`, `y` does what `x` does. -/
def Follows (w : World) (fs : List Naming) (R : World → α → β → Prop) (x : Eval α) (y : Eval β) :
    Prop :=
  ∀ m m', m.Renamed w m' → w.along m.chain = fs → Ends w m.chain R (x m) (y m')

/-- Both computations yield the same. -/
def Same (_ : World) (a b : α) : Prop := b = a

/-- Nothing is known of what the computations yield. -/
def Any (_ : World) (_ : α) (_ : β) : Prop := True

/-- Both computations yield the same chain, which sees scopes with the namings `fs`. -/
structure Seen (fs : List Naming) (w : World) (c c' : Chain) : Prop where
  chain_eq : c' = c
  bounds : w.Bounds c
  along_eq : w.along c = fs

theorem Seen.mono {fs : List Naming} {w w' : World} {c c' : Chain} (h : Seen fs w c c')
    (hle : w <+: w') : Seen fs w' c c' :=
  ⟨h.chain_eq, h.bounds.mono hle, (World.along_mono h.bounds hle).trans h.along_eq⟩

namespace Follows

variable {w : World} {fs gs : List Naming} {R : World → α → β → Prop} {S : World → γ → δ → Prop}

/-! ## Steps of a machine -/

theorem pure {a : α} {b : β} (h : R w a b) : Follows w fs R (Pure.pure a) (Pure.pure b) :=
  fun _ _ hm _ => .ok (List.prefix_refl w) hm rfl h

/-- **Sequencing.** What follows may rely on the world in which the first part ended. -/
theorem bind {x : Eval α} {y : Eval β} {k : α → Eval γ} {l : β → Eval δ}
    (hx : Follows w fs R x y)
    (hk : ∀ w' a b, w <+: w' → R w' a b → Follows w' fs S (k a) (l b)) :
    Follows w fs S (x >>= k) (y >>= l) := by
  intro m m' hm hfs
  rw [bind_apply, bind_apply]
  have hends := hx m m' hm hfs
  cases hresult : x m with
  | ok a m₁ =>
      cases hresult' : y m' with
      | error stop' m₁' =>
          rw [hresult, hresult'] at hends
          exact nomatch hends
      | ok b m₁' =>
          rw [hresult, hresult'] at hends
          cases hends with
          | @ok w' _ _ _ _ hle hm₁ hchain hab =>
              -- the scopes that the machine sees are the ones from before
              have hfs' : w'.along m₁.chain = fs := by
                rw [hchain, World.along_mono hm.bounds hle, hfs]
              have hrest := hk w' a b hle hab m₁ m₁' hm₁ hfs'
              rw [hchain] at hrest
              exact hrest.later hle
  | error stop m₁ =>
      cases hresult' : y m' with
      | error stop' m₁' =>
          rw [hresult, hresult'] at hends
          cases hends with
          | error hle hm₁ hchain hstop => exact .error hle hm₁ hchain hstop
      | ok b m₁' =>
          rw [hresult, hresult'] at hends
          exact nomatch hends

theorem raise (f : Failure) : Follows w fs R (Eval.raise f) (Eval.raise f) :=
  fun _ _ hm _ => .error (List.prefix_refl w) hm rfl (.refl _)

theorem raiseAt (location : Location) (cause : RuntimeError.Cause) :
    Follows w fs R (Eval.raiseAt location cause) (Eval.raiseAt location cause) := raise _

theorem defect (d : Defect) (location : Option Location) :
    Follows w fs R (Eval.defect d location) (Eval.defect d location) := raise _

theorem outOfFuel : Follows w fs R (throw .outOfFuel) (throw .outOfFuel) :=
  fun _ _ hm _ => .error (List.prefix_refl w) hm rfl (.refl _)

theorem liftAt (location : Location) {result : Except RuntimeError.Cause α}
    {result' : Except RuntimeError.Cause β} (h : RenamedResult (R w) result result') :
    Follows w fs R (Eval.liftAt location result) (Eval.liftAt location result') := by
  cases h with
  | ok h => exact pure h
  | error cause => exact raiseAt location cause

theorem chain : Follows w fs (Seen fs) Eval.chain Eval.chain :=
  fun _ _ hm hfs => .ok (List.prefix_refl w) hm rfl ⟨hm.chain_eq, hm.bounds, hfs⟩

theorem draw : Follows w fs Same Eval.draw Eval.draw := fun _ _ hm _ =>
  .ok (List.prefix_refl w)
    ⟨hm.memory, hm.chain_eq, hm.bounds, hm.callDepth_eq, hm.events_eq,
      congrArg (· + 1) hm.draws_eq⟩ rfl hm.draws_eq

/-- A change of the memory. -/
theorem modifyMemory {g h : Memory → Memory}
    (hg : ∀ m m', m.Renamed w m' → (g m).Renamed w (h m')) :
    Follows w fs Any (Eval.modifyMemory g) (Eval.modifyMemory h) := fun _ _ hm _ =>
  .ok (List.prefix_refl w)
    ⟨hg _ _ hm.memory, hm.chain_eq, hm.bounds, hm.callDepth_eq, hm.events_eq, hm.draws_eq⟩ rfl
    trivial

theorem newId : Follows w fs Same (Eval.take (·.newId)) (Eval.take (·.newId)) := fun _ _ hm _ =>
  .ok (List.prefix_refl w)
    ⟨hm.memory.newId, hm.chain_eq, hm.bounds, hm.callDepth_eq, hm.events_eq, hm.draws_eq⟩ rfl
    hm.memory.nextId_eq

theorem newInstance {c c' : Class} (hc : c.Renamed w c') :
    Follows w fs Instance.Renamed (Eval.take (·.newInstance c))
      (Eval.take (·.newInstance c')) := by
  intro m m' hm _
  refine .ok (List.prefix_refl w)
    ⟨hm.memory.newInstance c c', hm.chain_eq, hm.bounds, hm.callDepth_eq, hm.events_eq,
      hm.draws_eq⟩ rfl ?_
  show Instance.Renamed w ⟨m.memory.fields.size, c⟩ ⟨m'.memory.fields.size, c'⟩
  rw [hm.memory.fields.size_eq]
  exact .mk _ hc

theorem setField {i i' : Instance} (hi : i.Renamed w i') (name : String) {v v' : Value}
    (hv : v.Renamed w v') :
    Follows w fs Any (Eval.modifyMemory (·.setField i name v))
      (Eval.modifyMemory (·.setField i' name v')) :=
  modifyMemory fun _ _ hm => hm.setField hi name hv

theorem bindIn (i : Nat) (name : String) {v v' : Value} (hv : v.Renamed w v') :
    Follows w fs Any (Eval.bindIn i name v) (Eval.bindIn i (w.naming i name) v') :=
  modifyMemory fun _ _ hm => hm.bind i name hv

/-- A declaration binds the other name that the innermost scope has for the name. -/
theorem define (name : String) {v v' : Value} (hv : v.Renamed w v') :
    Follows w fs Any (Eval.define name v) (Eval.define (fs.headD .same name) v') := by
  intro m m' hm hfs
  refine .ok (List.prefix_refl w) ⟨?_, hm.chain_eq, hm.bounds, hm.callDepth_eq, hm.events_eq,
    hm.draws_eq⟩ rfl trivial
  show (m.memory.define m.chain name v).Renamed w
    (m'.memory.define m'.chain (fs.headD .same name) v')
  rw [hm.chain_eq, ← hfs]
  cases m.chain with
  | nil => exact hm.memory
  | cons i outer => exact hm.memory.bind i name hv

/-- The naming at a depth is that of the scope at the depth. -/
theorem getD_along {c : Chain} {depth i : Nat} {rest : Chain}
    (h : c.ancestor? depth = some (i :: rest)) :
    (w.along c).getD depth .same = w.naming i := by
  induction c generalizing depth with
  | nil => exact nomatch h
  | cons j outer ih =>
      cases depth with
      | zero =>
          cases h
          rfl
      | succ depth => exact ih h

/-- **A use reads the same under its other name.** -/
theorem lookUp (name : String) (depth : Option Nat) (location : Location) :
    Follows w fs Value.Renamed (Eval.lookUp name depth location)
      (Eval.lookUp (Naming.ofUse fs depth name) depth location) := by
  intro m m' hm hfs
  unfold Eval.lookUp
  cases depth with
  | none =>
      dsimp only [Naming.ofUse]
      rcases Table.cases_of_rel (hm.memory.get?_global name) with
        ⟨hnone, hnone'⟩ | ⟨v, v', hsome, hsome', hv⟩
      · rw [hnone, hnone']
        exact raiseAt location (.undefinedVariable name) m m' hm hfs
      · rw [hsome, hsome']
        exact .ok (List.prefix_refl w) hm rfl hv
  | some depth =>
      dsimp only [Naming.ofUse]
      unfold Memory.getAt
      rw [hm.chain_eq, ← hfs]
      cases hscope : m.chain.ancestor? depth with
      | none => exact defect _ none m m' hm hfs
      | some seen =>
          cases seen with
          | nil => exact defect _ none m m' hm hfs
          | cons i rest =>
              dsimp only
              rw [getD_along hscope]
              rcases Table.cases_of_rel ((hm.memory.scope i).get? name) with
                ⟨hnone, hnone'⟩ | ⟨v, v', hsome, hsome', hv⟩
              · rw [hnone, hnone']
                -- the reason to stop tells the name, which is the other one in the second run
                exact .error (List.prefix_refl w) hm rfl (.nameMissing _ _ depth none)
              · rw [hsome, hsome']
                exact .ok (List.prefix_refl w) hm rfl hv

/-- Receivers and superclasses have the same names in both runs. -/
theorem lookUp_reserved {name : String} (hname : Reserved name) (depth : Option Nat)
    (location : Location) :
    Follows w fs Value.Renamed (Eval.lookUp name depth location)
      (Eval.lookUp name depth location) := by
  have hsame : Follows w fs Value.Renamed _ _ := lookUp name depth location
  rwa [Naming.ofUse_reserved fs depth hname] at hsame

/-- **An assignment reaches the same scope under the other name.** -/
theorem assign (name : String) (depth : Option Nat) {v v' : Value} (hv : v.Renamed w v')
    (location : Location) :
    Follows w fs Any (Eval.assign name depth v location)
      (Eval.assign (Naming.ofUse fs depth name) depth v' location) := by
  intro m m' hm hfs
  unfold Eval.assign
  cases depth with
  | none =>
      dsimp only [Naming.ofUse]
      rw [hm.memory.owner?_global]
      cases howner : m.memory.owner? name globalChain with
      | none => exact raiseAt location (.undefinedVariable name) m m' hm hfs
      | some i =>
          -- an assignment to a global keeps the name
          have hglobal := (Memory.eq_of_owner?_global howner).1
          have hbind : Follows w fs Any _ _ := bindIn i name hv
          have hends := hbind m m' hm hfs
          rw [hglobal, hm.memory.naming_global, Naming.same_of] at hends
          rw [hglobal]
          exact hends
  | some depth =>
      dsimp only [Naming.ofUse]
      unfold Memory.ownerAt
      rw [hm.chain_eq, ← hfs]
      cases hscope : m.chain.ancestor? depth with
      | none => exact defect _ none m m' hm hfs
      | some seen =>
          cases seen with
          | nil => exact defect _ none m m' hm hfs
          | cons i rest =>
              dsimp only
              rw [getD_along hscope, (hm.memory.scope i).has name]
              cases (m.memory.scope i).has name with
              | false => exact .error (List.prefix_refl w) hm rfl (.nameMissing _ _ depth none)
              | true => exact bindIn i name hv m m' hm hfs

/-! ## Scopes and calls -/

theorem within {c c' : Chain} (hseen : Seen gs w c c') {x : Eval α} {y : Eval β}
    (h : Follows w gs R x y) : Follows w fs R (Eval.within c x) (Eval.within c' y) := by
  intro m m' hm _
  have hc := hseen.chain_eq
  subst hc
  have hinside := h { m with chain := c' } { m' with chain := c' }
    ⟨hm.memory, rfl, hseen.bounds, hm.callDepth_eq, hm.events_eq, hm.draws_eq⟩ hseen.along_eq
  unfold Eval.within
  generalize x { m with chain := c' } = r, y { m' with chain := c' } = r' at hinside
  cases hinside with
  | ok hle hm₁ _ hab =>
      exact .ok hle ⟨hm₁.memory, hm.chain_eq, hm.bounds.mono hle, hm₁.callDepth_eq, hm₁.events_eq,
        hm₁.draws_eq⟩ rfl hab
  | error hle hm₁ _ hstop =>
      exact .error hle ⟨hm₁.memory, hm.chain_eq, hm.bounds.mono hle, hm₁.callDepth_eq,
        hm₁.events_eq, hm₁.draws_eq⟩ rfl hstop

theorem inCall (maxCallDepth : Nat) (location : Location) {x : Eval α} {y : Eval β}
    (h : Follows w fs R x y) :
    Follows w fs R (Eval.inCall maxCallDepth location x)
      (Eval.inCall maxCallDepth location y) := by
  intro m m' hm hfs
  unfold Eval.inCall
  rw [hm.callDepth_eq]
  split
  · exact raiseAt location .stackOverflow m m' hm hfs
  · have hinside := h { m with callDepth := m.callDepth + 1 }
      { m' with callDepth := m.callDepth + 1 }
      ⟨hm.memory, hm.chain_eq, hm.bounds, rfl, hm.events_eq, hm.draws_eq⟩ hfs
    generalize x { m with callDepth := m.callDepth + 1 } = r,
      y { m' with callDepth := m.callDepth + 1 } = r' at hinside
    cases hinside with
    | ok hle hm₁ hchain hab =>
        exact .ok hle ⟨hm₁.memory, hm₁.chain_eq, hm₁.bounds, congrArg (· - 1) hm₁.callDepth_eq,
          hm₁.events_eq, hm₁.draws_eq⟩ hchain hab
    | error hle hm₁ hchain hstop =>
        exact .error hle ⟨hm₁.memory, hm₁.chain_eq, hm₁.bounds, congrArg (· - 1) hm₁.callDepth_eq,
          hm₁.events_eq, hm₁.draws_eq⟩ hchain (hstop.inCallAt location)

/-- A new scope in front of a chain, with a naming of its own. -/
theorem enter {f : Naming} {t t' : Table Value} (ht : t.Renamed f (Value.Renamed w) t')
    {c c' : Chain} (hseen : Seen gs w c c') :
    Follows w fs (Seen (f :: gs)) (Eval.enter t c) (Eval.enter t' c') := by
  intro m m' hm _
  have hc := hseen.chain_eq
  subst hc
  have hle : w <+: w ++ [f] := List.prefix_append w [f]
  have hmemory := hm.memory.newScope ht
  have hlater := hseen.mono hle
  refine .ok hle ⟨hmemory, hm.chain_eq, hm.bounds.mono hle, hm.callDepth_eq, hm.events_eq,
    hm.draws_eq⟩ rfl ⟨?_, ?_, ?_⟩
  · show m'.memory.scopes.size :: c' = m.memory.scopes.size :: c'
    rw [hm.memory.scopes.size_eq]
  · intro i hi
    rcases List.mem_cons.1 hi with rfl | hi
    · show m.memory.scopes.size < _
      rw [hm.memory.size_eq, List.length_append]
      exact Nat.lt_succ_self _
    · exact hlater.bounds i hi
  · show (w ++ [f]).naming m.memory.scopes.size :: _ = _
    rw [hm.memory.size_eq, World.naming_new]
    exact congrArg (f :: ·) hlater.along_eq

/-! ## The host -/

theorem print (host : Host) (text : String) :
    Follows w fs Any (Eval.print host text) (Eval.print host text) := by
  intro m m' hm _
  unfold Eval.print
  rw [hm.events_eq]
  cases host.onPrint m.events text with
  | none =>
      exact .ok (List.prefix_refl w) ⟨hm.memory, hm.chain_eq, hm.bounds, hm.callDepth_eq, rfl,
        hm.draws_eq⟩ rfl trivial
  | some f => exact .error (List.prefix_refl w) hm rfl (.refl _)

theorem exit (host : Host) (code : Float) :
    Follows w fs Any (Eval.exit host code) (Eval.exit host code) := by
  intro m m' hm _
  unfold Eval.exit
  dsimp only
  rw [hm.events_eq]
  cases host.onExit m.events code with
  | none =>
      exact .ok (List.prefix_refl w) ⟨hm.memory, hm.chain_eq, hm.bounds, hm.callDepth_eq, rfl,
        hm.draws_eq⟩ rfl trivial
  | some f =>
      exact .error (List.prefix_refl w) ⟨hm.memory, hm.chain_eq, hm.bounds, hm.callDepth_eq, rfl,
        hm.draws_eq⟩ rfl (.refl _)

/-- The relation of the values, as one of values that are alike. -/
theorem values_like : (fun w => Value.Like (Closure.Renamed w)) = Value.Renamed :=
  funext fun _ => Value.like_renamed

/-- What is common to the two runs is enough for all that does not look into scopes. -/
theorem pairClosed (fs : List Naming) :
    PairClosed (· <+: ·) Closure.Renamed fun _ _ w R x y => Follows w fs R x y where
  trans := List.IsPrefix.trans
  mono hle hclosure := hclosure.mono hle
  pure := pure
  bind := bind
  raise := raise
  machine := fun _ _ hm _ => .ok (List.prefix_refl _) hm rfl hm.like
  newId := newId
  draw := draw
  print := print
  exit := exit

/-! ## Parts of constructs -/

theorem superMethod (depth : Option Nat) (name : String) (location : Location) :
    Follows w fs Value.Renamed (Eval.superMethod depth name location)
      (Eval.superMethod depth name location) := by
  unfold Eval.superMethod
  match depth with
  | none => exact defect _ _
  | some 0 => exact defect _ _
  | some (depth + 1) =>
      rw [← values_like]
      refine (pairClosed fs).superMethod name ?_ fun w' _ => ?_
      · rw [values_like]
        exact lookUp_reserved (.inr rfl) _ _
      · rw [values_like]
        exact lookUp_reserved (.inl rfl) _ _

theorem property {object object' : Value} (hobject : object.Renamed w object') (name : String)
    (location : Location) :
    Follows w fs Value.Renamed (Eval.property object name location)
      (Eval.property object' name location) := by
  rw [← Value.like_renamed] at hobject
  rw [← values_like]
  exact (pairClosed fs).property hobject name location

theorem fieldOwner {object object' : Value} (hobject : object.Renamed w object')
    (location : Location) :
    Follows w fs Instance.Renamed (Eval.fieldOwner object location)
      (Eval.fieldOwner object' location) := by
  cases hobject with
  | «instance» hi => exact pure hi
  | _ => exact raiseAt _ _

/-- The superclasses of the two runs. -/
theorem superclassOf (superclass : Option NameUse) :
    Follows w fs
      (fun w c c' => Option.Rel (Class.Renamed w) c c' ∧ c.isSome = superclass.isSome)
      (Eval.superclassOf superclass) (Eval.superclassOf (superclass.map (·.rename fs))) := by
  cases superclass with
  | none => exact pure ⟨.none, rfl⟩
  | some use =>
      refine (lookUp use.name use.depth use.span.start).bind fun w₁ v v' _ hv => ?_
      cases hv with
      | «class» hc => exact pure ⟨.some hc, rfl⟩
      | _ => exact raiseAt _ _

theorem superclasses_mono {w w' : World} (hle : w <+: w') {c c' : Option Class}
    (h : Option.Rel (Class.Renamed w) c c') : Option.Rel (Class.Renamed w') c c' := by
  cases h with
  | none => exact .none
  | some hc => exact .some (hc.mono hle)

/-- The scopes around the methods of a class, without the one of the receiver. -/
theorem methodChain {superclass superclass' : Option Class}
    (h : Option.Rel (Class.Renamed w) superclass superclass') :
    Follows w fs (Seen (Naming.ofClass superclass.isSome fs).tail) (Eval.methodChain superclass)
      (Eval.methodChain superclass') := by
  cases h with
  | none => exact chain
  | some hc =>
      refine chain.bind fun w₁ outer outer' hle hseen => ?_
      exact enter (.single "super" (.class (hc.mono hle))) hseen

theorem makeMethods_renamed {c c' : Chain} (hseen : Seen gs w c c') {plan : Plan}
    {methods : List FunctionDecl}
    (hsuits : plan.Suits fun way => FunctionDecl.scopeIn? way methods) :
    RenamedMethods w (Eval.makeMethods c methods)
      (Eval.makeMethods c' (FunctionDecl.renameAll plan (.same :: gs) methods)) := by
  unfold Eval.makeMethods
  refine Table.Renamed.ofList (f := .same) ?_
  induction methods generalizing plan with
  | nil => exact .nil
  | cons f rest ih =>
      refine .cons ⟨f.name_rename _ _, ?_⟩ (ih hsuits.tailFunctions)
      dsimp only
      rw [FunctionDecl.name_rename, hseen.chain_eq, ← hseen.along_eq]
      exact .mk (plan.below 0) f c _ hseen.bounds hsuits.headFunction

theorem declareClass (name : String) (hname : fs.headD .same name = name)
    (superclass : Option NameUse) {plan : Plan} {methods : List FunctionDecl}
    (hsuits : plan.Suits fun way => FunctionDecl.scopeIn? way methods) :
    Follows w fs Any (Eval.declareClass name superclass methods)
      (Eval.declareClass name (superclass.map (·.rename fs))
        (FunctionDecl.renameAll plan (Naming.ofClass superclass.isSome fs) methods)) := by
  -- the class keeps its name, under which it is bound
  have hdefine {w : World} {v v' : Value} (hv : v.Renamed w v') :
      Follows w fs Any (Eval.define name v) (Eval.define name v') := by
    have hother : Follows w fs Any _ _ := define name hv
    rwa [hname] at hother
  refine (superclassOf superclass).bind fun w₁ c c' _ hsuper => ?_
  obtain ⟨hc, hsome⟩ := hsuper
  refine (hdefine .nil).bind fun w₂ _ _ hle₂ _ => ?_
  refine (methodChain (superclasses_mono hle₂ hc)).bind fun w₃ seen seen' hle₃ hseen => ?_
  refine newId.bind fun w₄ id id' hle₄ hid => ?_
  cases hid
  have hmethods := makeMethods_renamed (hseen.mono hle₄) hsuits
  rw [hsome] at hmethods
  have hc₄ := superclasses_mono (hle₂.trans (hle₃.trans hle₄)) hc
  cases hc₄ with
  | none => exact hdefine (.class (.base hmethods))
  | some hsuper => exact hdefine (.class (.derived hsuper hmethods))

theorem bindParams_renamed {f : Naming} (params : List Param) {args args' : List Value}
    (h : List.Forall₂ (Value.Renamed w) args args') :
    List.Forall₂ (Table.RenamedBinding f (Value.Renamed w)) (Eval.bindParams params args)
      (Eval.bindParams (params.map (·.rename f)) args') := by
  induction params generalizing args args' with
  | nil => exact .nil
  | cons p ps ih => exact .cons ⟨rfl, headD_renamed h⟩ (ih (tail_renamed h))

/-- The scopes that the body of a function sees. -/
theorem bodyChain (plan : Plan) (f : FunctionDecl) {c : Chain} (isInitializer : Bool)
    (hbounds : w.Bounds c) {args args' : List Value}
    (hargs : List.Forall₂ (Value.Renamed w) args args') {receiver receiver' : Option Instance}
    (hreceiver : Option.Rel (Instance.Renamed w) receiver receiver') :
    Follows w fs (Seen (plan [] :: w.around receiver.isSome c))
      (Eval.bodyChain ⟨f, c, isInitializer⟩ args receiver)
      (Eval.bodyChain ⟨f.rename plan (w.around receiver.isSome c), c, isInitializer⟩ args'
        receiver') := by
  obtain ⟨name, params, body, span⟩ := f
  have hbody {w₁ : World} (hle : w <+: w₁) {gs : List Naming} {outer outer' : Chain}
      (hseen : Seen gs w₁ outer outer') :
      Follows w₁ fs (Seen (plan [] :: gs))
        (Eval.enter (Table.ofList (Eval.bindParams params args)) outer)
        (Eval.enter (Table.ofList (Eval.bindParams (params.map (·.rename (plan []))) args'))
          outer') :=
    enter (.ofList (bindParams_renamed params (renamedValues_mono hle hargs))) hseen
  have hseen : Seen (w.along c) w c c := ⟨rfl, hbounds, rfl⟩
  cases hreceiver with
  | none =>
      refine bind (R := Seen (w.along c)) (pure hseen) fun w₁ outer outer' hle hseen => ?_
      exact hbody hle hseen
  | some hi =>
      refine (enter (.single "this" (.instance hi)) hseen).bind fun w₁ outer outer' hle hseen => ?_
      exact hbody hle hseen

theorem callResult {closure closure' : Closure} {isMethod : Bool}
    (hclosure : closure.Renamed w isMethod closure') {receiver receiver' : Option Instance}
    (hreceiver : Option.Rel (Instance.Renamed w) receiver receiver') {flow flow' : Flow}
    (hflow : flow.Renamed w flow') :
    Follows w fs Value.Renamed (Eval.callResult closure receiver flow)
      (Eval.callResult closure' receiver' flow') := by
  unfold Eval.callResult
  rw [hclosure.like.isInitializer_eq, hclosure.like.name_eq]
  split
  · cases hreceiver with
    | none => exact pure .nil
    | some hi => exact pure (.instance hi)
  · cases hflow with
    | normal => exact pure .nil
    | «return» hv => exact pure hv
    | «break» | «continue» => exact defect _ none

end Follows

end Renaming

/-- A host that does not look into functions. What it is given may have other names for local variables
in it: it prints the same then, and answers with the same, under these names. -/
structure Host.IgnoresNames (host : Host) : Prop where
  call : ∀ (w : World) (name : String) (args args' : List Value) (location : Location)
    (callDepth : Nat) (history : Array Event) (turn : Nat),
    List.Forall₂ (Value.Renamed w) args args' →
    (host.call name ⟨args', location, callDepth, history, turn⟩).printed =
        (host.call name ⟨args, location, callDepth, history, turn⟩).printed ∧
      RenamedResult (Value.Renamed w)
        (host.call name ⟨args, location, callDepth, history, turn⟩).result
        (host.call name ⟨args', location, callDepth, history, turn⟩).result

theorem Host.ignoresNames_plain : Host.plain.IgnoresNames where
  call _ _ _ _ _ _ _ _ _ := ⟨rfl, .ok .nil⟩

namespace Renaming

variable {w : World} {fs : List Naming}

theorem Follows.callNative {host : Host} (hhost : host.IgnoresNames) (n : Native)
    {args args' : List Value} (hargs : List.Forall₂ (Value.Renamed w) args args')
    (location : Location) :
    Follows w fs Value.Renamed (Eval.callNative host n args location)
      (Eval.callNative host n args' location) := by
  have hanswers (w : World) : host.AnswersAlike (Closure.Renamed w) := by
    unfold Host.AnswersAlike LikeValues
    rw [Value.like_renamed]
    exact hhost.call w
  rw [← Value.like_renamed] at hargs
  rw [← values_like]
  exact (pairClosed fs).callNative hanswers n hargs location

end Renaming

end Lox
