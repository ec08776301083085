import Lox.Proofs.Increments.Pairing
import Lox.Proofs.Evaluation.Pairs
import Lox.Proofs.Evaluation.Showing
import Lox.Proofs.Scoping.Agreement

/-!
# Two runs, one with moved increments

Both machines have the same instances, and paired scopes with values that are alike; extra scopes are
empty. A computation of the second run follows one of the first when, from such machines, both end in the
same way, in such machines again.

The second run needs more fuel, for the blocks around its increments. So one of the two runs may be
**short** of fuel, and stop where the other one goes on. What it has shown until then, the other one has
shown as well.

## Contents
- `MemoryPair`, `MachinePair`: the memories and the machines of the two runs.
- `Slack`, `Ends`, `Follows`: computations that end in the same way, unless one is short of fuel.
- `Follows.bind`, `Follows.within`, `Follows.inCall`: how they are put together.
- `Follows.lookUp`, `Follows.assign`, `Follows.define`, `Follows.enter`: steps that meet scopes.
- `Follows.superMethod` to `Follows.callResult`: the parts of constructs.
- `Host.IgnoresFunctions`, `Follows.callNative`: hosts that do not look into functions.
-/

namespace Lox

/-- A host that does not look into functions. However the functions that it is given in two calls are
related, it prints the same when these are otherwise the same, and its answers have in them no other
functions than related ones. -/
structure Host.IgnoresFunctions (host : Host) : Prop where
  call : ∀ (K : FunctionRel) (name : String) (args args' : List Value) (location : Location)
    (callDepth : Nat) (history : Array Event) (turn : Nat), LikeValues K args args' →
    (host.call name ⟨args', location, callDepth, history, turn⟩).printed =
        (host.call name ⟨args, location, callDepth, history, turn⟩).printed ∧
      RenamedResult (Value.Like K)
        (host.call name ⟨args, location, callDepth, history, turn⟩).result
        (host.call name ⟨args', location, callDepth, history, turn⟩).result

theorem Host.ignoresFunctions_plain : Host.plain.IgnoresFunctions where
  call _ _ _ _ _ _ _ _ _ := ⟨rfl, .ok .nil⟩

namespace Increments

open Scopes Evaluation

variable {moves : Bool} {w w' : Pairing}

/-! ## Memories -/

/-- The memories of the two runs. -/
structure MemoryPair (moves : Bool) (w : Pairing) (m m' : Memory) : Prop where
  size_eq : m'.scopes.size = w.partners.length
  inside : ∀ {i j}, w.Pairs i j → i < m.scopes.size
  right_unique : ∀ {i j k}, w.Pairs i j → w.Pairs i k → j = k
  scope : ∀ {i j}, w.Pairs i j → (m.scope i).Renamed .same (Alike moves w) (m'.scope j)
  extra : ∀ {j}, w.Extra j → m'.scope j = Table.empty
  bound : ∀ {i x}, w.bound i x → (m.scope i).has x = true
  fields : Table.RenamedAll (fun _ => .same) (Alike moves w) m.fields m'.fields
  nextId_eq : m'.nextId = m.nextId
  global : w.Pairs globalScope globalScope

namespace MemoryPair

variable {m m' : Memory}

theorem has_eq (h : MemoryPair moves w m m') {i j : Nat} (hpair : w.Pairs i j) (x : String) :
    (m'.scope j).has x = (m.scope i).has x := (h.scope hpair).has x

theorem owner?_global (h : MemoryPair moves w m m') (name : String) :
    m'.owner? name globalChain = m.owner? name globalChain := by
  unfold globalChain Memory.owner?
  rw [h.has_eq h.global]
  rfl

theorem get?_global (h : MemoryPair moves w m m') (name : String) :
    Option.Rel (Alike moves w) (m.get? name globalChain) (m'.get? name globalChain) := by
  unfold Memory.get?
  rw [h.owner?_global]
  unfold globalChain Memory.owner?
  split
  · exact (h.scope h.global).get? name
  · exact .none

theorem inside_of_lt (h : MemoryPair moves w m m') {j : Nat} (hj : j < w.partners.length) :
    j < m'.scopes.size := by rwa [h.size_eq]

/-- Outside of the memory nothing is bound. -/
theorem inside_of_bound (h : MemoryPair moves w m m') {i : Nat} {x : String} (hbound : w.bound i x) :
    i < m.scopes.size := by
  refine Nat.lt_of_not_le fun hout => ?_
  have hhas := h.bound hbound
  unfold Memory.scope at hhas
  rw [Array.getD_eq_getD_getElem?, Array.getElem?_eq_none hout] at hhas
  exact nomatch hhas

/-- A new scope in both runs. -/
theorem newScope (h : MemoryPair moves w m m') {t t' : Table Value}
    (ht : t.Renamed .same (Alike moves w) t') :
    MemoryPair moves (w.pair m.scopes.size t) (m.newScope t).2 (m'.newScope t').2 := by
  have hle := w.le_pair m.scopes.size t
  have hvalue : ∀ v v', Alike moves w v v' → Alike moves (w.pair m.scopes.size t) v v' :=
    fun _ _ hv => hv.mono hle
  constructor
  case size_eq => rw [Scoping.size_newScope, h.size_eq, Pairing.length_pair]
  case inside =>
    intro i j hpair
    rw [Scoping.size_newScope]
    rcases Pairing.pairs_pair.1 hpair with hold | ⟨rfl, _⟩
    · exact Nat.lt_succ_of_lt (h.inside hold)
    · exact Nat.lt_succ_self _
  case right_unique =>
    intro i j k hj hk
    -- the new scope of the first run is in none of the old pairs
    rcases Pairing.pairs_pair.1 hj with hj | ⟨hi, rfl⟩
    · rcases Pairing.pairs_pair.1 hk with hk | ⟨hi, _⟩
      · exact h.right_unique hj hk
      · exact absurd hi (Nat.ne_of_lt (h.inside hj))
    · rcases Pairing.pairs_pair.1 hk with hk | ⟨_, rfl⟩
      · exact absurd hi (Nat.ne_of_lt (h.inside hk))
      · rfl
  case scope =>
    intro i j hpair
    rcases Pairing.pairs_pair.1 hpair with hold | ⟨rfl, rfl⟩
    · rw [Scoping.scope_newScope_of_lt t (h.inside hold),
        Scoping.scope_newScope_of_lt t' (h.inside_of_lt hold.lt)]
      exact (h.scope hold).mono hvalue
    · rw [Scoping.scope_newScope_self, ← h.size_eq, Scoping.scope_newScope_self]
      exact ht.mono hvalue
  case extra =>
    intro j hextra
    have hold := Pairing.extra_pair.1 hextra
    rw [Scoping.scope_newScope_of_lt t' (h.inside_of_lt hold.lt)]
    exact h.extra hold
  case bound =>
    rintro i x (hold | ⟨rfl, hx⟩)
    · rw [Scoping.scope_newScope_of_lt t (h.inside_of_bound hold)]
      exact h.bound hold
    · rw [Scoping.scope_newScope_self]
      exact hx
  case fields => exact h.fields.mono (fun _ _ => rfl) hvalue
  case nextId_eq => exact h.nextId_eq
  case global => exact h.global.mono hle

/-- A new scope in the second run, which is extra. -/
theorem newExtra (h : MemoryPair moves w m m') :
    MemoryPair moves w.extra m (m'.newScope Table.empty).2 := by
  have hle := w.le_extra
  have hvalue : ∀ v v', Alike moves w v v' → Alike moves w.extra v v' := fun _ _ hv => hv.mono hle
  constructor
  case size_eq => rw [Scoping.size_newScope, h.size_eq, Pairing.length_extra]
  case inside => exact fun hpair => h.inside (Pairing.pairs_extra.1 hpair)
  case right_unique =>
    exact fun hj hk => h.right_unique (Pairing.pairs_extra.1 hj) (Pairing.pairs_extra.1 hk)
  case scope =>
    intro i j hpair
    have hold := Pairing.pairs_extra.1 hpair
    rw [Scoping.scope_newScope_of_lt Table.empty (h.inside_of_lt hold.lt)]
    exact (h.scope hold).mono hvalue
  case extra =>
    intro j hextra
    rw [Scoping.scope_newScope, h.size_eq]
    split
    · rfl
    · rename_i hj
      exact h.extra ((Pairing.extra_extra.1 hextra).resolve_right hj)
  case bound => exact fun hold => h.bound hold
  case fields => exact h.fields.mono (fun _ _ => rfl) hvalue
  case nextId_eq => exact h.nextId_eq
  case global => exact h.global.mono hle

/-- A binding in two scopes that belong together. -/
theorem bind (h : MemoryPair moves w m m') {i j : Nat} (hpair : w.Pairs i j) (name : String)
    {v v' : Value} (hv : Alike moves (w.know i name) v v') :
    MemoryPair moves (w.know i name) (m.bind i name v) (m'.bind j name v') := by
  have hle := w.le_know i name
  have hvalue : ∀ v v', Alike moves w v v' → Alike moves (w.know i name) v v' :=
    fun _ _ hv => hv.mono hle
  constructor
  case size_eq =>
    rw [Scoping.size_bind]
    exact h.size_eq
  case inside =>
    intro i j hold
    rw [Scoping.size_bind]
    exact h.inside hold
  case right_unique => exact fun hj hk => h.right_unique hj hk
  case scope =>
    intro k l hold
    have hl : l < m'.scopes.size := h.size_eq ▸ Pairing.Pairs.lt hold
    rw [Scoping.scope_bind, Scoping.scope_bind]
    by_cases hk : i = k
    · subst hk
      rw [if_pos ⟨rfl, h.inside hold⟩, if_pos ⟨h.right_unique hpair hold, hl⟩]
      exact ((h.scope hold).mono hvalue).put name hv
    · have hne : j ≠ l := by
        rintro rfl
        exact hk (hpair.left_unique hold)
      rw [if_neg fun heq => hk heq.1, if_neg fun heq => hne heq.1]
      exact (h.scope hold).mono hvalue
  case extra =>
    intro l hextra
    have hne : j ≠ l := by
      rintro rfl
      exact hpair.not_extra hextra
    rw [Scoping.scope_bind, if_neg fun heq => hne heq.1]
    exact h.extra hextra
  case bound =>
    rintro k x (hold | ⟨rfl, rfl⟩)
    · rw [Scoping.scope_bind]
      split
      · rw [Table.has_put, h.bound hold, Bool.or_true]
      · exact h.bound hold
    · rw [Scoping.scope_bind, if_pos ⟨rfl, h.inside hpair⟩, Table.has_put, decide_eq_true rfl,
        Bool.true_or]
  case fields => exact h.fields.mono (fun _ _ => rfl) hvalue
  case nextId_eq => exact h.nextId_eq
  case global => exact h.global

theorem newInstance (h : MemoryPair moves w m m') (c c' : Class) :
    MemoryPair moves w (m.newInstance c).2 (m'.newInstance c').2 :=
  { h with fields := h.fields.push .empty }

theorem newId (h : MemoryPair moves w m m') : MemoryPair moves w m.newId.2 m'.newId.2 :=
  { h with nextId_eq := congrArg (· + 1) h.nextId_eq }

theorem setField (h : MemoryPair moves w m m') {i i' : Instance} (hi : i.Like (Paired moves w) i')
    (name : String) {v v' : Value} (hv : Alike moves w v v') :
    MemoryPair moves w (m.setField i name v) (m'.setField i' name v') := by
  cases hi with
  | mk id hclass => exact { h with fields := h.fields.put id name hv }

/-- Where nothing has moved, anything may. -/
theorem all (h : MemoryPair false w m m') : MemoryPair true w m m' :=
  have hvalue : ∀ v v', Alike false w v v' → Alike true w v v' :=
    fun _ _ hv => Value.Like.mono (fun hf => hf.all) hv
  { h with
    scope := fun hpair => (h.scope hpair).mono hvalue
    fields := h.fields.mono (fun _ _ => rfl) hvalue }

end MemoryPair

/-! ## Machines -/

/-- The machines of the two runs, which see the chains `c` and `c'`. -/
structure MachinePair (moves : Bool) (w : Pairing) (c c' : Chain) (m m' : Machine) : Prop where
  memory : MemoryPair moves w m.memory m'.memory
  left : m.chain = c
  right : m'.chain = c'
  callDepth_eq : m'.callDepth = m.callDepth
  events_eq : m'.events = m.events
  draws_eq : m'.draws = m.draws

theorem MachinePair.like {c c' : Chain} {m m' : Machine} (h : MachinePair moves w c c' m m') :
    m.Like (Paired moves w) m' := by
  refine ⟨h.memory.fields, ?_, h.callDepth_eq, h.events_eq⟩
  rw [(h.memory.scope h.memory.global).names]
  exact List.map_id _

/-! ## Computations -/

section Computations

variable {α β γ δ : Type}

/-- Which of two runs may be short of fuel. -/
inductive Slack
  | none
  | first
  | second

/-- The ends of two computations that see `c` and `c'`: both yield what is related, both stop for the
same reason, or the one that may be short of fuel has run out of it. -/
inductive Ends (slack : Slack) (moves : Bool) (w : Pairing) (c c' : Chain)
    (R : Pairing → α → β → Prop) :
    EStateM.Result Stop Machine α → EStateM.Result Stop Machine β → Prop
  | ok {w' : Pairing} {m m' : Machine} {a : α} {b : β} (hle : w ≤ w')
      (hm : MachinePair moves w' c c' m m') (h : R w' a b) :
      Ends slack moves w c c' R (.ok a m) (.ok b m')
  | error {w' : Pairing} {m m' : Machine} {stop : Stop} (hle : w ≤ w')
      (hm : MachinePair moves w' c c' m m') :
      Ends slack moves w c c' R (.error stop m) (.error stop m')
  | first {m : Machine} {r' : EStateM.Result Stop Machine β} (hslack : slack = .first)
      (hshown : m.events.toList <+: (machineOf r').events.toList) :
      Ends slack moves w c c' R (.error .outOfFuel m) r'
  | second {r : EStateM.Result Stop Machine α} {m' : Machine} (hslack : slack = .second)
      (hshown : m'.events.toList <+: (machineOf r).events.toList) :
      Ends slack moves w c c' R r (.error .outOfFuel m')

/-- From machines of the pairing `w` that see `c` and `c'`, `y` does what `x` does. -/
def Follows (slack : Slack) (moves : Bool) (w : Pairing) (c c' : Chain)
    (R : Pairing → α → β → Prop) (x : Eval α) (y : Eval β) : Prop :=
  ∀ m m', MachinePair moves w c c' m m' → Ends slack moves w c c' R (x m) (y m')

/-- Both computations yield the same. -/
def Same (_ : Pairing) (a b : α) : Prop := b = a

/-- Nothing is known of what the computations yield. -/
def Any (_ : Pairing) (_ : α) (_ : β) : Prop := True

variable {slack : Slack} {c c' d d' : Chain} {R : Pairing → α → β → Prop}
  {S : Pairing → γ → δ → Prop} {x : Eval α} {y : Eval β}

theorem Ends.later {r : EStateM.Result Stop Machine α} {r' : EStateM.Result Stop Machine β}
    (hle : w ≤ w') (h : Ends slack moves w' c c' R r r') : Ends slack moves w c c' R r r' := by
  cases h with
  | ok hle' hm h => exact .ok (le_trans hle hle') hm h
  | error hle' hm => exact .error (le_trans hle hle') hm
  | first hslack hshown => exact .first hslack hshown
  | second hslack hshown => exact .second hslack hshown

namespace Follows

/-- Where neither run is short of fuel, either may be. -/
theorem of_none (h : Follows .none moves w c c' R x y) : Follows slack moves w c c' R x y := by
  intro m m' hm
  have hends := h m m' hm
  generalize x m = r, y m' = r' at hends ⊢
  cases hends with
  | ok hle hm h => exact .ok hle hm h
  | error hle hm => exact .error hle hm
  | first hslack => exact nomatch hslack
  | second hslack => exact nomatch hslack

theorem mono {R' : Pairing → α → β → Prop} (h : Follows slack moves w c c' R x y)
    (hR : ∀ w' a b, w ≤ w' → R w' a b → R' w' a b) : Follows slack moves w c c' R' x y := by
  intro m m' hm
  have hends := h m m' hm
  generalize x m = r, y m' = r' at hends ⊢
  cases hends with
  | ok hle hm h => exact .ok hle hm (hR _ _ _ hle h)
  | error hle hm => exact .error hle hm
  | first hslack hshown => exact .first hslack hshown
  | second hslack hshown => exact .second hslack hshown

theorem pure {a : α} {b : β} (h : R w a b) :
    Follows slack moves w c c' R (Pure.pure a) (Pure.pure b) :=
  fun _ _ hm => .ok le_rfl hm h

/-- **Sequencing.** What follows may rely on the pairing with which the first part ended. A run that was
short of fuel in the first part has shown no more than the other one, since that takes nothing back. -/
theorem bind_of_adds {k : α → Eval γ} {l : β → Eval δ} (hx : Follows slack moves w c c' R x y)
    (hk : ∀ w' a b, w ≤ w' → R w' a b → Follows slack moves w' c c' S (k a) (l b))
    (hadds : slack = .second → ∀ a, Adds (k a)) (hadds' : slack = .first → ∀ b, Adds (l b)) :
    Follows slack moves w c c' S (x >>= k) (y >>= l) := by
  intro m m' hm
  have hends := hx m m' hm
  generalize hr : x m = r, hr' : y m' = r' at hends
  cases hends with
  | ok hle hm₁ hab =>
      rw [bind_of_ok hr, bind_of_ok hr']
      exact (hk _ _ _ hle hab _ _ hm₁).later hle
  | error hle hm₁ =>
      rw [bind_of_error hr, bind_of_error hr']
      exact .error hle hm₁
  | first hslack hshown =>
      rw [bind_of_error hr]
      refine .first hslack ?_
      cases r' with
      | ok b m₁ =>
          rw [bind_of_ok hr']
          exact hshown.trans (hadds' hslack b m₁)
      | error stop m₁ =>
          rw [bind_of_error hr']
          exact hshown
  | second hslack hshown =>
      rw [bind_of_error hr']
      refine .second hslack ?_
      cases r with
      | ok a m₁ =>
          rw [bind_of_ok hr]
          exact hshown.trans (hadds hslack a m₁)
      | error stop m₁ =>
          rw [bind_of_error hr]
          exact hshown

theorem bind {k : α → Eval γ} {l : β → Eval δ} (hx : Follows .none moves w c c' R x y)
    (hk : ∀ w' a b, w ≤ w' → R w' a b → Follows .none moves w' c c' S (k a) (l b)) :
    Follows .none moves w c c' S (x >>= k) (y >>= l) :=
  bind_of_adds hx hk nofun nofun

theorem within (hbody : Follows slack moves w d d' R x y) :
    Follows slack moves w c c' R (Eval.within d x) (Eval.within d' y) := by
  intro m m' hm
  have hends := hbody { m with chain := d } { m' with chain := d' }
    ⟨hm.memory, rfl, rfl, hm.callDepth_eq, hm.events_eq, hm.draws_eq⟩
  unfold Eval.within
  generalize x { m with chain := d } = r, y { m' with chain := d' } = r' at hends
  cases hends with
  | ok hle hm₁ hab =>
      exact .ok hle
        ⟨hm₁.memory, hm.left, hm.right, hm₁.callDepth_eq, hm₁.events_eq, hm₁.draws_eq⟩ hab
  | error hle hm₁ =>
      exact .error hle
        ⟨hm₁.memory, hm.left, hm.right, hm₁.callDepth_eq, hm₁.events_eq, hm₁.draws_eq⟩
  | first hslack hshown => cases r' <;> exact .first hslack hshown
  | second hslack hshown => cases r <;> exact .second hslack hshown

theorem raise (f : Failure) :
    Follows slack moves w c c' R (Eval.raise f) (Eval.raise f) :=
  fun _ _ hm => .error le_rfl hm

theorem raiseAt (location : Location) (cause : RuntimeError.Cause) :
    Follows slack moves w c c' R (Eval.raiseAt location cause) (Eval.raiseAt location cause) :=
  raise _

theorem defect (d : Defect) (location : Option Location) :
    Follows slack moves w c c' R (Eval.defect d location) (Eval.defect d location) := raise _

theorem inCall (maxCallDepth : Nat) (location : Location)
    (hbody : Follows slack moves w c c' R x y) :
    Follows slack moves w c c' R (Eval.inCall maxCallDepth location x)
      (Eval.inCall maxCallDepth location y) := by
  intro m m' hm
  unfold Eval.inCall
  rw [hm.callDepth_eq]
  split
  · exact raiseAt location .stackOverflow m m' hm
  · have hends := hbody { m with callDepth := m.callDepth + 1 }
      { m' with callDepth := m.callDepth + 1 }
      ⟨hm.memory, hm.left, hm.right, rfl, hm.events_eq, hm.draws_eq⟩
    generalize x { m with callDepth := m.callDepth + 1 } = r,
      y { m' with callDepth := m.callDepth + 1 } = r' at hends
    cases hends with
    | ok hle hm₁ hab =>
        exact .ok hle ⟨hm₁.memory, hm₁.left, hm₁.right, congrArg (· - 1) hm₁.callDepth_eq,
          hm₁.events_eq, hm₁.draws_eq⟩ hab
    | error hle hm₁ =>
        exact .error hle ⟨hm₁.memory, hm₁.left, hm₁.right, congrArg (· - 1) hm₁.callDepth_eq,
          hm₁.events_eq, hm₁.draws_eq⟩
    | first hslack hshown => cases r' <;> exact .first hslack hshown
    | second hslack hshown => cases r <;> exact .second hslack hshown

/-! ## Steps of a machine -/

theorem liftAt (location : Location) {result : Except RuntimeError.Cause α}
    {result' : Except RuntimeError.Cause β} (h : RenamedResult (R w) result result') :
    Follows slack moves w c c' R (Eval.liftAt location result) (Eval.liftAt location result') := by
  cases h with
  | ok h => exact pure h
  | error cause => exact raiseAt location cause

/-- The machines themselves. -/
theorem machine :
    Follows slack moves w c c' (fun w' => MachinePair moves w' c c') get get :=
  fun _ _ hm => .ok le_rfl hm hm

theorem chain :
    Follows slack moves w c c' (fun _ e e' => e = c ∧ e' = c') Eval.chain Eval.chain :=
  fun _ _ hm => .ok le_rfl hm ⟨hm.left, hm.right⟩

theorem draw : Follows slack moves w c c' Same Eval.draw Eval.draw := fun _ _ hm =>
  .ok le_rfl { hm with draws_eq := congrArg (· + 1) hm.draws_eq } hm.draws_eq

/-- A change of the memories. -/
theorem modifyMemory {g h : Memory → Memory}
    (hg : ∀ m m', MemoryPair moves w m m' → MemoryPair moves w' (g m) (h m')) (hle : w ≤ w') :
    Follows slack moves w c c' Any (Eval.modifyMemory g) (Eval.modifyMemory h) := fun _ _ hm =>
  .ok hle { hm with memory := hg _ _ hm.memory } trivial

theorem newId : Follows slack moves w c c' Same (Eval.take (·.newId)) (Eval.take (·.newId)) :=
  fun _ _ hm => .ok le_rfl { hm with memory := hm.memory.newId } hm.memory.nextId_eq

theorem newInstance {f f' : Class} (hf : f.Like (Paired moves w) f') :
    Follows slack moves w c c' (fun w' => Instance.Like (Paired moves w'))
      (Eval.take (·.newInstance f)) (Eval.take (·.newInstance f')) := by
  intro m m' hm
  refine .ok le_rfl { hm with memory := hm.memory.newInstance f f' } ?_
  show Instance.Like _ ⟨m.memory.fields.size, f⟩ ⟨m'.memory.fields.size, f'⟩
  rw [hm.memory.fields.size_eq]
  exact .mk _ hf

theorem setField {i i' : Instance} (hi : i.Like (Paired moves w) i') (name : String)
    {v v' : Value} (hv : Alike moves w v v') :
    Follows slack moves w c c' Any (Eval.modifyMemory (·.setField i name v))
      (Eval.modifyMemory (·.setField i' name v')) :=
  modifyMemory (fun _ _ hm => hm.setField hi name hv) le_rfl

theorem bindIn {i j : Nat} (hpair : w.Pairs i j) (name : String) {v v' : Value}
    (hv : Alike moves w v v') :
    Follows slack moves w c c' Any (Eval.bindIn i name v) (Eval.bindIn j name v') :=
  modifyMemory (fun _ _ hm => hm.bind hpair name (hv.mono (w.le_know i name)))
    (w.le_know i name)

theorem print (host : Host) (text : String) :
    Follows slack moves w c c' Any (Eval.print host text) (Eval.print host text) := by
  intro m m' hm
  unfold Eval.print
  rw [hm.events_eq]
  cases host.onPrint m.events text with
  | none => exact .ok le_rfl { hm with events_eq := rfl } trivial
  | some f => exact .error le_rfl hm

theorem exit (host : Host) (code : Float) :
    Follows slack moves w c c' Any (Eval.exit host code) (Eval.exit host code) := by
  intro m m' hm
  unfold Eval.exit
  dsimp only
  rw [hm.events_eq]
  cases host.onExit m.events code with
  | none => exact .ok le_rfl { hm with events_eq := rfl } trivial
  | some f => exact .error le_rfl { hm with events_eq := rfl }

/-- What is common to the two runs is enough for all that does not look into scopes. -/
theorem pairClosed (moves : Bool) (c c' : Chain) :
    PairClosed (· ≤ ·) (Paired moves) fun _ _ w R x y => Follows .none moves w c c' R x y where
  trans := le_trans
  mono hle hf := hf.mono hle
  pure := pure
  bind := bind
  raise := raise
  machine := machine.mono fun _ _ _ _ hm => hm.like
  newId := newId
  draw := draw
  print := print
  exit := exit

/-! ## Names -/

/-- **A use reads the same.** Where the depths lead, the scopes belong together; and where the name may
be missing, the depths are the same, and so is the reason to stop. -/
theorem lookUp {name : String} {depth depth' : Option Nat} (h : Leads w c c' name depth depth')
    (location : Location) :
    Follows slack moves w c c' (Alike moves) (Eval.lookUp name depth location)
      (Eval.lookUp name depth' location) := by
  intro m m' hm
  unfold Eval.lookUp
  cases h with
  | global =>
      dsimp only
      rcases Table.cases_of_rel (hm.memory.get?_global name) with
        ⟨hnone, hnone'⟩ | ⟨v, v', hsome, hsome', hv⟩
      · rw [hnone, hnone']
        exact raiseAt location (.undefinedVariable name) m m' hm
      · rw [hsome, hsome']
        exact .ok le_rfl hm hv
  | @scope d d' i j outer outer' hi hj hpair hbound =>
      dsimp only
      unfold Memory.getAt
      rw [hm.left, hm.right, hi, hj]
      dsimp only
      have hscope := (hm.memory.scope hpair).get? name
      rcases Table.cases_of_rel hscope with ⟨hnone, hnone'⟩ | ⟨v, v', hsome, hsome', hv⟩
      · rw [hnone, show (m'.memory.scope j).get? name = _ from hnone']
        rcases hbound with hbound | rfl
        · have hhas := hm.memory.bound hbound
          unfold Table.has at hhas
          rw [hnone] at hhas
          exact nomatch hhas
        · exact defect _ none m m' hm
      · rw [hsome, show (m'.memory.scope j).get? name = _ from hsome']
        exact .ok le_rfl hm hv

/-- **An assignment reaches scopes that belong together.** -/
theorem assign {name : String} {depth depth' : Option Nat} (h : Leads w c c' name depth depth')
    {v v' : Value} (hv : Alike moves w v v') (location : Location) :
    Follows slack moves w c c' Any (Eval.assign name depth v location)
      (Eval.assign name depth' v' location) := by
  intro m m' hm
  unfold Eval.assign
  cases h with
  | global =>
      dsimp only
      rw [hm.memory.owner?_global]
      cases howner : m.memory.owner? name globalChain with
      | none => exact raiseAt location (.undefinedVariable name) m m' hm
      | some i =>
          have hglobal := (Memory.eq_of_owner?_global howner).1
          rw [hglobal]
          exact bindIn hm.memory.global name hv m m' hm
  | @scope d d' i j outer outer' hi hj hpair hbound =>
      dsimp only
      unfold Memory.ownerAt
      rw [hm.left, hm.right, hi, hj]
      dsimp only
      rw [hm.memory.has_eq hpair]
      cases hhas : (m.memory.scope i).has name with
      | true => exact bindIn hpair name hv m m' hm
      | false =>
          rcases hbound with hbound | rfl
          · exact absurd (hm.memory.bound hbound) (Bool.eq_false_iff.1 hhas)
          · exact defect _ none m m' hm

/-- **A declaration** binds its name in scopes that belong together, and behind it the static scopes
promise the name. -/
theorem define {scopes scopes' : Scopes} (hlevel : Level w scopes scopes' c c') (name : String)
    {v v' : Value}
    (hv : ∀ w', w ≤ w' → Level w' (scopes.define name) (scopes'.define name) c c' →
      Alike moves w' v v') :
    Follows slack moves w c c'
      (fun w' _ _ => Level w' (scopes.define name) (scopes'.define name) c c')
      (Eval.define name v) (Eval.define name v') := by
  intro m m' hm
  unfold Eval.define Memory.define
  rw [hm.left, hm.right]
  cases hlevel with
  | globals =>
      have hle := w.le_know globalScope name
      have hmemory := hm.memory.bind hm.memory.global name (hv _ hle .globals)
      exact .ok hle { hm with memory := hmemory, left := rfl, right := rfl } .globals
  | @scope scope outer outer' i j e e' hpair hbound hrest =>
      have hle := w.le_know i name
      have hlater : Level (w.know i name) (Scopes.define (scope :: outer) name)
          (Scopes.define (scope :: outer') name) (i :: e) (j :: e') := by
        refine .scope (hpair.mono hle) ?_ (hrest.mono hle)
        intro x hx
        rw [Table.has_put, Bool.or_eq_true] at hx
        rcases hx with heq | hx
        · exact .inr ⟨rfl, (of_decide_eq_true heq).symm⟩
        · exact .inl (hbound x hx)
      have hmemory := hm.memory.bind hpair name (hv _ hle hlater)
      exact .ok hle { hm with memory := hmemory, left := rfl, right := rfl } hlater

/-- A new scope in both runs, in front of chains that see paired scopes. -/
theorem enter {t t' : Table Value} (ht : t.Renamed .same (Alike moves w) t') {scope : Scope}
    (hscope : ∀ x, scope.has x = true → t.has x = true) {scopes scopes' : Scopes}
    (hchains : Chains w scopes scopes' d d') :
    Follows slack moves w c c' (fun w' => Level w' (scope :: scopes) (scope :: scopes'))
      (Eval.enter t d) (Eval.enter t' d') := by
  intro m m' hm
  have hle := w.le_pair m.memory.scopes.size t
  refine .ok hle { hm with memory := hm.memory.newScope ht } ?_
  refine .scope (Pairing.pairs_pair.2 (.inr ⟨rfl, hm.memory.size_eq⟩)) ?_ (hchains.mono hle)
  exact fun x hx => .inr ⟨rfl, hscope x hx⟩

/-- A block around a piece of the second program. -/
theorem extra (h : ∀ w' j, w ≤ w' → w'.Extra j → Follows slack moves w' c (j :: c') R x y) :
    Follows slack moves w c c' R x
      (Eval.chain >>= fun outer => Eval.enter Table.empty outer >>= fun seen =>
        Eval.within seen y) := by
  intro m m' hm
  have hle := w.le_extra
  have hextra : w.extra.Extra m'.memory.scopes.size :=
    Pairing.extra_extra.2 (.inr hm.memory.size_eq)
  have hends := h w.extra _ hle hextra m
    { m' with
      memory := (m'.memory.newScope Table.empty).2
      chain := m'.memory.scopes.size :: c' }
    ⟨hm.memory.newExtra, hm.left, rfl, hm.callDepth_eq, hm.events_eq, hm.draws_eq⟩
  have hseen : Eval.enter Table.empty c' m' =
      .ok (m'.memory.scopes.size :: c') { m' with memory := (m'.memory.newScope Table.empty).2 } :=
    rfl
  rw [bind_of_ok (show Eval.chain m' = .ok c' m' by rw [← hm.right]; rfl), bind_of_ok hseen]
  unfold Eval.within
  dsimp only
  generalize x m = r, y _ = r' at hends
  cases hends with
  | ok hle' hm₁ hab => exact .ok (le_trans hle hle') { hm₁ with right := hm.right } hab
  | error hle' hm₁ => exact .error (le_trans hle hle') { hm₁ with right := hm.right }
  | first hslack hshown => cases r' <;> exact .first hslack hshown
  | second hslack hshown => exact .second hslack hshown

/-! ## Parts of constructs -/

/-- `this` lies one scope inside `super`, in both programs. -/
theorem superMethod {scopes scopes' : Scopes} (hsees : Sees w scopes scopes' c c')
    (hplaced : InPlace .derived scopes scopes') (name : String) (location : Location) :
    Follows .none moves w c c' (Alike moves)
      (Eval.superMethod (scopes.distance? "super") name location)
      (Eval.superMethod (scopes'.distance? "super") name location) := by
  obtain ⟨⟨d, hthis, hsuper⟩, ⟨d', hthis', hsuper'⟩⟩ := hplaced
  have hleads := hsees.leads "super"
  rw [hsuper, hsuper'] at hleads
  rw [hsuper, hsuper']
  refine (pairClosed moves c c').superMethod name (lookUp hleads location) fun w₁ hle => ?_
  have hleads₁ : Leads w₁ c c' "this" (some d) (some d') := by
    have hlater := (hsees.mono hle).leads "this"
    rwa [hthis, hthis'] at hlater
  exact lookUp hleads₁ location

theorem property {object object' : Value} (hobject : Alike moves w object object')
    (name : String) (location : Location) :
    Follows .none moves w c c' (Alike moves) (Eval.property object name location)
      (Eval.property object' name location) :=
  (pairClosed moves c c').property hobject name location

theorem fieldOwner {object object' : Value} (hobject : Alike moves w object object')
    (location : Location) :
    Follows .none moves w c c' (fun w' => Instance.Like (Paired moves w'))
      (Eval.fieldOwner object location) (Eval.fieldOwner object' location) := by
  cases hobject with
  | «instance» hi => exact pure hi
  | _ => exact raiseAt _ _

/-- The superclasses of the two runs. -/
theorem superclassOf {scopes scopes' : Scopes} (hsees : Sees w scopes scopes' c c') (name : String)
    (superclass : Option NameUse) :
    Follows .none moves w c c'
      (fun w' f f' => Option.Rel (Class.Like (Paired moves w')) f f' ∧
        f.isSome = superclass.isSome)
      (Eval.superclassOf (resolveSuperclass scopes name superclass).value)
      (Eval.superclassOf (resolveSuperclass scopes' name superclass).value) := by
  cases superclass with
  | none => exact pure ⟨.none, rfl⟩
  | some use =>
      refine (lookUp (hsees.leads use.name) use.span.start).bind fun w₁ v v' _ hv => ?_
      cases hv with
      | «class» hf => exact pure ⟨.some hf, rfl⟩
      | _ => exact raiseAt _ _

theorem superclass_mono (hle : w ≤ w') {f f' : Option Class}
    (h : Option.Rel (Class.Like (Paired moves w)) f f') :
    Option.Rel (Class.Like (Paired moves w')) f f' := by
  cases h with
  | none => exact .none
  | some hf => exact .some (hf.mono fun h => h.mono hle)

/-- A scope with one name, which is bound in both runs. -/
theorem enterOne (name : String) {v v' : Value} (hv : Alike moves w v v') {scopes scopes' : Scopes}
    (hchains : Chains w scopes scopes' d d') :
    Follows .none moves w c c'
      (fun w' => Chains w' (scopes.enterWith name) (scopes'.enterWith name))
      (Eval.enter (Table.ofList [(name, v)]) d) (Eval.enter (Table.ofList [(name, v')]) d') := by
  have hscope (x : String) (hx : ((Table.empty : Scope).put name true).has x = true) :
      (Table.ofList [(name, v)]).has x = true := by
    show ((Table.empty : Table Value).put name v).has x = true
    rw [Table.has_put] at hx ⊢
    exact hx
  exact (enter (.single name hv) hscope hchains).mono fun _ _ _ _ hlevel => hlevel.chains

/-- The scopes around the methods of a class, without the one of the receiver. -/
theorem methodChain {scopes scopes' : Scopes} (hchains : Chains w scopes scopes' c c')
    {superclass superclass' : Option Class}
    (h : Option.Rel (Class.Like (Paired moves w)) superclass superclass') :
    Follows .none moves w c c'
      (fun w' => Chains w' (scopes.enterSuper superclass.isSome)
        (scopes'.enterSuper superclass.isSome))
      (Eval.methodChain superclass) (Eval.methodChain superclass') := by
  cases h with
  | none =>
      refine chain.mono fun w₁ e e' hle he => ?_
      rw [he.1, he.2]
      exact hchains.mono hle
  | some hf =>
      refine chain.bind fun w₁ e e' hle he => ?_
      rw [he.1, he.2]
      exact enterOne "super" (.class (hf.mono fun h => h.mono hle)) (hchains.mono hle)

theorem makeMethods_alike {scopes scopes' : Scopes} {derived : Bool}
    (hchains : Chains w (scopes.enterSuper derived) (scopes'.enterSuper derived) d d')
    {a : Surroundings} (ha : a.enclosingClass = if derived then .derived else .base)
    {methods methods' : List FunctionDecl} (hmoved : FunctionDecl.MovedAll moves methods methods')
    (hordinary : FunctionDecl.OrdinaryAll methods) :
    LikeMethods (Paired moves w)
      (Eval.makeMethods d (FunctionDecl.resolveAll a (scopes.enterClass derived) methods).value)
      (Eval.makeMethods d'
        (FunctionDecl.resolveAll a (scopes'.enterClass derived) methods').value) := by
  have hplaced : InPlace a.enclosingClass (scopes.enterClass derived)
      (scopes'.enterClass derived) := by
    rw [ha]
    exact ⟨placed_enterClass scopes derived, placed_enterClass scopes' derived⟩
  have hname (f : FunctionDecl) (scopes : Scopes) (kind : FunctionKind) :
      (f.resolve a scopes kind).value.name = f.name := by
    cases f
    rfl
  unfold Eval.makeMethods
  refine Table.Renamed.ofList (f := .same) ?_
  rw [FunctionDecl.resolveAll_value, FunctionDecl.resolveAll_value]
  induction methods generalizing methods' with
  | nil =>
      cases hmoved
      exact .nil
  | cons f rest ih =>
      cases hmoved with
      | cons hf hrest =>
          refine .cons ⟨?_, ?_⟩ (ih hrest hordinary.2)
          · dsimp only
            rw [hname, hname, hf.name_eq]
            rfl
          · dsimp only
            rw [hname, hname, hf.name_eq]
            exact (Paired.mk _ hf hordinary.1 hplaced hchains).like

/-- **The declaration of a class.** -/
theorem declareClass {scopes scopes' : Scopes} (hlevel : Level w scopes scopes' c c')
    (name : String) (superclass : Option NameUse) {a : Surroundings}
    (ha : a.enclosingClass = if superclass.isSome then .derived else .base)
    {methods methods' : List FunctionDecl} (hmoved : FunctionDecl.MovedAll moves methods methods')
    (hordinary : FunctionDecl.OrdinaryAll methods) :
    Follows .none moves w c c'
      (fun w' _ _ => Level w' (scopes.define name) (scopes'.define name) c c')
      (Eval.declareClass name (resolveSuperclass (scopes.define name) name superclass).value
        (FunctionDecl.resolveAll a ((scopes.define name).enterClass superclass.isSome) methods).value)
      (Eval.declareClass name (resolveSuperclass (scopes'.define name) name superclass).value
        (FunctionDecl.resolveAll a ((scopes'.define name).enterClass superclass.isSome)
          methods').value) := by
  refine (superclassOf (hlevel.sees_mark name true) name superclass).bind fun w₁ f f' hle₁ hf => ?_
  obtain ⟨hsuper, hsome⟩ := hf
  refine (define (hlevel.mono hle₁) name fun _ _ _ => .nil).bind fun w₂ _ _ hle₂ hlevel₂ => ?_
  refine (methodChain hlevel₂.chains (superclass_mono hle₂ hsuper)).bind
    fun w₃ seen seen' hle₃ hseen => ?_
  rw [hsome] at hseen
  refine newId.bind fun w₄ id id' hle₄ hid => ?_
  cases hid
  have hle := le_trans hle₂ (le_trans hle₃ hle₄)
  refine define (hlevel.mono (le_trans hle₁ hle)) name fun w₅ hle₅ _ => ?_
  have hmethods := makeMethods_alike (hseen.mono (le_trans hle₄ hle₅)) ha hmoved hordinary
  cases superclass_mono (le_trans hle hle₅) hsuper with
  | none => exact .class (.base hmethods)
  | some hf => exact .class (.derived hf hmethods)

theorem bindParams_alike (params : List Param) {args args' : List Value}
    (h : LikeValues (Paired moves w) args args') :
    List.Forall₂ (Table.RenamedBinding .same (Alike moves w)) (Eval.bindParams params args)
      (Eval.bindParams params args') := by
  induction params generalizing args args' with
  | nil => exact .nil
  | cons p ps ih => exact .cons ⟨rfl, LikeValues.headD h⟩ (ih (LikeValues.tail h))

/-- The scopes that the body of a function sees. -/
theorem bodyChain {scopes scopes' : Scopes} {closure closure' : Closure}
    (hchains : Chains w scopes scopes' closure.chain closure'.chain) (params : List Param)
    (hparams : closure.declaration.params = params)
    (hparams' : closure'.declaration.params = params) {args args' : List Value}
    (hargs : LikeValues (Paired moves w) args args') {receiver receiver' : Option Instance}
    (hreceiver : Option.Rel (Instance.Like (Paired moves w)) receiver receiver') :
    Follows .none moves w c c'
      (fun w' => Level w' (Param.resolveAll (around receiver.isSome scopes).enter params).value
        (Param.resolveAll (around receiver.isSome scopes').enter params).value)
      (Eval.bodyChain closure args receiver) (Eval.bodyChain closure' args' receiver') := by
  -- missing arguments are bound to `nil`, so that all parameters are bound
  have hscope (x : String) (hx : (Table.ofList (params.map fun p => (p.name, true))).has x = true) :
      (Table.ofList (Eval.bindParams params args)).has x = true := by
    rw [Table.has_ofList, List.map_map] at hx
    rw [Table.has_ofList, Scoping.map_fst_bindParams]
    exact hx
  have hbody {w₁ : Pairing} (hle : w ≤ w₁) {outer outer' : Scopes} {e e' : Chain}
      (he : Chains w₁ outer outer' e e') :
      Follows .none moves w₁ c c'
        (fun w' => Level w' (Param.resolveAll outer.enter params).value
          (Param.resolveAll outer'.enter params).value)
        (Eval.enter (Table.ofList (Eval.bindParams closure.declaration.params args)) e)
        (Eval.enter (Table.ofList (Eval.bindParams closure'.declaration.params args')) e') := by
    rw [hparams, hparams', Param.resolveAll_value, Param.resolveAll_value]
    have hargs₁ := LikeValues.mono (fun hf => hf.mono hle) hargs
    exact enter (.ofList (bindParams_alike params hargs₁)) hscope he
  cases hreceiver with
  | none =>
      refine bind (R := fun w' => Chains w' scopes scopes') (pure hchains)
        fun w₁ outer outer' hle hseen => ?_
      exact hbody hle hseen
  | some hi =>
      refine (enterOne "this" (.instance hi) hchains).bind fun w₁ outer outer' hle hseen => ?_
      exact hbody hle hseen

end Follows

/-- How statements of the two runs end. Without a `continue` of its own, a statement does not end the
round of the loop around it. -/
inductive FlowPair (moves continues : Bool) (w : Pairing) : Flow → Flow → Prop
  | normal : FlowPair moves continues w .normal .normal
  | break : FlowPair moves continues w .break .break
  | continue (h : continues = true) : FlowPair moves continues w .continue .continue
  | return {v v' : Value} (hv : Alike moves w v v') :
      FlowPair moves continues w (.return v) (.return v')

theorem FlowPair.weaken {continues continues' : Bool} {flow flow' : Flow}
    (h : FlowPair moves continues w flow flow') (himp : continues = true → continues' = true) :
    FlowPair moves continues' w flow flow' := by
  cases h with
  | normal => exact .normal
  | «break» => exact .break
  | «continue» h => exact .continue (himp h)
  | «return» hv => exact .return hv

namespace Follows

theorem callResult {isMethod continues : Bool} {closure closure' : Closure}
    (hclosure : closure.Like (Paired moves w) isMethod closure') {receiver receiver' : Option Instance}
    (hreceiver : Option.Rel (Instance.Like (Paired moves w)) receiver receiver') {flow flow' : Flow}
    (hflow : FlowPair moves continues w flow flow') :
    Follows .none moves w c c' (Alike moves) (Eval.callResult closure receiver flow)
      (Eval.callResult closure' receiver' flow') := by
  unfold Eval.callResult
  rw [hclosure.isInitializer_eq, hclosure.name_eq]
  split
  · cases hreceiver with
    | none => exact pure .nil
    | some hi => exact pure (.instance hi)
  · cases hflow with
    | normal => exact pure .nil
    | «return» hv => exact pure hv
    | «break» | «continue» => exact defect _ none

theorem callNative {host : Host} (hhost : host.IgnoresFunctions) (n : Native)
    {args args' : List Value} (hargs : LikeValues (Paired moves w) args args')
    (location : Location) :
    Follows .none moves w c c' (Alike moves) (Eval.callNative host n args location)
      (Eval.callNative host n args' location) :=
  (pairClosed moves c c').callNative (fun w => hhost.call (Paired moves w)) n hargs location

end Follows

end Computations

end Increments

end Lox
