import Lox.Proofs.Increments.Moving
import Lox.Proofs.Evaluation.Likeness
import Mathlib.Order.Defs.PartialOrder

/-!
# The scopes of two runs

A program with moved increments runs beside the program itself. It makes more scopes: one in each round
of a loop whose increment stands behind the body. A **pairing** tells which scopes of the two runs belong
together, and which ones of the second run are extra. Nothing is ever bound in an extra scope, so a name
is found in it neither by the resolver nor by the evaluator: both go on to the scope around it, the
resolver one step further, the evaluator by one depth more.

Pairings only grow, so what was paired stays paired. Functions of the two runs are paired when they come
from the same declaration, up to moved increments, and see scopes that are.

## Contents
- `Pairing`: which scopes belong together, and what they bind for sure.
- `Chains`, `Level`, `Sees`: chains that see paired scopes, with the static scopes of both programs.
- `Leads`, `Sees.leads`: where the depths of a use lead.
- `InPlace`: the scopes of `this` and `super` in both programs.
- `Paired`, `Alike`: functions and values of the two runs.
-/

namespace Lox.Increments

open Scopes

/-! ## Pairings -/

/-- The scopes of two runs. -/
structure Pairing where
  /-- For each scope of the second run the one of the first that it belongs to, if it is not extra. -/
  partners : List (Option Nat)
  /-- Names that scopes of the first run bind. -/
  bound : Nat → String → Prop

namespace Pairing

/-- A scope of the first run and one of the second belong together. -/
def Pairs (w : Pairing) (i j : Nat) : Prop := w.partners[j]? = some (some i)

/-- A scope of the second run that the first one does not have. -/
def Extra (w : Pairing) (j : Nat) : Prop := w.partners[j]? = some none

/-- With one more name that is bound. -/
def know (w : Pairing) (i : Nat) (x : String) : Pairing :=
  { w with bound := fun k y => w.bound k y ∨ k = i ∧ y = x }

/-- With one more scope in each run; in the first one it has the number `i`. -/
def pair (w : Pairing) (i : Nat) (bindings : Table Value) : Pairing :=
  ⟨w.partners ++ [some i], fun k y => w.bound k y ∨ k = i ∧ bindings.has y = true⟩

/-- With one more scope in the second run. -/
def extra (w : Pairing) : Pairing := { w with partners := w.partners ++ [none] }

/-- Later pairings have more scopes and bind more. -/
instance : Preorder Pairing where
  le w w' := w.partners <+: w'.partners ∧ ∀ i x, w.bound i x → w'.bound i x
  le_refl w := ⟨List.prefix_refl _, fun _ _ h => h⟩
  le_trans _ _ _ h h' := ⟨h.1.trans h'.1, fun i x hx => h'.2 i x (h.2 i x hx)⟩

variable {w w' : Pairing} {i j k : Nat}

theorem getElem?_mono (h : w ≤ w') {partner : Option Nat} (hj : w.partners[j]? = some partner) :
    w'.partners[j]? = some partner := by
  obtain ⟨v, hv⟩ := h.1
  rw [← hv, List.getElem?_append_left (List.getElem?_eq_some_iff.1 hj).1, hj]

theorem Pairs.mono (h : w.Pairs i j) (hle : w ≤ w') : w'.Pairs i j := getElem?_mono hle h

theorem Extra.mono (h : w.Extra j) (hle : w ≤ w') : w'.Extra j := getElem?_mono hle h

theorem bound_mono (hle : w ≤ w') {x : String} (h : w.bound i x) : w'.bound i x := hle.2 i x h

/-- A scope of the second run belongs to one scope at most. -/
theorem Pairs.left_unique (h : w.Pairs i j) (h' : w.Pairs k j) : i = k :=
  Option.some.inj (Option.some.inj (h.symm.trans h'))

theorem Pairs.not_extra (h : w.Pairs i j) : ¬w.Extra j := fun h' => nomatch h.symm.trans h'

theorem Pairs.lt (h : w.Pairs i j) : j < w.partners.length := (List.getElem?_eq_some_iff.1 h).1

theorem Extra.lt (h : w.Extra j) : j < w.partners.length := (List.getElem?_eq_some_iff.1 h).1

theorem getElem?_concat (l : List (Option Nat)) (a : Option Nat) (j : Nat) :
    (l ++ [a])[j]? = if j = l.length then some a else l[j]? := by
  split
  · rename_i h
    rw [h, List.getElem?_concat_length]
  · rename_i h
    rcases Nat.lt_or_gt_of_ne h with hlt | hgt
    · exact List.getElem?_append_left hlt
    · rw [List.getElem?_eq_none, List.getElem?_eq_none (Nat.le_of_lt hgt)]
      rw [List.length_append]
      exact hgt

theorem le_know (w : Pairing) (i : Nat) (x : String) : w ≤ w.know i x :=
  ⟨List.prefix_refl _, fun _ _ h => .inl h⟩

theorem le_pair (w : Pairing) (i : Nat) (bindings : Table Value) : w ≤ w.pair i bindings :=
  ⟨List.prefix_append _ _, fun _ _ h => .inl h⟩

theorem le_extra (w : Pairing) : w ≤ w.extra := ⟨List.prefix_append _ _, fun _ _ h => h⟩

@[simp] theorem length_pair (w : Pairing) (i : Nat) (bindings : Table Value) :
    (w.pair i bindings).partners.length = w.partners.length + 1 := by simp [pair]

@[simp] theorem length_extra (w : Pairing) :
    w.extra.partners.length = w.partners.length + 1 := by simp [extra]

theorem pairs_pair {bindings : Table Value} :
    (w.pair k bindings).Pairs i j ↔ w.Pairs i j ∨ i = k ∧ j = w.partners.length := by
  unfold Pairs pair
  rw [getElem?_concat]
  split
  · rename_i hj
    have hout : w.partners[j]? = none := List.getElem?_eq_none (Nat.le_of_eq hj.symm)
    rw [hout]
    constructor
    · intro h
      exact .inr ⟨(Option.some.inj (Option.some.inj h)).symm, hj⟩
    · rintro (h | ⟨rfl, _⟩)
      · exact nomatch h
      · rfl
  · rename_i hj
    exact ⟨.inl, fun h => h.resolve_right fun h => hj h.2⟩

theorem extra_pair {bindings : Table Value} : (w.pair k bindings).Extra j ↔ w.Extra j := by
  unfold Extra pair
  rw [getElem?_concat]
  split
  · rename_i hj
    rw [List.getElem?_eq_none (Nat.le_of_eq hj.symm)]
    exact ⟨nofun, nofun⟩
  · exact Iff.rfl

theorem pairs_extra : w.extra.Pairs i j ↔ w.Pairs i j := by
  unfold Pairs extra
  rw [getElem?_concat]
  split
  · rename_i hj
    rw [List.getElem?_eq_none (Nat.le_of_eq hj.symm)]
    exact ⟨nofun, nofun⟩
  · exact Iff.rfl

theorem extra_extra : w.extra.Extra j ↔ w.Extra j ∨ j = w.partners.length := by
  unfold Extra extra
  rw [getElem?_concat]
  split
  · rename_i hj
    exact ⟨fun _ => .inr hj, fun _ => rfl⟩
  · rename_i hj
    exact ⟨.inl, fun h => h.resolve_right hj⟩

end Pairing

/-! ## Chains -/

/-- Chains of the two runs, with the static scopes for which the programs were resolved. They see paired
scopes, in the same order, which bind what the static scopes promise; the second one may see extra
scopes in between. -/
inductive Chains (w : Pairing) : Scopes → Scopes → Chain → Chain → Prop
  | globals : Chains w [] [] globalChain globalChain
  | scope {scope : Scope} {scopes scopes' : Scopes} {i j : Nat} {c c' : Chain}
      (hpair : w.Pairs i j) (hbound : ∀ x, scope.has x = true → w.bound i x)
      (hrest : Chains w scopes scopes' c c') :
      Chains w (scope :: scopes) (scope :: scopes') (i :: c) (j :: c')
  | extra {scopes scopes' : Scopes} {j : Nat} {c c' : Chain} (hextra : w.Extra j)
      (hrest : Chains w scopes scopes' c c') : Chains w scopes scopes'.enter c (j :: c')

/-- Such chains without an extra scope in front: this is where declarations stand. -/
inductive Level (w : Pairing) : Scopes → Scopes → Chain → Chain → Prop
  | globals : Level w [] [] globalChain globalChain
  | scope {scope : Scope} {scopes scopes' : Scopes} {i j : Nat} {c c' : Chain}
      (hpair : w.Pairs i j) (hbound : ∀ x, scope.has x = true → w.bound i x)
      (hrest : Chains w scopes scopes' c c') :
      Level w (scope :: scopes) (scope :: scopes') (i :: c) (j :: c')

/-- Such chains, except that the scopes in front may lack names that are not yet bound. -/
inductive Sees (w : Pairing) : Scopes → Scopes → Chain → Chain → Prop
  | all {scopes scopes' : Scopes} {c c' : Chain} (h : Chains w scopes scopes' c c') :
      Sees w scopes scopes' c c'
  | front {scope : Scope} {scopes scopes' : Scopes} {i j : Nat} {c c' : Chain}
      (hpair : w.Pairs i j) (hrest : Chains w scopes scopes' c c') :
      Sees w (scope :: scopes) (scope :: scopes') (i :: c) (j :: c')

variable {w w' : Pairing} {scopes scopes' : Scopes} {c c' : Chain}

theorem Chains.mono (h : Chains w scopes scopes' c c') (hle : w ≤ w') :
    Chains w' scopes scopes' c c' := by
  induction h with
  | globals => exact .globals
  | scope hpair hbound _ ih =>
      exact .scope (hpair.mono hle) (fun x hx => Pairing.bound_mono hle (hbound x hx)) ih
  | extra hextra _ ih => exact .extra (hextra.mono hle) ih

theorem Level.chains (h : Level w scopes scopes' c c') : Chains w scopes scopes' c c' := by
  cases h with
  | globals => exact .globals
  | scope hpair hbound hrest => exact .scope hpair hbound hrest

theorem Level.mono (h : Level w scopes scopes' c c') (hle : w ≤ w') :
    Level w' scopes scopes' c c' := by
  cases h with
  | globals => exact .globals
  | scope hpair hbound hrest =>
      exact .scope (hpair.mono hle) (fun x hx => Pairing.bound_mono hle (hbound x hx))
        (hrest.mono hle)

theorem Sees.mono (h : Sees w scopes scopes' c c') (hle : w ≤ w') :
    Sees w' scopes scopes' c c' := by
  cases h with
  | all h => exact .all (h.mono hle)
  | front hpair hrest => exact .front (hpair.mono hle) (hrest.mono hle)

/-- A name may be marked in front before it is bound. -/
theorem Level.sees_mark (h : Level w scopes scopes' c c') (name : String) (complete : Bool) :
    Sees w (scopes.mark name complete) (scopes'.mark name complete) c c' := by
  cases h with
  | globals => exact .all .globals
  | scope hpair _ hrest => exact .front hpair hrest

/-! ## Uses of names -/

/-- Where the depths of a use of a name lead from two chains: in both runs to the globals, or to paired
scopes. Unless these bind the name, the depths are the same. -/
inductive Leads (w : Pairing) (c c' : Chain) (x : String) : Option Nat → Option Nat → Prop
  | global : Leads w c c' x none none
  | scope {d d' i j : Nat} {outer outer' : Chain} (hi : c.ancestor? d = some (i :: outer))
      (hj : c'.ancestor? d' = some (j :: outer')) (hpair : w.Pairs i j)
      (hbound : w.bound i x ∨ d' = d) : Leads w c c' x (some d) (some d')

/-- A name that no scope declares is declared by none of the scopes of the second program. -/
theorem Chains.distance?_eq_none (h : Chains w scopes scopes' c c') {x : String}
    (hx : scopes.distance? x = none) : scopes'.distance? x = none := by
  induction h with
  | globals => rfl
  | @scope scope _ _ _ _ _ _ _ _ _ ih =>
      unfold distance? at hx ⊢
      split at hx
      · cases hx
      · rename_i hhas
        rw [if_neg hhas, ih (Option.map_eq_none_iff.1 hx)]
        rfl
  | extra _ _ ih =>
      rw [distance?_enter, ih hx]
      rfl

/-- A name that a scope declares is declared by the scope that is paired with it, which may lie further
out. -/
theorem Chains.exists_of_distance? (h : Chains w scopes scopes' c c') {x : String} {d : Nat}
    (hx : scopes.distance? x = some d) :
    ∃ d' i j outer outer', scopes'.distance? x = some d' ∧
      c.ancestor? d = some (i :: outer) ∧ c'.ancestor? d' = some (j :: outer') ∧
      w.Pairs i j ∧ w.bound i x := by
  induction h generalizing d with
  | globals => exact nomatch hx
  | @scope scope outer outer' i j c c' hpair hbound _ ih =>
      unfold distance? at hx
      split at hx
      · rename_i hhas
        cases hx
        refine ⟨0, i, j, c, c', ?_, rfl, rfl, hpair, hbound x hhas⟩
        unfold distance?
        rw [if_pos hhas]
      · rename_i hhas
        obtain ⟨d, hd, rfl⟩ := Option.map_eq_some_iff.1 hx
        obtain ⟨d', i, j, rest, rest', hd', hi, hj, hpair, hbound⟩ := ih hd
        refine ⟨d' + 1, i, j, rest, rest', ?_, hi, hj, hpair, hbound⟩
        unfold distance?
        rw [if_neg hhas, hd']
        rfl
  | extra _ _ ih =>
      obtain ⟨d', i, j, rest, rest', hd', hi, hj, hpair, hbound⟩ := ih hx
      refine ⟨d' + 1, i, j, rest, rest', ?_, hi, hj, hpair, hbound⟩
      rw [distance?_enter, hd']
      rfl

theorem Chains.leads (h : Chains w scopes scopes' c c') (x : String) :
    Leads w c c' x (scopes.distance? x) (scopes'.distance? x) := by
  cases hx : scopes.distance? x with
  | none =>
      rw [h.distance?_eq_none hx]
      exact .global
  | some d =>
      obtain ⟨d', i, j, outer, outer', hd', hi, hj, hpair, hbound⟩ := h.exists_of_distance? hx
      rw [hd']
      exact .scope hi hj hpair (.inl hbound)

theorem Leads.outside {i j : Nat} {x : String} {depth depth' : Option Nat}
    (h : Leads w c c' x depth depth') :
    Leads w (i :: c) (j :: c') x (depth.map (· + 1)) (depth'.map (· + 1)) := by
  cases h with
  | global => exact .global
  | scope hi hj hpair hbound => exact .scope hi hj hpair (hbound.imp_right (congrArg (· + 1)))

/-- **The depths of a use lead to scopes that belong together.** -/
theorem Sees.leads (h : Sees w scopes scopes' c c') (x : String) :
    Leads w c c' x (scopes.distance? x) (scopes'.distance? x) := by
  cases h with
  | all h => exact h.leads x
  | @front scope outer outer' i j c c' hpair hrest =>
      unfold distance?
      split
      · exact .scope rfl rfl hpair (.inr rfl)
      · exact (hrest.leads x).outside

/-! ## Receivers and superclasses -/

/-- The scopes of `this` and `super` lie where the class around says, in both programs. -/
structure InPlace (kind : ClassKind) (scopes scopes' : Scopes) : Prop where
  left : Placed kind scopes
  right : Placed kind scopes'

namespace InPlace

variable {kind : ClassKind}

theorem enter (h : InPlace kind scopes scopes') : InPlace kind scopes.enter scopes'.enter :=
  ⟨h.left.enter, h.right.enter⟩

/-- An extra scope around a piece of the second program. -/
theorem extra (h : InPlace kind scopes scopes') : InPlace kind scopes scopes'.enter :=
  ⟨h.left, h.right.enter⟩

theorem mark (h : InPlace kind scopes scopes') {name : String} (hname : ¬Reserved name)
    (complete : Bool) : InPlace kind (scopes.mark name complete) (scopes'.mark name complete) :=
  ⟨h.left.mark hname complete, h.right.mark hname complete⟩

theorem behind (h : InPlace kind scopes scopes') {d : Decl} (hd : d.Ordinary) :
    InPlace kind (scopes.behind d) (scopes'.behind d) :=
  ⟨h.left.behind (Decl.not_reserved hd), h.right.behind (Decl.not_reserved hd)⟩

theorem body (h : InPlace kind scopes scopes') {params : List Param}
    (hparams : ∀ p ∈ params, ¬Reserved p.name) :
    InPlace kind (Param.resolveAll scopes.enter params).value
      (Param.resolveAll scopes'.enter params).value :=
  ⟨Param.placed_resolveAll h.left hparams, Param.placed_resolveAll h.right hparams⟩

end InPlace

/-! ## Functions and values -/

/-- The static scopes around the parameters of a function. -/
def around (isMethod : Bool) (scopes : Scopes) : Scopes :=
  if isMethod then scopes.enterWith "this" else scopes

/-- Functions of the two runs: the same function, up to moved increments, in front of paired scopes. -/
inductive Paired (moves : Bool) (w : Pairing) : FunctionRel
  | mk {isMethod : Bool} {f f' : FunctionDecl} {a : Surroundings} {kind : FunctionKind}
      {scopes scopes' : Scopes} {c c' : Chain} (isInitializer : Bool)
      (hmoved : FunctionDecl.Moved moves f f') (hordinary : f.Ordinary)
      (hplaced : InPlace a.enclosingClass (around isMethod scopes) (around isMethod scopes'))
      (hchains : Chains w scopes scopes' c c') :
      Paired moves w isMethod ⟨(f.resolve a (around isMethod scopes) kind).value, c, isInitializer⟩
        ⟨(f'.resolve a (around isMethod scopes') kind).value, c', isInitializer⟩

/-- Values of the two runs. -/
abbrev Alike (moves : Bool) (w : Pairing) : Value → Value → Prop := Value.Like (Paired moves w)

variable {moves isMethod : Bool}

theorem Paired.mono {f f' : Closure} (h : Paired moves w isMethod f f') (hle : w ≤ w') :
    Paired moves w' isMethod f f' := by
  cases h with
  | mk isInitializer hmoved hordinary hplaced hchains =>
      exact .mk isInitializer hmoved hordinary hplaced (hchains.mono hle)

theorem Paired.all {f f' : Closure} (h : Paired false w isMethod f f') :
    Paired true w isMethod f f' := by
  cases h with
  | mk isInitializer hmoved hordinary hplaced hchains =>
      exact .mk isInitializer hmoved.all hordinary hplaced hchains

/-- Without a call, a program cannot tell them apart. -/
theorem Paired.like {f f' : Closure} (h : Paired moves w isMethod f f') :
    f.Like (Paired moves w) isMethod f' := by
  have hpaired := h
  cases h with
  | mk isInitializer hmoved =>
      cases hmoved
      exact ⟨rfl, rfl, rfl, hpaired⟩

theorem Alike.mono {v v' : Value} (h : Alike moves w v v') (hle : w ≤ w') :
    Alike moves w' v v' := Value.Like.mono (fun hf => hf.mono hle) h

end Lox.Increments
