import Lox.Proofs.Resolution.Rules
import Lox.Recording

/-!
# Walks that come to nodes

A walk through a tree finds errors and writes entries. It comes once to each of some nodes: what it
finds there are the rules that are broken, and what it writes there is the depth of the node. Walks
through different children make up a walk through all of them, in the order of the tree, and together
with what is done at a node itself a walk through the whole tree.

## Contents
- `Does`: what a walk finds and what it writes.
- `Covers`: a walk that comes once to each of some nodes of a tree.
- `Covers.child`, `Covers.andThen`, `Covers.whole`: walks through children, and then through a node.
-/

namespace Lox.Resolving

open Recorder Checked

variable {inputs : Nat}

/-! ## What a walk does -/

/-- A walk finds some errors, in order, and writes some entries, the latest first. -/
def Does (walk : Recorder inputs Unit) (errors : List StaticError)
    (written : List (Node inputs × Nat)) : Prop :=
  ∀ r, (walk r).2 = ⟨⟨written ++ r.locals.entries⟩, r.errors ++ errors⟩

namespace Does

variable {walk walk₁ walk₂ : Recorder inputs Unit} {errors errors₁ errors₂ : List StaticError}
  {written written₁ written₂ : List (Node inputs × Nat)}

theorem nothing : Does (pure () : Recorder inputs Unit) [] [] := by
  intro r
  rw [List.append_nil]
  rfl

theorem of_nothing (h : Does (pure ()) errors written) : errors = [] ∧ written = [] := by
  have hend := h ⟨⟨[]⟩, []⟩
  rw [List.append_nil] at hend
  injection hend with hlocals herrors
  injection hlocals with hentries
  exact ⟨herrors.symm, hentries.symm⟩

theorem andThen (h₁ : Does walk₁ errors₁ written₁) (h₂ : Does walk₂ errors₂ written₂) :
    Does (walk₁ >>= fun _ => walk₂) (errors₁ ++ errors₂) (written₂ ++ written₁) := by
  intro r
  show (walk₂ (walk₁ r).2).2 = _
  rw [h₂, h₁, List.append_assoc, List.append_assoc]

/-- A check in front of a walk. -/
theorem behindCheck {α : Type} {check : Checked α} {walk : α → Recorder inputs Unit}
    (h : Does (walk check.value) errors written) :
    Does (ofChecked check >>= walk) (check.errors ++ errors) written := by
  intro r
  show (walk check.value ⟨r.locals, r.errors ++ check.errors⟩).2 = _
  rw [h, List.append_assoc]

theorem check (check : Checked Unit) : Does (ofChecked check : Recorder inputs Unit) check.errors [] :=
  fun _ => rfl

theorem note (node : Node inputs) (depth : Option Nat) :
    Does (Recorder.note node depth) [] (depth.map (node, ·)).toList := by
  intro r
  cases depth with
  | none => exact nothing r
  | some depth =>
      rw [List.append_nil]
      rfl

end Does

/-! ## Walks that come to nodes -/

/-- The node to which a way leads from another node. -/
def descend (node : Node inputs) (way : List Nat) : Node inputs :=
  { node with path := node.path ++ way }

theorem descend_nil (node : Node inputs) : descend node [] = node := by
  unfold descend
  rw [List.append_nil]

theorem descend_child (node : Node inputs) (i : Nat) (way : List Nat) :
    descend (node.child i) way = descend node (i :: way) := by
  unfold descend Node.child
  rw [List.append_assoc]
  rfl

theorem descend_injective (node : Node inputs) {way way' : List Nat}
    (h : descend node way = descend node way') : way = way' :=
  List.append_cancel_left (congrArg Node.path h)

/-- What is written for the node to which a way leads. -/
def Subtree.entryAt? (around : List Enclosure) (t : Subtree) (node : Node inputs) (way : List Nat) :
    Option (Node inputs × Nat) :=
  (t.depthAt? around way).map (descend node way, ·)

/-- **A walk comes once to each node that lies at one of the ways in `P`**, one before the other as the
order of the walk says, finds the rules that are broken there, and writes their depths. -/
def Covers (P : List Nat → Prop) (around : List Enclosure) (t : Subtree) (node : Node inputs)
    (walk : Recorder inputs Unit) : Prop :=
  ∃ (ways : List (List Nat)) (written : List (Node inputs × Nat)), ways.Pairwise t.Before ∧
    (∀ way, way ∈ ways ↔ P way ∧ (t.at? around way).isSome) ∧
    written.Perm (ways.filterMap (t.entryAt? around node)) ∧
    Does walk (ways.flatMap (t.violationsAt around)) written

/-- The ways through some of the children. -/
def Through (steps : List Nat) (way : List Nat) : Prop := ∃ i ∈ steps, ∃ rest, way = i :: rest

/-- The ways to all nodes of a tree. -/
def Everywhere (_ : List Nat) : Prop := True

namespace Covers

variable {around inner : List Enclosure} {t c : Subtree} {node : Node inputs} {i : Nat}
  {steps steps₁ steps₂ : List Nat} {walk walk₁ walk₂ : Recorder inputs Unit}

/-- Without children there is nothing to do. -/
theorem nowhere : Covers (Through []) around t node (pure ()) := by
  refine ⟨[], [], List.Pairwise.nil, fun way => ⟨nofun, ?_⟩, List.Perm.nil, Does.nothing⟩
  rintro ⟨⟨_, hmem, _⟩, _⟩
  exact absurd hmem List.not_mem_nil

/-- Nothing has to be done for a child that is absent. -/
theorem absent (hchild : t.child? i = none) :
    Covers (Through (List.range' i 1)) around t node (pure ()) := by
  refine ⟨[], [], List.Pairwise.nil, fun way => ⟨nofun, ?_⟩, List.Perm.nil, Does.nothing⟩
  rintro ⟨⟨j, hj, rest, rfl⟩, hsome⟩
  cases List.mem_singleton.1 hj
  rw [Subtree.at?_cons_of_none around hchild] at hsome
  exact absurd hsome Bool.false_ne_true

/-- A walk through a child. -/
theorem child (hchild : t.child? i = some (inner, c))
    (h : Covers Everywhere (inner ++ around) c (node.child i) walk) :
    Covers (Through (List.range' i 1)) around t node walk := by
  obtain ⟨ways, written, hordered, hcomplete, hwritten, hdoes⟩ := h
  have hat (rest : List Nat) : t.at? around (i :: rest) = c.at? (inner ++ around) rest :=
    Subtree.at?_cons_of_child around hchild rest
  refine ⟨ways.map (i :: ·), written, ?_, ?_, ?_, ?_⟩
  · refine List.pairwise_map.2 (hordered.imp fun hbefore => ?_)
    exact Subtree.before_cons.2 (.inr ⟨rfl, inner, c, hchild, hbefore⟩)
  · intro way
    constructor
    · intro hway
      obtain ⟨rest, hrest, rfl⟩ := List.mem_map.1 hway
      exact ⟨⟨i, List.mem_singleton_self i, rest, rfl⟩, hat rest ▸ ((hcomplete rest).1 hrest).2⟩
    · rintro ⟨⟨j, hj, rest, rfl⟩, hsome⟩
      cases List.mem_singleton.1 hj
      exact List.mem_map_of_mem ((hcomplete rest).2 ⟨trivial, hat rest ▸ hsome⟩)
  · have hsame : t.entryAt? around node ∘ (i :: ·) = c.entryAt? (inner ++ around) (node.child i) := by
      funext rest
      show ((t.at? around (i :: rest)).bind _).map (descend node (i :: rest), ·) = _
      rw [hat, ← descend_child]
      rfl
    rwa [List.filterMap_map, hsame]
  · rw [List.flatMap_map]
    have hsame (rest : List Nat) :
        t.violationsAt around (i :: rest) = c.violationsAt (inner ++ around) rest := by
      unfold Subtree.violationsAt
      rw [hat]
    simp only [hsame]
    exact hdoes

/-- A walk through a child that stands in nothing more. -/
theorem same (hchild : t.child? i = some ([], c))
    (h : Covers Everywhere around c (node.child i) walk) :
    Covers (Through (List.range' i 1)) around t node walk :=
  child hchild h

/-- A walk through some children, and then one through others. -/
theorem andThen (h₁ : Covers (Through steps₁) around t node walk₁)
    (h₂ : Covers (Through steps₂) around t node walk₂)
    (hfirst : ∀ i ∈ steps₁, ∀ j ∈ steps₂, t.VisitsFirst i j) :
    Covers (Through (steps₁ ++ steps₂)) around t node (walk₁ >>= fun _ => walk₂) := by
  obtain ⟨ways₁, written₁, hordered₁, hcomplete₁, hwritten₁, hdoes₁⟩ := h₁
  obtain ⟨ways₂, written₂, hordered₂, hcomplete₂, hwritten₂, hdoes₂⟩ := h₂
  refine ⟨ways₁ ++ ways₂, written₂ ++ written₁, ?_, ?_, ?_, ?_⟩
  · refine List.pairwise_append.2 ⟨hordered₁, hordered₂, fun way hway way' hway' => ?_⟩
    obtain ⟨⟨i, hi, rest, rfl⟩, _⟩ := (hcomplete₁ way).1 hway
    obtain ⟨⟨j, hj, rest', rfl⟩, _⟩ := (hcomplete₂ way').1 hway'
    exact Subtree.before_cons.2 (.inl (hfirst i hi j hj))
  · intro way
    rw [List.mem_append, hcomplete₁, hcomplete₂, ← or_and_right]
    refine and_congr_left' ?_
    simp only [Through, List.mem_append, or_and_right, exists_or]
  · rw [List.filterMap_append]
    exact List.perm_append_comm.trans (hwritten₁.append hwritten₂)
  · rw [List.flatMap_append]
    exact hdoes₁.andThen hdoes₂

/-- A walk through some children, and then one through those behind them. -/
theorem next {m n : Nat} (h₁ : Covers (Through (List.range' i m)) around t node walk₁)
    (h₂ : Covers (Through (List.range' (i + m) n)) around t node walk₂)
    (hfirst : ∀ i j, i < j → t.VisitsFirst i j) :
    Covers (Through (List.range' i (m + n))) around t node (walk₁ >>= fun _ => walk₂) := by
  have hall := h₁.andThen h₂ fun j hj k hk => hfirst j k (by
    have hj := List.mem_range'_1.1 hj
    have hk := List.mem_range'_1.1 hk
    omega)
  rwa [List.range'_append_1] at hall

/-- **A walk through all children of a node, as a walk through the whole tree.** What is found at the
node itself is found first; its own entry may be written at any time. -/
theorem whole (h : Covers (Through steps) around t node walk₁)
    (hsteps : ∀ i, i ∉ steps → t.child? i = none)
    (hwalk : ∀ errors written, Does walk₁ errors written →
      Does walk (t.violations around ++ errors)
        (((t.depth? around).map (node, ·)).toList ++ written)) :
    Covers Everywhere around t node walk := by
  obtain ⟨ways, written, hordered, hcomplete, hwritten, hdoes⟩ := h
  refine ⟨[] :: ways, ((t.depth? around).map (node, ·)).toList ++ written, ?_, ?_, ?_, ?_⟩
  · refine List.pairwise_cons.2 ⟨fun way hway => ?_, hordered⟩
    obtain ⟨⟨i, _, rest, rfl⟩, _⟩ := (hcomplete way).1 hway
    exact Subtree.before_nil.2 (List.cons_ne_nil _ _)
  · intro way
    cases way with
    | nil => exact ⟨fun _ => ⟨trivial, by rw [Subtree.at?_nil]; rfl⟩, fun _ => List.mem_cons_self⟩
    | cons i rest =>
        rw [List.mem_cons, hcomplete]
        constructor
        · rintro (hnil | ⟨_, hsome⟩)
          · exact nomatch hnil
          · exact ⟨trivial, hsome⟩
        · rintro ⟨_, hsome⟩
          refine .inr ⟨⟨i, Decidable.byContradiction fun hi => ?_, rest, rfl⟩, hsome⟩
          rw [Subtree.at?_cons_of_none around (hsteps i hi)] at hsome
          exact Bool.false_ne_true hsome
  · have hown : t.entryAt? around node [] = (t.depth? around).map (node, ·) := by
      unfold Subtree.entryAt? Subtree.depthAt?
      rw [Subtree.at?_nil, descend_nil]
      rfl
    rw [List.filterMap_cons, hown]
    cases t.depth? around with
    | none => exact hwritten
    | some d => exact hwritten.cons (node, d)
  · have hown : t.violationsAt around [] = t.violations around := by
      unfold Subtree.violationsAt
      rw [Subtree.at?_nil]
    rw [List.flatMap_cons, hown]
    exact hwalk _ _ hdoes

/-- A node at which nothing is checked and nothing is written. -/
theorem plain (h : Covers (Through steps) around t node walk)
    (hsteps : ∀ i, i ∉ steps → t.child? i = none) (hviolations : t.violations around = [])
    (hdepth : t.depth? around = none) : Covers Everywhere around t node walk := by
  refine h.whole hsteps fun errors written hdoes => ?_
  rw [hviolations, hdepth]
  exact hdoes

/-- A node at which something is checked before the walk goes on, and nothing is written. -/
theorem checked {α : Type} {check : Checked α} {walk : α → Recorder inputs Unit}
    (h : Covers (Through steps) around t node (walk check.value))
    (hsteps : ∀ i, i ∉ steps → t.child? i = none)
    (hviolations : t.violations around = check.errors) (hdepth : t.depth? around = none) :
    Covers Everywhere around t node (ofChecked check >>= walk) := by
  refine h.whole hsteps fun errors written hdoes => ?_
  rw [hviolations, hdepth]
  exact hdoes.behindCheck

/-- A node without children. -/
theorem leaf (hsteps : ∀ i, t.child? i = none)
    (hdoes : Does walk (t.violations around) ((t.depth? around).map (node, ·)).toList) :
    Covers Everywhere around t node walk := by
  refine nowhere.whole (fun i _ => hsteps i) fun errors written hnothing => ?_
  obtain ⟨rfl, rfl⟩ := hnothing.of_nothing
  rwa [List.append_nil, List.append_nil]

end Covers

/-- A tree with `n` children has no others. -/
theorem child?_eq_none {t : Subtree} {n : Nat} (h : ∀ i, t.child? (i + n) = none) (i : Nat)
    (hi : i ∉ List.range' 0 n) : t.child? i = none := by
  have hle : n ≤ i := by
    rw [List.mem_range'_1] at hi
    omega
  rw [← h (i - n), Nat.sub_add_cancel hle]

end Lox.Resolving
