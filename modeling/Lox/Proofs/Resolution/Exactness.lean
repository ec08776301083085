import Lox.Proofs.Resolution.Walking
import Mathlib.Data.List.Nodup

/-!
# Resolution is exact

What the resolution of names records and reports for a program is what can be read off the positions of
its nodes: at each use of a name the distance to the scope that declares it, and at each node the static
rules that it breaks.

## Contents
- `Resolutions.exists_covering`: what resolving a program adds to a table, and what it reports.
- `Resolutions.ofPrograms`: the table of a session.
- `depths_are_distances`: recorded depths.
- `errors_are_violations`: reported errors.
-/

namespace Lox

open Resolving

namespace Resolutions

/-- Resolving a program comes once to each of its nodes. -/
theorem exists_covering (r : Resolutions) (p : Program) :
    ∃ (ways : List (List Nat)) (written : List (Node (r.inputs + 1) × Nat)),
      ways.Pairwise (Subtree.program p).Before ∧ (∀ way, way ∈ ways ↔ (p.at? way).isSome) ∧
      written.Perm
        (ways.filterMap ((Subtree.program p).entryAt? [] (Node.root r.inputs))) ∧
      (r.resolve p).2.locals.entries = written ++ r.locals.next.entries ∧
      (r.resolve p).1.errors = ways.flatMap p.violationsAt := by
  obtain ⟨ways, written, hordered, hcomplete, hwritten, hdoes⟩ :=
    covers_program (Node.root r.inputs) p
  have hend := hdoes ⟨r.locals.next, []⟩
  refine ⟨ways, written, hordered, fun way => ?_, hwritten, ?_, ?_⟩
  · rw [hcomplete]
    exact ⟨And.right, And.intro trivial⟩
  · exact congrArg (·.locals.entries) hend
  · exact congrArg (·.errors) hend

/-- The table of a session that has resolved some programs. -/
def ofPrograms (programs : List Program) : Resolutions :=
  programs.foldl (fun r p => (r.resolve p).2) .empty

end Resolutions

/-! ## Entries -/

namespace Resolving

/-- Ways in the order of the walk are different. -/
theorem nodup_of_ordered {t : Subtree} {ways : List (List Nat)} (h : ways.Pairwise t.Before) :
    ways.Nodup := by
  refine h.imp fun {way way'} hbefore heq => ?_
  subst heq
  exact Subtree.Before.irrefl hbefore

section

variable {inputs : Nat} {around : List Enclosure} {t : Subtree} {node : Node inputs}
  {ways : List (List Nat)} {written : List (Node inputs × Nat)}

/-- No node is written twice. -/
theorem nodup_written (hways : ways.Nodup)
    (hwritten : written.Perm (ways.filterMap (t.entryAt? around node))) :
    (written.map Prod.fst).Nodup := by
  refine ((hwritten.map Prod.fst).nodup_iff).2 ?_
  rw [List.map_filterMap]
  refine List.Nodup.filterMap (fun way way' μ hμ hμ' => ?_) hways
  -- a way is known by the node that is written for it
  have hnode {w : List Nat} (h : μ ∈ (t.entryAt? around node w).map Prod.fst) :
      μ = descend node w := by
    unfold Subtree.entryAt? at h
    rw [Option.map_map] at h
    obtain ⟨_, _, heq⟩ := Option.map_eq_some_iff.1 h
    exact heq.symm
  exact descend_injective node ((hnode hμ).symm.trans (hnode hμ'))

/-- What is written is the depth of the node at each way. -/
theorem mem_written (hcomplete : ∀ way, way ∈ ways ↔ (t.at? around way).isSome)
    (hwritten : written.Perm (ways.filterMap (t.entryAt? around node))) (way : List Nat) (d : Nat) :
    (descend node way, d) ∈ written ↔ t.depthAt? around way = some d := by
  rw [hwritten.mem_iff, List.mem_filterMap]
  constructor
  · rintro ⟨way', _, hentry⟩
    obtain ⟨d', hd', heq⟩ := Option.map_eq_some_iff.1 hentry
    obtain ⟨hnode, rfl⟩ := Prod.mk.inj heq
    rwa [← descend_injective node hnode]
  · intro hdepth
    refine ⟨way, (hcomplete way).2 ?_, by rw [Subtree.entryAt?, hdepth]; rfl⟩
    unfold Subtree.depthAt? at hdepth
    obtain ⟨_, hat, _⟩ := Option.bind_eq_some_iff.1 hdepth
    exact Option.isSome_iff_exists.2 ⟨_, hat⟩

/-- The depth of a node, in words. -/
theorem depthAt?_eq_some_iff {way : List Nat} {d : Nat} :
    t.depthAt? around way = some d ↔ ∃ inside c name, t.at? around way = some (inside, c) ∧
      c.looksUp? = some name ∧ c.misplaced inside = false ∧
      DeclaresAt (scopesAround inside) name d := by
  unfold Subtree.depthAt?
  rw [Option.bind_eq_some_iff]
  constructor
  · rintro ⟨⟨inside, c⟩, hat, hdepth⟩
    change Subtree.depth? inside c = some d at hdepth
    unfold Subtree.depth? at hdepth
    cases hmisplaced : c.misplaced inside with
    | true =>
        rw [if_pos hmisplaced] at hdepth
        exact nomatch hdepth
    | false =>
        rw [if_neg (by simp [hmisplaced])] at hdepth
        obtain ⟨name, hname, hdistance⟩ := Option.bind_eq_some_iff.1 hdepth
        exact ⟨inside, c, name, hat, hname, hmisplaced, distance?_eq_some_iff.1 hdistance⟩
  · rintro ⟨inside, c, name, hat, hname, hmisplaced, hdeclares⟩
    refine ⟨(inside, c), hat, ?_⟩
    show Subtree.depth? inside c = some d
    unfold Subtree.depth?
    rw [if_neg (by simp [hmisplaced]), hname]
    exact distance?_eq_some_iff.2 hdeclares

end

end Resolving

namespace Resolutions

variable {r : Resolutions} {p : Program} {ways : List (List Nat)}
  {written : List (Node (r.inputs + 1) × Nat)}

/-- Only nodes of the program itself are written. -/
theorem input_of_written
    (hwritten : written.Perm (ways.filterMap ((Subtree.program p).entryAt? [] (Node.root r.inputs))))
    {node : Node (r.inputs + 1)} (h : node ∈ written.map Prod.fst) :
    node.input = Fin.last r.inputs := by
  obtain ⟨entry, hentry, rfl⟩ := List.mem_map.1 h
  obtain ⟨way, _, hway⟩ := List.mem_filterMap.1 (hwritten.mem_iff.1 hentry)
  obtain ⟨d, _, rfl⟩ := Option.map_eq_some_iff.1 hway
  rfl

/-- Resolving a program writes no node that has an entry already. -/
theorem nodup_resolve (h : (r.locals.entries.map Prod.fst).Nodup) (p : Program) :
    ((r.resolve p).2.locals.entries.map Prod.fst).Nodup := by
  obtain ⟨ways, written, hordered, _, hwritten, hentries, _⟩ := r.exists_covering p
  have hkeys : (written ++ r.locals.next.entries).map Prod.fst =
      written.map Prod.fst ++ (r.locals.entries.map Prod.fst).map Node.earlier := by
    unfold Locals.next
    rw [List.map_append, List.map_map, List.map_map]
    rfl
  have hold : ((r.locals.entries.map Prod.fst).map Node.earlier).Nodup :=
    h.map fun _ _ heq => Node.earlier_inj.1 heq
  refine (congrArg (fun entries => (entries.map Prod.fst).Nodup) hentries).mpr (hkeys ▸
    List.nodup_append.2 ⟨nodup_written (nodup_of_ordered hordered) hwritten, hold, ?_⟩)
  intro node hnode other hother heq
  obtain ⟨node', _, rfl⟩ := List.mem_map.1 hother
  exact node'.input_earlier_ne (heq ▸ input_of_written hwritten hnode)

/-- No node of a session is written twice. -/
theorem nodup_ofPrograms (programs : List Program) :
    ((ofPrograms programs).locals.entries.map Prod.fst).Nodup := by
  have hall (r : Resolutions) (h : (r.locals.entries.map Prod.fst).Nodup) :
      ((programs.foldl (fun r p => (r.resolve p).2) r).locals.entries.map Prod.fst).Nodup := by
    induction programs generalizing r with
    | nil => exact h
    | cons p programs ih => exact ih _ (nodup_resolve h p)
  exact hall .empty List.nodup_nil

/-- The depth that is recorded for a node of a new program is its own. -/
theorem get?_resolve_last (r : Resolutions) (p : Program) (way : List Nat) (d : Nat) :
    (r.resolve p).2.locals.get? ⟨Fin.last r.inputs, way⟩ = some d ↔
      (Subtree.program p).depthAt? [] way = some d := by
  obtain ⟨ways, written, hordered, hcomplete, hwritten, hentries, _⟩ := r.exists_covering p
  have hold : r.locals.next.entries.lookup ⟨Fin.last r.inputs, way⟩ = none :=
    r.locals.get?_next_of_last rfl
  have hnew : (written ++ r.locals.next.entries).lookup ⟨Fin.last r.inputs, way⟩ = some d ↔
      (Subtree.program p).depthAt? [] way = some d := by
    rw [List.lookup_append, hold, Option.or_none,
      lookup_eq_some_iff_mem (nodup_written (nodup_of_ordered hordered) hwritten)]
    exact mem_written hcomplete hwritten way d
  exact (congrArg (·.lookup ⟨Fin.last r.inputs, way⟩ = some d) hentries).to_iff.trans hnew

end Resolutions

/-! ## Main results -/

/-- **The recorded depths are the lexical distances.** A depth is recorded for a node if and only if
the node looks up a name, is not misplaced, and the depth is the distance to the innermost scope around
it that declares the name in front of the node or around it. No node is written twice, neither while a
program is resolved nor over all programs of a session. -/
theorem depths_are_distances (r : Resolutions) (p : Program) :
    (∀ way d, (r.resolve p).2.locals.get? ⟨Fin.last r.inputs, way⟩ = some d ↔
      ∃ around t name, p.at? way = some (around, t) ∧ t.looksUp? = some name ∧
        t.misplaced around = false ∧ DeclaresAt (scopesAround around) name d) ∧
    (∃ written : List (Node (r.inputs + 1) × Nat),
      (r.resolve p).2.locals.entries = written ++ r.locals.next.entries ∧
      (written.map Prod.fst).Nodup ∧ ∀ node ∈ written.map Prod.fst, node.input = Fin.last r.inputs) ∧
    ∀ programs, ((Resolutions.ofPrograms programs).locals.entries.map Prod.fst).Nodup := by
  refine ⟨fun way d => ?_, ?_, Resolutions.nodup_ofPrograms⟩
  · exact (r.get?_resolve_last p way d).trans depthAt?_eq_some_iff
  · obtain ⟨ways, written, hordered, _, hwritten, hentries, _⟩ := r.exists_covering p
    exact ⟨written, hentries, nodup_written (nodup_of_ordered hordered) hwritten,
      fun _ => Resolutions.input_of_written hwritten⟩

/-- A declaration does not capture the uses in front of it. -/
example :
    let use : Decl := .stmt (.print (.variable ⟨"a", none, default⟩) default)
    let inner : Stmt := .block [use, .var "a" none default, use] default
    let p : Program := ⟨[.stmt (.block [.var "a" none default, .stmt inner] default)], default⟩
    let depth (way : List Nat) := (Resolutions.empty.resolve p).2.locals.get? ⟨Fin.last 0, way⟩
    depth [0, 1, 0, 0] = some 1 ∧ depth [0, 1, 2, 0] = some 0 := by
  decide

/-- **The static errors are the violations.** The errors of a program are the rules that its nodes
break, node by node in the order of the walk. Every node is one of those looked at, once. -/
theorem errors_are_violations (r : Resolutions) (p : Program) :
    ∃ ways : List (List Nat), ways.Pairwise (Subtree.program p).Before ∧ ways.Nodup ∧
      (∀ way, way ∈ ways ↔ (p.at? way).isSome) ∧
      (r.resolve p).1.errors = ways.flatMap p.violationsAt := by
  obtain ⟨ways, _, hordered, hcomplete, _, _, herrors⟩ := r.exists_covering p
  exact ⟨ways, hordered, nodup_of_ordered hordered, hcomplete, herrors⟩

end Lox
