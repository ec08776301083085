import Lox.Proofs.Resolution.Positions

/-!
# Distances and static rules

What the resolution of names is to find at a node depends on nothing but what the node stands in. The
distance of a name is the number of scopes between the node and the innermost one around it that
declares the name, in front of the node or around it. The static rules are said node by node.

## Contents
- `DeclaresAt`, `distance?`: how far away a name is declared.
- `Subtree.looksUp?`, `Subtree.misplaced`: the names that nodes look up.
- `Subtree.violations`: the rules that a node breaks.
- `Subtree.depthAt?`, `Program.violationsAt`: both, by the ways that lead to the nodes.
-/

namespace Lox.Resolving

/-! ## Distances -/

/-- The scope `d` steps out declares a name, and no nearer one does. -/
def DeclaresAt (scopes : List (List String)) (name : String) (d : Nat) : Prop :=
  (∃ names, scopes[d]? = some names ∧ name ∈ names) ∧
    ∀ i < d, ∀ names, scopes[i]? = some names → name ∉ names

/-- How many scopes out a name is declared. -/
def distance? (scopes : List (List String)) (name : String) : Option Nat :=
  scopes.findIdx? (·.contains name)

theorem distance?_eq_some_iff {scopes : List (List String)} {name : String} {d : Nat} :
    distance? scopes name = some d ↔ DeclaresAt scopes name d := by
  unfold distance? DeclaresAt
  rw [List.findIdx?_eq_some_iff_getElem]
  constructor
  · rintro ⟨hd, hname, hnearer⟩
    refine ⟨⟨scopes[d], List.getElem?_eq_getElem hd, List.contains_iff_mem.1 hname⟩, ?_⟩
    intro i hi names hnames hmem
    obtain ⟨hlength, rfl⟩ := List.getElem?_eq_some_iff.1 hnames
    exact hnearer i hi (List.contains_iff_mem.2 hmem)
  · rintro ⟨⟨names, hnames, hmem⟩, hnearer⟩
    obtain ⟨hd, rfl⟩ := List.getElem?_eq_some_iff.1 hnames
    refine ⟨hd, List.contains_iff_mem.2 hmem, fun i hi hname => ?_⟩
    exact hnearer i hi _ (List.getElem?_eq_getElem (Nat.lt_trans hi hd)) (List.contains_iff_mem.1 hname)

namespace Subtree

/-- The name that a node looks up. -/
def looksUp? : Subtree → Option String
  | expr (.variable use) => some use.name
  | expr (.assign name _ _ _) => some name
  | expr (.this _ _) => some "this"
  | expr (.super _ _ _) => some "super"
  | superclass _ use => some use.name
  | _ => none

/-- `this` outside every class, or `super` where the innermost class has no superclass. -/
def misplaced (around : List Enclosure) : Subtree → Bool
  | expr (.this _ _) => innermostClass? around == none
  | expr (.super _ _ _) => innermostClass? around != some true
  | _ => false

/-- The distance of the name that a node looks up. -/
def depth? (around : List Enclosure) (t : Subtree) : Option Nat :=
  if t.misplaced around then none
  else t.looksUp?.bind (Resolving.distance? (scopesAround around))

end Subtree

/-! ## Static rules -/

/-- A broken rule, if it is broken. -/
def violationIf (broken : Bool) (span : Span) (cause : StaticError.Cause) : List StaticError :=
  if broken then [⟨cause, span.start⟩] else []

/-- A local variable may not be read in its own initializer. -/
def useViolations (around : List Enclosure) (use : NameUse) : List StaticError :=
  violationIf (inInitializerOf use.name around) use.span .ownInitializer

/-- A name may not be declared twice in a local scope. -/
def declarationViolations (around : List Enclosure) (name : String) (span : Span) :
    List StaticError :=
  violationIf ((earlierNames around).contains name) span (.alreadyDeclared name)

/-- A parameter may not have the name of one in front of it. -/
def paramViolations (params : List Param) : List StaticError :=
  params.zipIdx.flatMap fun e =>
    violationIf (((params.take e.2).map (·.name)).contains e.1.name) e.1.span
      (.alreadyDeclared e.1.name)

/-- The rules that a statement breaks, what is below it apart. -/
def stmtViolations (around : List Enclosure) : Stmt → List StaticError
  | .break span => violationIf (!inLoop around) span (.jumpOutsideLoop "break")
  | .continue span => violationIf (!inLoop around) span (.jumpOutsideLoop "continue")
  | .return value span =>
    violationIf (innermostFunction? around == none) span .returnOutsideFunction ++
      violationIf (value.isSome && innermostFunction? around == some ("init", true)) span
        .returnFromInitializer
  | _ => []

namespace Subtree

/-- The rules that a node breaks, what is below it apart. The parameters of a function are part of its
node. -/
def violations (around : List Enclosure) : Subtree → List StaticError
  | program _ => []
  | decl (.var name _ span) => declarationViolations around name span
  | decl (.function f) => declarationViolations around f.name f.span ++ paramViolations f.params
  | decl (.class name _ _ span) => declarationViolations around name span
  | decl (.stmt _) => []
  | stmt s => stmtViolations around s
  | method f => paramViolations f.params
  | superclass className use =>
    violationIf (use.name == className) use.span .inheritsFromItself ++ useViolations around use
  | expr (.variable use) => useViolations around use
  | expr (.this _ span) => violationIf (innermostClass? around == none) span .thisOutsideClass
  | expr (.super _ _ span) =>
    violationIf (innermostClass? around == none) span .superOutsideClass ++
      violationIf (innermostClass? around == some false) span .superWithoutSuperclass
  | expr _ => []

/-- The depth of the node to which a way leads. -/
def depthAt? (around : List Enclosure) (t : Subtree) (way : List Nat) : Option Nat :=
  (t.at? around way).bind fun position => position.2.depth? position.1

/-- The rules that are broken at the node to which a way leads. -/
def violationsAt (around : List Enclosure) (t : Subtree) (way : List Nat) : List StaticError :=
  match t.at? around way with
  | some (around, t) => t.violations around
  | none => []

end Subtree

end Lox.Resolving

namespace Lox

open Resolving

/-- The static rules that are broken at the node to which a way leads. -/
def Program.violationsAt (p : Program) (way : List Nat) : List StaticError :=
  (Subtree.program p).violationsAt [] way

end Lox
