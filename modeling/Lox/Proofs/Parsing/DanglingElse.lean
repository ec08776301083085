import Lox.Proofs.Parsing.Grammar

/-!
# The nearest `if`

The grammar of statements is ambiguous: an `else` may follow several `if` statements that wait for
one. Giving it to the nearest of them rules out derivations, but no lists of tokens. Whatever
derivation there is, the innermost `if` that could take the `else` takes it, and the others are left
without one, or take a later one.

## Contents
- `Pending`: a statement whose last `if` stands in front of an `else` that it has not taken.
- `Pending.attach`: that `if` takes the `else`.
- `Statement.readable`, `Declarations.nearest`: derivations rearranged.
-/

namespace Lox.Grammar

variable {us us₁ us₂ us₃ ms vs ws : List Token} {e : Expr} {s : Stmt}

/-- A statement ends in front of an `else`, and the innermost `if` that it ends with has none yet.
Everything before is derived with every `else` at its nearest `if`. -/
inductive Pending : List Token → List Token → Prop
  | waiting {us us₁ vs : List Token} {e : Expr} {s : Stmt} :
      Condition .if .unlimited us e us₁ → Statement True .unlimited us₁ s vs → ElseNext vs →
      Pending us vs
  | ifThen {us us₁ vs : List Token} {e : Expr} :
      Condition .if .unlimited us e us₁ → Pending us₁ vs → Pending us vs
  | ifThenElse {us us₁ us₂ us₃ vs : List Token} {e : Expr} {s : Stmt} :
      Condition .if .unlimited us e us₁ → Statement True .unlimited us₁ s us₂ →
      Terminal .else us₂ us₃ → Pending us₃ vs → Pending us vs
  | whileLoop {us us₁ vs : List Token} {e : Expr} :
      Condition .while .unlimited us e us₁ → Pending us₁ vs → Pending us vs
  | forLoop {us us₁ vs : List Token} {clauses : Clauses} :
      ForClauses .unlimited us clauses us₁ → Pending us₁ vs → Pending us vs

/-- A statement, which may have an `if` that waits for the `else` behind it. -/
def Readable (us vs : List Token) : Prop :=
  (∃ s, Statement True .unlimited us s vs) ∨ Pending us vs

theorem Pending.elseNext (h : Pending us vs) : ElseNext vs := by
  induction h with
  | waiting _ _ helse => exact helse
  | ifThen _ _ ih => exact ih
  | ifThenElse _ _ _ _ ih => exact ih
  | whileLoop _ _ ih => exact ih
  | forLoop _ _ ih => exact ih

/-! ## Statements around a readable one -/

namespace Readable

/-- An `if` without an `else` waits for one that stands behind it. -/
theorem ifThen (hcondition : Condition .if .unlimited us e us₁) (h : Readable us₁ vs) :
    Readable us vs := by
  rcases h with ⟨s, hs⟩ | hpending
  · by_cases helse : ElseNext vs
    · exact .inr (.waiting hcondition hs helse)
    · exact .inl ⟨_, .ifThen .unlimited hcondition hs fun _ => helse⟩
  · exact .inr (.ifThen hcondition hpending)

theorem ifThenElse (hcondition : Condition .if .unlimited us e us₁)
    (hthen : Statement True .unlimited us₁ s us₂) (helse : Terminal .else us₂ us₃)
    (h : Readable us₃ vs) : Readable us vs := by
  rcases h with ⟨s', hs'⟩ | hpending
  · exact .inl ⟨_, .ifThenElse .unlimited hcondition hthen helse hs'⟩
  · exact .inr (.ifThenElse hcondition hthen helse hpending)

theorem whileLoop (hcondition : Condition .while .unlimited us e us₁) (h : Readable us₁ vs) :
    Readable us vs := by
  rcases h with ⟨s, hs⟩ | hpending
  · exact .inl ⟨_, .whileLoop .unlimited hcondition hs⟩
  · exact .inr (.whileLoop hcondition hpending)

theorem forLoop {clauses : Clauses} (hclauses : ForClauses .unlimited us clauses us₁)
    (h : Readable us₁ vs) : Readable us vs := by
  rcases h with ⟨s, hs⟩ | hpending
  · exact .inl ⟨_, .forLoop .unlimited hclauses hs⟩
  · exact .inr (.forLoop hclauses hpending)

end Readable

/-- **The waiting `if` takes the `else`.** What stands around it then ends where the new branch
ends, and may itself wait for another `else` there. -/
theorem Pending.attach (h : Pending us ms) (helse : Terminal .else ms vs)
    (hbranch : Readable vs ws) : Readable us ws := by
  induction h with
  | waiting hcondition hthen _ => exact .ifThenElse hcondition hthen helse hbranch
  | ifThen hcondition _ ih => exact .ifThen hcondition (ih helse)
  | ifThenElse hcondition hthen helse' _ ih => exact .ifThenElse hcondition hthen helse' (ih helse)
  | whileLoop hcondition _ ih => exact .whileLoop hcondition (ih helse)
  | forLoop hclauses _ ih => exact .forLoop hclauses (ih helse)

/-! ## Derivations rearranged -/

theorem Room.Opens.eq_unlimited {room inner : Room} (h : room.Opens inner)
    (hroom : room = .unlimited) : inner = .unlimited := by
  subst hroom
  cases h
  rfl

/-- No declaration begins with an `else`. -/
theorem Declarations.not_elseNext {nearest : Prop} {room : Room} {ds : List Decl}
    (h : Declarations nearest room us ds vs) (hend : ¬ElseNext vs) : ¬ElseNext us := by
  cases h with
  | nil => exact hend
  | cons hd _ => exact hd.begins.head_ne (by decide)

theorem Terminal.not_elseNext {kind : Token.Kind} (h : Terminal kind us vs) (hkind : kind ≠ .else) :
    ¬ElseNext us := by
  unfold ElseNext
  rw [h.head]
  exact fun heq => hkind (Option.some.inj heq)

mutual

theorem Statement.readable {room : Room} {us vs : List Token} {s : Stmt} :
    Statement False room us s vs → room = .unlimited → Readable us vs
  | .expression hopens h, hroom => by
    have hinner := hopens.eq_unlimited hroom
    exact .inl ⟨_, .expression .unlimited (hinner ▸ h)⟩
  | .print hopens hword he hsemicolon, hroom => by
    have hinner := hopens.eq_unlimited hroom
    exact .inl ⟨_, .print .unlimited hword (hinner ▸ he) hsemicolon⟩
  -- a brace closes the block, so nothing inside waits for an `else` behind it
  | .block hopens hopen hbody hclose, hroom => by
    have hinner := hopens.eq_unlimited hroom
    obtain ⟨ds, hds⟩ := hbody.nearest hinner (hclose.not_elseNext (by decide))
    exact .inl ⟨_, .block .unlimited hopen hds hclose⟩
  | .ifThen hopens hcondition hthen _, hroom => by
    have hinner := hopens.eq_unlimited hroom
    exact .ifThen (hinner ▸ hcondition) (hthen.readable hinner)
  | .ifThenElse hopens hcondition hthen helse hotherwise, hroom => by
    have hinner := hopens.eq_unlimited hroom
    -- The `else` stays here unless an `if` inside the first branch waits for it.
    rcases hthen.readable hinner with ⟨s, hs⟩ | hpending
    · exact .ifThenElse (hinner ▸ hcondition) hs helse (hotherwise.readable hinner)
    · exact .ifThen (hinner ▸ hcondition) (hpending.attach helse (hotherwise.readable hinner))
  | .whileLoop hopens hcondition hbody, hroom => by
    have hinner := hopens.eq_unlimited hroom
    exact .whileLoop (hinner ▸ hcondition) (hbody.readable hinner)
  | .forLoop hopens hclauses hbody, hroom => by
    have hinner := hopens.eq_unlimited hroom
    exact .forLoop (hinner ▸ hclauses) (hbody.readable hinner)
  | .break _ hword hsemicolon, _ =>
    .inl ⟨_, .break .unlimited hword hsemicolon⟩
  | .continue _ hword hsemicolon, _ =>
    .inl ⟨_, .continue .unlimited hword hsemicolon⟩
  | .return hopens hword he hsemicolon, hroom => by
    have hinner := hopens.eq_unlimited hroom
    exact .inl ⟨_, .return .unlimited hword (hinner ▸ he) hsemicolon⟩

theorem Declaration.nearest {room : Room} {us vs : List Token} {d : Decl} :
    Declaration False room us d vs → room = .unlimited → ¬ElseNext vs →
      ∃ d', Declaration True .unlimited us d' vs
  | .class hword hname hsuperclass hopen hmethods hclose, hroom, _ => by
    obtain ⟨fs, hfs⟩ := hmethods.nearest hroom
    exact ⟨_, .class hword hname hsuperclass hopen hfs hclose⟩
  | .function hword hf, hroom, _ => by
    obtain ⟨f, hf⟩ := hf.nearest hroom
    exact ⟨_, .function hword hf⟩
  | .var h, hroom, _ => ⟨_, .var (hroom ▸ h)⟩
  | .statement h, hroom, hend => by
    rcases h.readable hroom with ⟨s, hs⟩ | hpending
    · exact ⟨_, .statement hs⟩
    -- what follows a declaration is no `else`, so no `if` waits at its end
    · exact absurd hpending.elseNext hend

theorem Declarations.nearest {room : Room} {us vs : List Token} {ds : List Decl} :
    Declarations False room us ds vs → room = .unlimited → ¬ElseNext vs →
      ∃ ds', Declarations True .unlimited us ds' vs
  | .nil, _, _ => ⟨[], .nil⟩
  | .cons hd hds, hroom, hend => by
    obtain ⟨d, hd⟩ := hd.nearest hroom (hds.not_elseNext hend)
    obtain ⟨ds, hds⟩ := hds.nearest hroom hend
    exact ⟨_, .cons hd hds⟩

theorem Function.nearest {room : Room} {us vs : List Token} {f : FunctionDecl} :
    Function False room us f vs → room = .unlimited → ∃ f', Function True .unlimited us f' vs
  | .intro hname hopen hparams hclose hbrace hbody hend, hroom => by
    obtain ⟨ds, hds⟩ := hbody.nearest hroom (hend.not_elseNext (by decide))
    exact ⟨_, .intro hname hopen hparams hclose hbrace hds hend⟩

theorem Methods.nearest {room : Room} {us vs : List Token} {fs : List FunctionDecl} :
    Methods False room us fs vs → room = .unlimited → ∃ fs', Methods True .unlimited us fs' vs
  | .nil, _ => ⟨[], .nil⟩
  | .cons hf hfs, hroom => by
    obtain ⟨f, hf⟩ := hf.nearest hroom
    obtain ⟨fs, hfs⟩ := hfs.nearest hroom
    exact ⟨_, .cons hf hfs⟩

end

/-- What derives a program derives one with every `else` at its nearest `if`. -/
theorem exists_nearest {ds : List Decl} (h : Declarations False .unlimited us ds []) :
    ∃ ds', Declarations True .unlimited us ds' [] :=
  h.nearest rfl nofun

end Lox.Grammar
