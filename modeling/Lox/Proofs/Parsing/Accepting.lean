import Lox.Proofs.Parsing.Reading

/-!
# What a parser accepts

A parser accepts tokens when it succeeds in front of them, with the room that is needed, and passes
exactly these. One token is all that a parser looks ahead, so the tokens behind must not go on with
what it reads. A derivation without a limit on its room promises less: the parser may find that it
has opened too many levels, but no other fault.

Operators are grouped to the left, so their derivations end with the last operand, while the parser
begins with the first one. Between the two stands what a loop still has to do: to read a whole chain
it is enough to go on from any of its first parts.

## Contents
- `Cursor.Fits`, `Ends`, `Accepts`: a parser succeeds in front of given tokens.
- `Accepts.bind`, `Accepts.accept_bind`, `Accepts.expect`: composition and steps.
- `Starts`, `Tower`, `Progress`: loops, and the levels of operators.
- `accepts_last`, `accepts_cons`: lists.
-/

namespace Lox.Parsing

open Grammar

/-- Whether a cursor has the room of a derivation. Without a limit every cursor has it. -/
def Cursor.Fits (c : Cursor) : Room → Prop
  | .unlimited => True
  | .levels n => c.room = .levels n

theorem Cursor.Fits.of_depth {c c' : Cursor} {room : Room} (h : c.Fits room)
    (hdepth : c'.depth = c.depth) : c'.Fits room := by
  cases room with
  | unlimited => trivial
  | levels n =>
      show c'.room = .levels n
      unfold Cursor.room
      rw [hdepth]
      exact h

/-- How a parser that began at the level `depth` ends: with a result for which `P` holds, in front
of `vs` and at its level, or, when the room had no limit, because too many levels were open. -/
def Ends {α : Type} (room : Room) (depth : Nat) (P : α → Prop) (vs : List Token) :
    EStateM.Result SyntaxError Cursor α → Prop
  | .ok a c => P a ∧ c.rest = vs ∧ c.depth = depth
  | .error e _ => room = .unlimited ∧ e.cause = .tooNested

/-- In front of the tokens `us`, with the given room, a parser succeeds with a result for which `P`
holds, passes to `vs`, and leaves the nesting level as it was. -/
def Accepts {α : Type} (p : Parser α) (room : Room) (us : List Token) (P : α → Prop)
    (vs : List Token) : Prop :=
  ∀ c : Cursor, c.Fits room → c.rest = us → Ends room c.depth P vs (p c)

namespace Accepts

variable {α β : Type} {room : Room} {us ms vs : List Token}

theorem mono {p : Parser α} {P Q : α → Prop} (h : Accepts p room us P vs) (hPQ : ∀ a, P a → Q a) :
    Accepts p room us Q vs := by
  intro c hfits hrest
  have hends := h c hfits hrest
  cases hp : p c with
  | error e c' =>
      rw [hp] at hends
      exact hends
  | ok a c' =>
      rw [hp] at hends
      obtain ⟨hP, hbehind⟩ := hends
      exact ⟨hPQ a hP, hbehind⟩

/-- **Sequencing.** What comes second is read from where the first part ended. -/
theorem bind {p : Parser α} {f : α → Parser β} {P : α → Prop} {Q : β → Prop}
    (hp : Accepts p room us P ms) (hf : ∀ a, P a → Accepts (f a) room ms Q vs) :
    Accepts (p >>= f) room us Q vs := by
  intro c hfits hrest
  have hends := hp c hfits hrest
  cases ha : p c with
  | error e c' =>
      rw [bind_of_error ha]
      rw [ha] at hends
      exact hends
  | ok a c' =>
      rw [bind_of_ok ha]
      rw [ha] at hends
      obtain ⟨hP, hrest', hdepth⟩ := hends
      have hends' := hf a hP c' (hfits.of_depth hdepth) hrest'
      rw [hdepth] at hends'
      exact hends'

theorem pure {a : α} {P : α → Prop} (h : P a) : Accepts (Pure.pure a) room us P us :=
  fun _ _ hrest => ⟨h, hrest, rfl⟩

theorem pure_bind {a : α} {f : α → Parser β} {Q : β → Prop} (h : Accepts (f a) room us Q vs) :
    Accepts (Pure.pure a >>= f) room us Q vs := h

theorem map {p : Parser α} {P : β → Prop} (f : α → β)
    (h : Accepts p room us (fun a => P (f a)) vs) : Accepts (f <$> p) room us P vs := by
  rw [map_eq_pure_bind]
  exact h.bind fun a ha => pure ha

/-! ## Steps that all productions share -/

theorem here : Accepts here room us (fun _ => True) us :=
  fun _ _ hrest => ⟨trivial, hrest, rfl⟩

theorem spanFrom (start : Location) : Accepts (spanFrom start) room us (fun _ => True) us :=
  fun _ _ hrest => ⟨trivial, hrest, rfl⟩

theorem remaining : Accepts remaining room us (· = us.length) us :=
  fun _ _ hrest => ⟨congrArg List.length hrest, hrest, rfl⟩

theorem peek? : Accepts peek? room us (· = us.head?.map (·.kind)) us :=
  fun _ _ hrest => ⟨congrArg (fun ts => ts.head?.map (·.kind)) hrest, hrest, rfl⟩

/-- A parser whose first look at the next token finds a given kind. -/
theorem peek_bind {f : Option Token.Kind → Parser β} {Q : β → Prop} {kind? : Option Token.Kind}
    (hkind : us.head?.map (·.kind) = kind?) (h : Accepts (f kind?) room us Q vs) :
    Accepts (Parsing.peek? >>= f) room us Q vs := by
  refine peek?.bind fun kind? heq => ?_
  rw [heq, hkind]
  exact h

theorem check_bind {kind : Token.Kind} {f : Bool → Parser β} {Q : β → Prop}
    (hkind : us.head?.map (·.kind) = some kind) (h : Accepts (f true) room us Q vs) :
    Accepts (check kind >>= f) room us Q vs := by
  refine peek_bind (f := fun kind? => f (kind? == some kind)) hkind ?_
  rw [beq_self_eq_true]
  exact h

theorem check_bind_of_ne {kind : Token.Kind} {f : Bool → Parser β} {Q : β → Prop}
    (hkind : us.head?.map (·.kind) ≠ some kind) (h : Accepts (f false) room us Q vs) :
    Accepts (check kind >>= f) room us Q vs := by
  refine peek_bind (f := fun kind? => f (kind? == some kind)) rfl ?_
  rw [beq_false_of_ne hkind]
  exact h

theorem advance {kind : Token.Kind} (h : Terminal kind us vs) :
    Accepts advance room us (fun _ => True) vs := by
  intro c _ hrest
  refine ⟨trivial, ?_, c.depth_advance⟩
  rw [c.rest_advance, hrest]
  cases h
  rfl

theorem accept_bind {kind : Token.Kind} {f : Bool → Parser β} {Q : β → Prop}
    (hkind : Terminal kind us ms) (h : Accepts (f true) room ms Q vs) :
    Accepts (accept kind >>= f) room us Q vs := by
  have haccept : Accepts (accept kind) room us (· = true) ms := by
    intro c hfits hrest
    have hnext : c.kind? = some kind := by
      unfold Cursor.kind?
      rw [hrest]
      exact hkind.head
    rw [accept_of_kind hnext]
    exact ⟨rfl, (advance hkind c hfits hrest).2⟩
  exact haccept.bind fun b hb => hb ▸ h

theorem accept_bind_of_ne {kind : Token.Kind} {f : Bool → Parser β} {Q : β → Prop}
    (hkind : us.head?.map (·.kind) ≠ some kind) (h : Accepts (f false) room us Q vs) :
    Accepts (accept kind >>= f) room us Q vs := by
  have haccept : Accepts (accept kind) room us (· = false) us := by
    intro c _ hrest
    have hnext : c.kind? ≠ some kind := by
      unfold Cursor.kind?
      rw [hrest]
      exact hkind
    rw [accept_of_ne hnext]
    exact ⟨rfl, hrest, rfl⟩
  exact haccept.bind fun b hb => hb ▸ h

theorem expect {kind : Token.Kind} (what : String) (h : Terminal kind us vs) :
    Accepts (expect kind what) room us (fun _ => True) vs := by
  intro c hfits hrest
  have hbehind := (advance h c hfits hrest).2
  cases h with
  | @intro t _ hkind =>
      rw [expect_of_kind hrest hkind]
      exact ⟨trivial, hbehind⟩

theorem expect_name {name : String} (what : String) (h : Name us name vs) :
    Accepts (Parsing.expect .identifier what) room us (·.lexeme = name) vs := by
  cases h with
  | @intro t _ hkind =>
      intro c hfits hrest
      have hbehind := (advance (.intro hkind) c hfits hrest).2
      rw [expect_of_kind hrest hkind]
      exact ⟨rfl, hbehind⟩

/-- A cursor that has the room for one more level and is below the limit has the inner room behind
it. One at the limit is left only when there was no limit on the room. -/
theorem fits_inner {c : Cursor} {inner : Room} (hopens : room.Opens inner) (h : c.Fits room) :
    (maxNesting ≤ c.depth → room = .unlimited) ∧
      (c.depth < maxNesting → Cursor.Fits { c with depth := c.depth + 1 } inner) ∧
      (inner = .unlimited → room = .unlimited) := by
  cases hopens with
  | unlimited => exact ⟨fun _ => rfl, fun _ => trivial, id⟩
  | @level n =>
      have hlevels : maxNesting - c.depth = n + 1 := Room.levels.inj h
      refine ⟨fun hlimit => by omega, fun _ => ?_, nofun⟩
      exact congrArg Room.levels (show maxNesting - (c.depth + 1) = n by omega)

/-- A level can be opened when there is room for it. -/
theorem nested {p : Parser α} {P : α → Prop} {inner : Room} (hopens : room.Opens inner)
    (h : Accepts p inner us P vs) : Accepts (nested p) room us P vs := by
  intro c hfits hrest
  obtain ⟨hlimit, hinner, hroom⟩ := fits_inner hopens hfits
  by_cases hdepth : c.depth < maxNesting
  · have hends := h { c with depth := c.depth + 1 } (hinner hdepth) hrest
    cases hp : p { c with depth := c.depth + 1 } with
    | error e c' =>
        rw [nested_of_error hdepth hp]
        rw [hp] at hends
        exact ⟨hroom hends.1, hends.2⟩
    | ok a c' =>
        rw [nested_of_ok hdepth hp]
        rw [hp] at hends
        obtain ⟨hP, hbehind, hdepth'⟩ := hends
        refine ⟨hP, hbehind, ?_⟩
        show c'.depth - 1 = c.depth
        rw [hdepth']
        rfl
  -- at the limit an error is no acceptance, unless there was no limit on the room
  · have hfull := Nat.not_lt.1 hdepth
    rw [nested_of_le hfull]
    refine ⟨hlimit hfull, ?_⟩
    unfold Cursor.error
    split <;> rfl

theorem checkCount (what : String) {count : Nat} (h : count < maxArity) :
    Accepts (checkCount .strict what count) room us (fun _ => True) us := by
  intro c _ hrest
  rw [checkCount_of_lt h]
  exact ⟨trivial, hrest, rfl⟩

theorem recovered {p : Parser α} {P : α → Prop} (h : Accepts p room us P vs) :
    Accepts (recovered .strict p) room us (fun o => ∃ a, o = some a ∧ P a) vs := by
  intro c hfits hrest
  have hends := h c hfits hrest
  cases hp : p c with
  | error e c' =>
      rw [recovered_strict_of_error hp]
      rw [hp] at hends
      exact hends
  | ok a c' =>
      rw [recovered_of_ok hp]
      rw [hp] at hends
      obtain ⟨hP, hbehind⟩ := hends
      exact ⟨⟨a, rfl, hP⟩, hbehind⟩

end Accepts

/-! ## Levels of operators -/

/-- To read `e` from `us` up to `ms` and then go on, it is enough to go on from `ms` with what was
read so far, when the bound on the repetition is at least the number of tokens left. -/
def Starts (p : Parser Expr) (loop : Nat → Expr → Parser Expr) (room : Room) (us : List Token)
    (e : Expr) (ms : List Token) : Prop :=
  ∀ (P : Expr → Prop) (vs : List Token),
    (∀ n left, left.bare = e → ms.length ≤ n → Accepts (loop n left) room ms P vs) →
      Accepts p room us P vs

section Chain

variable {γ : Type} {operator? : Token.Kind → Option γ} {operand : Parser Expr}
  {join : γ → Expr → Expr → Expr} {tree : γ → Infix} {level : Operators} {room : Room}
  {us us₁ us₂ vs : List Token}

theorem starts_operand {e : Expr} (h : Accepts operand room us (·.bare = e) vs) :
    Starts (chain operator? operand join) (chainFrom operator? operand join) room us e vs := by
  intro P ws hrest
  refine h.bind fun left hleft => Accepts.remaining.bind fun n hn => ?_
  exact hrest n left hleft (Nat.le_of_eq hn.symm)

theorem starts_join (himplements : Implements operator? join tree level) {kind : Token.Kind}
    {op : Infix} {left right : Expr}
    (hleft : Starts (chain operator? operand join) (chainFrom operator? operand join) room us left
      us₁)
    (hmem : (kind, op) ∈ level) (hop : Terminal kind us₁ us₂)
    (hright : Accepts operand room us₂ (·.bare = right) vs) (hsuffix : vs <:+ us₂) :
    Starts (chain operator? operand join) (chainFrom operator? operand join) room us
      (op.join left right) vs := by
  intro P ws hrest
  refine hleft P ws fun n left' hleft' hn => ?_
  have hpassed : us₂.length < us₁.length := hop.begins.length_lt
  have hbehind : vs.length ≤ us₂.length := hsuffix.length_le
  obtain ⟨op', hop', rfl⟩ := (himplements.mem_iff kind op).1 hmem
  cases n with
  | zero => omega
  | succ n =>
      unfold chainFrom
      refine Accepts.peek_bind hop.head ?_
      rw [Option.bind_some, hop']
      refine (Accepts.advance hop).bind fun _ _ => hright.bind fun right' hright' => ?_
      refine hrest n _ ?_ (by omega)
      rw [himplements.bare_join, hleft', hright']

/-- A chain whose operators do not stand next is read. -/
theorem accepts_chain {levels : List Operators} (himplements : Implements operator? join tree level)
    {e : Expr}
    (h : Starts (chain operator? operand join) (chainFrom operator? operand join) room us e vs)
    (hstops : Stops (level :: levels) vs) :
    Accepts (chain operator? operand join) room us (·.bare = e) vs := by
  refine h _ _ fun n left hleft _ => ?_
  cases n with
  | zero => exact .pure hleft
  | succ n =>
      unfold chainFrom
      refine Accepts.peek_bind rfl ?_
      -- no operator of the level comes next: `hstops` rules them all out
      have hnone : (vs.head?.map (·.kind)).bind operator? = none := by
        rw [Option.bind_eq_none_iff]
        intro kind hkind
        cases hop : operator? kind with
        | none => rfl
        | some op =>
            have hmem := (himplements.mem_iff kind (tree op)).2 ⟨op, hop, rfl⟩
            exact absurd hkind (hstops kind (mem_continuing_cons.2 (.inl ⟨_, hmem⟩)))
      rw [hnone]
      exact .pure hleft

end Chain

/-- The parsers of some levels of operators above the parser of their operands. No token goes on at
two of the levels. -/
inductive Tower (operand : Parser Expr) : List Operators → Parser Expr → Prop
  | base : Tower operand [] operand
  | level {γ : Type} {operator? : Token.Kind → Option γ} {join : γ → Expr → Expr → Expr}
      {tree : γ → Infix} {level : Operators} {levels : List Operators} {p : Parser Expr} :
      Tower operand levels p → Implements operator? join tree level →
      (∀ kind op, (kind, op) ∈ level → kind ∉ continuing levels) →
      Tower operand (level :: levels) (chain operator? p join)

theorem tower_disjunction (operand : Parser Expr) :
    Tower operand precedence (disjunction operand) := by
  have hdisjoint {level : Operators} {levels : List Operators}
      (h : ∀ pair ∈ level, pair.1 ∉ continuing levels) :
      ∀ kind op, (kind, op) ∈ level → kind ∉ continuing levels := fun kind op hmem => h _ hmem
  refine .level (.level (.level (.level (.level (.level .base implements_factor ?_)
    implements_term ?_) implements_comparison ?_) implements_equality ?_) implements_and ?_)
    implements_or ?_ <;> refine hdisjoint ?_ <;> simp [continuing]

/-- How far a derivation of an operation takes the parsers of its levels: operands are read when
nothing goes on behind them, chains are read up to what their loop still has to do. -/
def Progress (operand : Parser Expr) (room : Room) (us : List Token) (e : Expr) (vs : List Token) :
    List Operators → Prop
  | [] => Stops [] vs → Accepts operand room us (·.bare = e) vs
  | level :: levels =>
    ∀ (γ : Type) (operator? : Token.Kind → Option γ) (join : γ → Expr → Expr → Expr)
      (tree : γ → Infix) (p : Parser Expr), Tower operand levels p →
      Implements operator? join tree level →
      (∀ kind op, (kind, op) ∈ level → kind ∉ continuing levels) → Stops levels vs →
      Starts (chain operator? p join) (chainFrom operator? p join) room us e vs

theorem accepts_of_progress {operand p : Parser Expr} {room : Room} {us vs : List Token} {e : Expr}
    {levels : List Operators} (h : Progress operand room us e vs levels)
    (htower : Tower operand levels p) (hstops : Stops levels vs) :
    Accepts p room us (·.bare = e) vs := by
  cases htower with
  | base => exact h hstops
  | level htower himplements hdisjoint =>
      exact accepts_chain himplements (h _ _ _ _ _ htower himplements hdisjoint hstops.of_cons) hstops

/-- What is a unary expression alone is an operation of all levels. -/
theorem accepts_tower {operand p : Parser Expr} {room : Room} {us vs : List Token} {e : Expr}
    {levels : List Operators} (htower : Tower operand levels p)
    (h : Accepts operand room us (·.bare = e) vs) (hstops : Stops levels vs) :
    Accepts p room us (·.bare = e) vs := by
  induction htower with
  | base => exact h
  | level _ himplements _ ih =>
      exact accepts_chain himplements (starts_operand (ih hstops.of_cons)) hstops

/-! ## Lists -/

section Items

variable {α : Type} {item : Nat → Parser α} {room : Room} {us us₁ us₂ vs : List Token}
  {n count : Nat} {P : α → Prop}

theorem accepts_last (h : Accepts (item count) room us P vs)
    (hcomma : vs.head?.map (·.kind) ≠ some .comma) :
    Accepts (itemsFrom item (n + 1) count) room us (fun as => ∃ a, as = [a] ∧ P a) vs := by
  unfold itemsFrom
  refine h.bind fun a ha => Accepts.accept_bind_of_ne hcomma ?_
  exact .pure ⟨a, rfl, ha⟩

theorem accepts_cons {Q : List α → Prop} (h : Accepts (item count) room us P us₁)
    (hcomma : Terminal .comma us₁ us₂)
    (hothers : Accepts (itemsFrom item n (count + 1)) room us₂ Q vs) :
    Accepts (itemsFrom item (n + 1) count) room us
      (fun as => ∃ a others, as = a :: others ∧ P a ∧ Q others) vs := by
  unfold itemsFrom
  refine h.bind fun a ha => Accepts.accept_bind hcomma ?_
  exact hothers.bind fun others hothers => .pure ⟨a, others, rfl, ha, hothers⟩

end Items

end Lox.Parsing
