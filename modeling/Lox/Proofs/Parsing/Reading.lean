import Lox.Proofs.Parsing.Operators
import Lox.Proofs.Parsing.Steps

/-!
# What a parser reads

Every success of a parser passes some tokens and makes a result. What it may do so is a relation of
the same shape as a nonterminal of the grammar: in some room, from the tokens in front to the tokens
behind. The reading of a parser is put together from the readings of its steps.

The nesting levels that a cursor may still open are the room of the derivation, and a parser that
succeeds leaves the levels as they were.

## Contents
- `Cursor.room`, `Reading`, `Reads`: what every success of a parser satisfies.
- `Reads.bind`, `Reads.mono`: composition.
- `Reads.accept_bind`, `Reads.expect`, `Reads.nested`: the steps that all productions share.
- `Reads.chain`, `Reads.items`: repetition.
-/

namespace Lox.Parsing

open Grammar

/-- The nesting levels that a cursor may still open. -/
def Cursor.room (c : Cursor) : Room := .levels (maxNesting - c.depth)

/-- What a parser may do: in some room, pass from some tokens to others with a result. -/
abbrev Reading (α : Type) := Room → List Token → α → List Token → Prop

/-- Every success of a parser is a reading, and leaves the nesting level as it was. -/
def Reads {α : Type} (p : Parser α) (R : Reading α) : Prop :=
  ∀ (c : Cursor) (a : α) (c' : Cursor), p c = .ok a c' →
    c'.depth = c.depth ∧ R c.room c.rest a c'.rest

namespace Reads

variable {α β : Type}

theorem mono {p : Parser α} {R S : Reading α} (h : Reads p R)
    (hRS : ∀ room us a vs, R room us a vs → S room us a vs) : Reads p S := by
  intro c a c' hp
  obtain ⟨hdepth, hR⟩ := h c a c' hp
  exact ⟨hdepth, hRS _ _ _ _ hR⟩

/-- **Sequencing.** The second reading begins where the first one ends, in the same room. -/
theorem bind {p : Parser α} {f : α → Parser β} {R : Reading α} {S : α → Reading β}
    (hp : Reads p R) (hf : ∀ a, Reads (f a) (S a)) :
    Reads (p >>= f) fun room us b vs => ∃ a ms, R room us a ms ∧ S a room ms b vs := by
  intro c b c'' hb
  obtain ⟨a, c', ha, hb⟩ := ok_of_bind hb
  obtain ⟨hdepth, hR⟩ := hp c a c' ha
  obtain ⟨hdepth', hS⟩ := hf a c' b c'' hb
  have hroom : c'.room = c.room := by
    unfold Cursor.room
    rw [hdepth]
  exact ⟨hdepth'.trans hdepth, a, c'.rest, hR, hroom ▸ hS⟩

theorem pure (a : α) : Reads (Pure.pure a : Parser α) fun _ us b vs => b = a ∧ vs = us := by
  rintro c b c' ⟨⟩
  exact ⟨rfl, rfl, rfl⟩

theorem map {p : Parser α} {R : Reading α} (f : α → β) (h : Reads p R) :
    Reads (f <$> p) fun room us b vs => ∃ a, b = f a ∧ R room us a vs := by
  rw [map_eq_pure_bind]
  refine (h.bind fun a => pure (f a)).mono ?_
  rintro room us b vs ⟨a, ms, hR, rfl, rfl⟩
  exact ⟨a, rfl, hR⟩

theorem ite {condition : Bool} {p q : Parser α} {R S : Reading α} (hp : Reads p R)
    (hq : Reads q S) :
    Reads (if condition = true then p else q) fun room us a vs => R room us a vs ∨ S room us a vs := by
  cases condition with
  | true => exact hp.mono fun _ _ _ _ => .inl
  | false => exact hq.mono fun _ _ _ _ => .inr

theorem fail (cause : SyntaxError.Cause) (R : Reading α) : Reads (fail cause) R :=
  fun _ _ _ h => nomatch h

/-! ## Steps that all productions share -/

theorem here : Reads here fun _ us _ vs => vs = us := by
  rintro c l c' ⟨⟩
  exact ⟨rfl, rfl⟩

theorem spanFrom (start : Location) : Reads (spanFrom start) fun _ us _ vs => vs = us := by
  rintro c span c' ⟨⟩
  exact ⟨rfl, rfl⟩

theorem remaining : Reads remaining fun _ us n vs => n = us.length ∧ vs = us := by
  rintro c n c' ⟨⟩
  exact ⟨rfl, rfl, rfl⟩

theorem check (kind : Token.Kind) : Reads (check kind) fun _ us _ vs => vs = us := by
  rintro c b c' ⟨⟩
  exact ⟨rfl, rfl⟩

/-- A parser that looks at the next token first. -/
theorem peek_bind {f : Option Token.Kind → Parser β} {R : Reading β}
    (h : ∀ kind, Reads (f kind) fun room us b vs => us.head?.map (·.kind) = kind → R room us b vs) :
    Reads (peek? >>= f) R := by
  intro c b c' hb
  obtain ⟨hdepth, hR⟩ := h c.kind? c b c' hb
  exact ⟨hdepth, hR rfl⟩

theorem terminal_tail {kind : Token.Kind} {us : List Token}
    (h : us.head?.map (·.kind) = some kind) : Terminal kind us us.tail := by
  cases us with
  | nil => exact nomatch h
  | cons t ts => exact .intro (Option.some.inj h)

/-- A parser that passes a token it has looked at before. -/
theorem advance_bind {f : Unit → Parser β} {R : Reading β} (h : Reads (f ()) R)
    (kind : Token.Kind) :
    Reads (advance >>= f) fun room us b vs =>
      us.head?.map (·.kind) = some kind → ∃ ms, Terminal kind us ms ∧ R room ms b vs := by
  intro c b c' hb
  obtain ⟨hdepth, hR⟩ := h c.advance b c' hb
  have hroom : c.advance.room = c.room := by
    unfold Cursor.room
    rw [c.depth_advance]
  rw [hroom, c.rest_advance] at hR
  exact ⟨hdepth.trans c.depth_advance, fun hkind => ⟨_, terminal_tail hkind, hR⟩⟩

/-- A parser that passes a token of a kind if there is one, and goes on with what it found. -/
theorem accept_bind {kind : Token.Kind} {f : Bool → Parser β} {R S : Reading β}
    (hpassed : Reads (f true) R) (habsent : Reads (f false) S) :
    Reads (accept kind >>= f) fun room us b vs =>
      (∃ ms, Terminal kind us ms ∧ R room ms b vs) ∨
        (us.head?.map (·.kind) ≠ some kind ∧ S room us b vs) := by
  intro c b c' hb
  by_cases hkind : c.kind? = some kind
  · rw [bind_of_ok (accept_of_kind hkind)] at hb
    obtain ⟨hdepth, hR⟩ := advance_bind (f := fun _ => f true) hpassed kind c b c' hb
    exact ⟨hdepth, .inl (hR hkind)⟩
  · rw [bind_of_ok (accept_of_ne hkind)] at hb
    obtain ⟨hdepth, hS⟩ := habsent c b c' hb
    exact ⟨hdepth, .inr ⟨hkind, hS⟩⟩

theorem expect (kind : Token.Kind) (what : String) :
    Reads (expect kind what) fun _ us t vs => us = t :: vs ∧ t.kind = kind := by
  intro c t c' ht
  obtain ⟨ts, hrest, hkind, rfl⟩ := ok_of_expect ht
  refine ⟨c.depth_advance, ?_, hkind⟩
  rw [c.rest_advance, hrest]
  rfl

/-- A token of a kind whose lexeme does not matter. -/
theorem expect_terminal (kind : Token.Kind) (what : String) :
    Reads (Parsing.expect kind what) fun _ us _ vs => Terminal kind us vs := by
  refine (expect kind what).mono ?_
  rintro room us t vs ⟨rfl, hkind⟩
  exact .intro hkind

/-- An identifier. -/
theorem expect_name (what : String) :
    Reads (Parsing.expect .identifier what) fun _ us t vs => Name us t.lexeme vs := by
  refine (expect .identifier what).mono ?_
  rintro room us t vs ⟨rfl, hkind⟩
  exact .intro hkind

theorem opens_room {c : Cursor} (h : c.depth < maxNesting) :
    c.room.Opens (Cursor.room { c with depth := c.depth + 1 }) := by
  unfold Cursor.room
  have hsucc : maxNesting - c.depth = (maxNesting - (c.depth + 1)) + 1 := by omega
  rw [hsucc]
  exact .level

/-- A nested parser reads in the room that is left behind its own level. -/
theorem nested {p : Parser α} {R : Reading α} (h : Reads p R) :
    Reads (nested p) fun room us a vs => ∃ inner, room.Opens inner ∧ R inner us a vs := by
  intro c a c' ha
  obtain ⟨hdepth, c'', hp, rfl⟩ := nested_ok_iff.1 ha
  obtain ⟨hlevel, hR⟩ := h _ _ _ hp
  refine ⟨?_, _, opens_room hdepth, hR⟩
  show c''.depth - 1 = c.depth
  rw [hlevel]
  rfl

theorem checkCount (what : String) (count : Nat) :
    Reads (checkCount .strict what count) fun _ us _ vs => vs = us ∧ count < maxArity := by
  intro c b c' hb
  obtain ⟨hcount, rfl⟩ := ok_of_checkCount hb
  exact ⟨rfl, rfl, hcount⟩

theorem recovered {p : Parser α} {R : Reading α} (h : Reads p R) :
    Reads (recovered .strict p) fun room us a vs => ∃ b, a = some b ∧ R room us b vs := by
  intro c a c' ha
  obtain ⟨b, rfl, hp⟩ := ok_of_recovered ha
  obtain ⟨hdepth, hR⟩ := h _ _ _ hp
  exact ⟨hdepth, b, rfl, hR⟩

/-! ## Repetition -/

/-- The operands read so far are grouped to the left. -/
theorem chainFrom {γ : Type} {operator? : Token.Kind → Option γ} {join : γ → Expr → Expr → Expr}
    {tree : γ → Infix} {level : Operators} {levels : List Operators} {operand : Parser Expr}
    (himplements : Implements operator? join tree level)
    (h : Reads operand fun room us e vs => Operation room levels us e.bare vs) (n : Nat)
    (left : Expr) :
    Reads (chainFrom operator? operand join n left) fun room ms e vs =>
      ∀ us, Operation room (level :: levels) us left.bare ms →
        Operation room (level :: levels) us e.bare vs := by
  induction n generalizing left with
  | zero =>
      refine (pure left).mono ?_
      rintro room ms e vs ⟨rfl, rfl⟩ us hleft
      exact hleft
  | succ n ih =>
      unfold Parsing.chainFrom
      refine peek_bind fun kind? => ?_
      split
      · refine (pure left).mono ?_
        rintro room ms e vs ⟨rfl, rfl⟩ _ us hleft
        exact hleft
      · rename_i op hop
        obtain ⟨kind, rfl, hop⟩ := Option.bind_eq_some_iff.1 hop
        -- the next operand is joined to all that came before it
        have hmem := (himplements.mem_iff kind (tree op)).2 ⟨op, hop, rfl⟩
        refine (advance_bind (h.bind fun right => ih (join op left right)) kind).mono ?_
        intro room ms e vs hread hkind us hleft
        obtain ⟨ms', hterminal, right, ms'', hright, hrest⟩ := hread hkind
        refine hrest us ?_
        rw [himplements.bare_join]
        exact .join hleft hmem hterminal hright

theorem chain {γ : Type} {operator? : Token.Kind → Option γ} {join : γ → Expr → Expr → Expr}
    {tree : γ → Infix} {level : Operators} {levels : List Operators} {operand : Parser Expr}
    (himplements : Implements operator? join tree level)
    (h : Reads operand fun room us e vs => Operation room levels us e.bare vs) :
    Reads (chain operator? operand join) fun room us e vs =>
      Operation room (level :: levels) us e.bare vs := by
  refine (h.bind fun left => remaining.bind fun n => chainFrom himplements h n left).mono ?_
  rintro room us e vs ⟨left, ms, hleft, n, _, ⟨_, rfl⟩, hrest⟩
  exact hrest us (.operand hleft)

/-- A list separated by commas. Every item passes a token, so the bound on the repetition is not
reached behind a comma. -/
theorem itemsFrom {item : Nat → Parser α} {Q : Reading α} {L : Reading (List α)}
    (hitem : ∀ count, Reads (item count) fun room us a vs => Q room us a vs ∧ count < maxArity)
    (hlength : ∀ room us a vs, Q room us a vs → vs.length < us.length)
    (hlast : ∀ room us a vs, Q room us a vs → L room us [a] vs)
    (hcons : ∀ room us a us₁ us₂ as vs, Q room us a us₁ → Terminal .comma us₁ us₂ →
      L room us₂ as vs → L room us (a :: as) vs) (n count : Nat) :
    Reads (itemsFrom item n count) fun room us as vs =>
      us.length < n → L room us as vs ∧ count + as.length ≤ maxArity := by
  induction n generalizing count with
  | zero =>
      refine (pure []).mono ?_
      intro room us as vs _ hbound
      exact absurd hbound (Nat.not_lt_zero _)
  | succ n ih =>
      unfold Parsing.itemsFrom
      have hmore (first : α) := (ih (count + 1)).bind fun others => pure (first :: others)
      refine ((hitem count).bind fun first =>
        accept_bind (hmore first) (pure [first])).mono ?_
      rintro room us as vs ⟨first, us₁, ⟨hfirst, hcount⟩, hrest⟩ hbound
      rcases hrest with ⟨us₂, hcomma, others, _, hothers, rfl, rfl⟩ | ⟨_, rfl, rfl⟩
      -- an item and a comma were passed, so the bound still suits what is left
      · have hfewer : us₂.length < n := by
          have hitem := hlength _ _ _ _ hfirst
          have hpassed := hcomma.begins.length_lt
          omega
        obtain ⟨hlist, hothersCount⟩ := hothers hfewer
        refine ⟨hcons _ _ _ _ _ _ _ hfirst hcomma hlist, ?_⟩
        rw [List.length_cons]
        omega
      · exact ⟨hlast _ _ _ _ hfirst, hcount⟩

theorem items {item : Nat → Parser α} {Q : Reading α} {L : Reading (List α)}
    (hitem : ∀ count, Reads (item count) fun room us a vs => Q room us a vs ∧ count < maxArity)
    (hlength : ∀ room us a vs, Q room us a vs → vs.length < us.length)
    (hlast : ∀ room us a vs, Q room us a vs → L room us [a] vs)
    (hcons : ∀ room us a us₁ us₂ as vs, Q room us a us₁ → Terminal .comma us₁ us₂ →
      L room us₂ as vs → L room us (a :: as) vs) :
    Reads (items item) fun room us as vs => L room us as vs ∧ as.length ≤ maxArity := by
  refine (remaining.bind fun n =>
    itemsFrom hitem hlength hlast hcons (n + 1) 0).mono ?_
  rintro room us as vs ⟨n, _, ⟨rfl, rfl⟩, hread⟩
  obtain ⟨hlist, hcount⟩ := hread (Nat.lt_succ_self _)
  exact ⟨hlist, by omega⟩

end Reads

end Lox.Parsing
