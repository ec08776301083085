import Lox.Parsing.Program
import Lox.Proofs.Sequencing

/-!
# The steps of a parser

What a cursor shows and where a step leaves it, for each step that the productions are made of. As for
sequences, the equations run a step whose outcome is known, and the inversions say what a success of
it has done.

## Contents
- `Cursor.kind?_of_cons`, `Cursor.advance_of_cons` and the others: the next token, and behind it.
- `accept_of_kind`, `expect_of_kind`, `ok_of_expect`: tokens of a kind.
- `nested_ok_iff`, `recovered_of_ok`, `ok_of_recovered`: parsers inside levels and recovery.
- `behindFirst`, `primary_eq`, `ok_of_primary`, `behindFirst_rel`: primary expressions, by their first
  token.
-/

namespace Lox.Parsing

/-! ## The next token -/

namespace Cursor

variable {c : Cursor} {t : Token} {ts : List Token} {kind : Token.Kind}

theorem kind?_of_cons (h : c.rest = t :: ts) : c.kind? = some t.kind := by
  unfold kind?
  rw [h]
  rfl

theorem kind?_of_nil (h : c.rest = []) : c.kind? = none := by
  unfold kind?
  rw [h]
  rfl

theorem exists_cons_of_kind? (h : c.kind? = some kind) :
    ∃ t ts, c.rest = t :: ts ∧ t.kind = kind := by
  cases hrest : c.rest with
  | nil =>
      rw [kind?_of_nil hrest] at h
      exact nomatch h
  | cons t ts =>
      rw [kind?_of_cons hrest] at h
      exact ⟨t, ts, rfl, Option.some.inj h⟩

theorem rest_ne_nil_of_kind? (h : c.kind? = some kind) : c.rest ≠ [] := by
  obtain ⟨t, ts, hrest, _⟩ := exists_cons_of_kind? h
  rw [hrest]
  exact List.cons_ne_nil t ts

theorem advance_of_cons (h : c.rest = t :: ts) :
    c.advance = { c with previous := some t, rest := ts } := by
  unfold advance
  rw [h]

/-- At the end of the tokens there is nothing to pass. -/
theorem advance_of_nil (h : c.rest = []) : c.advance = c := by
  unfold advance
  rw [h]

theorem rest_advance (c : Cursor) : c.advance.rest = c.rest.tail := by
  cases hrest : c.rest with
  | nil => rw [advance_of_nil hrest, hrest, List.tail_nil]
  | cons t ts => rw [advance_of_cons hrest, List.tail_cons]

theorem depth_advance (c : Cursor) : c.advance.depth = c.depth := by
  unfold advance
  split <;> rfl

theorem errors_advance (c : Cursor) : c.advance.errors = c.errors := by
  unfold advance
  split <;> rfl

end Cursor

/-! ## Tokens of a kind -/

section Tokens

variable {α : Type} {c c' : Cursor} {t : Token} {ts : List Token} {kind : Token.Kind}
  {what : String}

theorem accept_of_kind (h : c.kind? = some kind) : accept kind c = .ok true c.advance := if_pos h

theorem accept_of_ne (h : c.kind? ≠ some kind) : accept kind c = .ok false c := if_neg h

theorem expect_of_kind (hrest : c.rest = t :: ts) (hkind : t.kind = kind) :
    expect kind what c = .ok t c.advance := by
  unfold expect
  rw [hrest]
  exact if_pos hkind

/-- Without a token of the kind the next one is an error. -/
theorem expect_of_ne (h : c.kind? ≠ some kind) :
    expect kind what c = fail (.expected what) c := by
  unfold expect
  cases hrest : c.rest with
  | nil => rfl
  | cons t ts =>
      rw [Cursor.kind?_of_cons hrest] at h
      exact if_neg fun hkind => h (congrArg some hkind)

theorem ok_of_expect (h : expect kind what c = .ok t c') :
    ∃ ts, c.rest = t :: ts ∧ t.kind = kind ∧ c' = c.advance := by
  by_cases hkind : c.kind? = some kind
  · obtain ⟨u, us, hrest, hu⟩ := Cursor.exists_cons_of_kind? hkind
    rw [expect_of_kind hrest hu] at h
    cases h
    exact ⟨us, hrest, hu, rfl⟩
  · rw [expect_of_ne hkind] at h
    exact nomatch h

/-- What an error would say does not matter when there is none. -/
theorem expect_ok_congr {what' : String} (h : expect kind what c = .ok t c') :
    expect kind what' c = .ok t c' := by
  obtain ⟨ts, hrest, hkind, rfl⟩ := ok_of_expect h
  exact expect_of_kind hrest hkind

end Tokens

/-! ## Levels, recovery and counts -/

section Inside

variable {α : Type} {mode : Mode} {p : Parser α} {c c' : Cursor} {a : α} {e : SyntaxError}

theorem nested_of_le (h : maxNesting ≤ c.depth) : nested p c = fail .tooNested c := if_pos h

theorem nested_of_ok (hdepth : c.depth < maxNesting)
    (h : p { c with depth := c.depth + 1 } = .ok a c') :
    nested p c = .ok a { c' with depth := c'.depth - 1 } := by
  unfold nested
  rw [if_neg (Nat.not_le.2 hdepth), h]

theorem nested_of_error (hdepth : c.depth < maxNesting)
    (h : p { c with depth := c.depth + 1 } = .error e c') :
    nested p c = .error e { c' with depth := c'.depth - 1 } := by
  unfold nested
  rw [if_neg (Nat.not_le.2 hdepth), h]

/-- One level deeper the same tokens are read. -/
theorem nested_ok_iff :
    nested p c = .ok a c' ↔ c.depth < maxNesting ∧ ∃ c₁,
      p { c with depth := c.depth + 1 } = .ok a c₁ ∧ c' = { c₁ with depth := c₁.depth - 1 } := by
  constructor
  · intro h
    by_cases hdepth : c.depth < maxNesting
    · cases hp : p { c with depth := c.depth + 1 } with
      | ok b c₁ =>
          rw [nested_of_ok hdepth hp] at h
          cases h
          exact ⟨hdepth, c₁, rfl, rfl⟩
      | error e c₁ =>
          rw [nested_of_error hdepth hp] at h
          exact nomatch h
    · rw [nested_of_le (Nat.not_lt.1 hdepth)] at h
      exact nomatch h
  · rintro ⟨hdepth, c₁, hp, rfl⟩
    exact nested_of_ok hdepth hp

theorem recovered_of_ok (h : p c = .ok a c') : recovered mode p c = .ok (some a) c' := by
  unfold recovered
  rw [h]

theorem recovered_strict_of_error (h : p c = .error e c') :
    recovered .strict p c = .error e c' := by
  unfold recovered
  rw [h]

theorem recovered_recovering_of_error (h : p c = .error e c') :
    recovered .recovering p c = .ok none (c'.record e).synchronize := by
  unfold recovered
  rw [h]

/-- The first error ends a parse that does not recover, so such a parser leaves nothing out. -/
theorem ok_of_recovered {o : Option α} (h : recovered .strict p c = .ok o c') :
    ∃ a, o = some a ∧ p c = .ok a c' := by
  cases hp : p c with
  | ok a c₁ =>
      rw [recovered_of_ok hp] at h
      cases h
      exact ⟨a, rfl, rfl⟩
  | error e c₁ =>
      rw [recovered_strict_of_error hp] at h
      exact nomatch h

theorem checkCount_of_lt {what : String} {count : Nat} (h : count < maxArity) :
    checkCount mode what count c = .ok () c := if_neg (Nat.not_le.2 h)

theorem checkCount_of_le {what : String} {count : Nat} (h : maxArity ≤ count) :
    checkCount mode what count c = report mode (c.error (.tooMany what)) c := if_pos h

theorem ok_of_checkCount {what : String} {count : Nat} {u : Unit}
    (h : checkCount .strict what count c = .ok u c') : count < maxArity ∧ c' = c := by
  by_cases hcount : count < maxArity
  · rw [checkCount_of_lt hcount] at h
    cases h
    exact ⟨hcount, rfl⟩
  · rw [checkCount_of_le (Nat.not_lt.1 hcount)] at h
    exact nomatch h

end Inside

/-! ## Primary expressions -/

/-- What a primary expression is behind its first token; none when no expression begins with it. -/
def behindFirst (expression : Parser Expr) (t : Token) : Option (Parser Expr) :=
  match t.kind with
  | .false => some (pure (.literal (.bool false) t.span))
  | .true => some (pure (.literal (.bool true) t.span))
  | .nil => some (pure (.literal .nil t.span))
  | .number | .string => some (pure (.literal t.literal t.span))
  | .this => some (pure (.this none t.span))
  | .identifier => some (pure (.variable ⟨t.lexeme, none, t.span⟩))
  | .super => some (superMethod t.span.start)
  | .leftParen => some (grouping expression t.span.start)
  | _ => none

section Primary

variable {expression expression' : Parser Expr} {c c' : Cursor} {t : Token} {ts : List Token} {e : Expr}

theorem primary_of_nil (hrest : c.rest = []) : primary expression c = fail .noExpression c := by
  unfold primary
  rw [hrest]
  rfl

theorem primary_eq (hrest : c.rest = t :: ts) :
    primary expression c =
      match behindFirst expression t with
      | some p => p c.advance
      | none => fail .noExpression c := by
  unfold primary behindFirst
  rw [hrest]
  dsimp only
  cases t.kind <;> rfl

theorem ok_of_primary (h : primary expression c = .ok e c') :
    ∃ t ts p, c.rest = t :: ts ∧ behindFirst expression t = some p ∧ p c.advance = .ok e c' := by
  cases hrest : c.rest with
  | nil =>
      rw [primary_of_nil hrest] at h
      exact nomatch h
  | cons t ts =>
      rw [primary_eq hrest] at h
      cases hp : behindFirst expression t with
      | none =>
          rw [hp] at h
          exact nomatch h
      | some p =>
          rw [hp] at h
          exact ⟨t, ts, p, rfl, hp, h⟩

/-- Whether an expression begins with a token does not depend on the expressions inside it. What is
read behind the token depends on them in a group alone. -/
theorem behindFirst_rel {R : Parser Expr → Parser Expr → Prop} (hleaf : ∀ e, R (pure e) (pure e))
    (hsuper : R (superMethod t.span.start) (superMethod t.span.start))
    (hgrouping : R (grouping expression t.span.start) (grouping expression' t.span.start)) :
    (behindFirst expression t = none ∧ behindFirst expression' t = none) ∨
      ∃ p q, behindFirst expression t = some p ∧ behindFirst expression' t = some q ∧ R p q := by
  unfold behindFirst
  split
  case h_8 => exact .inr ⟨_, _, rfl, rfl, hsuper⟩
  case h_9 => exact .inr ⟨_, _, rfl, rfl, hgrouping⟩
  case h_10 => exact .inl ⟨rfl, rfl⟩
  all_goals exact .inr ⟨_, _, rfl, rfl, hleaf _⟩

end Primary

end Lox.Parsing
