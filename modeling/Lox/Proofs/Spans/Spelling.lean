import Lox.Proofs.Spans.Laying

/-!
# Expressions elsewhere

The rules for expressions look at the kinds and the lexemes of the tokens that they pass, at no token
behind these, and at how many levels there are at least. So a derivation can be moved: to tokens that
are spelled alike, in front of any others, with more room.

## Contents
- `spelling`, `Roomier`: what matters of a token, and of the room.
- `Spelled`: a relation between tokens that can be moved.
- `assignment_spelled` and the others: one lemma for each nonterminal.
- `Yields`: what tokens are, whatever follows them.
- `derives_operation`, `derives_unary`, `derives_call`: tighter expressions are expressions.
-/

namespace Lox.Spans

open Grammar Parsing

/-- How a token is spelled. -/
def spelling (t : Token) : Token.Kind × String := (t.kind, t.lexeme)

/-- There are as many levels in the second room as in the first one, or more. -/
inductive Roomier : Room → Room → Prop
  | levels {n m : Nat} : n ≤ m → Roomier (.levels n) (.levels m)
  | unlimited {room : Room} : Roomier room .unlimited

theorem Roomier.inner {room room' inner : Room} (h : Roomier room room') (hopens : room.Opens inner) :
    ∃ inner', room'.Opens inner' ∧ Roomier inner inner' := by
  cases h with
  | unlimited => exact ⟨_, .unlimited, .unlimited⟩
  | @levels n m hle =>
      cases hopens with
      | level =>
          obtain ⟨k, rfl⟩ : ∃ k, m = k + 1 := ⟨m - 1, by omega⟩
          exact ⟨_, .level, .levels (by omega)⟩

/-- In a room, `R` passes from `us` to `vs`; and so it does in any roomier one over all tokens that are
spelled like those that it passed, whatever follows them. -/
def Spelled (R : Room → List Token → List Token → Prop) (room : Room) (us vs : List Token) : Prop :=
  ∃ ts, us = ts ++ vs ∧ ∀ room' ts' vs', Roomier room room' →
    ts'.map spelling = ts.map spelling → R room' (ts' ++ vs') vs'

namespace Spelled

variable {R S : Room → List Token → List Token → Prop} {room inner : Room}
  {us ms vs : List Token}

theorem mono (h : Spelled R room us vs) (hRS : ∀ room us vs, R room us vs → S room us vs) :
    Spelled S room us vs := by
  obtain ⟨ts, rfl, hR⟩ := h
  exact ⟨ts, rfl, fun room' ts' vs' hroom hts => hRS _ _ _ (hR room' ts' vs' hroom hts)⟩

/-- Seen from one level further out. -/
theorem opened (h : Spelled R inner us vs) (hopens : room.Opens inner) :
    Spelled (fun room us vs => ∃ inner, room.Opens inner ∧ R inner us vs) room us vs := by
  obtain ⟨ts, rfl, hR⟩ := h
  refine ⟨ts, rfl, fun room' ts' vs' hroom hts => ?_⟩
  obtain ⟨inner', hopens', hinner⟩ := hroom.inner hopens
  exact ⟨inner', hopens', hR inner' ts' vs' hinner hts⟩

/-- A level that is opened and not used. -/
theorem opening (h : Spelled R room us vs) (hopens : room.Opens inner) :
    Spelled (fun room us vs => (∃ inner, room.Opens inner) ∧ R room us vs) room us vs := by
  obtain ⟨ts, rfl, hR⟩ := h
  refine ⟨ts, rfl, fun room' ts' vs' hroom hts => ?_⟩
  obtain ⟨inner', hopens', _⟩ := hroom.inner hopens
  exact ⟨⟨inner', hopens'⟩, hR room' ts' vs' hroom hts⟩

/-- **Sequencing.** -/
theorem comp (h : Spelled R room us ms) (h' : Spelled S room ms vs) :
    Spelled (fun room us vs => ∃ ms, R room us ms ∧ S room ms vs) room us vs := by
  obtain ⟨ts, rfl, hR⟩ := h
  obtain ⟨ts', rfl, hS⟩ := h'
  refine ⟨ts ++ ts', (List.append_assoc ..).symm, fun room' us' vs' hroom hts => ?_⟩
  rw [List.map_append] at hts
  obtain ⟨us₁, us₂, rfl, h₁, h₂⟩ := List.map_eq_append_iff.1 hts
  rw [List.append_assoc]
  exact ⟨us₂ ++ vs', hR room' us₁ _ hroom h₁, hS room' us₂ vs' hroom h₂⟩

theorem single {t : Token} {ts : List Token}
    (h : ∀ room t' vs', spelling t' = spelling t → R room (t' :: vs') vs') :
    Spelled R room (t :: ts) ts := by
  refine ⟨[t], rfl, fun room' ts' vs' _ hts => ?_⟩
  obtain ⟨t', rfl, ht⟩ := List.map_eq_singleton_iff.1 hts
  exact h room' t' vs' ht

/-- Nothing is passed. -/
theorem empty (h : ∀ room vs, R room vs vs) : Spelled R room us us := by
  refine ⟨[], rfl, fun room' ts' vs' _ hts => ?_⟩
  rw [List.map_nil, List.map_eq_nil_iff] at hts
  rw [hts]
  exact h room' vs'

end Spelled

theorem terminal_spelled {kind : Token.Kind} {room : Room} {us vs : List Token}
    (h : Terminal kind us vs) : Spelled (fun _ us vs => Terminal kind us vs) room us vs := by
  cases h with
  | intro hkind =>
      refine .single fun _ t' _ ht => .intro ?_
      rw [← hkind]
      exact congrArg Prod.fst ht

theorem name_spelled {name : String} {room : Room} {us vs : List Token} (h : Name us name vs) :
    Spelled (fun _ us vs => Name us name vs) room us vs := by
  cases h with
  | @intro t _ hkind =>
      refine .single fun _ t' vs' ht => ?_
      rw [show t.lexeme = t'.lexeme from (congrArg Prod.snd ht).symm]
      exact .intro ((congrArg Prod.fst ht).trans hkind)

mutual

theorem assignment_spelled {room : Room} {us vs : List Token} {e : Expr} :
    Assignment room us e vs → Spelled (fun room us vs => Assignment room us e vs) room us vs
  | .variable hopens hopens' hname hequal hvalue =>
    ((((name_spelled hname).comp ((terminal_spelled hequal).comp
      (assignment_spelled hvalue))).opening hopens').opened hopens).mono fun room us vs h => by
        obtain ⟨inner, hopens, ⟨target, hopens'⟩, us₁, hname, us₂, hequal, hvalue⟩ := h
        exact .variable hopens hopens' hname hequal hvalue
  | .property hopens hopens' hobject hdot hname hequal hvalue =>
    ((((call_spelled hobject).opened hopens').comp ((terminal_spelled hdot).comp
      ((name_spelled hname).comp ((terminal_spelled hequal).comp
        (assignment_spelled hvalue))))).opened hopens).mono fun room us vs h => by
        obtain ⟨inner, hopens, us₁, ⟨target, hopens', hobject⟩, us₂, hdot, us₃, hname, us₄, hequal,
          hvalue⟩ := h
        exact .property hopens hopens' hobject hdot hname hequal hvalue
  | .operation hopens h => ((operation_spelled h).opened hopens).mono fun room us vs h => by
      obtain ⟨inner, hopens, h⟩ := h
      exact .operation hopens h

theorem operation_spelled {room : Room} {levels : List Operators} {us vs : List Token} {e : Expr} :
    Operation room levels us e vs →
      Spelled (fun room us vs => Operation room levels us e vs) room us vs
  | .unary h => (unary_spelled h).mono fun _ _ _ h => .unary h
  | .operand h => (operation_spelled h).mono fun _ _ _ h => .operand h
  | .join hleft hmem hop hright =>
    ((operation_spelled hleft).comp ((terminal_spelled hop).comp
      (operation_spelled hright))).mono fun room us vs h => by
        obtain ⟨us₁, hleft, us₂, hop, hright⟩ := h
        exact .join hleft hmem hop hright

theorem unary_spelled {room : Room} {us vs : List Token} {e : Expr} :
    Unary room us e vs → Spelled (fun room us vs => Unary room us e vs) room us vs
  | .sign hopens hmem hsign hoperand =>
    ((terminal_spelled hsign).comp ((unary_spelled hoperand).opened hopens)).mono
      fun room us vs h => by
        obtain ⟨us₁, hsign, inner, hopens, hoperand⟩ := h
        exact .sign hopens hmem hsign hoperand
  | .call hopens h => ((call_spelled h).opened hopens).mono fun room us vs h => by
      obtain ⟨inner, hopens, h⟩ := h
      exact .call hopens h

theorem call_spelled {room : Room} {us vs : List Token} {e : Expr} :
    Call room us e vs → Spelled (fun room us vs => Call room us e vs) room us vs
  | .primary h => (primary_spelled h).mono fun _ _ _ h => .primary h
  | .call hcallee hopen hargs hclose =>
    ((call_spelled hcallee).comp ((terminal_spelled hopen).comp ((arguments_spelled hargs).comp
      (terminal_spelled hclose)))).mono fun room us vs h => by
        obtain ⟨us₁, hcallee, us₂, hopen, us₃, hargs, hclose⟩ := h
        exact .call hcallee hopen hargs hclose
  | .property hobject hdot hname =>
    ((call_spelled hobject).comp ((terminal_spelled hdot).comp
      (name_spelled hname))).mono fun room us vs h => by
        obtain ⟨us₁, hobject, us₂, hdot, hname⟩ := h
        exact .property hobject hdot hname

theorem arguments_spelled {room : Room} {us vs : List Token} {args : List Expr} :
    Arguments room us args vs →
      Spelled (fun room us vs => Arguments room us args vs) room us vs
  | .none => .empty fun _ _ => .none
  | .some h hcount => (expressions_spelled h).mono fun _ _ _ h => .some h hcount

theorem expressions_spelled {room : Room} {us vs : List Token} {es : List Expr} :
    Expressions room us es vs →
      Spelled (fun room us vs => Expressions room us es vs) room us vs
  | .last h => (assignment_spelled h).mono fun _ _ _ h => .last h
  | .cons h hcomma hs =>
    ((assignment_spelled h).comp ((terminal_spelled hcomma).comp
      (expressions_spelled hs))).mono fun room us vs h => by
        obtain ⟨us₁, h, us₂, hcomma, hs⟩ := h
        exact .cons h hcomma hs

theorem primary_spelled {room : Room} {us vs : List Token} {e : Expr} :
    Primary room us e vs → Spelled (fun room us vs => Primary room us e vs) room us vs
  | .false h => (terminal_spelled h).mono fun _ _ _ h => .false h
  | .true h => (terminal_spelled h).mono fun _ _ _ h => .true h
  | .nil h => (terminal_spelled h).mono fun _ _ _ h => .nil h
  | @Primary.literal _ t _ hkind => .single fun room t' vs' ht => by
    have hspelled : t'.kind = t.kind ∧ t'.lexeme = t.lexeme := Prod.mk.inj ht
    have hliteral : t.literal = t'.literal := by
      unfold Token.literal
      rw [hspelled.1, hspelled.2]
    rw [hliteral]
    exact .literal (by rwa [hspelled.1])
  | .this h => (terminal_spelled h).mono fun _ _ _ h => .this h
  | .variable h => (name_spelled h).mono fun _ _ _ h => .variable h
  | .grouping hopen h hclose =>
    ((terminal_spelled hopen).comp ((assignment_spelled h).comp
      (terminal_spelled hclose))).mono fun room us vs h => by
        obtain ⟨us₁, hopen, us₂, h, hclose⟩ := h
        exact .grouping hopen h hclose
  | .super hsuper hdot hname =>
    ((terminal_spelled hsuper).comp ((terminal_spelled hdot).comp
      (name_spelled hname))).mono fun room us vs h => by
        obtain ⟨us₁, hsuper, us₂, hdot, hname⟩ := h
        exact .super hsuper hdot hname

end

/-! ## Whatever follows -/

/-- In a room, `R` passes the tokens, whatever follows them. -/
def Yields (R : Room → List Token → List Token → Prop) (room : Room) (ts : List Token) : Prop :=
  ∀ vs, R room (ts ++ vs) vs

/-- What was passed once is passed before anything else, and in a roomier room. -/
theorem Spelled.yields {R : Room → List Token → List Token → Prop} {room room' : Room}
    {ts vs : List Token} (h : Spelled R room (ts ++ vs) vs) (hroom : Roomier room room') :
    Yields R room' ts := by
  obtain ⟨us, heq, hR⟩ := h
  rw [List.append_cancel_right heq]
  exact fun vs' => hR room' us vs' hroom rfl

section Tighter

variable {ts : List Token} {e : Expr}

/-- Operations of the tighter levels are operations. -/
theorem operation_of_suffix {room : Room} {levels levels' : List Operators} {us vs : List Token}
    (h : Operation room levels us e vs) (hsuffix : levels <:+ levels') :
    Operation room levels' us e vs := by
  obtain ⟨looser, rfl⟩ := hsuffix
  induction looser with
  | nil => exact h
  | cons level looser ih => exact .operand ih

/-- The room inside an assignment. -/
def inAssignment : Room := .levels (maxNesting - 1)

/-- The room inside a unary expression inside an assignment. -/
def inUnary : Room := .levels (maxNesting - 2)

/-- The tokens of an operation are those of an expression. -/
theorem derives_operation {levels : List Operators} (hsuffix : levels <:+ precedence)
    (h : Yields (fun room us vs => Operation room levels us e.bare vs) inAssignment ts) :
    Derives ts e :=
  fun vs => .operation .level (operation_of_suffix (h vs) hsuffix)

theorem derives_unary (h : Yields (fun room us vs => Unary room us e.bare vs) inAssignment ts) :
    Derives ts e :=
  derives_operation List.nil_suffix fun vs => .unary (h vs)

theorem derives_call (h : Yields (fun room us vs => Call room us e.bare vs) inUnary ts) :
    Derives ts e :=
  derives_unary fun vs => .call .level (h vs)

end Tighter

end Lox.Spans
