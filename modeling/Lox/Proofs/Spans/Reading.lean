import Lox.Proofs.Spans.Spelling
import Lox.Proofs.Parsing.Reading

/-!
# The tokens that a parser passes

A span goes from the start of the next token, when it is begun, to the end of the token passed last,
when it is finished. So what is said of a parser here is said of the tokens that it passes, and of the
one in front of them. The nesting levels around it matter for what the tokens derive; at least some
number of them is open.

## Contents
- `Passes`: the tokens between two cursors.
- `Layout`, `Lays`, `LaysAt`: what every success of a parser satisfies.
- `Lays.bind`, `Lays.spanFrom`, `Lays.expect` and the others: composition and steps.
- `Lays.and_reads`: what the tokens derive.
- `Lays.items`: repetition.
-/

namespace Lox.Spans

open Grammar Parsing

/-- The cursor `c'` is where `c` is once the tokens `ts` are passed. -/
structure Passes (ts : List Token) (c c' : Cursor) : Prop where
  rest : c.rest = ts ++ c'.rest
  previous : c'.previous = ts.getLast?.or c.previous
  depth : c'.depth = c.depth
  finish : c'.finish = c.finish

namespace Passes

variable {ts ts' : List Token} {c c' c'' : Cursor}

theorem refl (c : Cursor) : Passes [] c c := ⟨rfl, rfl, rfl, rfl⟩

theorem trans (h : Passes ts c c') (h' : Passes ts' c' c'') : Passes (ts ++ ts') c c'' where
  rest := by rw [h.rest, h'.rest, List.append_assoc]
  previous := by rw [h'.previous, h.previous, List.getLast?_append, Option.or_assoc]
  depth := h'.depth.trans h.depth
  finish := h'.finish.trans h.finish

theorem advance {t : Token} {us : List Token} (hrest : c.rest = t :: us) :
    Passes [t] c c.advance := by
  rw [Cursor.advance_of_cons hrest]
  exact ⟨hrest, rfl, rfl, rfl⟩

/-- The first token that is passed is the next one. -/
theorem here (h : Passes ts c c') {t : Token} (ht : ts.head? = some t) : c.here = t.span.start := by
  obtain ⟨us, rfl⟩ := List.head?_eq_some_iff.1 ht
  unfold Cursor.here
  rw [h.rest]
  rfl

end Passes

/-- What may be said of a result: the token passed last before, the tokens passed, and the result. -/
abbrev Layout (α : Type) := Option Token → List Token → α → Prop

/-- Every success in front of a token of the given kind, with so many levels open, is as described. -/
def LaysAt {α : Type} (depth : Nat) (next : Option Token.Kind) (p : Parser α) (R : Layout α) : Prop :=
  ∀ (c : Cursor) (a : α) (c' : Cursor), depth ≤ c.depth → c.kind? = next → p c = .ok a c' →
    ∃ ts, Passes ts c c' ∧ R c.previous ts a

/-- Every success, with so many levels open, is as described. -/
def Lays {α : Type} (depth : Nat) (p : Parser α) (R : Layout α) : Prop :=
  ∀ next, LaysAt depth next p R

section

variable {α β : Type} {depth : Nat} {next : Option Token.Kind}

theorem LaysAt.mono {p : Parser α} {R S : Layout α} (h : LaysAt depth next p R)
    (hRS : ∀ prev ts a, R prev ts a → S prev ts a) : LaysAt depth next p S := by
  intro c a c' hdepth hnext hp
  obtain ⟨ts, hpasses, hR⟩ := h c a c' hdepth hnext hp
  exact ⟨ts, hpasses, hRS _ _ _ hR⟩

/-- A token of a kind that was looked at is passed. -/
theorem LaysAt.advance_bind {f : Unit → Parser β} {R : Layout β} {kind : Token.Kind}
    (h : Lays depth (f ()) R) : LaysAt depth (some kind) (advance >>= f) fun _ ts b =>
      ∃ t us, ts = t :: us ∧ t.kind = kind ∧ R (some t) us b := by
  intro c b c' hdepth hnext hb
  obtain ⟨t, us, hrest, hkind⟩ := Cursor.exists_cons_of_kind? hnext
  have hpassed := Passes.advance hrest
  obtain ⟨us, hus, hR⟩ := h _ c.advance b c' (hpassed.depth.symm ▸ hdepth) rfl hb
  rw [hpassed.previous] at hR
  exact ⟨t :: us, hpassed.trans hus, t, us, rfl, hkind, hR⟩

namespace Lays

theorem mono {p : Parser α} {R S : Layout α} (h : Lays depth p R)
    (hRS : ∀ prev ts a, R prev ts a → S prev ts a) : Lays depth p S :=
  fun next => (h next).mono hRS

/-- With more levels open. -/
theorem deeper {p : Parser α} {R : Layout α} (h : Lays depth p R) {depth' : Nat}
    (hle : depth ≤ depth') : Lays depth' p R :=
  fun next c a c' hdepth => h next c a c' (Nat.le_trans hle hdepth)

/-- **Sequencing.** -/
theorem bind {p : Parser α} {f : α → Parser β} {R : Layout α} {S : α → Layout β}
    (hp : Lays depth p R) (hf : ∀ a, Lays depth (f a) (S a)) :
    Lays depth (p >>= f) fun prev ts b => ∃ a us vs, ts = us ++ vs ∧ R prev us a ∧
      S a (us.getLast?.or prev) vs b := by
  intro next c b c'' hdepth hnext hb
  obtain ⟨a, c', ha, hb⟩ := ok_of_bind hb
  obtain ⟨us, hus, hR⟩ := hp next c a c' hdepth hnext ha
  obtain ⟨vs, hvs, hS⟩ := hf a _ c' b c'' (hus.depth.symm ▸ hdepth) rfl hb
  rw [hus.previous] at hS
  exact ⟨us ++ vs, hus.trans hvs, a, us, vs, rfl, hR, hS⟩

theorem pure (a : α) : Lays depth (Pure.pure a : Parser α) fun _ ts b => ts = [] ∧ b = a := by
  rintro next c b c' - - ⟨⟩
  exact ⟨[], .refl c, rfl, rfl⟩

theorem map {p : Parser α} {R : Layout α} (f : α → β) (h : Lays depth p R) :
    Lays depth (f <$> p) fun prev ts b => ∃ a, b = f a ∧ R prev ts a := by
  rw [map_eq_pure_bind]
  refine (h.bind fun a => pure (f a)).mono ?_
  rintro prev _ b ⟨a, us, _, rfl, hR, rfl, rfl⟩
  rw [List.append_nil]
  exact ⟨a, rfl, hR⟩

theorem ite {condition : Bool} {p q : Parser α} {R S : Layout α} (hp : Lays depth p R)
    (hq : Lays depth q S) :
    Lays depth (if condition = true then p else q) fun prev ts a => R prev ts a ∨ S prev ts a := by
  cases condition with
  | true => exact hp.mono fun _ _ _ => .inl
  | false => exact hq.mono fun _ _ _ => .inr

theorem fail (cause : SyntaxError.Cause) (R : Layout α) : Lays depth (fail cause) R :=
  fun _ _ _ _ _ _ h => nomatch h

/-! ## Steps that all productions share -/

/-- The start of what comes next. -/
theorem here_bind {f : Location → Parser β} {R : Location → Layout β}
    (h : ∀ start, Lays depth (f start) (R start)) : Lays depth (here >>= f) fun prev ts b =>
      ∃ start, (∀ t, ts.head? = some t → start = t.span.start) ∧ R start prev ts b := by
  intro next c b c' hdepth hnext hb
  obtain ⟨ts, hts, hR⟩ := h c.here next c b c' hdepth hnext hb
  exact ⟨ts, hts, c.here, fun t ht => hts.here ht, hR⟩

/-- Up to the end of the token passed last. -/
theorem spanFrom (start : Location) : Lays depth (spanFrom start) fun prev ts span =>
    ts = [] ∧ ∀ t, prev = some t → span = ⟨start, t.span.stop⟩ := by
  rintro next c span c' - - ⟨⟩
  refine ⟨[], .refl c, rfl, fun t ht => ?_⟩
  unfold Cursor.reached
  rw [ht]

theorem remaining : Lays depth remaining fun _ ts _ => ts = [] := by
  rintro next c n c' - - ⟨⟩
  exact ⟨[], .refl c, rfl⟩

theorem check (kind : Token.Kind) : Lays depth (check kind) fun _ ts _ => ts = [] := by
  rintro next c b c' - - ⟨⟩
  exact ⟨[], .refl c, rfl⟩

/-- A parser that looks at the next token first. -/
theorem peek_bind {f : Option Token.Kind → Parser β} {R : Layout β}
    (h : ∀ kind, LaysAt depth kind (f kind) R) : Lays depth (peek? >>= f) R :=
  fun _ c b c' hdepth _ hb => h c.kind? c b c' hdepth rfl hb

/-- A parser that looks at the next token first, and at where it begins. -/
theorem here_peek_bind {f : Location → Option Token.Kind → Parser β} {R : Layout β}
    (h : ∀ start kind, LaysAt depth kind (f start kind) fun prev ts b =>
      (∀ t, ts.head? = some t → start = t.span.start) → R prev ts b) :
    Lays depth (here >>= fun start => peek? >>= f start) R := by
  refine (here_bind fun start => peek_bind (h start)).mono ?_
  rintro prev ts b ⟨start, hstart, hR⟩
  exact hR hstart

/-- A parser that passes a token of a kind if there is one, and goes on with what it found. -/
theorem accept_bind {kind : Token.Kind} {f : Bool → Parser β} {R S : Layout β}
    (hpassed : Lays depth (f true) R) (habsent : Lays depth (f false) S) :
    Lays depth (accept kind >>= f) fun prev ts b =>
      (∃ t us, ts = t :: us ∧ t.kind = kind ∧ R (some t) us b) ∨ S prev ts b := by
  intro next c b c' hdepth hnext hb
  by_cases hkind : c.kind? = some kind
  · rw [bind_of_ok (accept_of_kind hkind)] at hb
    obtain ⟨ts, hts, hR⟩ :=
      LaysAt.advance_bind (f := fun _ => f true) hpassed c b c' hdepth hkind hb
    exact ⟨ts, hts, .inl hR⟩
  · rw [bind_of_ok (accept_of_ne hkind)] at hb
    obtain ⟨ts, hts, hS⟩ := habsent next c b c' hdepth hnext hb
    exact ⟨ts, hts, .inr hS⟩

theorem expect (kind : Token.Kind) (what : String) :
    Lays depth (expect kind what) fun _ ts t => ts = [t] ∧ t.kind = kind := by
  intro next c t c' _ _ ht
  obtain ⟨ts, hrest, hkind, rfl⟩ := ok_of_expect ht
  exact ⟨[t], .advance hrest, rfl, hkind⟩

/-- A token at which a span ends. -/
theorem ended (kind : Token.Kind) (what : String) (start : Location) (f : Token → Span → β) :
    Lays depth (do
      let close ← Parsing.expect kind what
      let span ← Parsing.spanFrom start
      Pure.pure (f close span)) fun _ ts b =>
        ∃ close, ts = [close] ∧ b = f close ⟨start, close.span.stop⟩ := by
  refine ((expect kind what).bind fun close => (spanFrom start).bind fun span =>
    pure (f close span)).mono ?_
  rintro prev _ b ⟨close, _, _, rfl, ⟨rfl, -⟩, span, _, _, rfl, ⟨rfl, hspan⟩, rfl, rfl⟩
  exact ⟨close, rfl, congrArg (f close) (hspan close rfl)⟩

/-- One level further in, one more is open. -/
theorem nested {p : Parser α} {R : Layout α} (h : Lays (depth + 1) p R) :
    Lays depth (nested p) R := by
  intro next c a c' hdepth hnext ha
  obtain ⟨-, c'', hp, rfl⟩ := nested_ok_iff.1 ha
  obtain ⟨ts, hts, hR⟩ :=
    h next { c with depth := c.depth + 1 } _ _ (Nat.succ_le_succ hdepth) hnext hp
  refine ⟨ts, ⟨hts.rest, hts.previous, ?_, hts.finish⟩, hR⟩
  show c''.depth - 1 = c.depth
  rw [hts.depth]
  rfl

theorem checkCount (what : String) (count : Nat) :
    Lays depth (checkCount .strict what count) fun _ ts _ => ts = [] := by
  intro next c b c' _ _ hb
  obtain ⟨-, rfl⟩ := ok_of_checkCount hb
  exact ⟨[], .refl _, rfl⟩

theorem recovered {p : Parser α} {R : Layout α} (h : Lays depth p R) :
    Lays depth (recovered .strict p) fun prev ts a => ∃ b, a = some b ∧ R prev ts b := by
  intro next c a c' hdepth hnext ha
  obtain ⟨b, rfl, hp⟩ := ok_of_recovered ha
  obtain ⟨ts, hts, hR⟩ := h next c b _ hdepth hnext hp
  exact ⟨ts, hts, b, rfl, hR⟩

/-! ## What the tokens derive -/

/-- What a parser reads, it reads from the tokens that it passes, whatever follows them. -/
theorem and_reads {p : Parser α} {R : Layout α} {S : Reading α} (h : Lays depth p R)
    (hreads : Reads p S)
    (hspelled : ∀ room us a vs, S room us a vs → Spelled (fun room us vs => S room us a vs) room us vs) :
    Lays depth p fun prev ts a =>
      R prev ts a ∧ Yields (fun room us vs => S room us a vs) (.levels (maxNesting - depth)) ts := by
  intro next c a c' hdepth hnext hp
  obtain ⟨ts, hts, hR⟩ := h next c a c' hdepth hnext hp
  obtain ⟨_, hS⟩ := hreads c a c' hp
  rw [hts.rest] at hS
  exact ⟨ts, hts, hR, (hspelled _ _ _ _ hS).yields (.levels (by omega))⟩

/-! ## Repetition -/

/-- A list separated by commas. -/
theorem itemsFrom {item : Nat → Parser α} {P : List Token → α → Prop}
    (hitem : ∀ count, Lays depth (item count) fun _ ts a => P ts a) (n count : Nat) :
    Lays depth (itemsFrom item n count) fun _ ts as => Among P ts as := by
  induction n generalizing count with
  | zero =>
      refine (pure []).mono ?_
      rintro prev ts as ⟨rfl, rfl⟩
      exact .nil P []
  | succ n ih =>
      unfold Parsing.itemsFrom
      have hmore (first : α) := (ih (count + 1)).bind fun others => pure (first :: others)
      refine ((hitem count).bind fun first =>
        accept_bind (hmore first) (pure [first])).mono ?_
      rintro prev _ as ⟨first, us, vs, rfl, hfirst, hrest⟩
      rcases hrest with ⟨comma, _, rfl, _, others, ws, _, rfl, hothers, rfl, rfl⟩ | ⟨rfl, rfl⟩
      · refine .cons hfirst List.infix_append_left (hothers.mono ?_)
        rw [List.append_nil]
        exact List.infix_append_of_infix_right (List.infix_cons (List.infix_refl ws))
      · exact .cons hfirst List.infix_append_left (.nil P _)

theorem items {item : Nat → Parser α} {P : List Token → α → Prop}
    (hitem : ∀ count, Lays depth (item count) fun _ ts a => P ts a) :
    Lays depth (items item) fun _ ts as => Among P ts as := by
  refine (remaining.bind fun n => itemsFrom hitem (n + 1) 0).mono ?_
  rintro prev _ as ⟨n, _, ts, rfl, rfl, hitems⟩
  exact hitems

end Lays

end

end Lox.Spans
