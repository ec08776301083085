import Lox.Proofs.Places.Syntax

/-!
# Parsing in other surroundings

A parser looks one token ahead, and knows the tokens only by kind and lexeme. So when it succeeds, it
succeeds in the same way on tokens at other places, with more tokens behind them, and makes the same
tree at the other places. Two things have to be watched. What it saw of the token behind its last one
must not have been the end of the tokens, since something else may stand there now. And it must have
passed a token before it asks where the last one ended.

A parser is given more tokens than before, so its bounds on repetition and recursion may be greater.

## Contents
- `Placing`, `Carried`: tokens at other places with others behind them.
- `Passed`: what a parser leaves of the tokens.
- `CarriesAt`, `Carries`: a parser does the same in other surroundings.
- `CarriesAt.bind`, `CarriesAt.peek_bind`, `Carries.expect` and the others: composition and steps.
- `Carries.chain`, `Carries.items`: repetition.
-/

namespace Lox.Parsing

/-- Other surroundings for tokens: where they are moved, and what stands behind them. -/
structure Placing where
  move : Location → Location
  tail : List Token

/-- `d` stands in front of the tokens of `c`, moved, with the tail behind them. The token passed last
has been moved too, if there is one. -/
structure Carried (s : Placing) (c d : Cursor) : Prop where
  rest : d.rest = c.rest.map (·.relocate s.move) ++ s.tail
  depth : d.depth = c.depth
  previous : ∀ t, c.previous = some t → d.previous = some (t.relocate s.move)

/-- `c'` is behind `c`; when `eats` holds, by at least one token. -/
structure Passed (eats : Bool) (c c' : Cursor) : Prop where
  length_le : c'.rest.length + eats.toNat ≤ c.rest.length
  started : eats = true ∨ c.previous.isSome → c'.previous.isSome

/-- When `p` succeeds at `c`, then `q` succeeds at every cursor that is carried from `c`, and makes
what `f` says. When `looks` holds, only if some token is left behind `p`. -/
def CarriesAt {α β : Type} (s : Placing) (looks eats : Bool) (f : α → β) (p : Parser α)
    (q : Parser β) (c : Cursor) : Prop :=
  ∀ a c', p c = .ok a c' → Passed eats c c' ∧
    ((looks = true → c'.rest ≠ []) →
      ∀ d, Carried s c d → ∃ d', q d = .ok (f a) d' ∧ Carried s c' d')

/-- The same at every cursor. -/
def Carries {α β : Type} (s : Placing) (looks eats : Bool) (f : α → β) (p : Parser α)
    (q : Parser β) : Prop :=
  ∀ c, CarriesAt s looks eats f p q c

namespace Passed

theorem refl (c : Cursor) : Passed false c c := ⟨Nat.le_refl _, fun h => by simpa using h⟩

theorem trans {e₁ e₂ : Bool} {c c' c'' : Cursor} (h : Passed e₁ c c') (h' : Passed e₂ c' c'') :
    Passed (e₁ || e₂) c c'' := by
  obtain ⟨hlength, hstarted⟩ := h
  obtain ⟨hlength', hstarted'⟩ := h'
  constructor
  · cases e₁ <;> cases e₂ <;> simp only [Bool.toNat_false, Bool.toNat_true, Bool.or_self,
      Bool.or_true, Bool.or_false] at hlength hlength' ⊢ <;> omega
  · intro h
    refine hstarted' ?_
    rcases h with heats | hbefore
    · rcases Bool.or_eq_true_iff.1 heats with he₁ | he₂
      · exact .inr (hstarted (.inl he₁))
      · exact .inl he₂
    · exact .inr (hstarted (.inr hbefore))

theorem weaken {e e' : Bool} {c c' : Cursor} (h : Passed e c c') (he : e' = true → e = true) :
    Passed e' c c' := by
  obtain ⟨hlength, hstarted⟩ := h
  constructor
  · cases e' with
    | false =>
        rw [Bool.toNat_false]
        omega
    | true =>
        rw [he rfl] at hlength
        exact hlength
  · intro h
    exact hstarted (h.imp_left he)

theorem le {e : Bool} {c c' : Cursor} (h : Passed e c c') : c'.rest.length ≤ c.rest.length := by
  have hlength := h.length_le
  omega

theorem lt {c c' : Cursor} (h : Passed true c c') : c'.rest.length < c.rest.length := h.length_le

/-- Behind a token there is one in front of it. -/
theorem rest_ne_nil {c c' : Cursor} (h : Passed true c c') : c.rest ≠ [] := by
  have hlength := h.length_le
  rw [Bool.toNat_true] at hlength
  exact List.ne_nil_of_length_pos (by omega)

theorem rest_ne_nil_of_ne {e : Bool} {c c' : Cursor} (h : Passed e c c') (hne : c'.rest ≠ []) :
    c.rest ≠ [] := by
  have hlength := h.le
  have hpos := List.length_pos_iff.2 hne
  exact List.ne_nil_of_length_pos (by omega)

theorem advance {c : Cursor} (h : c.rest ≠ []) : Passed true c c.advance := by
  obtain ⟨t, ts, hrest⟩ := List.exists_cons_of_ne_nil h
  rw [Cursor.advance_of_cons hrest]
  exact ⟨by rw [hrest]; exact Nat.le_refl _, fun _ => rfl⟩

end Passed

namespace Carried

variable {s : Placing} {c d : Cursor}

/-- The next token is carried as it stands. -/
theorem rest_eq (h : Carried s c d) {t : Token} {ts : List Token} (hrest : c.rest = t :: ts) :
    d.rest = t.relocate s.move :: (ts.map (·.relocate s.move) ++ s.tail) := by
  rw [h.rest, hrest, List.map_cons, List.cons_append]

theorem kind?_eq (h : Carried s c d) (hne : c.rest ≠ []) : d.kind? = c.kind? := by
  obtain ⟨t, ts, hrest⟩ := List.exists_cons_of_ne_nil hne
  rw [Cursor.kind?_of_cons hrest, Cursor.kind?_of_cons (h.rest_eq hrest), Token.relocate_kind]

theorem advance (h : Carried s c d) (hne : c.rest ≠ []) : Carried s c.advance d.advance := by
  obtain ⟨t, ts, hrest⟩ := List.exists_cons_of_ne_nil hne
  rw [Cursor.advance_of_cons hrest, Cursor.advance_of_cons (h.rest_eq hrest)]
  refine ⟨rfl, h.depth, ?_⟩
  intro u hu
  cases hu
  rfl

theorem here_eq (h : Carried s c d) (hne : c.rest ≠ []) : d.here = s.move c.here := by
  obtain ⟨t, ts, hrest⟩ := List.exists_cons_of_ne_nil hne
  unfold Cursor.here
  rw [h.rest, hrest]
  rfl

theorem reached_eq (h : Carried s c d) (hstarted : c.previous.isSome) :
    d.reached = s.move c.reached := by
  obtain ⟨t, ht⟩ := Option.isSome_iff_exists.1 hstarted
  unfold Cursor.reached
  rw [ht, h.previous t ht]
  rfl

end Carried

/-! ## Composition -/

namespace CarriesAt

variable {α β γ δ : Type} {s : Placing} {l l₁ e e₁ : Bool} {c : Cursor}

theorem weaken {f : α → β} {p : Parser α} {q : Parser β} (h : CarriesAt s l₁ e₁ f p q c)
    (hl : l₁ = true → l = true) (he : e = true → e₁ = true) : CarriesAt s l e f p q c := by
  intro a c' hp
  obtain ⟨hpassed, hcarries⟩ := h a c' hp
  exact ⟨hpassed.weaken he, fun hlooks => hcarries fun h => hlooks (hl h)⟩

theorem forget {f : α → β} {p : Parser α} {q : Parser β} (h : CarriesAt s l e f p q c) :
    CarriesAt s l false f p q c :=
  h.weaken id nofun

/-- What does not look ahead does not mind what is left. -/
theorem closed {f : α → β} {p : Parser α} {q : Parser β} (h : CarriesAt s false e f p q c) :
    CarriesAt s l e f p q c :=
  h.weaken nofun id

/-- Sequencing, when it is known that a token is left where the first parser looked. -/
theorem bind_of {f : α → β} {g : γ → δ} {p : Parser α} {q : Parser β} {k : α → Parser γ}
    {m : β → Parser δ} {e₂ : Bool} (hp : CarriesAt s l₁ e₁ f p q c)
    (hk : ∀ a c', Passed e₁ c c' → CarriesAt s l e₂ g (k a) (m (f a)) c')
    (hbetween : ∀ c' c'', Passed e₂ c' c'' → (l = true → c''.rest ≠ []) → l₁ = true →
      c'.rest ≠ []) :
    CarriesAt s l (e₁ || e₂) g (p >>= k) (q >>= m) c := by
  intro b c'' hb
  obtain ⟨a, c', ha, hb⟩ := ok_of_bind hb
  obtain ⟨hpassed, hfirst⟩ := hp a c' ha
  obtain ⟨hpassed', hsecond⟩ := hk a c' hpassed b c'' hb
  refine ⟨hpassed.trans hpassed', ?_⟩
  intro hlooks d hd
  obtain ⟨d', hq, hd'⟩ := hfirst (hbetween c' c'' hpassed' hlooks) d hd
  obtain ⟨d'', hm, hd''⟩ := hsecond hlooks d' hd'
  refine ⟨d'', ?_, hd''⟩
  rw [bind_of_ok hq]
  exact hm

/-- **Sequencing.** Where the first parser looked, the second one passes a token. -/
theorem bind_eats {f : α → β} {g : γ → δ} {p : Parser α} {q : Parser β} {k : α → Parser γ}
    {m : β → Parser δ} (hp : CarriesAt s l₁ e₁ f p q c)
    (hk : ∀ a c', Passed e₁ c c' → CarriesAt s l true g (k a) (m (f a)) c') :
    CarriesAt s l true g (p >>= k) (q >>= m) c :=
  (hp.bind_of hk fun _ _ hpassed _ _ => hpassed.rest_ne_nil).weaken id fun _ => Bool.or_true _

/-- **Sequencing**, when the second parser may stay where it is. -/
theorem bind {f : α → β} {g : γ → δ} {p : Parser α} {q : Parser β} {k : α → Parser γ}
    {m : β → Parser δ} (hp : CarriesAt s l e f p q c)
    (hk : ∀ a c', Passed e c c' → CarriesAt s l false g (k a) (m (f a)) c') :
    CarriesAt s l e g (p >>= k) (q >>= m) c := by
  refine (hp.bind_of hk fun _ _ hpassed hlooks hl => ?_).weaken id fun he => ?_
  · exact hpassed.rest_ne_nil_of_ne (hlooks hl)
  · rw [he]
    rfl

theorem pure {f : α → β} {a : α} {b : β} (h : f a = b) :
    CarriesAt s l false f (Pure.pure a) (Pure.pure b) c := by
  rintro a' c' ⟨⟩
  refine ⟨.refl c, fun _ d hd => ⟨d, ?_, hd⟩⟩
  rw [h]
  rfl

theorem pure_bind {g : γ → δ} {a : α} {b : β} {k : α → Parser γ} {m : β → Parser δ}
    (h : CarriesAt s l e g (k a) (m b) c) :
    CarriesAt s l e g (Pure.pure a >>= k) (Pure.pure b >>= m) c := h

theorem ite {f : α → β} {p p' : Parser α} {q q' : Parser β} {condition : Bool}
    (h : CarriesAt s l e f p q c) (h' : CarriesAt s l e f p' q' c) :
    CarriesAt s l e f (if condition = true then p else p') (if condition = true then q else q') c := by
  cases condition with
  | true => exact h
  | false => exact h'

theorem map {f : α → β} {g : γ → δ} {p : Parser α} {q : Parser β} {h : α → γ} {h' : β → δ}
    (hp : CarriesAt s l e f p q c) (hh : ∀ a, g (h a) = h' (f a)) :
    CarriesAt s l e g (h <$> p) (h' <$> q) c := by
  rw [map_eq_pure_bind, map_eq_pure_bind]
  exact hp.bind fun a c' _ => pure (hh a)

/-! ## Steps that all productions share -/

/-- What holds at a cursor behind which a token is passed, or left. -/
theorem rest_ne_nil {c' : Cursor} (hflags : l = true ∨ e = true) (hpassed : Passed e c c')
    (hlooks : l = true → c'.rest ≠ []) : c.rest ≠ [] := by
  rcases hflags with hl | rfl
  · exact hpassed.rest_ne_nil_of_ne (hlooks hl)
  · exact hpassed.rest_ne_nil

theorem here_bind {g : γ → δ} {k : Location → Parser γ} {m : Location → Parser δ}
    (hflags : l = true ∨ e = true) (h : ∀ start, CarriesAt s l e g (k start) (m (s.move start)) c) :
    CarriesAt s l e g (here >>= k) (here >>= m) c := by
  intro b c' hb
  obtain ⟨hpassed, hcarries⟩ := h c.here b c' hb
  refine ⟨hpassed, ?_⟩
  intro hlooks d hd
  obtain ⟨d', hm, hd'⟩ := hcarries hlooks d hd
  refine ⟨d', ?_, hd'⟩
  show m d.here d = _
  rw [hd.here_eq (rest_ne_nil hflags hpassed hlooks)]
  exact hm

/-- What is seen of the next token is known behind a look at it. -/
theorem peek_bind {g : γ → δ} {k : Option Token.Kind → Parser γ} {m : Option Token.Kind → Parser δ}
    (hflags : l = true ∨ e = true)
    (h : ∀ kind?, c.kind? = kind? → CarriesAt s l e g (k kind?) (m kind?) c) :
    CarriesAt s l e g (peek? >>= k) (peek? >>= m) c := by
  intro b c' hb
  obtain ⟨hpassed, hcarries⟩ := h c.kind? rfl b c' hb
  refine ⟨hpassed, ?_⟩
  intro hlooks d hd
  obtain ⟨d', hm, hd'⟩ := hcarries hlooks d hd
  refine ⟨d', ?_, hd'⟩
  show m d.kind? d = _
  rw [hd.kind?_eq (rest_ne_nil hflags hpassed hlooks)]
  exact hm

theorem check_bind {g : γ → δ} {kind : Token.Kind} {k : Bool → Parser γ} {m : Bool → Parser δ}
    (hflags : l = true ∨ e = true) (h : ∀ b, CarriesAt s l e g (k b) (m b) c) :
    CarriesAt s l e g (check kind >>= k) (check kind >>= m) c :=
  peek_bind (k := fun kind? => k (kind? == some kind)) (m := fun kind? => m (kind? == some kind))
    hflags fun kind? _ => h (kind? == some kind)

/-- A token that was seen is passed. -/
theorem advance (h : c.rest ≠ []) : CarriesAt s false true id advance advance c := by
  rintro _ c' ⟨⟩
  exact ⟨.advance h, fun _ d hd => ⟨d.advance, rfl, hd.advance h⟩⟩

/-- A word that was seen is passed, and the production that it begins follows. -/
theorem word {kind : Token.Kind} {f : α → β} {p : Parser α} {q : Parser β}
    (hkind : c.kind? = some kind) (h : Carries s false true f p q) :
    CarriesAt s false true f (do Parsing.advance; p) (do Parsing.advance; q) c :=
  (advance (Cursor.rest_ne_nil_of_kind? hkind)).bind_eats fun _ c' _ => h c'

/-- A repetition that has no token left promises nothing, since something else may stand there. -/
theorem exhausted {f : α → β} {p : Parser α} {q : Parser β} {a : α} (hbound : c.rest.length ≤ 0)
    (hp : p c = .ok a c) : CarriesAt s true false f p q c := by
  have hnil := List.length_eq_zero_iff.1 (Nat.le_zero.1 hbound)
  intro a' c' hp'
  cases hp.symm.trans hp'
  exact ⟨.refl c, fun hlooks => absurd hnil (hlooks rfl)⟩

/-- A token is passed if it is of a kind, provided that both parsers see the same. -/
theorem accept_bind_of {g : γ → δ} {kind : Token.Kind} {k : Bool → Parser γ} {m : Bool → Parser δ}
    (hsame : ∀ c' d, Passed e c c' → (l = true → c'.rest ≠ []) → Carried s c d →
      (d.kind? = some kind ↔ c.kind? = some kind))
    (htrue : ∀ c', Passed true c c' → CarriesAt s l e g (k true) (m true) c')
    (hfalse : CarriesAt s l e g (k false) (m false) c) :
    CarriesAt s l e g (accept kind >>= k) (accept kind >>= m) c := by
  intro b c' hb
  by_cases hkind : c.kind? = some kind
  · have hne := Cursor.rest_ne_nil_of_kind? hkind
    rw [bind_of_ok (accept_of_kind hkind)] at hb
    obtain ⟨hpassed, hcarries⟩ := htrue c.advance (.advance hne) b c' hb
    have hpassed : Passed e c c' := ((Passed.advance hne).trans hpassed).weaken fun _ => rfl
    refine ⟨hpassed, ?_⟩
    intro hlooks d hd
    obtain ⟨d', hm, hd'⟩ := hcarries hlooks d.advance (hd.advance hne)
    refine ⟨d', ?_, hd'⟩
    rw [bind_of_ok (accept_of_kind ((hsame c' d hpassed hlooks hd).2 hkind))]
    exact hm
  · rw [bind_of_ok (accept_of_ne hkind)] at hb
    obtain ⟨hpassed, hcarries⟩ := hfalse b c' hb
    refine ⟨hpassed, ?_⟩
    intro hlooks d hd
    obtain ⟨d', hm, hd'⟩ := hcarries hlooks d hd
    refine ⟨d', ?_, hd'⟩
    rw [bind_of_ok (accept_of_ne fun h => hkind ((hsame c' d hpassed hlooks hd).1 h))]
    exact hm

theorem accept_bind {g : γ → δ} {kind : Token.Kind} {k : Bool → Parser γ} {m : Bool → Parser δ}
    (hflags : l = true ∨ e = true)
    (htrue : ∀ c', Passed true c c' → CarriesAt s l e g (k true) (m true) c')
    (hfalse : CarriesAt s l e g (k false) (m false) c) :
    CarriesAt s l e g (accept kind >>= k) (accept kind >>= m) c := by
  refine accept_bind_of ?_ htrue hfalse
  intro c' d hpassed hlooks hd
  rw [hd.kind?_eq (rest_ne_nil hflags hpassed hlooks)]

/-- A look at the end of the tokens is harmless when the tail begins with something else. -/
theorem accept_bind_of_tail {g : γ → δ} {kind : Token.Kind} {k : Bool → Parser γ}
    {m : Bool → Parser δ} (htail : s.tail.head?.map (·.kind) ≠ some kind)
    (htrue : ∀ c', Passed true c c' → CarriesAt s l e g (k true) (m true) c')
    (hfalse : CarriesAt s l e g (k false) (m false) c) :
    CarriesAt s l e g (accept kind >>= k) (accept kind >>= m) c := by
  refine accept_bind_of ?_ htrue hfalse
  intro c' d _ _ hd
  cases hrest : c.rest with
  | cons t ts => rw [hd.kind?_eq (by rw [hrest]; exact List.cons_ne_nil t ts)]
  | nil =>
      have hkind : c.kind? = none := Cursor.kind?_of_nil hrest
      have hkind' : d.kind? = s.tail.head?.map (·.kind) := by
        unfold Cursor.kind?
        rw [hd.rest, hrest]
        rfl
      rw [hkind, hkind']
      exact ⟨fun h => absurd h htail, nofun⟩

theorem expect (kind : Token.Kind) (what : String) :
    CarriesAt s false true (·.relocate s.move) (expect kind what) (expect kind what) c := by
  intro t c' ht
  obtain ⟨ts, hrest, hkind, rfl⟩ := ok_of_expect ht
  have hne : c.rest ≠ [] := by
    rw [hrest]
    exact List.cons_ne_nil t ts
  refine ⟨.advance hne, ?_⟩
  intro _ d hd
  exact ⟨d.advance, expect_of_kind (hd.rest_eq hrest) hkind, hd.advance hne⟩

theorem spanFrom (start : Location) (hstarted : c.previous.isSome) :
    CarriesAt s l false (·.relocate s.move) (spanFrom start) (spanFrom (s.move start)) c := by
  rintro span c' ⟨⟩
  refine ⟨.refl c, fun _ d hd => ⟨d, ?_, hd⟩⟩
  unfold Parsing.spanFrom
  rw [hd.reached_eq hstarted]
  rfl

/-- A tree is made once the token is known where its text ends. -/
theorem spanned {g : γ → δ} {k : Span → γ} {m : Span → δ} (start : Location)
    (hstarted : c.previous.isSome) (hk : ∀ span, g (k span) = m (span.relocate s.move)) :
    CarriesAt s l false g (Parsing.spanFrom start >>= fun span => Pure.pure (k span))
      (Parsing.spanFrom (s.move start) >>= fun span => Pure.pure (m span)) c :=
  (spanFrom start hstarted).bind fun span _ _ => pure (hk span)

/-- The bound on a repetition may be greater, since there may be more tokens. -/
theorem remaining_bind {g : γ → δ} {k : Nat → Parser γ} {m : Nat → Parser δ}
    (h : ∀ n, c.rest.length ≤ n → CarriesAt s l e g (k c.rest.length) (m n) c) :
    CarriesAt s l e g (remaining >>= k) (remaining >>= m) c := by
  intro b c' hb
  have hpassed := (h _ (Nat.le_refl _) b c' hb).1
  refine ⟨hpassed, ?_⟩
  intro hlooks d hd
  have hle : c.rest.length ≤ d.rest.length := by
    rw [hd.rest, List.length_append, List.length_map]
    exact Nat.le_add_right _ _
  exact (h d.rest.length hle b c' hb).2 hlooks d hd

theorem checkCount (what : String) (count : Nat) :
    CarriesAt s false false id (checkCount .strict what count) (checkCount .strict what count) c := by
  intro b c' hb
  obtain ⟨hcount, rfl⟩ := ok_of_checkCount hb
  exact ⟨.refl _, fun _ d hd => ⟨d, checkCount_of_lt hcount, hd⟩⟩

/-- One level deeper the tokens are the same. -/
theorem nested {f : α → β} {p : Parser α} {q : Parser β}
    (h : CarriesAt s l e f p q { c with depth := c.depth + 1 }) :
    CarriesAt s l e f (nested p) (nested q) c := by
  intro a c' ha
  obtain ⟨hdepth, c'', hp, rfl⟩ := nested_ok_iff.1 ha
  obtain ⟨⟨hlength, hstarted⟩, hcarries⟩ := h a c'' hp
  refine ⟨⟨hlength, hstarted⟩, ?_⟩
  intro hlooks d hd
  have hd₁ : Carried s { c with depth := c.depth + 1 } { d with depth := d.depth + 1 } :=
    ⟨hd.rest, congrArg (· + 1) hd.depth, hd.previous⟩
  obtain ⟨d', hq, hd'⟩ := hcarries hlooks _ hd₁
  exact ⟨{ d' with depth := d'.depth - 1 }, nested_of_ok (hd.depth ▸ hdepth) hq,
    ⟨hd'.rest, congrArg (· - 1) hd'.depth, hd'.previous⟩⟩

theorem recovered {f : α → β} {p : Parser α} {q : Parser β} (h : CarriesAt s l e f p q c) :
    CarriesAt s l e (Option.map f) (recovered .strict p) (recovered .strict q) c := by
  intro a c' ha
  obtain ⟨b, rfl, hp⟩ := ok_of_recovered ha
  obtain ⟨hpassed, hcarries⟩ := h b c' hp
  refine ⟨hpassed, ?_⟩
  intro hlooks d hd
  obtain ⟨d', hq, hd'⟩ := hcarries hlooks d hd
  exact ⟨d', recovered_of_ok hq, hd'⟩

end CarriesAt

namespace Carries

variable {α β γ : Type} {s : Placing} {l e : Bool}

theorem mapSome {f : α → β} {p : Parser α} {q : Parser β} (h : Carries s l e f p q) :
    Carries s l e (Option.map f) (some <$> p) (some <$> q) :=
  fun c => (h c).map fun _ => rfl

/-! ## Repetition -/

theorem chainFrom (operator? : Token.Kind → Option γ) {p q : Parser Expr}
    {join : γ → Expr → Expr → Expr}
    (hjoin : ∀ op a b, (join op a b).relocate s.move =
      join op (a.relocate s.move) (b.relocate s.move))
    (h : Carries s true true (·.relocate s.move) p q) {n n' : Nat} (hle : n ≤ n') (left : Expr)
    {c : Cursor} (hbound : c.rest.length ≤ n) :
    CarriesAt s true false (·.relocate s.move) (chainFrom operator? p join n left)
      (chainFrom operator? q join n' (left.relocate s.move)) c := by
  induction n generalizing n' left c with
  | zero => exact .exhausted hbound rfl
  | succ n ih =>
      obtain ⟨n', rfl⟩ : ∃ k, n' = k + 1 := ⟨n' - 1, by omega⟩
      unfold Parsing.chainFrom
      refine .peek_bind (.inl rfl) fun kind? hkind => ?_
      cases hop : kind?.bind operator? with
      | none => exact .pure rfl
      | some op =>
          obtain ⟨kind, rfl, _⟩ := Option.bind_eq_some_iff.1 hop
          have hne := Cursor.rest_ne_nil_of_kind? hkind
          refine .forget ((CarriesAt.advance hne).bind_eats fun _ c₁ h₁ => ?_)
          refine (h c₁).bind fun right c₂ h₂ => ?_
          have hlt := h₁.lt
          have hlt' := h₂.lt
          rw [← hjoin]
          exact ih (by omega) _ (by omega)

theorem chain (operator? : Token.Kind → Option γ) {p q : Parser Expr}
    {join : γ → Expr → Expr → Expr}
    (hjoin : ∀ op a b, (join op a b).relocate s.move =
      join op (a.relocate s.move) (b.relocate s.move))
    (h : Carries s true true (·.relocate s.move) p q) :
    Carries s true true (·.relocate s.move) (chain operator? p join) (chain operator? q join) := by
  intro c
  refine (h c).bind fun left c' _ => .remaining_bind fun n hn => ?_
  exact chainFrom operator? hjoin h hn left (Nat.le_refl _)

theorem itemsFrom {f : α → β} {p : Nat → Parser α} {q : Nat → Parser β}
    (h : ∀ count, Carries s true true f (p count) (q count)) {n n' : Nat} (hle : n ≤ n')
    (count : Nat) {c : Cursor} (hbound : c.rest.length < n) :
    CarriesAt s true true (List.map f) (itemsFrom p n count) (itemsFrom q n' count) c := by
  induction n generalizing n' count c with
  | zero => exact absurd hbound (Nat.not_lt_zero _)
  | succ n ih =>
      obtain ⟨n', rfl⟩ : ∃ k, n' = k + 1 := ⟨n' - 1, by omega⟩
      unfold Parsing.itemsFrom
      refine (h count c).bind fun first c₁ h₁ => ?_
      refine .accept_bind (.inl rfl) (fun c₂ h₂ => ?_) (.pure rfl)
      have hlt := h₁.lt
      have hlt' := h₂.lt
      have hle : n ≤ n' := by omega
      exact .forget ((ih hle (count + 1) (by omega)).bind fun others _ _ => .pure rfl)

theorem items {f : α → β} {p : Nat → Parser α} {q : Nat → Parser β}
    (h : ∀ count, Carries s true true f (p count) (q count)) :
    Carries s true true (List.map f) (items p) (items q) := by
  intro c
  exact .remaining_bind fun n hn => itemsFrom h (by omega) 0 (Nat.lt_succ_self _)

/-- Declarations up to a closing brace. -/
theorem declarationsFrom {closes : Option Token.Kind → Bool} {p q : Parser (Option Decl)}
    (h : Carries s false true (Option.map (·.relocate s.move)) p q) {n n' : Nat} (hle : n ≤ n')
    {c : Cursor} (hbound : c.rest.length ≤ n) :
    CarriesAt s true false (Decl.relocateAll s.move) (declarationsFrom p closes n)
      (declarationsFrom q closes n') c := by
  induction n generalizing n' c with
  | zero => exact .exhausted hbound rfl
  | succ n ih =>
      obtain ⟨n', rfl⟩ : ∃ k, n' = k + 1 := ⟨n' - 1, by omega⟩
      unfold Parsing.declarationsFrom
      refine .peek_bind (.inl rfl) fun kind? _ => ?_
      split
      · exact .pure rfl
      · refine .forget ((h c).closed.bind fun first c₁ h₁ => ?_)
        have hlt := h₁.lt
        refine (ih (by omega) (by omega)).bind fun others _ _ => .pure ?_
        rw [Decl.relocateAll_append, Decl.relocateAll_toList]

end Carries

end Lox.Parsing
