import Lox.Proofs.Places.Reading

/-!
# Running a parser again

Whatever a parser does, it goes forward: the cursor that it leaves has passed some of the tokens that
were still to come, at the nesting level at which it began. This holds for failures as well as for
successes, so what catches a failure knows where it is.

The bounds on recursion and repetition count tokens, so how far a parser has come decides whether they
were enough. That they were is said by running the parser again with other bounds: it **repeats** what
it did. The second run may stand behind other tokens than the first one, because no production asks
for the token passed last before it has passed one of its own.

## Contents
- `Advanced`: a cursor further on.
- `Beside`: the same place, seen from behind another token.
- `Repeats`: a parser that goes forward, and another one that does the same beside it.
- `Repeats.bind`, `Repeats.expect`, `Repeats.nested` and the others: composition and steps.
- `Repeats.chain`, `Repeats.items`: repetition.
-/

namespace Lox.Parsing

/-! ## Cursors -/

/-- `c'` is further on than `c`, at the same nesting level; when `eats` holds, by at least one token. -/
structure Advanced (eats : Bool) (c c' : Cursor) : Prop where
  passed : ∃ ts, c.rest = ts ++ c'.rest ∧ c'.previous = ts.getLast?.or c.previous
  progress : eats = true → c'.rest.length < c.rest.length
  depth : c'.depth = c.depth
  finish : c'.finish = c.finish
  errors : c.errors <+: c'.errors

/-- `d` is where `c` is. If `c` is in front of all tokens, `d` may stand behind others. -/
structure Beside (c d : Cursor) : Prop where
  rest : d.rest = c.rest
  finish : d.finish = c.finish
  depth : d.depth = c.depth
  errors : d.errors = c.errors
  previous : ∀ t, c.previous = some t → d.previous = some t

namespace Advanced

variable {e e₁ e₂ : Bool} {c c' c'' : Cursor}

theorem refl (c : Cursor) : Advanced false c c where
  passed := ⟨[], rfl, rfl⟩
  progress := nofun
  depth := rfl
  finish := rfl
  errors := List.prefix_refl _

theorem length_le (h : Advanced e c c') : c'.rest.length ≤ c.rest.length := by
  obtain ⟨ts, hrest, -⟩ := h.passed
  rw [hrest, List.length_append]
  omega

theorem lt (h : Advanced true c c') : c'.rest.length < c.rest.length := h.progress rfl

theorem weaken (h : Advanced e c c') : Advanced false c c' := { h with progress := nofun }

theorem trans (h : Advanced e₁ c c') (h' : Advanced e₂ c' c'') : Advanced (e₁ || e₂) c c'' := by
  obtain ⟨ts, hrest, hprevious⟩ := h.passed
  obtain ⟨ts', hrest', hprevious'⟩ := h'.passed
  refine ⟨⟨ts ++ ts', ?_, ?_⟩, ?_, ?_, ?_, h.errors.trans h'.errors⟩
  · rw [hrest, hrest', List.append_assoc]
  · rw [hprevious', hprevious, List.getLast?_append, Option.or_assoc]
  · intro heats
    have hle := h.length_le
    have hle' := h'.length_le
    rcases Bool.or_eq_true_iff.1 heats with he | he
    · have hlt := h.progress he
      omega
    · have hlt := h'.progress he
      omega
  · rw [h'.depth, h.depth]
  · rw [h'.finish, h.finish]

/-- Behind a token some token was passed last. -/
theorem started (h : Advanced e c c') (hbefore : e = true ∨ c.previous.isSome) :
    c'.previous.isSome := by
  obtain ⟨ts, hrest, hprevious⟩ := h.passed
  rw [hprevious]
  rcases hbefore with he | hsome
  · have hlt := h.progress he
    have hne : ts ≠ [] := by
      rintro rfl
      rw [hrest] at hlt
      exact Nat.lt_irrefl _ hlt
    rw [List.getLast?_eq_some_getLast hne]
    rfl
  · cases ts.getLast? with
    | none => exact hsome
    | some t => rfl

/-- Passing a token. -/
theorem advance {t : Token} {ts : List Token} (hrest : c.rest = t :: ts) :
    Advanced true c c.advance := by
  rw [Cursor.advance_of_cons hrest]
  refine ⟨⟨[t], hrest, rfl⟩, ?_, rfl, rfl, List.prefix_refl _⟩
  intro _
  rw [hrest]
  exact Nat.lt_succ_self _

/-- An error that is recorded at the end of what was done. -/
theorem record (h : Advanced e c c') (error : SyntaxError) : Advanced e c (c'.record error) :=
  { h with errors := h.errors.trans (List.prefix_append _ _) }

/-- What is done on one more level is done on the level below when that level is closed again. -/
theorem close (h : Advanced e { c with depth := c.depth + 1 } c') :
    Advanced e c { c' with depth := c'.depth - 1 } := by
  refine ⟨h.passed, h.progress, ?_, h.finish, h.errors⟩
  show c'.depth - 1 = c.depth
  rw [h.depth]
  exact Nat.add_sub_cancel _ _

/-- Skipping a broken statement goes forward. -/
theorem skipStatement (previous : Option Token) (rest : List Token) :
    ∃ ts, rest = ts ++ (skipStatement previous rest).2 ∧
      (Parsing.skipStatement previous rest).1 = ts.getLast?.or previous := by
  induction rest generalizing previous with
  | nil => exact ⟨[], rfl, rfl⟩
  | cons t ts ih =>
      unfold Parsing.skipStatement
      split
      · exact ⟨[], rfl, rfl⟩
      · obtain ⟨us, hrest, hprevious⟩ := ih (some t)
        refine ⟨t :: us, congrArg (t :: ·) hrest, ?_⟩
        rw [hprevious, List.getLast?_cons]
        cases us.getLast? <;> rfl

/-- Where a failure left tokens, the way to the next statement boundary passes one of them. Where it
left none, all of them have been passed. -/
theorem synchronize (h : Advanced false c c') (hne : c.rest ≠ []) :
    Advanced true c c'.synchronize := by
  cases hrest : c'.rest with
  | nil =>
      have hstays : c'.synchronize = c' := by
        obtain ⟨previous, rest, finish, depth, errors⟩ := c'
        cases hrest
        rfl
      rw [hstays]
      refine { h with progress := fun _ => ?_ }
      rw [hrest]
      exact List.length_pos_iff.2 hne
  | cons t ts =>
      obtain ⟨us, hskipped, hlast⟩ := skipStatement c'.advance.previous c'.advance.rest
      have hskip : Advanced false c'.advance c'.synchronize :=
        ⟨⟨us, hskipped, hlast⟩, nofun, rfl, rfl, List.prefix_refl _⟩
      exact h.trans ((advance hrest).trans hskip)

end Advanced

namespace Beside

variable {c d : Cursor}

theorem refl (c : Cursor) : Beside c c := ⟨rfl, rfl, rfl, rfl, fun _ h => h⟩

theorem kind?_eq (h : Beside c d) : d.kind? = c.kind? := by
  unfold Cursor.kind?
  rw [h.rest]

theorem here_eq (h : Beside c d) : d.here = c.here := by
  unfold Cursor.here
  rw [h.rest, h.finish]

theorem reached_eq (h : Beside c d) (hstarted : c.previous.isSome) : d.reached = c.reached := by
  obtain ⟨t, ht⟩ := Option.isSome_iff_exists.1 hstarted
  unfold Cursor.reached
  rw [ht, h.previous t ht]

theorem error_eq (h : Beside c d) (cause : SyntaxError.Cause) : d.error cause = c.error cause := by
  unfold Cursor.error
  rw [h.rest, h.finish]

theorem advance (h : Beside c d) : Beside c.advance d.advance := by
  cases hrest : c.rest with
  | nil =>
      rw [Cursor.advance_of_nil hrest, Cursor.advance_of_nil (h.rest.trans hrest)]
      exact h
  | cons t ts =>
      rw [Cursor.advance_of_cons hrest, Cursor.advance_of_cons (h.rest.trans hrest)]
      exact ⟨rfl, h.finish, h.depth, h.errors, fun _ ht => ht⟩

theorem record (h : Beside c d) (e : SyntaxError) : Beside (c.record e) (d.record e) :=
  { h with errors := congrArg (· ++ [e]) h.errors }

/-- Behind a token both cursors have passed it. -/
theorem previous_eq (h : Beside c d) (hstarted : c.previous.isSome) : d.previous = c.previous := by
  obtain ⟨t, ht⟩ := Option.isSome_iff_exists.1 hstarted
  rw [ht, h.previous t ht]

/-- The way to the next statement boundary begins with a token, unless none is left. -/
theorem synchronize (h : Beside c d) : Beside c.synchronize d.synchronize := by
  unfold Cursor.synchronize
  have hadvance := h.advance
  dsimp only
  rw [hadvance.rest]
  cases hrest : c.rest with
  | cons t ts =>
      have hstarted := (Advanced.advance hrest).started (.inl rfl)
      rw [hadvance.previous_eq hstarted]
      exact ⟨rfl, hadvance.finish, hadvance.depth, hadvance.errors, fun _ ht => ht⟩
  | nil =>
      have hnil : c.advance.rest = [] := by rw [c.rest_advance, hrest, List.tail_nil]
      rw [hnil]
      exact ⟨rfl, hadvance.finish, hadvance.depth, hadvance.errors, hadvance.previous⟩

end Beside

/-! ## Parsers -/

/-- From `c`, `p` goes forward, and `q` does the same from every cursor beside `c`. A success passes
a token when `eats` holds. -/
structure Repeats {α : Type} (eats : Bool) (p q : Parser α) (c : Cursor) : Prop where
  ok : ∀ a c', p c = .ok a c' → Advanced eats c c' ∧
    ∀ d, Beside c d → ∃ d', q d = .ok a d' ∧ Beside c' d'
  error : ∀ e c', p c = .error e c' → Advanced false c c' ∧
    ∀ d, Beside c d → ∃ d', q d = .error e d' ∧ Beside c' d'

/-- The same from every cursor with fewer than `r` tokens to come. -/
def RepeatsBelow {α : Type} (r : Nat) (p q : Parser α) : Prop :=
  ∀ c : Cursor, c.rest.length < r → Repeats true p q c

/-- The same from every cursor that has a token to come, though fewer than `r`. -/
def RepeatsInside {α : Type} (r : Nat) (p q : Parser α) : Prop :=
  ∀ c : Cursor, c.rest ≠ [] → c.rest.length < r → Repeats true p q c

/-- The cursor has passed a token, and fewer than `r` are to come. -/
structure Within (r : Nat) (c : Cursor) : Prop where
  lt : c.rest.length < r
  started : c.previous.isSome

/-- The same from every cursor that has passed a token and has fewer than `r` tokens to come. -/
def RepeatsWithin {α : Type} (eats : Bool) (r : Nat) (p q : Parser α) : Prop :=
  ∀ c : Cursor, Within r c → Repeats eats p q c

theorem Within.next {r : Nat} {eats : Bool} {c c' : Cursor} (h : Within r c)
    (hc' : Advanced eats c c') : Within r c' :=
  ⟨Nat.lt_of_le_of_lt hc'.length_le h.lt, hc'.started (.inr h.started)⟩

theorem Within.behind {r : Nat} {c c' : Cursor} (hc : c.rest.length < r)
    (h : Advanced true c c') : Within r c' :=
  ⟨Nat.lt_of_le_of_lt h.length_le hc, h.started (.inl rfl)⟩

/-- Where a token is passed there are fewer tokens to come. -/
theorem Within.ofAdvanced {r : Nat} {c c' : Cursor} (hc : c.rest.length < r + 1)
    (h : Advanced true c c') : Within r c' :=
  ⟨Nat.lt_of_lt_of_le h.lt (Nat.le_of_lt_succ hc), h.started (.inl rfl)⟩

namespace Repeats

variable {α β γ : Type} {eats eats' : Bool} {p q : Parser α} {c : Cursor}

theorem weaken (h : Repeats eats p q c) : Repeats false p q c where
  ok a c' hp := ⟨(h.ok a c' hp).1.weaken, (h.ok a c' hp).2⟩
  error := h.error

/-- **Sequencing.** The second parser is repeated from where the first one ended. -/
theorem bind {f g : α → Parser β} (hp : Repeats eats p q c)
    (hf : ∀ a c', p c = .ok a c' → Advanced eats c c' → Repeats eats' (f a) (g a) c') :
    Repeats (eats || eats') (p >>= f) (q >>= g) c where
  ok b c'' hb := by
    obtain ⟨a, c', ha, hb⟩ := ok_of_bind hb
    obtain ⟨hadvanced, hfirst⟩ := hp.ok a c' ha
    obtain ⟨hadvanced', hsecond⟩ := (hf a c' ha hadvanced).ok b c'' hb
    refine ⟨hadvanced.trans hadvanced', ?_⟩
    intro d hd
    obtain ⟨d', hq, hd'⟩ := hfirst d hd
    obtain ⟨d'', hg, hd''⟩ := hsecond d' hd'
    exact ⟨d'', (bind_of_ok hq).trans hg, hd''⟩
  error e c'' he := by
    rcases error_of_bind he with hfailed | ⟨a, c', ha, hfailed⟩
    · obtain ⟨hadvanced, hfirst⟩ := hp.error e c'' hfailed
      refine ⟨hadvanced, ?_⟩
      intro d hd
      obtain ⟨d', hq, hd'⟩ := hfirst d hd
      exact ⟨d', bind_of_error hq, hd'⟩
    · obtain ⟨hadvanced, hfirst⟩ := hp.ok a c' ha
      obtain ⟨hadvanced', hsecond⟩ := (hf a c' ha hadvanced).error e c'' hfailed
      refine ⟨(hadvanced.trans hadvanced').weaken, ?_⟩
      intro d hd
      obtain ⟨d', hq, hd'⟩ := hfirst d hd
      obtain ⟨d'', hg, hd''⟩ := hsecond d' hd'
      exact ⟨d'', (bind_of_ok hq).trans hg, hd''⟩

theorem pure (a : α) : Repeats false (Pure.pure a : Parser α) (Pure.pure a) c where
  ok := by
    rintro b c' ⟨⟩
    exact ⟨.refl c, fun d hd => ⟨d, rfl, hd⟩⟩
  error := fun _ _ h => nomatch h

theorem map (f : α → β) (h : Repeats eats p q c) : Repeats eats (f <$> p) (f <$> q) c := by
  rw [map_eq_pure_bind, map_eq_pure_bind]
  have hmap : Repeats (eats || false) (p >>= fun a => Pure.pure (f a))
      (q >>= fun a => Pure.pure (f a)) c := h.bind fun a c' _ _ => pure (f a)
  rwa [Bool.or_false] at hmap

theorem ite {p' q' : Parser α} {condition : Bool} (h : Repeats eats p q c)
    (h' : Repeats eats p' q' c) :
    Repeats eats (if condition = true then p else p') (if condition = true then q else q') c := by
  cases condition with
  | true => exact h
  | false => exact h'

/-- What a parser does beside a cursor is all that matters. -/
theorem congr {p' q' : Parser α} (h : Repeats eats p' q' c) (hp : p c = p' c)
    (hq : ∀ d, Beside c d → q d = q' d) : Repeats eats p q c where
  ok a c' ha := by
    rw [hp] at ha
    obtain ⟨hadvanced, hrepeats⟩ := h.ok a c' ha
    refine ⟨hadvanced, fun d hd => ?_⟩
    rw [hq d hd]
    exact hrepeats d hd
  error e c' he := by
    rw [hp] at he
    obtain ⟨hadvanced, hrepeats⟩ := h.error e c' he
    refine ⟨hadvanced, fun d hd => ?_⟩
    rw [hq d hd]
    exact hrepeats d hd

/-! ## Steps that all productions share -/

/-- A parser that asks for something that is the same beside the cursor. -/
theorem ask_bind {look : Cursor → α} {f g : α → Parser β}
    (hlook : ∀ d, Beside c d → look d = look c) (h : Repeats eats (f (look c)) (g (look c)) c) :
    Repeats eats ((fun c => .ok (look c) c : Parser α) >>= f)
      ((fun c => .ok (look c) c : Parser α) >>= g) c := by
  refine h.congr rfl fun d hd => ?_
  show g (look d) d = _
  rw [hlook d hd]

theorem peek_bind {f g : Option Token.Kind → Parser β}
    (h : ∀ kind?, c.kind? = kind? → Repeats eats (f kind?) (g kind?) c) :
    Repeats eats (peek? >>= f) (peek? >>= g) c :=
  ask_bind (fun _ hd => hd.kind?_eq) (h _ rfl)

theorem here_bind {f g : Location → Parser β} (h : ∀ start, Repeats eats (f start) (g start) c) :
    Repeats eats (here >>= f) (here >>= g) c :=
  ask_bind (fun _ hd => hd.here_eq) (h _)

theorem remaining_bind {f g : Nat → Parser β}
    (h : Repeats eats (f c.rest.length) (g c.rest.length) c) :
    Repeats eats (remaining >>= f) (remaining >>= g) c :=
  ask_bind (fun _ hd => congrArg List.length hd.rest) h

theorem check_bind {kind : Token.Kind} {f g : Bool → Parser β}
    (h : ∀ present, Repeats eats (f present) (g present) c) :
    Repeats eats (check kind >>= f) (check kind >>= g) c :=
  ask_bind (fun _ hd => by rw [hd.kind?_eq]) (h _)

theorem spanFrom_bind {f g : Span → Parser β} (start : Location) (hstarted : c.previous.isSome)
    (h : ∀ span, Repeats eats (f span) (g span) c) :
    Repeats eats (spanFrom start >>= f) (spanFrom start >>= g) c :=
  ask_bind (fun _ hd => by rw [hd.reached_eq hstarted]) (h _)

/-- A token that was seen is passed. -/
theorem advance {kind : Token.Kind} (hkind : c.kind? = some kind) :
    Repeats true advance advance c where
  ok := by
    rintro u c' ⟨⟩
    obtain ⟨t, ts, hrest, _⟩ := Cursor.exists_cons_of_kind? hkind
    exact ⟨.advance hrest, fun d hd => ⟨d.advance, rfl, hd.advance⟩⟩
  error := fun _ _ h => nomatch h

/-- A token is passed if it is of a kind. -/
theorem accept_bind {kind : Token.Kind} {f g : Bool → Parser β}
    (htrue : ∀ c', Advanced true c c' → Repeats eats (f true) (g true) c')
    (hfalse : Repeats eats (f false) (g false) c) :
    Repeats eats (accept kind >>= f) (accept kind >>= g) c := by
  by_cases hkind : c.kind? = some kind
  · have hrun (k : Bool → Parser β) (d : Cursor) (hd : Beside c d) :
        (accept kind >>= k) d = (Parsing.advance >>= fun _ => k true) d :=
      bind_of_ok (accept_of_kind (hd.kind?_eq.trans hkind))
    have hpassed : Repeats eats (Parsing.advance >>= fun _ => f true)
        (Parsing.advance >>= fun _ => g true) c := by
      have hbind := (advance hkind).bind fun _ c' _ hc' => htrue c' hc'
      cases eats with
      | true => exact hbind
      | false => exact hbind.weaken
    exact hpassed.congr (hrun f c (.refl c)) (hrun g)
  · have hrun (k : Bool → Parser β) (d : Cursor) (hd : Beside c d) :
        (accept kind >>= k) d = k false d :=
      bind_of_ok (accept_of_ne fun h => hkind (hd.kind?_eq.symm.trans h))
    exact hfalse.congr (hrun f c (.refl c)) (hrun g)

theorem fail (cause : SyntaxError.Cause) :
    Repeats eats (fail cause : Parser α) (fail cause) c where
  ok := fun _ _ h => nomatch h
  error := by
    rintro e c' ⟨⟩
    refine ⟨.refl c, fun d hd => ⟨d, ?_, hd⟩⟩
    show EStateM.Result.error (d.error cause) d = _
    rw [hd.error_eq]

theorem expect (kind : Token.Kind) (what : String) :
    Repeats true (expect kind what) (expect kind what) c := by
  by_cases hnext : c.kind? = some kind
  · obtain ⟨t, ts, hrest, hkind⟩ := Cursor.exists_cons_of_kind? hnext
    have hrun (d : Cursor) (hd : Beside c d) :
        Parsing.expect kind what d = (Parsing.advance >>= fun _ => Pure.pure t) d :=
      expect_of_kind (hd.rest.trans hrest) hkind
    have hpassed := (advance hnext).bind fun _ c' _ _ => pure (c := c') t
    exact hpassed.congr (hrun c (.refl c)) hrun
  · have hrun (d : Cursor) (hd : Beside c d) :
        Parsing.expect kind what d = Parsing.fail (.expected what) d :=
      expect_of_ne fun h => hnext (hd.kind?_eq.symm.trans h)
    exact (fail _).congr (hrun c (.refl c)) hrun

/-- An error that does not end the parse is recorded in passing. -/
theorem report (mode : Mode) (e : SyntaxError) :
    Repeats false (report mode e) (report mode e) c := by
  cases mode with
  | strict =>
      refine ⟨(fun _ _ h => nomatch h), ?_⟩
      rintro e' c' ⟨⟩
      exact ⟨.refl c, fun d hd => ⟨d, rfl, hd⟩⟩
  | recovering =>
      refine ⟨?_, fun _ _ h => nomatch h⟩
      rintro u c' ⟨⟩
      exact ⟨(Advanced.refl c).record e, fun d hd => ⟨d.record e, rfl, hd.record e⟩⟩

theorem checkCount (mode : Mode) (what : String) (count : Nat) :
    Repeats false (checkCount mode what count) (checkCount mode what count) c := by
  by_cases hcount : count < maxArity
  · have hrun (d : Cursor) (_ : Beside c d) :
        Parsing.checkCount mode what count d = (Pure.pure () : Parser Unit) d :=
      checkCount_of_lt hcount
    exact (pure ()).congr (hrun c (.refl c)) hrun
  · have hrun (d : Cursor) (hd : Beside c d) : Parsing.checkCount mode what count d =
        Parsing.report mode (c.error (.tooMany what)) d := by
      rw [checkCount_of_le (Nat.not_lt.1 hcount), hd.error_eq]
    exact (report mode _).congr (hrun c (.refl c)) hrun

/-- The level that was opened is closed again, after a failure as well. -/
theorem nested (h : Repeats eats p q { c with depth := c.depth + 1 }) :
    Repeats eats (nested p) (nested q) c := by
  -- cursors beside each other are at one depth, so there is room in front of both or of neither
  by_cases hroom : c.depth < maxNesting
  · have hshallow (d : Cursor) (hd : Beside c d) : d.depth < maxNesting := by
      rw [hd.depth]
      exact hroom
    have hopen (d : Cursor) (hd : Beside c d) :
        Beside { c with depth := c.depth + 1 } { d with depth := d.depth + 1 } :=
      { hd with depth := congrArg (· + 1) hd.depth }
    have hclose (c' d' : Cursor) (hd' : Beside c' d') :
        Beside { c' with depth := c'.depth - 1 } { d' with depth := d'.depth - 1 } :=
      { hd' with depth := congrArg (· - 1) hd'.depth }
    cases hp : p { c with depth := c.depth + 1 } with
    | ok a c' =>
        have hok := nested_of_ok hroom hp
        obtain ⟨hadvanced, hrepeats⟩ := h.ok a c' hp
        refine ⟨fun b c'' hb => ?_, fun e c'' he => nomatch hok.symm.trans he⟩
        cases hok.symm.trans hb
        refine ⟨hadvanced.close, fun d hd => ?_⟩
        obtain ⟨d', hq, hd'⟩ := hrepeats _ (hopen d hd)
        exact ⟨_, nested_of_ok (hshallow d hd) hq, hclose c' d' hd'⟩
    | error e c' =>
        have herror := nested_of_error hroom hp
        obtain ⟨hadvanced, hrepeats⟩ := h.error e c' hp
        refine ⟨fun b c'' hb => (nomatch herror.symm.trans hb), fun e' c'' he => ?_⟩
        cases herror.symm.trans he
        refine ⟨hadvanced.close, fun d hd => ?_⟩
        obtain ⟨d', hq, hd'⟩ := hrepeats _ (hopen d hd)
        exact ⟨_, nested_of_error (hshallow d hd) hq, hclose c' d' hd'⟩
  · have hrun (p : Parser α) (d : Cursor) (hd : Beside c d) :
        Parsing.nested p d = Parsing.fail .tooNested d := by
      refine nested_of_le ?_
      rw [hd.depth]
      exact Nat.not_lt.1 hroom
    exact (fail _).congr (hrun p c (.refl c)) (hrun q)

/-- **Recovery goes forward.** A failure in front of a token is caught further on. -/
theorem recovered (mode : Mode) (h : Repeats true p q c) (hne : c.rest ≠ []) :
    Repeats true (recovered mode p) (recovered mode q) c := by
  cases hp : p c with
  | ok a c' =>
      have hok : Parsing.recovered mode p c = .ok (some a) c' := recovered_of_ok hp
      obtain ⟨hadvanced, hrepeats⟩ := h.ok a c' hp
      refine ⟨fun b c'' hb => ?_, fun e c'' he => nomatch hok.symm.trans he⟩
      cases hok.symm.trans hb
      refine ⟨hadvanced, fun d hd => ?_⟩
      obtain ⟨d', hq, hd'⟩ := hrepeats d hd
      exact ⟨d', recovered_of_ok hq, hd'⟩
  | error e c' =>
      obtain ⟨hadvanced, hrepeats⟩ := h.error e c' hp
      cases mode with
      | strict =>
          have herror := recovered_strict_of_error hp
          refine ⟨fun b c'' hb => (nomatch herror.symm.trans hb), fun e' c'' he => ?_⟩
          cases herror.symm.trans he
          refine ⟨hadvanced, fun d hd => ?_⟩
          obtain ⟨d', hq, hd'⟩ := hrepeats d hd
          exact ⟨d', recovered_strict_of_error hq, hd'⟩
      | recovering =>
          have hcaught := recovered_recovering_of_error hp
          refine ⟨fun b c'' hb => ?_, fun e' c'' he => nomatch hcaught.symm.trans he⟩
          cases hcaught.symm.trans hb
          refine ⟨(hadvanced.record e).synchronize hne, fun d hd => ?_⟩
          obtain ⟨d', hq, hd'⟩ := hrepeats d hd
          exact ⟨_, recovered_recovering_of_error hq, (hd'.record e).synchronize⟩

end Repeats

/-! ## Behind a token -/

namespace RepeatsWithin

variable {α β : Type} {eats eats' : Bool} {r : Nat} {p q : Parser α}

theorem weaken (h : RepeatsWithin eats r p q) : RepeatsWithin false r p q :=
  fun c hc => (h c hc).weaken

theorem bind {f g : α → Parser β} (hp : RepeatsWithin eats r p q)
    (hf : ∀ a, RepeatsWithin eats' r (f a) (g a)) :
    RepeatsWithin (eats || eats') r (p >>= f) (q >>= g) :=
  fun c hc => (hp c hc).bind fun a c' _ hc' => hf a c' (hc.next hc')

/-- Sequencing when it does not matter whether a token is passed. -/
theorem andThen {f g : α → Parser β} (hp : RepeatsWithin eats r p q)
    (hf : ∀ a, RepeatsWithin eats' r (f a) (g a)) :
    RepeatsWithin false r (p >>= f) (q >>= g) :=
  (hp.bind hf).weaken

theorem pure (a : α) : RepeatsWithin false r (Pure.pure a : Parser α) (Pure.pure a) :=
  fun _ _ => .pure a

theorem map (f : α → β) (h : RepeatsWithin eats r p q) :
    RepeatsWithin eats r (f <$> p) (f <$> q) :=
  fun c hc => (h c hc).map f

theorem ite {p' q' : Parser α} {condition : Bool} (h : RepeatsWithin eats r p q)
    (h' : RepeatsWithin eats r p' q') :
    RepeatsWithin eats r (if condition = true then p else p')
      (if condition = true then q else q') :=
  fun c hc => (h c hc).ite (h' c hc)

theorem peek? : RepeatsWithin false r peek? peek? :=
  fun _ _ => .peek_bind (f := Pure.pure) (g := Pure.pure) fun kind? _ => .pure kind?

theorem here : RepeatsWithin false r here here :=
  fun _ _ => .here_bind (f := Pure.pure) (g := Pure.pure) .pure

theorem remaining : RepeatsWithin false r remaining remaining :=
  fun _ _ => .remaining_bind (f := Pure.pure) (g := Pure.pure) (.pure _)

theorem check (kind : Token.Kind) : RepeatsWithin false r (check kind) (check kind) :=
  fun _ _ => .check_bind (f := Pure.pure) (g := Pure.pure) .pure

theorem accept (kind : Token.Kind) : RepeatsWithin false r (accept kind) (accept kind) := by
  intro c _
  have haccept : Repeats false (Parsing.accept kind >>= Pure.pure)
      (Parsing.accept kind >>= Pure.pure) c :=
    .accept_bind (fun _ _ => .pure true) (.pure false)
  rwa [bind_pure] at haccept

theorem spanFrom (start : Location) : RepeatsWithin false r (spanFrom start) (spanFrom start) :=
  fun _ hc => .spanFrom_bind (f := Pure.pure) (g := Pure.pure) start hc.started .pure

theorem advance : RepeatsWithin false r advance advance := by
  intro c _
  refine ⟨?_, fun _ _ h => nomatch h⟩
  rintro u c' ⟨⟩
  refine ⟨?_, fun d hd => ⟨d.advance, rfl, hd.advance⟩⟩
  cases hrest : c.rest with
  | cons t ts => exact (Advanced.advance hrest).weaken
  | nil =>
      rw [Cursor.advance_of_nil hrest]
      exact .refl c

theorem expect (kind : Token.Kind) (what : String) :
    RepeatsWithin true r (expect kind what) (expect kind what) :=
  fun _ _ => .expect kind what

theorem report (mode : Mode) (e : SyntaxError) :
    RepeatsWithin false r (report mode e) (report mode e) :=
  fun _ _ => .report mode e

theorem checkCount (mode : Mode) (what : String) (count : Nat) :
    RepeatsWithin false r (checkCount mode what count) (checkCount mode what count) :=
  fun _ _ => .checkCount mode what count

/-! ## Repetition -/

theorem chainFrom {operator? : Token.Kind → Option β} {p q : Parser Expr}
    {join : β → Expr → Expr → Expr} (h : RepeatsWithin eats r p q) (n : Nat) (left : Expr) :
    RepeatsWithin false r (chainFrom operator? p join n left)
      (chainFrom operator? q join n left) := by
  induction n generalizing left with
  | zero => exact .pure left
  | succ n ih =>
      unfold Parsing.chainFrom
      refine peek?.bind fun kind => ?_
      cases kind.bind operator? with
      | none => exact .pure left
      | some op => exact advance.bind fun _ => h.andThen fun right => ih (join op left right)

theorem itemsFrom {p q : Nat → Parser α} (h : ∀ count, RepeatsWithin eats r (p count) (q count))
    (n count : Nat) : RepeatsWithin false r (itemsFrom p n count) (itemsFrom q n count) := by
  induction n generalizing count with
  | zero => exact .pure []
  | succ n ih =>
      unfold Parsing.itemsFrom
      exact (h count).andThen fun first => (accept .comma).bind fun present =>
        .ite ((ih (count + 1)).bind fun others => .pure _) (.pure [first])

/-- **Items separated by commas** are repeated when each item is. -/
theorem items {p q : Nat → Parser α} (h : ∀ count, RepeatsWithin eats r (p count) (q count)) :
    RepeatsWithin false r (items p) (items q) :=
  remaining.bind fun n => itemsFrom h (n + 1) 0

end RepeatsWithin

namespace RepeatsBelow

variable {α β : Type} {eats : Bool} {r : Nat} {p q : Parser α}

theorem within (h : RepeatsBelow r p q) : RepeatsWithin true r p q := fun c hc => h c hc.lt

theorem of_le {r' : Nat} (h : RepeatsBelow r' p q) (hle : r ≤ r') : RepeatsBelow r p q :=
  fun c hc => h c (Nat.lt_of_lt_of_le hc hle)

/-- **Behind the first part** of a production a token has been passed. -/
theorem bind {f g : α → Parser β} (hp : RepeatsBelow (r + 1) p q)
    (hf : ∀ a, RepeatsWithin eats r (f a) (g a)) :
    RepeatsBelow (r + 1) (p >>= f) (q >>= g) :=
  fun c hc => (hp c hc).bind fun a c' _ hc' => hf a c' (.ofAdvanced hc hc')

theorem map (f : α → β) (h : RepeatsBelow r p q) : RepeatsBelow r (f <$> p) (f <$> q) :=
  fun c hc => (h c hc).map f

theorem here_bind {f g : Location → Parser β} (h : ∀ start, RepeatsBelow r (f start) (g start)) :
    RepeatsBelow r (here >>= f) (here >>= g) :=
  fun c hc => .here_bind fun start => h start c hc

/-- **Operands joined by operators** are repeated when each operand is. -/
theorem chain {operator? : Token.Kind → Option β} {p q : Parser Expr}
    {join : β → Expr → Expr → Expr} (h : RepeatsBelow (r + 1) p q) :
    RepeatsBelow (r + 1) (chain operator? p join) (chain operator? q join) :=
  h.bind fun left => RepeatsWithin.remaining.bind fun n =>
    (h.of_le (Nat.le_succ r)).within.chainFrom n left

/-- What is done on a level of its own. -/
theorem nested (h : RepeatsBelow r p q) : RepeatsBelow r (nested p) (nested q) :=
  fun c hc => .nested (h { c with depth := c.depth + 1 } hc)

end RepeatsBelow

/-- What comes behind a part that passes a token. -/
theorem Repeats.behind {α β : Type} {eats : Bool} {r : Nat} {p q : Parser α} {f g : α → Parser β}
    {c : Cursor} (hp : Repeats true p q c) (hc : c.rest.length < r)
    (hf : ∀ a, RepeatsWithin eats r (f a) (g a)) : Repeats true (p >>= f) (q >>= g) c :=
  hp.bind fun a c' _ hc' => hf a c' (.behind hc hc')

/-- A word that was seen is passed, and the production that it begins follows. -/
theorem Repeats.word {α : Type} {eats : Bool} {r : Nat} {p q : Parser α} {c : Cursor}
    {kind : Token.Kind} (hkind : c.kind? = some kind) (hc : c.rest.length < r + 1)
    (h : RepeatsWithin eats r p q) :
    Repeats true (Parsing.advance >>= fun _ => p) (Parsing.advance >>= fun _ => q) c :=
  (Repeats.advance hkind).bind fun _ c' _ hc' => h c' (.ofAdvanced hc hc')

end Lox.Parsing
