import Lox.Proofs.Parsing.Modes
import Lox.Proofs.Recovery.Productions

/-!
# Recovery makes progress

When errors are recorded, a declaration always returns, further on than it began. If it could not be
read, it ends where the parse can begin again: behind a semicolon, in front of a word that begins a
statement, or at the end of the tokens. Its nesting levels are closed however deep the error was
noticed.

So the loops of programs, blocks and classes end because something closes them. The bounds on
repetition and recursion are never what ends them: any greater ones make no difference.

## Contents
- `Cursor.AtBoundary`: where a parse can begin again.
- `Progresses`: what a declaration does that returns.
- `declaration_progresses`, `declarationsFrom_ends`, `methodsFrom_ends`, `program_ends`: one lemma for
  each loop.
- `recovery_progresses`: all of them.
-/

namespace Lox.Parsing

/-- A parse can begin again here: nothing is left, a semicolon was passed last, or the next token
begins a statement. -/
def Cursor.AtBoundary (c : Cursor) : Prop :=
  c.rest = [] ∨ c.previous.any (·.kind == .semicolon) = true ∨ c.kind?.any startsStatement = true

/-- What a declaration does that returns. One that could not be read has recorded an error, and ends
where a parse can begin again. -/
structure Progresses (c : Cursor) (decl? : Option Decl) (c' : Cursor) : Prop where
  advanced : Advanced true c c'
  boundary : decl? = none → c'.AtBoundary
  recorded : decl? = none → c.errors.length < c'.errors.length

/-- Skipping stops at a boundary only. -/
theorem skipStatement_boundary (previous : Option Token) (rest : List Token) :
    (skipStatement previous rest).2 = [] ∨
      (skipStatement previous rest).1.any (·.kind == .semicolon) = true ∨
      ((skipStatement previous rest).2.head?.map (·.kind)).any startsStatement = true := by
  induction rest generalizing previous with
  | nil => exact .inl rfl
  | cons t ts ih =>
      unfold skipStatement
      split
      · rename_i hstops
        rcases Bool.or_eq_true_iff.1 hstops with hsemicolon | hstarts
        · exact .inr (.inl hsemicolon)
        · exact .inr (.inr hstarts)
      · exact ih (some t)

theorem Cursor.synchronize_atBoundary (c : Cursor) : c.synchronize.AtBoundary :=
  skipStatement_boundary c.advance.previous c.advance.rest

/-- Where there is no result, an error was recorded and the tokens were skipped up to a boundary. -/
theorem exists_error_of_recovered {α : Type} {p : Parser α} {c c' : Cursor}
    (h : recovered .recovering p c = .ok none c') :
    ∃ e c₁, p c = .error e c₁ ∧ c' = (c₁.record e).synchronize := by
  cases hp : p c with
  | ok a c₁ => exact nomatch (recovered_of_ok hp).symm.trans h
  | error e c₁ =>
      cases (recovered_recovering_of_error hp).symm.trans h
      exact ⟨e, c₁, rfl, rfl⟩

/-- The bound on the recursion is enough for all tokens that are to come. -/
theorem repeatsInside_declaration (mode : Mode) {r n n' : Nat} (hn : recursionBound r ≤ n)
    (hn' : recursionBound r ≤ n') :
    RepeatsInside (r + 1) (declaration mode n) (declaration mode n') := by
  unfold recursionBound at hn hn'
  exact (roomy mode (r + 1)).declaration n n' (by omega) (by omega)

/-- A declaration goes forward before it is recovered, too. -/
theorem repeatsBelow_declarationWith (r : Nat) :
    RepeatsBelow (r + 1)
      (declarationWith .recovering (assignment .recovering (4 * r + 3))
        (statement .recovering (4 * r + 3)) (declaration .recovering (4 * r + 3)))
      (declarationWith .recovering (assignment .recovering (4 * r + 3))
        (statement .recovering (4 * r + 3)) (declaration .recovering (4 * r + 3))) := by
  refine .declarationWith ?_ ?_ ?_
  · exact (roomy .recovering r).assignment _ _ (by omega) (by omega)
  · exact (roomy .recovering (r + 1)).statement _ _ (by omega) (by omega)
  · exact (roomy .recovering r).declaration _ _ (by omega) (by omega)

/-- A declaration that recovers returns. -/
theorem total_declaration {n : Nat} (hn : 0 < n) : Total (declaration .recovering n) := by
  obtain ⟨m, rfl⟩ := Nat.exists_eq_succ_of_ne_zero (Nat.ne_of_gt hn)
  unfold declaration
  exact .recovered _

/-- Two runs from one cursor that leave the same tokens have passed the same ones. -/
theorem Beside.eq_of_advanced {eats eats' : Bool} {c c' d' : Cursor} (h : Beside c' d')
    (hc : Advanced eats c c') (hd : Advanced eats' c d') : d' = c' := by
  obtain ⟨ts, hrest, hprevious⟩ := hc.passed
  obtain ⟨us, hrest', hprevious'⟩ := hd.passed
  rw [h.rest, hrest] at hrest'
  have hts : ts = us := List.append_cancel_right hrest'
  have hsame : d'.previous = c'.previous := by rw [hprevious, hprevious', hts]
  obtain ⟨previous, rest, finish, depth, errors⟩ := c'
  obtain ⟨previous', rest', finish', depth', errors'⟩ := d'
  cases h.rest
  cases h.finish
  cases h.depth
  cases h.errors
  cases hsame
  rfl

/-- From the cursor itself, a repetition is the same run. -/
theorem Repeats.run_eq {α : Type} {eats : Bool} {p q : Parser α} {c : Cursor}
    (h : Repeats eats p q c) (hq : Repeats eats q q c) : q c = p c := by
  cases hp : p c with
  | ok a c' =>
      obtain ⟨hadvanced, hrepeats⟩ := h.ok a c' hp
      obtain ⟨d', hd', hbeside⟩ := hrepeats c (.refl c)
      rw [hd', hbeside.eq_of_advanced hadvanced (hq.ok a d' hd').1]
  | error e c' =>
      obtain ⟨hadvanced, hrepeats⟩ := h.error e c' hp
      obtain ⟨d', hd', hbeside⟩ := hrepeats c (.refl c)
      rw [hd', hbeside.eq_of_advanced hadvanced (hq.error e d' hd').1]

/-! ## Declarations -/

/-- **A declaration makes progress**, and the bound on the recursion does not matter when it is great
enough. -/
theorem declaration_progresses {c : Cursor} (hne : c.rest ≠ []) :
    ∃ decl? c', Progresses c decl? c' ∧
      ∀ n, recursionBound c.rest.length ≤ n → declaration .recovering n c = .ok decl? c' := by
  have hrepeats (n n' : Nat) (hn : recursionBound c.rest.length ≤ n)
      (hn' : recursionBound c.rest.length ≤ n') :
      Repeats true (declaration .recovering n) (declaration .recovering n') c :=
    repeatsInside_declaration .recovering hn hn' c hne (Nat.lt_succ_self _)
  have hleast := Nat.le_refl (recursionBound c.rest.length)
  obtain ⟨decl?, c', hrun⟩ := total_declaration (Nat.succ_pos (4 * c.rest.length + 3)) c
  have hwith := repeatsBelow_declarationWith c.rest.length c (Nat.lt_succ_self _)
  have hadvanced := ((hrepeats _ _ hleast hleast).ok decl? c' hrun).1
  refine ⟨decl?, c', ⟨hadvanced, ?_, ?_⟩, ?_⟩
  · rintro rfl
    obtain ⟨e, c₁, -, rfl⟩ := exists_error_of_recovered hrun
    exact Cursor.synchronize_atBoundary _
  · rintro rfl
    obtain ⟨e, c₁, hfailed, rfl⟩ := exists_error_of_recovered hrun
    have hkept := (hwith.error e c₁ hfailed).1.errors.length_le
    rw [Lockstep.errors_synchronize]
    show c.errors.length < (c₁.errors ++ [e]).length
    rw [List.length_append]
    exact Nat.lt_succ_of_le hkept
  · intro n hn
    rw [(hrepeats _ n hleast hn).run_eq (hrepeats n n hn hn)]
    exact hrun

/-! ## Loops -/

/-- A parser with two bounds that repeats itself at all bounds from some on does not depend on
them. -/
theorem run_eq_of_repeats {α : Type} {eats : Bool} {p : Nat → Nat → Parser α} {c : Cursor}
    {n₀ k₀ : Nat} (h : ∀ n n' k k', n₀ ≤ n → n₀ ≤ n' → k₀ ≤ k → k₀ ≤ k' →
      Repeats eats (p n k) (p n' k') c) {n k : Nat} (hn : n₀ ≤ n) (hk : k₀ ≤ k) :
    p n k c = p n₀ k₀ c :=
  (h n₀ n k₀ k (Nat.le_refl _) hn (Nat.le_refl _) hk).run_eq (h n n k k hn hn hk hk)

/-- **A loop over declarations ends because something closes it.** -/
theorem declarationsFrom_ends {closes : Option Token.Kind → Bool} (hnone : closes none = true)
    (c : Cursor) :
    ∃ decls c', Advanced false c c' ∧ closes c'.kind? = true ∧
      ∀ n k, recursionBound c.rest.length ≤ n → c.rest.length ≤ k →
        declarationsFrom (declaration .recovering n) closes k c = .ok decls c' := by
  let n₀ := recursionBound c.rest.length
  let k₀ := c.rest.length
  have hleast : n₀ ≤ n₀ := Nat.le_refl _
  have hdeclaration (n n' : Nat) (hn : n₀ ≤ n) (hn' : n₀ ≤ n') :
      RepeatsInside (k₀ + 1) (declaration .recovering n) (declaration .recovering n') :=
    repeatsInside_declaration .recovering hn hn'
  have hrepeats (n n' k k' : Nat) (hn : n₀ ≤ n) (hn' : n₀ ≤ n') (hk : k₀ ≤ k) (hk' : k₀ ≤ k') :
      Repeats false (declarationsFrom (declaration .recovering n) closes k)
        (declarationsFrom (declaration .recovering n') closes k') c :=
    (hdeclaration n n' hn hn').declarationsFrom hnone k k' c (Nat.lt_succ_self _)
      (by rw [Nat.min_eq_right hk, Nat.min_eq_right hk'])
  have htotal : Total (declaration .recovering n₀) := total_declaration (Nat.succ_pos _)
  obtain ⟨decls, c', hrun⟩ := htotal.declarationsFrom closes k₀ c
  refine ⟨decls, c', ?_, ?_, fun n k hn hk => ?_⟩
  · exact ((hrepeats n₀ n₀ k₀ k₀ hleast hleast (Nat.le_refl _) (Nat.le_refl _)).ok decls c' hrun).1
  · exact (hdeclaration n₀ n₀ hleast hleast).closes_of_declarationsFrom hnone k₀ c c' decls
      (Nat.lt_succ_self _) (Nat.le_refl _) hrun
  · rw [run_eq_of_repeats hrepeats hn hk]
    exact hrun

/-- **A loop over methods ends because something closes it**, or because a method could not be
read. -/
theorem methodsFrom_ends (c : Cursor) :
    ∃ result : EStateM.Result SyntaxError Cursor (List FunctionDecl),
      (∀ methods c', result = .ok methods c' → Advanced false c c' ∧ closesBody c'.kind? = true) ∧
      (∀ e c', result = .error e c' → Advanced false c c') ∧
      ∀ n k, recursionBound c.rest.length ≤ n → c.rest.length ≤ k →
        methodsFrom (function .recovering (declaration .recovering n) "method") k c = result := by
  let n₀ := recursionBound c.rest.length
  let k₀ := c.rest.length
  have hleast : n₀ ≤ n₀ := Nat.le_refl _
  have hmethod (n n' : Nat) (hn : n₀ ≤ n) (hn' : n₀ ≤ n') (start : Location) :
      RepeatsBelow (k₀ + 1) (function .recovering (declaration .recovering n) "method" start)
        (function .recovering (declaration .recovering n') "method" start) :=
    RepeatsBelow.function (repeatsInside_declaration .recovering hn hn') "method" start
  have hrepeats (n n' k k' : Nat) (hn : n₀ ≤ n) (hn' : n₀ ≤ n') (hk : k₀ ≤ k) (hk' : k₀ ≤ k') :
      Repeats false (methodsFrom (function .recovering (declaration .recovering n) "method") k)
        (methodsFrom (function .recovering (declaration .recovering n') "method") k') c :=
    RepeatsBelow.methodsFrom (hmethod n n' hn hn') k k' c (Nat.lt_succ_self _)
      (by rw [Nat.min_eq_right hk, Nat.min_eq_right hk'])
  have hrun := hrepeats n₀ n₀ k₀ k₀ hleast hleast (Nat.le_refl _) (Nat.le_refl _)
  refine ⟨methodsFrom (function .recovering (declaration .recovering n₀) "method") k₀ c, ?_, ?_,
    fun n k hn hk => run_eq_of_repeats hrepeats hn hk⟩
  · intro methods c' hmethods
    refine ⟨(hrun.ok methods c' hmethods).1, ?_⟩
    exact RepeatsBelow.closes_of_methodsFrom (hmethod n₀ n₀ hleast hleast) k₀ c c' methods
      (Nat.lt_succ_self _) (Nat.le_refl _) hmethods
  · intro e c' hfailed
    exact (hrun.error e c' hfailed).1

/-- The declarations of a cursor are those of the program, in either mode. -/
theorem program_of_declarations {mode : Mode} {c c' : Cursor} {decls : List Decl}
    (h : declarationsFrom (declaration mode (recursionBound c.rest.length)) (·.isNone)
      c.rest.length c = .ok decls c') :
    program mode c = .ok ⟨decls, ⟨c.here, c'.here⟩⟩ c' := by
  show (declarationsFrom (declaration mode (recursionBound c.rest.length)) (·.isNone)
    c.rest.length >>= fun decls => do pure (Program.mk decls ⟨c.here, ← here⟩)) c = _
  rw [bind_of_ok h]
  rfl

/-- **A program ends at the end of its tokens.** -/
theorem program_ends (s : Scan) :
    ∃ P c', program .recovering (Cursor.ofScan s) = .ok P c' ∧ c'.rest = [] ∧ c'.depth = 0 := by
  have hnone : Option.isNone (none : Option Token.Kind) = true := rfl
  obtain ⟨decls, c', hadvanced, hcloses, hrun⟩ := declarationsFrom_ends hnone (Cursor.ofScan s)
  have hprogram := hrun _ (Cursor.ofScan s).rest.length (Nat.le_refl _) (Nat.le_refl _)
  refine ⟨⟨decls, ⟨(Cursor.ofScan s).here, c'.here⟩⟩, c', ?_, ?_, hadvanced.depth⟩
  · exact program_of_declarations hprogram
  · cases hrest : c'.rest with
    | nil => rfl
    | cons t ts =>
        rw [Cursor.kind?_of_cons hrest] at hcloses
        exact nomatch hcloses

/-- **Recovery makes progress and leaves no residue.** In front of a token a declaration returns, with
a token passed and all its nesting levels closed, and where it caught an error the parse can begin
again. The loops of programs and blocks, with anything that closes them at the end of the tokens, and
the loop of a class end because something closes them. None of the bounds matters when it is great
enough. A program passes all of its tokens. -/
theorem recovery_progresses :
    (∀ c : Cursor, c.rest ≠ [] → ∃ decl? c', Progresses c decl? c' ∧
      ∀ n, recursionBound c.rest.length ≤ n → declaration .recovering n c = .ok decl? c') ∧
    (∀ closes : Option Token.Kind → Bool, closes none = true → ∀ c : Cursor,
      ∃ decls c', Advanced false c c' ∧ closes c'.kind? = true ∧
        ∀ n k, recursionBound c.rest.length ≤ n → c.rest.length ≤ k →
          declarationsFrom (declaration .recovering n) closes k c = .ok decls c') ∧
    (∀ c : Cursor, ∃ result : EStateM.Result SyntaxError Cursor (List FunctionDecl),
      (∀ methods c', result = .ok methods c' → Advanced false c c' ∧ closesBody c'.kind? = true) ∧
      (∀ e c', result = .error e c' → Advanced false c c') ∧
      ∀ n k, recursionBound c.rest.length ≤ n → c.rest.length ≤ k →
        methodsFrom (function .recovering (declaration .recovering n) "method") k c = result) ∧
    (∀ s : Scan, ∃ P c', program .recovering (Cursor.ofScan s) = .ok P c' ∧ c'.rest = [] ∧
      c'.depth = 0) :=
  ⟨fun _ => declaration_progresses, fun _ hnone c => declarationsFrom_ends hnone c,
    methodsFrom_ends, program_ends⟩

/-- A block with a broken statement, which is not closed. -/
theorem recovery_progresses_in_open_block :
    let c := Cursor.ofScan (scan "\x7b ( ; print".toList)
    (c.rest ≠ [] ∧ ∃ decl? c', Progresses c decl? c' ∧
      ∀ n, recursionBound c.rest.length ≤ n → declaration .recovering n c = .ok decl? c') ∧
    (closesBody none = true ∧ ∃ decls c', Advanced false c c' ∧ closesBody c'.kind? = true ∧
      ∀ n k, recursionBound c.rest.length ≤ n → c.rest.length ≤ k →
        declarationsFrom (declaration .recovering n) closesBody k c = .ok decls c') := by
  have hne : (Cursor.ofScan (scan "\x7b ( ; print".toList)).rest ≠ [] := by decide +kernel
  exact ⟨⟨hne, recovery_progresses.1 _ hne⟩, rfl, recovery_progresses.2.1 closesBody rfl _⟩

end Lox.Parsing
