import Lox.Proofs.Parsing.Grammar

/-!
# Trees and operators of the parser

The parser looks operators up by their tokens, level by level, and the grammar lists them. Both have
the same operators and make the same trees, places apart.

## Contents
- `Implements`: a level of the parser and a level of the grammar.
- `implements_or` to `implements_factor`: the levels of precedence.
- `continuing`, `Stops`: the tokens with which operations go on.
- `length_bareAll`, `bare_forBlock`: bare trees of what the parser makes.
-/

namespace Lox.Parsing

open Grammar

/-- The operators of a level in a parser and in the grammar, and the trees that they make. -/
structure Implements {γ : Type} (operator? : Token.Kind → Option γ) (join : γ → Expr → Expr → Expr)
    (tree : γ → Infix) (level : Operators) : Prop where
  mem_iff : ∀ kind op', (kind, op') ∈ level ↔ ∃ op, operator? kind = some op ∧ tree op = op'
  bare_join : ∀ op left right, (join op left right).bare = (tree op).join left.bare right.bare

theorem implements_or : Implements orOp? joinLogical .logical [(.or, .logical .or)] where
  mem_iff kind op' := by cases kind <;> simp [orOp?, eq_comm]
  bare_join _ _ _ := rfl

theorem implements_and : Implements andOp? joinLogical .logical [(.and, .logical .and)] where
  mem_iff kind op' := by cases kind <;> simp [andOp?, eq_comm]
  bare_join _ _ _ := rfl

theorem implements_equality : Implements equalityOp? joinBinary .binary
    [(.bangEqual, .binary .notEqual), (.equalEqual, .binary .equal)] where
  mem_iff kind op' := by cases kind <;> simp [equalityOp?, eq_comm]
  bare_join _ _ _ := rfl

theorem implements_comparison : Implements comparisonOp? joinBinary .binary
    [(.greater, .binary .greater), (.greaterEqual, .binary .greaterEqual),
     (.less, .binary .less), (.lessEqual, .binary .lessEqual)] where
  mem_iff kind op' := by cases kind <;> simp [comparisonOp?, eq_comm]
  bare_join _ _ _ := rfl

theorem implements_term : Implements termOp? joinBinary .binary
    [(.minus, .binary .subtract), (.plus, .binary .add)] where
  mem_iff kind op' := by cases kind <;> simp [termOp?, eq_comm]
  bare_join _ _ _ := rfl

theorem implements_factor : Implements factorOp? joinBinary .binary
    [(.slash, .binary .divide), (.star, .binary .multiply)] where
  mem_iff kind op' := by cases kind <;> simp [factorOp?, eq_comm]
  bare_join _ _ _ := rfl

/-! ## Where an operation goes on -/

/-- The tokens with which an operation of the given levels goes on, or an operand of it. -/
def continuing (levels : List Operators) : List Token.Kind :=
  [.leftParen, .dot] ++ levels.flatten.map (·.1)

/-- No operation of the given levels goes on in front of these tokens. -/
def Stops (levels : List Operators) (us : List Token) : Prop :=
  ∀ kind ∈ continuing levels, us.head?.map (·.kind) ≠ some kind

theorem mem_continuing_cons {level : Operators} {levels : List Operators} {kind : Token.Kind} :
    kind ∈ continuing (level :: levels) ↔
      (∃ op, (kind, op) ∈ level) ∨ kind ∈ continuing levels := by
  unfold continuing
  simp only [List.flatten_cons, List.map_append, List.mem_append, List.mem_map, Prod.exists,
    exists_and_right, exists_eq_right]
  exact or_left_comm

theorem Stops.of_cons {level : Operators} {levels : List Operators} {us : List Token}
    (h : Stops (level :: levels) us) : Stops levels us :=
  fun kind hmem => h kind (mem_continuing_cons.2 (.inr hmem))

theorem stops_of_terminal {levels : List Operators} {kind : Token.Kind} {us vs : List Token}
    (h : Terminal kind us vs) (hkind : kind ∉ continuing levels) : Stops levels us := by
  intro kind' hmem heq
  rw [h.head] at heq
  exact hkind (Option.some.inj heq ▸ hmem)

/-! ## Trees -/

theorem length_bareAll (es : List Expr) : (Expr.bareAll es).length = es.length := by
  induction es with
  | nil => rfl
  | cons e es ih => exact congrArg (· + 1) ih

/-- A missing condition is true, and the increment stays with the loop. -/
theorem bare_forBlock (initial : Option Decl) (condition increment : Option Expr) (loopBody : Stmt)
    (span : Span) :
    (forBlock initial condition increment loopBody span).bare =
      Clauses.loop ⟨initial.map Decl.bare, condition.map Expr.bare, increment.map Expr.bare⟩
        loopBody.bare := by
  cases initial <;> cases condition <;> rfl

end Lox.Parsing
