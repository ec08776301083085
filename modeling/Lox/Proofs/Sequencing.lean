/-!
# Computations one after the other

Parsers and the evaluator are computations that carry a state, and end in a value or stop with an
error. How a sequence of two ends is how its parts end, in either direction: the equations run a
sequence whose parts are known, the inversions take one apart whose end is known. Proofs about
sequences go through these lemmas, and open no definition of the monad.

## Contents
- `bind_apply`, `bind_of_ok`, `bind_of_error`: how a sequence ends, by its first part.
- `ok_of_bind`, `error_of_bind`: the parts of a sequence, by how it ends.
- `bind_congr_at`, `bind_eq`: sequences that end alike.
- `eq_ok_of_toOption`: a result without its reason to fail.
-/

namespace Lox

variable {ε σ α β : Type} {x y : EStateM ε σ α} {f g : α → EStateM ε σ β} {s s' t : σ}

theorem bind_apply (x : EStateM ε σ α) (f : α → EStateM ε σ β) (s : σ) :
    (x >>= f) s =
      match x s with
      | .ok a s' => f a s'
      | .error e s' => .error e s' := rfl

/-- A computation goes on where the one in front of it ended. -/
theorem bind_of_ok {a : α} (h : x s = .ok a s') : (x >>= f) s = f a s' := by
  rw [bind_apply, h]

/-- A computation that stops is not gone on with. -/
theorem bind_of_error {e : ε} (h : x s = .error e s') : (x >>= f) s = .error e s' := by
  rw [bind_apply, h]

/-- A success of two computations, one after the other, is a success of both. -/
theorem ok_of_bind {b : β} (h : (x >>= f) s = .ok b t) :
    ∃ a s', x s = .ok a s' ∧ f a s' = .ok b t := by
  cases hx : x s with
  | ok a s' =>
      rw [bind_of_ok hx] at h
      exact ⟨a, s', rfl, h⟩
  | error e s' =>
      rw [bind_of_error hx] at h
      exact nomatch h

/-- Where a sequence stops, its first part stops, or else what comes behind a success of it. -/
theorem error_of_bind {e : ε} (h : (x >>= f) s = .error e t) :
    x s = .error e t ∨ ∃ a s', x s = .ok a s' ∧ f a s' = .error e t := by
  cases hx : x s with
  | ok a s' =>
      rw [bind_of_ok hx] at h
      exact .inr ⟨a, s', rfl, h⟩
  | error e' s' =>
      rw [bind_of_error hx] at h
      cases h
      exact .inl rfl

/-- What follows depends on the end of the first computation alone. -/
theorem bind_congr_at {s₁ s₂ : σ} (h : x s₁ = y s₂) : (x >>= f) s₁ = (y >>= f) s₂ := by
  cases hy : y s₂ with
  | ok a s' => rw [bind_of_ok (h.trans hy), bind_of_ok hy]
  | error e s' => rw [bind_of_error (h.trans hy), bind_of_error hy]

/-- Two computations end alike when their first parts do, and what follows on these does. -/
theorem bind_eq (hxy : x s = y s) (hfg : ∀ a s', y s = .ok a s' → f a s' = g a s') :
    (x >>= f) s = (y >>= g) s := by
  cases hy : y s with
  | ok a s' => rw [bind_of_ok (hxy.trans hy), bind_of_ok hy, hfg a s' hy]
  | error e s' => rw [bind_of_error (hxy.trans hy), bind_of_error hy]

theorem eq_ok_of_toOption {r : Except ε α} {a : α} (h : r.toOption = some a) : r = .ok a := by
  cases r with
  | ok b => rw [Option.some.inj h]
  | error e => exact nomatch h

end Lox
