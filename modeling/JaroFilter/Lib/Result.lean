import Mathlib

/-!
# Inverting successful computations

A computation in `Except` succeeds only when each of its parts does.
-/

namespace JaroFilter.Lib

variable {ε ε' α β : Type}

theorem map_eq_ok_iff {x : Except ε α} {f : α → β} {b : β} :
    x.map f = .ok b ↔ ∃ a, x = .ok a ∧ f a = b := by
  cases x <;> simp [Except.map]

theorem bind_eq_ok_iff {x : Except ε α} {f : α → Except ε β} {b : β} :
    (x >>= f) = .ok b ↔ ∃ a, x = .ok a ∧ f a = .ok b := by
  cases x <;> simp [bind, Except.bind]

theorem mapError_eq_ok_iff {x : Except ε α} {f : ε → ε'} {a : α} :
    x.mapError f = .ok a ↔ x = .ok a := by
  cases x <;> simp [Except.mapError]

/-- The value of a computation that succeeded. -/
def okValue : (x : Except ε α) → x.isOk = true → α
  | .ok a, _ => a

theorem eq_ok_okValue {x : Except ε α} (h : x.isOk = true) : x = .ok (okValue x h) := by
  cases x with
  | ok a => rfl
  | error e => cases h

theorem exists_eq_ok {x : Except ε α} (h : x.isOk = true) : ∃ a, x = .ok a :=
  ⟨_, eq_ok_okValue h⟩

/-! ### Errors -/

/-- Every error of the computation has the property. -/
def Raises (P : ε → Prop) (x : Except ε α) : Prop := ∀ e, x = .error e → P e

theorem raises_ok (P : ε → Prop) (a : α) : Raises P (.ok a : Except ε α) := by
  intro e h
  cases h

theorem raises_error {P : ε → Prop} {e : ε} (h : P e) : Raises P (.error e : Except ε α) := by
  intro e' he
  cases he
  exact h

theorem raises_bind {P : ε → Prop} {x : Except ε α} {f : α → Except ε β} (hx : Raises P x)
    (hf : ∀ a, x = .ok a → Raises P (f a)) : Raises P (x >>= f) := by
  cases x with
  | ok a => exact hf a rfl
  | error e =>
    intro e' he
    cases he
    exact hx e rfl

end JaroFilter.Lib
