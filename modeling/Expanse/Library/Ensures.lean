import Mathlib.Tactic

/-!
# Postconditions of computations that may fault

`Ensures T x Q`: when `x` returns, its result satisfies `Q`; and under `T` it returns.
Partial correctness is `T := False`, total correctness `T := True`; a component whose
faults all come from below takes "the component below is total" for `T`.
-/

namespace Expanse

variable {Err α β : Type} {T : Prop}

def Ensures (T : Prop) (x : Except Err α) (Q : α → Prop) : Prop :=
  match x with
  | .ok r => Q r
  | .error _ => ¬ T

@[simp] theorem ok_bind (r : α) (f : α → Except Err β) : (Except.ok r >>= f) = f r := rfl

@[simp] theorem pure_eq_ok (r : α) : (pure r : Except Err α) = .ok r := rfl

variable {x : Except Err α} {Q Q' : α → Prop} {R : β → Prop} {f : α → Except Err β}

@[simp] theorem ensures_ok {r : α} : Ensures T (.ok r : Except Err α) Q ↔ Q r := Iff.rfl

theorem Ensures.bind (hx : Ensures T x Q) (hf : ∀ r, Q r → Ensures T (f r) R) :
    Ensures T (x >>= f) R := by
  cases x with
  | ok r => exact hf r hx
  | error e => exact hx

theorem Ensures.mono (hx : Ensures T x Q) (h : ∀ r, Q r → Q' r) : Ensures T x Q' := by
  cases x with
  | ok r => exact h r hx
  | error e => exact hx

theorem Ensures.of_ok {r : α} (hx : Ensures T x Q) (h : x = .ok r) : Q r := by
  rw [h] at hx
  exact hx

theorem Ensures.of_true (hx : Ensures True x Q) : Ensures T x Q := by
  cases x with
  | ok r => exact hx
  | error e => exact absurd trivial hx

theorem Ensures.total (hx : Ensures T x Q) (hT : T) : ∃ r, x = .ok r ∧ Q r := by
  cases x with
  | ok r => exact ⟨r, rfl, hx⟩
  | error e => exact absurd hT hx

/-- A computation with a postcondition for its results, and a proof that it returns under `T`. -/
theorem ensures_intro (hQ : ∀ r, x = .ok r → Q r) (hT : T → ∃ r, x = .ok r) : Ensures T x Q := by
  cases x with
  | ok r => exact hQ r rfl
  | error e =>
    intro h
    obtain ⟨r, hr⟩ := hT h
    cases hr

end Expanse
