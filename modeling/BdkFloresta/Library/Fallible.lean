import Mathlib.Logic.Basic

/-!
Sequences of fallible calls in `Except`. A sequence succeeds exactly if each of its calls
does, and it fails with the error of the first that fails. Converting the error of a call
changes neither.
-/

namespace Fallible
universe u v
variable {ε ε' : Type u} {α β : Type v}

theorem mapError_eq_ok {f : ε → ε'} {x : Except ε α} {a : α} :
    x.mapError f = .ok a ↔ x = .ok a := by
  cases x with
  | error d => change Except.error (f d) = .ok a ↔ _; simp
  | ok b => change Except.ok b = .ok a ↔ _; simp

theorem mapError_eq_error {f : ε → ε'} {x : Except ε α} {e : ε'} :
    x.mapError f = .error e ↔ ∃ d, x = .error d ∧ f d = e := by
  cases x with
  | error d => change Except.error (f d) = .error e ↔ _; simp
  | ok b => change Except.ok b = .error e ↔ _; simp

theorem mapError_ne_error {f : ε → ε'} {e : ε'} (h : ∀ a, f a ≠ e) (x : Except ε α) :
    x.mapError f ≠ .error e := by
  intro heq
  obtain ⟨d, -, hd⟩ := mapError_eq_error.mp heq
  exact h d hd

theorem map_eq_ok {f : α → β} {x : Except ε α} {b : β} :
    x.map f = .ok b ↔ ∃ a, x = .ok a ∧ f a = b := by
  cases x with
  | error e => change Except.error e = .ok b ↔ _; simp
  | ok a => change Except.ok (f a) = .ok b ↔ _; simp

theorem bind_eq_ok {x : Except ε α} {f : α → Except ε β} {b : β} :
    x >>= f = .ok b ↔ ∃ a, x = .ok a ∧ f a = .ok b := by
  cases x with
  | error e => exact ⟨nofun, fun ⟨_, h, _⟩ => nomatch h⟩
  | ok a => exact ⟨fun h => ⟨a, rfl, h⟩, fun ⟨_, ha, h⟩ => Except.ok.inj ha ▸ h⟩

theorem bind_eq_error {x : Except ε α} {f : α → Except ε β} {e : ε} :
    x >>= f = .error e ↔ x = .error e ∨ ∃ a, x = .ok a ∧ f a = .error e := by
  cases x <;> simp [bind, Except.bind]

theorem bind_ne_error {x : Except ε α} {f : α → Except ε β} {e : ε} (hx : x ≠ .error e)
    (hf : ∀ a, f a ≠ .error e) : x >>= f ≠ .error e := by
  intro heq
  rcases bind_eq_error.mp heq with h | ⟨a, -, h⟩
  · exact hx h
  · exact hf a h

end Fallible
