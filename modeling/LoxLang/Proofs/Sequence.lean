/-!
One effect after another. If the first one succeeds, the rest is done where it ends; and if both together succeed, each
of them does.
-/

namespace LoxLang

variable {ε σ α β : Type} {first : EStateM ε σ α} {next : α → EStateM ε σ β} {state middle last : σ} {value : α}
  {result : β} {error : ε}

theorem bind_ok (h : first state = .ok value middle) : (first >>= next) state = next value middle := by
  change EStateM.bind first next state = _
  rw [EStateM.bind, h]

theorem bind_error (h : first state = .error error middle) : (first >>= next) state = .error error middle := by
  change EStateM.bind first next state = _
  rw [EStateM.bind, h]

theorem exists_of_bind_ok (h : (first >>= next) state = .ok result last) :
    ∃ value middle, first state = .ok value middle ∧ next value middle = .ok result last := by
  cases begins : first state with
  | ok value middle => exact ⟨value, middle, rfl, (bind_ok begins).symm.trans h⟩
  | error error middle =>
      rw [bind_error begins] at h
      cases h

end LoxLang
