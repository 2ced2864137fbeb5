import LoxLang.Grammar.Cursor
import LoxLang.Proofs.Sequence

/-!
Computations under two limits. Under the wider one a computation does the same as under the other, unless it gives up
there. Whatever computations are put together from such ones is such a one again, so that nothing hides that a part has
given up.
-/

namespace LoxLang

variable {ε σ α β : Type}

/-- The other computation does what the first one does, from every state where the first one does not give up. -/
def Outlasts (givesUp : ε) (first other : EStateM ε σ α) : Prop :=
  ∀ state, (∃ rest, first state = .error givesUp rest) ∨ other state = first state

namespace Outlasts

variable {givesUp : ε} {first other : EStateM ε σ α}

theorem refl (givesUp : ε) (first : EStateM ε σ α) : Outlasts givesUp first first :=
  fun _ => .inr rfl

theorem throw (other : EStateM ε σ α) : Outlasts givesUp (throw givesUp) other :=
  fun state => .inl ⟨state, rfl⟩

theorem bind {next after : α → EStateM ε σ β} (h : Outlasts givesUp first other)
    (rest : ∀ result, Outlasts givesUp (next result) (after result)) :
    Outlasts givesUp (first >>= next) (other >>= after) := by
  intro state
  rcases h state with ⟨last, gaveUp⟩ | same
  · exact .inl ⟨last, bind_error gaveUp⟩
  · cases begins : first state with
    | ok result later =>
        rw [bind_ok begins, bind_ok (same.trans begins)]
        exact rest result later
    | error error later =>
        rw [bind_error begins, bind_error (same.trans begins)]
        exact .inr rfl

theorem map {make : α → β} (h : Outlasts givesUp first other) :
    Outlasts givesUp (do return make (← first)) (do return make (← other)) :=
  h.bind fun _ => refl _ _

theorem ite {condition : Prop} [Decidable condition] {next after : EStateM ε σ α}
    (yes : Outlasts givesUp first other) (no : Outlasts givesUp next after) :
    Outlasts givesUp (if condition then first else next) (if condition then other else after) := by
  split
  · exact yes
  · exact no

theorem mapM {each again : α → EStateM ε σ β}
    (h : ∀ item, Outlasts givesUp (each item) (again item)) (items : List α) :
    Outlasts givesUp (items.mapM each) (items.mapM again) := by
  induction items with
  | nil => exact refl _ _
  | cons item rest ih =>
      rw [List.mapM_cons, List.mapM_cons]
      exact (h item).bind fun _ => ih.bind fun _ => refl _ _

/-- Where the first computation ends, the other one ends alike. -/
theorem ok (h : Outlasts givesUp first other) {state last : σ} {result : α}
    (ends : first state = .ok result last) : other state = .ok result last := by
  rcases h state with ⟨rest, gaveUp⟩ | same
  · rw [ends] at gaveUp
    cases gaveUp
  · rw [same, ends]

end Outlasts

end LoxLang
