import LoxLang.Proofs.Store.Growth

/-!
How the global scope changes. It never loses a name, and gains one only where a name is defined in it that it does
not hold already.
-/

namespace LoxLang.Forest

variable {before middle after forest : Forest} {id : ScopeId} {name : String}
  {new : String → Prop}

/-! ## Names that are found -/

theorem holds_holder? {holder : ScopeId} (found : forest.holder? name id = some holder) :
    forest.Holds holder name := by
  induction id using Nat.strongRecOn with
  | ind id ih =>
      rw [holder?] at found
      split at found
      · next held =>
        cases found
        exact held
      · split at found
        · cases found
        · split at found
          · next outer _ smaller => exact ih outer smaller found
          · cases found

theorem holds_find {token : Token} {holder : ScopeId} (found : forest.find id token = .ok holder) :
    forest.Holds holder token.lexeme := by
  unfold find at found
  split at found
  · next held =>
    cases found
    exact holds_holder? held
  · cases found

theorem holds_findAt {distance : Int} {token : Token} {holder : ScopeId}
    (found : forest.findAt id distance token = .ok holder) : forest.Holds holder token.lexeme := by
  unfold findAt at found
  cases walk : forest.ancestor id distance with
  | error _ =>
      rw [walk] at found
      cases found
  | ok outer =>
      rw [walk] at found
      change (if (forest.bindings outer).contains token.lexeme = true then Except.ok outer
        else .error (undefinedVariable token)) = .ok holder at found
      split at found
      · next held =>
        cases found
        exact held
      · cases found

/-! ## Names that are gained -/

/-- A later stage of a forest, in whose global scope there are the same names and perhaps some new ones. -/
structure Gains (new : String → Prop) (before after : Forest) : Prop where
  inside : globals < before.next → globals < after.next
  keeps : ∀ name, before.Holds globals name → after.Holds globals name
  only : ∀ name, after.Holds globals name → before.Holds globals name ∨ new name

namespace Gains

theorem refl (new : String → Prop) (forest : Forest) : Gains new forest forest :=
  ⟨id, fun _ => id, fun _ => .inl⟩

theorem trans (first : Gains new before middle) (second : Gains new middle after) :
    Gains new before after where
  inside := fun inside => second.inside (first.inside inside)
  keeps := fun name held => second.keeps name (first.keeps name held)
  only := fun name held => (second.only name held).elim (first.only name) .inr

end Gains

theorem holds_define_iff {value : Value} {other : String} {scope : ScopeId} :
    (forest.define id name value).Holds scope other ↔
      forest.Holds scope other ∨ scope = id ∧ id < forest.next ∧ other = name := by
  rw [Holds, bindings_define]
  split
  · next same =>
    obtain ⟨rfl, inside⟩ := same
    rw [Bindings.contains_set, Holds]
    simp [inside, or_comm]
  · next outside =>
    rw [Holds, ← and_assoc]
    exact (or_iff_left fun (h : (_ ∧ _) ∧ _) => outside h.1).symm

/-- A name that is defined is a new one, or is defined elsewhere, or was there. -/
theorem gains_define (value : Value) (allowed : id = globals → new name ∨ forest.Holds id name) :
    Gains new forest (forest.define id name value) where
  inside := fun inside => by rwa [next_define]
  keeps := fun _ held => holds_define_iff.mpr (.inl held)
  only := by
    intro other held
    rcases holds_define_iff.mp held with old | ⟨same, -, rfl⟩
    · exact .inl old
    · subst same
      exact (allowed rfl).symm

theorem gains_add (inside : globals < forest.next) (enclosing : Option ScopeId)
    (bindings : Bindings Value) : Gains new forest (forest.add enclosing bindings) := by
  have same : (forest.add enclosing bindings).bindings globals = forest.bindings globals :=
    bindings_add_of_lt inside _ _
  refine ⟨fun _ => ?_, fun name held => ?_, fun name held => .inl ?_⟩
  · rw [next_add]
    exact Nat.lt_succ_of_lt inside
  · rwa [Holds, same]
  · rwa [Holds, same] at held

end LoxLang.Forest
