import LoxLang.Proofs.Bindings
import LoxLang.Store.Basic

/-!
How the scopes of a running program change. Scopes are added, names are bound in them, and no scope ever
loses a name or comes to be enclosed by another one.
-/

namespace LoxLang

namespace Forest

variable {before middle after forest : Forest} {id enclosing : ScopeId} {name : String}

def Holds (forest : Forest) (id : ScopeId) (name : String) : Prop :=
  (forest.bindings id).contains name = true

/-- What `super` stands for in a scope is a class. -/
def HoldsSuper (forest : Forest) (id : ScopeId) : Prop :=
  ∃ kind, (forest.bindings id).get? "super" = some (.class kind)

/-- A later stage of a forest; classes that `super` stands for stay classes. -/
structure Grows (before after : Forest) : Prop where
  next : before.next ≤ after.next
  enclosing : ∀ id < before.next, after.enclosing? id = before.enclosing? id
  holds : ∀ id name, before.Holds id name → after.Holds id name
  holdsSuper : ∀ id, before.HoldsSuper id → after.HoldsSuper id

namespace Grows

theorem refl (forest : Forest) : forest.Grows forest :=
  ⟨Nat.le_refl _, fun _ _ => rfl, fun _ _ => id, fun _ => id⟩

theorem trans (first : before.Grows middle) (second : middle.Grows after) :
    before.Grows after where
  next := Nat.le_trans first.next second.next
  enclosing := fun id inner => by
    rw [second.enclosing id (Nat.lt_of_lt_of_le inner first.next), first.enclosing id inner]
  holds := fun id name held => second.holds id name (first.holds id name held)
  holdsSuper := fun id held => second.holdsSuper id (first.holdsSuper id held)

end Grows

theorem lt_next_of_enclosing? (h : forest.enclosing? id = some enclosing) : id < forest.next := by
  rcases Nat.lt_or_ge id forest.next with inner | outer
  · exact inner
  · have nothing : forest.scopes[id]? = none := Array.getElem?_eq_none outer
    rw [enclosing?, nothing] at h
    cases h

theorem lt_next_of_get? {value : Value} (h : (forest.bindings id).get? name = some value) :
    id < forest.next := by
  rcases Nat.lt_or_ge id forest.next with inner | outer
  · exact inner
  · have nothing : forest.scopes[id]? = none := Array.getElem?_eq_none outer
    rw [bindings, nothing] at h
    cases h

/-- A value that is looked up at a distance is bound in the scope there. -/
theorem exists_of_getAt {distance : Int} {value : Value} (found : forest.getAt id distance name = .ok value) :
    ∃ outer, forest.ancestor id distance = .ok outer ∧ (forest.bindings outer).get? name = some value := by
  unfold getAt at found
  cases walk : forest.ancestor id distance with
  | error interruption =>
      rw [walk] at found
      cases found
  | ok outer =>
      rw [walk] at found
      simp only [bind, Except.bind] at found
      split at found
      · next value bound =>
        cases found
        exact ⟨outer, rfl, bound⟩
      · cases found

theorem ancestor_of_ancestor? {distance : Int} {outer : ScopeId}
    (walk : forest.ancestor? id distance.toNat = some outer) : forest.ancestor id distance = .ok outer := by
  rw [ancestor, walk]

theorem getAt_of_get? {distance : Int} {scope : ScopeId} {value : Value}
    (walk : forest.ancestor id distance = .ok scope)
    (found : (forest.bindings scope).get? name = some value) :
    forest.getAt id distance name = .ok value := by
  unfold getAt
  rw [walk]
  simp only [bind, Except.bind, found]
  rfl

theorem Holds.lt_next (h : forest.Holds id name) : id < forest.next := by
  obtain ⟨value, found⟩ := Bindings.contains_iff.mp h
  exact lt_next_of_get? found

theorem get?_define {value found : Value} {scope : ScopeId} {defined : String}
    (h : ((forest.define scope defined value).bindings id).get? name = some found) :
    found = value ∨ (forest.bindings id).get? name = some found := by
  rw [bindings_define] at h
  split at h
  · next same =>
    rw [Bindings.get?_set] at h
    split at h
    · cases h
      exact .inl rfl
    · rw [same.1]
      exact .inr h
  · exact .inr h

theorem holds_define (inside : id < forest.next) (name : String) (value : Value) :
    (forest.define id name value).Holds id name := by
  rw [Holds, bindings_define, if_pos ⟨rfl, inside⟩]
  exact (Bindings.contains_set _ _ _ _).mpr (.inl rfl)

/-- A name other than `super` may be defined anywhere. -/
theorem grows_define (forest : Forest) (scope : ScopeId) {defined : String}
    (notSuper : defined ≠ "super") (value : Value) :
    forest.Grows (forest.define scope defined value) where
  next := Nat.le_of_eq (next_define _ _ _ _).symm
  enclosing := fun id _ => enclosing?_define _ _ _ _ _
  holds := by
    intro id name held
    rw [Holds, bindings_define]
    split
    · next same =>
      rw [same.1] at held
      exact (Bindings.contains_set _ _ _ _).mpr (.inr held)
    · exact held
  holdsSuper := by
    intro id ⟨kind, held⟩
    refine ⟨kind, ?_⟩
    rw [bindings_define]
    split
    · next same =>
      rw [Bindings.get?_set, if_neg notSuper.symm, ← same.1]
      exact held
    · exact held

theorem bindings_add_of_lt (inside : id < forest.next) (enclosing : Option ScopeId)
    (bindings : Bindings Value) :
    (forest.add enclosing bindings).bindings id = forest.bindings id := by
  rw [bindings_add, if_neg (Nat.ne_of_lt inside)]

theorem grows_add (forest : Forest) (enclosing : Option ScopeId) (bindings : Bindings Value) :
    forest.Grows (forest.add enclosing bindings) where
  next := Nat.le_trans (Nat.le_succ _) (Nat.le_of_eq (next_add _ _ _).symm)
  enclosing := fun id inside => by rw [enclosing?_add, if_neg (Nat.ne_of_lt inside)]
  holds := by
    intro id name held
    rw [Holds, bindings_add_of_lt held.lt_next]
    exact held
  holdsSuper := by
    intro id ⟨kind, held⟩
    refine ⟨kind, ?_⟩
    rw [bindings_add_of_lt (lt_next_of_get? held)]
    exact held

end Forest

/-! ## Fields -/

namespace Store

theorem field?_congr {before after : Store} (same : after.fields = before.fields) (index : Nat) (name : String) :
    after.field? index name = before.field? index name := by
  rw [field?, field?, same]

/-- An instance that is new has no fields, as one that is not there. -/
theorem field?_addInstance (store : Store) (index : Nat) (name : String) :
    store.addInstance.field? index name = store.field? index name := by
  change (store.fields.push .empty)[index]? >>= (·.get? name) = store.fields[index]? >>= (·.get? name)
  rw [Array.getElem?_push]
  split
  · next last =>
    rw [last, Array.getElem?_eq_none (Nat.le_refl _)]
    rfl
  · rfl

end Store

end LoxLang
