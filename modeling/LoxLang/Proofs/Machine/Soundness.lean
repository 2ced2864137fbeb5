import LoxLang.Machine.Step
import LoxLang.Proofs.Machine.Agreement

/-!
Sound values and stores. Every closure in reach belongs to a function that stands in one of the programs of
the session, and its scope agrees with the regions around that function.
-/

namespace LoxLang

open Scoping

/-- The places in the programs of a session. -/
def StandsIn (programs : List (List Stmt)) (place : Place) : Prop :=
  ∃ program ∈ programs, Stands program place

theorem StandsIn.part {programs : List (List Stmt)} {place inner : Place}
    (h : StandsIn programs place) (part : Part place inner) : StandsIn programs inner := by
  obtain ⟨program, member, stands⟩ := h
  exact ⟨program, member, stands.part part⟩

theorem StandsIn.mono {programs more : List (List Stmt)} {place : Place}
    (h : StandsIn programs place) (subset : programs ⊆ more) : StandsIn more place := by
  obtain ⟨program, member, stands⟩ := h
  exact ⟨program, subset member, stands⟩

variable (programs : List (List Stmt)) (forest : Forest)

/-! ## Values -/

/-- A function that can be called. -/
def Closure.Sound (closure : Closure) : Prop :=
  ∃ regions, StandsIn programs ⟨regions, .function closure.declaration⟩ ∧
    forest.Agrees closure.scope regions ∧
    (closure.isInitializer = true → forest.Holds closure.scope "this")

/-- A function that has to be bound to a receiver first. -/
def Closure.SoundMethod (closure : Closure) : Prop :=
  ∃ regions, StandsIn programs ⟨.inside .receiver regions, .function closure.declaration⟩ ∧
    forest.Agrees closure.scope regions

def ClassValue.Sound (kind : ClassValue) : Prop :=
  ∀ layer ∈ kind.layers, ∀ name closure, layer.methods.get? name = some closure →
    closure.SoundMethod programs forest

def Value.Sound : Value → Prop
  | .function closure => closure.Sound programs forest
  | .class kind => kind.Sound programs forest
  | .instance object => object.kind.Sound programs forest
  | _ => True

/-- A native that returns values of the session when it is given such. -/
def Native.Sound (native : Native) : Prop :=
  ∀ programs forest now arguments, (∀ argument ∈ arguments, argument.Sound programs forest) →
    (native.answer now arguments).Sound programs forest

/-! ## Stores -/

structure Store.Sound (store : Store) : Prop where
  root : store.forest.enclosing? Forest.globals = none
  inside : Forest.globals < store.forest.next
  values : ∀ id name value, (store.forest.bindings id).get? name = some value →
    value.Sound programs store.forest
  fields : ∀ index name value, store.field? index name = some value →
    value.Sound programs store.forest

variable {programs more : List (List Stmt)} {before after forest : Forest} {store : Store}

/-! ## Later stages -/

theorem Closure.Sound.later {closure : Closure} (h : closure.Sound programs before)
    (subset : programs ⊆ more) (grows : before.Grows after) : closure.Sound more after := by
  obtain ⟨regions, stands, agrees, this⟩ := h
  exact ⟨regions, stands.mono subset, agrees.grow grows, fun init => grows.holds _ _ (this init)⟩

theorem Closure.SoundMethod.later {closure : Closure} (h : closure.SoundMethod programs before)
    (subset : programs ⊆ more) (grows : before.Grows after) : closure.SoundMethod more after := by
  obtain ⟨regions, stands, agrees⟩ := h
  exact ⟨regions, stands.mono subset, agrees.grow grows⟩

theorem ClassValue.Sound.later {kind : ClassValue} (h : kind.Sound programs before)
    (subset : programs ⊆ more) (grows : before.Grows after) : kind.Sound more after := by
  intro layer member name closure found
  exact (h layer member name closure found).later subset grows

theorem Value.Sound.later {value : Value} (h : value.Sound programs before)
    (subset : programs ⊆ more) (grows : before.Grows after) : value.Sound more after := by
  cases value with
  | function closure => exact Closure.Sound.later h subset grows
  | «class» kind => exact ClassValue.Sound.later h subset grows
  | «instance» object => exact ClassValue.Sound.later h subset grows
  | _ => trivial

theorem Value.Sound.grow {value : Value} (h : value.Sound programs before)
    (grows : before.Grows after) : value.Sound programs after :=
  h.later (List.Subset.refl _) grows

theorem Store.Sound.mono (h : store.Sound programs) (subset : programs ⊆ more) :
    store.Sound more where
  root := h.root
  inside := h.inside
  values := fun id name value found => (h.values id name value found).later subset (.refl _)
  fields := fun index name value found => (h.fields index name value found).later subset (.refl _)

/-! ## Changes of the store -/

@[simp] theorem Store.forest_define (store : Store) (id : ScopeId) (name : String)
    (value : Value) : (store.define id name value).forest = store.forest.define id name value :=
  rfl

@[simp] theorem Store.forest_addScope (store : Store) (enclosing : ScopeId)
    (bindings : List (String × Value)) :
    (store.addScope enclosing bindings).forest =
      store.forest.add (some enclosing) (.ofList bindings) :=
  rfl

namespace Store.Sound

theorem define {id : ScopeId} {name : String} {value : Value} (h : store.Sound programs)
    (notSuper : name ≠ "super") (sound : value.Sound programs (store.forest.define id name value)) :
    (store.define id name value).Sound programs where
  root := by rw [forest_define, Forest.enclosing?_define, h.root]
  inside := by
    rw [forest_define, Forest.next_define]
    exact h.inside
  values := by
    intro scope other found hfound
    rcases Forest.get?_define hfound with same | old
    · rw [same]
      exact sound
    · exact (h.values scope other found old).grow (Forest.grows_define _ _ notSuper _)
  fields := fun index other found hfound =>
    (h.fields index other found hfound).grow (Forest.grows_define _ _ notSuper _)

theorem addScope {enclosing : ScopeId} {bindings : List (String × Value)}
    (h : store.Sound programs)
    (sound : ∀ entry ∈ bindings, entry.2.Sound programs store.forest) :
    (store.addScope enclosing bindings).Sound programs := by
  have grows := Forest.grows_add store.forest (some enclosing) (.ofList bindings)
  refine ⟨?_, Nat.lt_of_lt_of_le h.inside grows.next, ?_, ?_⟩
  · rw [forest_addScope, grows.enclosing _ h.inside, h.root]
  · intro id name value found
    rw [forest_addScope, Forest.bindings_add] at found
    split at found
    · exact (sound _ (Bindings.mem_of_get?_ofList found)).grow grows
    · exact (h.values id name value found).grow grows
  · exact fun index name value found => (h.fields index name value found).grow grows

theorem print {line : String} (h : store.Sound programs) : (store.print line).Sound programs :=
  ⟨h.root, h.inside, h.values, h.fields⟩

theorem takeStamps {count : Nat} (h : store.Sound programs) :
    (store.takeStamps count).Sound programs :=
  ⟨h.root, h.inside, h.values, h.fields⟩

theorem takePrinted (h : store.Sound programs) : store.takePrinted.2.Sound programs :=
  ⟨h.root, h.inside, h.values, h.fields⟩

theorem setField {index : Nat} {name : String} {value : Value} (h : store.Sound programs)
    (sound : value.Sound programs store.forest) :
    (store.setField index name value).Sound programs := by
  refine ⟨h.root, h.inside, h.values, fun other otherName found hfound => ?_⟩
  rw [field?_setField] at hfound
  split at hfound
  · cases hfound
    exact sound
  · exact h.fields other otherName found hfound

theorem addInstance (h : store.Sound programs) : store.addInstance.Sound programs := by
  refine ⟨h.root, h.inside, h.values, fun index name value found => h.fields index name value ?_⟩
  rwa [field?_addInstance] at found

end Store.Sound

end LoxLang
