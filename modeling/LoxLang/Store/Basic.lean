import LoxLang.Store.Forest

/-!
The store: all that a running program changes.
-/

namespace LoxLang

structure Store where
  forest : Forest
  /-- The fields of each instance. -/
  fields : Array (Bindings Value)
  /-- The stamp of the next function or class. -/
  stamp : Nat
  printed : Array String

namespace Store

def initial : Store :=
  ⟨.single, #[], 0, #[]⟩

def define : Store → ScopeId → String → Value → Store
  | ⟨forest, fields, stamp, printed⟩, id, name, value =>
      ⟨forest.define id name value, fields, stamp, printed⟩

/-- Makes a scope inside another, with some names bound; it is the scope `store.forest.next`. -/
def addScope : Store → ScopeId → List (String × Value) → Store
  | ⟨forest, fields, stamp, printed⟩, enclosing, bindings =>
      ⟨forest.add (some enclosing) (.ofList bindings), fields, stamp, printed⟩

def print : Store → String → Store
  | ⟨forest, fields, stamp, printed⟩, line => ⟨forest, fields, stamp, printed.push line⟩

def takeStamps : Store → Nat → Store
  | ⟨forest, fields, stamp, printed⟩, count => ⟨forest, fields, stamp + count, printed⟩

/-- Makes an instance without fields; its index is `store.fields.size`. -/
def addInstance : Store → Store
  | ⟨forest, fields, stamp, printed⟩ => ⟨forest, fields.push .empty, stamp, printed⟩

def setField : Store → (index : Nat) → String → Value → Store
  | ⟨forest, fields, stamp, printed⟩, index, name, value =>
      ⟨forest, fields.modify index (·.set name value), stamp, printed⟩

def field? (store : Store) (index : Nat) (name : String) : Option Value :=
  store.fields[index]? >>= (·.get? name)

/-- A field that is set keeps its value until it is set again. -/
theorem field?_setField (store : Store) (index other : Nat) (name otherName : String)
    (value : Value) :
    (store.setField index name value).field? other otherName =
      if other = index ∧ index < store.fields.size ∧ otherName = name then some value
      else store.field? other otherName := by
  by_cases h : index = other
  · subst h
    by_cases hlt : index < store.fields.size
    · simp [field?, setField, hlt, Array.getElem_modify]
    · simp [field?, setField, hlt]
  · simp [field?, setField, Array.getElem?_modify, h, Ne.symm h]

/-- The lines printed since they were last taken, which are then no longer kept. -/
def takePrinted : Store → Array String × Store
  | ⟨forest, fields, stamp, printed⟩ => (printed, ⟨forest, fields, stamp, #[]⟩)

end Store

end LoxLang
