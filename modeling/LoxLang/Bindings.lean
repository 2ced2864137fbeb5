/-!
Names and what they are bound to, in the order in which the names were first bound. Binding a name
again keeps its place.
-/

namespace LoxLang

structure Bindings (α : Type) where
  entries : List (String × α)
  deriving DecidableEq

namespace Bindings

variable {α : Type}

def empty : Bindings α :=
  ⟨[]⟩

def get? (bindings : Bindings α) (name : String) : Option α :=
  bindings.entries.lookup name

def contains (bindings : Bindings α) (name : String) : Bool :=
  (bindings.get? name).isSome

def setEntry (name : String) (value : α) : List (String × α) → List (String × α)
  | [] => [(name, value)]
  | (other, old) :: rest =>
      if other = name then (name, value) :: rest else (other, old) :: setEntry name value rest

def set (bindings : Bindings α) (name : String) (value : α) : Bindings α :=
  ⟨setEntry name value bindings.entries⟩

/-- The bindings made one after the other. -/
def ofList (entries : List (String × α)) : Bindings α :=
  entries.foldl (fun bindings (name, value) => bindings.set name value) empty

def names (bindings : Bindings α) : List String :=
  bindings.entries.map Prod.fst

theorem lookup_setEntry (name other : String) (value : α) (entries : List (String × α)) :
    (setEntry name value entries).lookup other =
      if other = name then some value else entries.lookup other := by
  induction entries with
  | nil =>
      by_cases h : other = name
      · simp [setEntry, h]
      · have hne : (other == name) = false := by simpa using h
        simp [setEntry, List.lookup_cons, hne, h]
  | cons head tail ih =>
      obtain ⟨first, old⟩ := head
      by_cases hf : first = name
      · subst hf
        by_cases h : other = first
        · simp [setEntry, h]
        · have hne : (other == first) = false := by simpa using h
          simp [setEntry, List.lookup_cons, hne, h]
      · by_cases h : other = first
        · subst h
          simp [setEntry, hf]
        · have hne : (other == first) = false := by simpa using h
          simp [setEntry, List.lookup_cons, hf, hne, ih]

@[simp] theorem get?_set (bindings : Bindings α) (name other : String) (value : α) :
    (bindings.set name value).get? other =
      if other = name then some value else bindings.get? other :=
  lookup_setEntry name other value bindings.entries

@[simp] theorem get?_empty (name : String) : (empty : Bindings α).get? name = none := rfl

theorem map_fst_setEntry (name : String) (value : α) (entries : List (String × α)) :
    (setEntry name value entries).map Prod.fst =
      if name ∈ entries.map Prod.fst then entries.map Prod.fst
      else entries.map Prod.fst ++ [name] := by
  induction entries with
  | nil => rfl
  | cons head tail ih =>
      obtain ⟨first, old⟩ := head
      by_cases hf : first = name
      · simp [setEntry, hf]
      · simp only [setEntry, hf, if_false, List.map_cons, ih, List.mem_cons]
        split <;> simp_all [eq_comm]

/-- A name keeps its place, and a new name comes last. -/
theorem names_set (bindings : Bindings α) (name : String) (value : α) :
    (bindings.set name value).names =
      if name ∈ bindings.names then bindings.names else bindings.names ++ [name] :=
  map_fst_setEntry name value bindings.entries

end Bindings

end LoxLang
