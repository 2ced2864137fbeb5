import LoxLang.Bindings
import Mathlib.Data.List.Nodup

/-!
What bindings that are made one after the other hold.
-/

namespace LoxLang.Bindings

variable {α : Type} {name other : String} {value : α} {entries : List (String × α)}

theorem contains_iff {bindings : Bindings α} :
    bindings.contains name = true ↔ ∃ value, bindings.get? name = some value := by
  rw [contains, Option.isSome_iff_exists]

theorem contains_set (bindings : Bindings α) (name other : String) (value : α) :
    (bindings.set name value).contains other = true ↔
      other = name ∨ bindings.contains other = true := by
  rw [contains, contains, get?_set]
  by_cases h : other = name
  · simp [h]
  · simp [h]

theorem mem_or_of_get?_foldl {bindings : Bindings α}
    (h : (entries.foldl (fun bindings (name, value) => bindings.set name value) bindings).get? name =
      some value) : (name, value) ∈ entries ∨ bindings.get? name = some value := by
  induction entries generalizing bindings with
  | nil => exact .inr h
  | cons entry entries ih =>
      obtain ⟨first, new⟩ := entry
      rcases ih h with member | found
      · exact .inl (List.mem_cons_of_mem _ member)
      · rw [get?_set] at found
        by_cases same : name = first
        · rw [if_pos same] at found
          cases found
          rw [same]
          exact .inl List.mem_cons_self
        · rw [if_neg same] at found
          exact .inr found

theorem mem_of_get?_ofList (h : (ofList entries).get? name = some value) :
    (name, value) ∈ entries := by
  rcases mem_or_of_get?_foldl h with member | found
  · exact member
  · cases found

theorem contains_foldl {bindings : Bindings α}
    (h : name ∈ entries.map Prod.fst ∨ bindings.contains name = true) :
    (entries.foldl (fun bindings (name, value) => bindings.set name value) bindings).contains
      name = true := by
  induction entries generalizing bindings with
  | nil =>
      rcases h with absurd | held
      · cases absurd
      · exact held
  | cons entry entries ih =>
      apply ih
      rcases h with member | held
      · rcases List.mem_cons.mp member with rfl | member
        · exact .inr ((contains_set _ _ _ _).mpr (.inl rfl))
        · exact .inl member
      · exact .inr ((contains_set _ _ _ _).mpr (.inr held))

theorem contains_ofList (h : name ∈ entries.map Prod.fst) : (ofList entries).contains name = true :=
  contains_foldl (.inl h)

/-! ## Entries -/

theorem contains_iff_mem_names {bindings : Bindings α} :
    bindings.contains name = true ↔ name ∈ bindings.names := by
  rw [contains_iff, names, List.mem_map]
  constructor
  · rintro ⟨value, found⟩
    obtain ⟨front, back, same, -⟩ := List.lookup_eq_some_iff.mp found
    exact ⟨(name, value), same ▸ List.mem_append_right _ List.mem_cons_self, rfl⟩
  · rintro ⟨⟨_, value⟩, member, rfl⟩
    apply Option.isSome_iff_exists.mp
    rw [← Option.ne_none_iff_isSome, get?, ne_eq, List.lookup_eq_none_iff]
    exact fun none => by simpa using none _ member

theorem nodup_names_set {bindings : Bindings α} (nodup : bindings.names.Nodup) (name : String) (value : α) :
    (bindings.set name value).names.Nodup := by
  rw [names_set]
  split
  · exact nodup
  · next outside =>
    exact nodup.append (List.nodup_singleton name) (List.disjoint_singleton.mpr outside)

theorem setEntry_append {front back : List (String × α)} {old : α} (outside : name ∉ front.map Prod.fst)
    (value : α) : setEntry name value (front ++ (name, old) :: back) = front ++ (name, value) :: back := by
  induction front with
  | nil => simp [setEntry]
  | cons entry front ih =>
      obtain ⟨first, kept⟩ := entry
      obtain ⟨different, outside⟩ := not_or.mp (mt List.mem_cons.mpr outside)
      simp only [List.cons_append, setEntry, if_neg (Ne.symm different), ih outside]

theorem setEntry_of_notMem (outside : name ∉ entries.map Prod.fst) (value : α) :
    setEntry name value entries = entries ++ [(name, value)] := by
  induction entries with
  | nil => rfl
  | cons entry entries ih =>
      obtain ⟨first, kept⟩ := entry
      obtain ⟨different, outside⟩ := not_or.mp (mt List.mem_cons.mpr outside)
      simp only [List.cons_append, setEntry, if_neg (Ne.symm different), ih outside]

/-- One entry has another value, and nothing else is different. -/
def Replaces (name : String) (value : α) (before after : Bindings α) : Prop :=
  ∃ front old back, before.entries = front ++ (name, old) :: back ∧
    after.entries = front ++ (name, value) :: back ∧ name ∉ (front ++ back).map Prod.fst

theorem replaces_set {bindings : Bindings α} (nodup : bindings.names.Nodup)
    (held : bindings.contains name = true) (value : α) :
    Replaces name value bindings (bindings.set name value) := by
  obtain ⟨entry, member, rfl⟩ := List.mem_map.mp (contains_iff_mem_names.mp held)
  obtain ⟨front, back, same⟩ := List.append_of_mem member
  obtain ⟨name, old⟩ := entry
  rw [names, same, List.map_append, List.map_cons] at nodup
  have outside : name ∉ front.map Prod.fst ++ back.map Prod.fst :=
    (List.nodup_middle.mp nodup).notMem
  refine ⟨front, old, back, same, ?_, by rwa [List.map_append]⟩
  have first : name ∉ front.map Prod.fst := fun inside => outside (List.mem_append_left _ inside)
  exact (congrArg _ same).trans (setEntry_append first value)

end LoxLang.Bindings
