import LoxLang.Proofs.Scoping.Regions
import LoxLang.Proofs.Store.Growth

/-!
Scopes of a running program against the regions of its text. A scope agrees with the regions around a place
if its chain of enclosing scopes has one scope for each local region, in the same order, and then the
globals, and each scope holds the names that its region holds.
-/

namespace LoxLang.Forest

open Scoping

variable {forest before after : Forest} {id enclosing : ScopeId} {region : Region}
  {regions outer : Regions} {name : String} {hops : Nat}

def Carries (forest : Forest) (id : ScopeId) (region : Region) : Prop :=
  match region with
  | .block names => ∀ name ∈ names.held, forest.Holds id name
  | .receiver => forest.Holds id "this"
  | .superclass => forest.HoldsSuper id

inductive Agrees (forest : Forest) : ScopeId → Regions → Prop
  | global {names : Names} :
      forest.enclosing? globals = none → globals < forest.next →
      (∀ name ∈ names.held, forest.Holds globals name) → Agrees forest globals (.global names)
  | inside {id enclosing : ScopeId} {region : Region} {outer : Regions} :
      forest.enclosing? id = some enclosing → forest.Carries id region →
      Agrees forest enclosing outer → Agrees forest id (.inside region outer)

/-! ## Growth -/

theorem HoldsSuper.holds (h : forest.HoldsSuper id) : forest.Holds id "super" := by
  obtain ⟨kind, found⟩ := h
  exact Bindings.contains_iff.mpr ⟨_, found⟩

theorem Carries.grow (h : before.Carries id region) (grows : before.Grows after) :
    after.Carries id region := by
  cases region with
  | block names => exact fun name held => grows.holds id name (h name held)
  | receiver => exact grows.holds id "this" h
  | superclass => exact grows.holdsSuper id h

theorem Agrees.lt_next (h : forest.Agrees id regions) : id < forest.next := by
  cases h with
  | global _ inside _ => exact inside
  | inside link _ _ => exact lt_next_of_enclosing? link

theorem Agrees.grow (h : before.Agrees id regions) (grows : before.Grows after) :
    after.Agrees id regions := by
  induction h with
  | global root inside held =>
      refine .global ?_ (Nat.lt_of_lt_of_le inside grows.next) ?_
      · rw [grows.enclosing globals inside]
        exact root
      · exact fun name member => grows.holds globals name (held name member)
  | inside link carries _ ih =>
      refine .inside ?_ (carries.grow grows) ih
      rw [grows.enclosing _ (lt_next_of_enclosing? link)]
      exact link

/-! ## Declarations -/

theorem Agrees.hold (h : forest.Agrees id regions) (held : forest.Holds id name) :
    forest.Agrees id (regions.hold name) := by
  cases h with
  | global root inside names =>
      refine .global root inside fun other member => ?_
      rcases List.mem_cons.mp member with rfl | member
      · exact held
      · exact names other member
  | @inside _ _ region outer link carries rest =>
      cases region with
      | block names =>
          refine .inside link (fun other member => ?_) rest
          rcases List.mem_cons.mp member with rfl | member
          · exact held
          · exact carries other member
      | receiver => exact .inside link carries rest
      | superclass => exact .inside link carries rest

/-- A declaration that has begun binds nothing yet. -/
theorem agrees_begin : forest.Agrees id (regions.begin name) ↔ forest.Agrees id regions := by
  cases regions with
  | global names =>
      constructor
      · intro h
        cases h with
        | global root inside held => exact .global root inside held
      · intro h
        cases h with
        | global root inside held => exact .global root inside held
  | inside region outer =>
      cases region with
      | block names =>
          constructor
          · intro h
            cases h with
            | inside link carries rest => exact .inside link carries rest
          · intro h
            cases h with
            | inside link carries rest => exact .inside link carries rest
      | receiver => exact Iff.rfl
      | superclass => exact Iff.rfl

theorem Agrees.define (h : forest.Agrees id regions) (notSuper : name ≠ "super")
    (value : Value) : (forest.define id name value).Agrees id (regions.hold name) :=
  (h.grow (grows_define forest id notSuper value)).hold (holds_define h.lt_next name value)

theorem Agrees.add {bindings : Bindings Value} (h : forest.Agrees enclosing outer)
    (carries : (forest.add (some enclosing) bindings).Carries forest.next region) :
    (forest.add (some enclosing) bindings).Agrees forest.next (.inside region outer) := by
  refine .inside ?_ carries (h.grow (grows_add forest _ _))
  rw [enclosing?_add, if_pos rfl]

theorem holds_add {bindings : Bindings Value} (h : bindings.contains name = true)
    (enclosing : Option ScopeId) : (forest.add enclosing bindings).Holds forest.next name := by
  rw [Holds, bindings_add, if_pos rfl]
  exact h

/-! ## Lookup -/

theorem Carries.holds (h : forest.Carries id region) (held : region.Holds name) :
    forest.Holds id name := by
  cases region with
  | block names => exact h name held
  | receiver =>
      cases held
      exact h
  | superclass =>
      cases held
      exact HoldsSuper.holds h

theorem Agrees.ancestor (h : forest.Agrees id regions) (found : regions.at? hops = some region) :
    ∃ scope, forest.ancestor id hops = .ok scope ∧ forest.Carries scope region := by
  have walk : ∃ scope, forest.ancestor? id hops = some scope ∧ forest.Carries scope region := by
    induction h generalizing hops with
    | global _ _ _ => cases found
    | inside link carries _ ih =>
        cases hops with
        | zero =>
            cases found
            exact ⟨_, rfl, carries⟩
        | succ hops =>
            obtain ⟨scope, hscope, hcarries⟩ := ih found
            refine ⟨scope, ?_, hcarries⟩
            rw [ancestor?, link]
            exact hscope
  obtain ⟨scope, hscope, hcarries⟩ := walk
  refine ⟨scope, ?_, hcarries⟩
  rw [Forest.ancestor, Int.toNat_natCast, hscope]

theorem Agrees.getAt (h : forest.Agrees id regions) (found : regions.at? hops = some region)
    (held : region.Holds name) :
    ∃ scope value, forest.getAt id hops name = .ok value ∧
      (forest.bindings scope).get? name = some value := by
  obtain ⟨scope, walk, carries⟩ := h.ancestor found
  obtain ⟨value, hvalue⟩ := Bindings.contains_iff.mp (carries.holds held)
  exact ⟨scope, value, getAt_of_get? walk hvalue, hvalue⟩

end LoxLang.Forest
