import LoxLang.Proofs.Store.Growth
import LoxLang.Value.Operation

/-!
Areas of a store. An area is made of scopes and of instances. A store is closed within an area if nothing in the area
leads out of it; whatever is found from within is then within, and what is changed is within as well.
-/

namespace LoxLang

structure Area where
  scopes : ScopeId → Prop
  /-- The instances, by their indices. -/
  instances : Nat → Prop

variable {area : Area}

/-! ## Values -/

def Closure.LiesIn (area : Area) (closure : Closure) : Prop :=
  area.scopes closure.scope

def ClassValue.LiesIn (area : Area) (kind : ClassValue) : Prop :=
  ∀ layer ∈ kind.layers, ∀ name method, layer.methods.get? name = some method → method.LiesIn area

structure Instance.LiesIn (area : Area) (object : Instance) : Prop where
  index : area.instances object.index
  kind : object.kind.LiesIn area

/-- A value that leads to nothing outside the area. -/
def Value.LiesIn (area : Area) : Value → Prop
  | .function closure => closure.LiesIn area
  | .class kind => kind.LiesIn area
  | .instance object => object.LiesIn area
  | _ => True

theorem ClassValue.LiesIn.method {kind : ClassValue} {name : String} {method : Closure}
    (h : kind.LiesIn area) (found : kind.method? name = some method) : method.LiesIn area := by
  obtain ⟨layer, member, held⟩ := List.exists_of_findSome?_eq_some found
  exact h layer member name method held

theorem Value.liesIn_ofConstant (value : Constant) : (ofConstant value).LiesIn area := by
  cases value <;> trivial

theorem Value.liesIn_onNumbers {operator : Token} {left right result : Value}
    {apply : Float → Float → Value} (plain : ∀ x y, (apply x y).LiesIn area)
    (h : onNumbers operator left right apply = .ok result) : result.LiesIn area := by
  unfold onNumbers at h
  split at h
  · cases h
    exact plain _ _
  · cases h

theorem Value.liesIn_applyBinary {operator : Token} {left right result : Value}
    (h : left.applyBinary operator right = .ok result) : result.LiesIn area := by
  unfold applyBinary at h
  split at h
  case h_1 | h_2 =>
    cases h
    trivial
  case h_8 =>
    unfold plus at h
    split at h
    · cases h
      trivial
    · cases h
      trivial
    · cases h
  case h_11 => cases h
  all_goals
    refine liesIn_onNumbers (fun _ _ => ?_) h
    trivial

theorem Value.liesIn_applyUnary {operator : Token} {right result : Value}
    (h : right.applyUnary operator = .ok result) : result.LiesIn area := by
  unfold applyUnary at h
  split at h
  · cases h
    trivial
  · split at h
    · cases h
      trivial
    · cases h
  · cases h

/-! ## Stores -/

namespace Store

/-- Nothing in the area leads out of it, and what is made later belongs to it. -/
structure Closed (area : Area) (store : Store) : Prop where
  globals : area.scopes Forest.globals
  newScopes : ∀ id, store.forest.next ≤ id → area.scopes id
  newInstances : ∀ index, store.fields.size ≤ index → area.instances index
  enclosing : ∀ id outer, area.scopes id → store.forest.enclosing? id = some outer →
    area.scopes outer
  values : ∀ id name value, area.scopes id → (store.forest.bindings id).get? name = some value →
    value.LiesIn area
  fields : ∀ index name value, area.instances index → store.field? index name = some value →
    value.LiesIn area

/-- Outside the area a store is as it was before. -/
structure Spares (area : Area) (before after : Store) : Prop where
  bindings : ∀ id, ¬ area.scopes id → after.forest.bindings id = before.forest.bindings id
  fields : ∀ index, ¬ area.instances index → after.fields[index]? = before.fields[index]?

/-- A store that has been changed within a closed area only. -/
structure Confined (area : Area) (before after : Store) : Prop where
  closed : after.Closed area
  spares : before.Spares area after

variable {before store : Store} {id : ScopeId} {name : String} {value : Value}

theorem Spares.refl (area : Area) (store : Store) : store.Spares area store :=
  ⟨fun _ _ => rfl, fun _ _ => rfl⟩

namespace Confined

theorem define (h : before.Confined area store) (inside : area.scopes id)
    (within : value.LiesIn area) (name : String) :
    before.Confined area (store.define id name value) where
  closed := {
    globals := h.closed.globals
    newScopes := fun other new => by
      change (store.forest.define _ _ _).next ≤ other at new
      rw [Forest.next_define] at new
      exact h.closed.newScopes other new
    newInstances := h.closed.newInstances
    enclosing := fun other outer member link => by
      change (store.forest.define _ _ _).enclosing? other = _ at link
      rw [Forest.enclosing?_define] at link
      exact h.closed.enclosing other outer member link
    values := fun other found value member held => by
      rcases Forest.get?_define held with same | old
      · rwa [same]
      · exact h.closed.values other found value member old
    fields := h.closed.fields }
  spares := {
    bindings := fun other outside => by
      change (store.forest.define _ _ _).bindings other = _
      have elsewhere : ¬ (other = id ∧ id < store.forest.next) := fun same =>
        outside (same.1 ▸ inside)
      rw [Forest.bindings_define, if_neg elsewhere]
      exact h.spares.bindings other outside
    fields := h.spares.fields }

theorem addScope (h : before.Confined area store) (inside : area.scopes id)
    {bindings : List (String × Value)} (within : ∀ entry ∈ bindings, entry.2.LiesIn area) :
    before.Confined area (store.addScope id bindings) where
  closed := {
    globals := h.closed.globals
    newScopes := fun other new => by
      change (store.forest.add _ _).next ≤ other at new
      rw [Forest.next_add] at new
      exact h.closed.newScopes other (Nat.le_of_succ_le new)
    newInstances := h.closed.newInstances
    enclosing := fun other outer member link => by
      change (store.forest.add _ _).enclosing? other = _ at link
      rw [Forest.enclosing?_add] at link
      split at link
      · cases link
        exact inside
      · exact h.closed.enclosing other outer member link
    values := fun other found value member held => by
      change ((store.forest.add _ _).bindings other).get? found = _ at held
      rw [Forest.bindings_add] at held
      split at held
      · exact within _ (Bindings.mem_of_get?_ofList held)
      · exact h.closed.values other found value member held
    fields := h.closed.fields }
  spares := {
    bindings := fun other outside => by
      have old : other ≠ store.forest.next := fun same =>
        outside (h.closed.newScopes other (Nat.le_of_eq same.symm))
      change (store.forest.add _ _).bindings other = _
      rw [Forest.bindings_add, if_neg old]
      exact h.spares.bindings other outside
    fields := h.spares.fields }

theorem addInstance (h : before.Confined area store) : before.Confined area store.addInstance where
  closed := {
    globals := h.closed.globals
    newScopes := h.closed.newScopes
    newInstances := fun index new => by
      change (store.fields.push _).size ≤ index at new
      rw [Array.size_push] at new
      exact h.closed.newInstances index (Nat.le_of_succ_le new)
    enclosing := h.closed.enclosing
    values := h.closed.values
    fields := fun index name value member held => by
      rw [field?_addInstance] at held
      exact h.closed.fields index name value member held }
  spares := {
    bindings := h.spares.bindings
    fields := fun index outside => by
      have old : index ≠ store.fields.size := fun same =>
        outside (h.closed.newInstances index (Nat.le_of_eq same.symm))
      change (store.fields.push _)[index]? = _
      rw [Array.getElem?_push, if_neg old]
      exact h.spares.fields index outside }

theorem setField (h : before.Confined area store) {index : Nat} (inside : area.instances index)
    (within : value.LiesIn area) (name : String) :
    before.Confined area (store.setField index name value) where
  closed := {
    globals := h.closed.globals
    newScopes := h.closed.newScopes
    newInstances := fun other new => by
      change (store.fields.modify _ _).size ≤ other at new
      rw [Array.size_modify] at new
      exact h.closed.newInstances other new
    enclosing := h.closed.enclosing
    values := h.closed.values
    fields := fun other found value member held => by
      rw [field?_setField] at held
      split at held
      · cases held
        exact within
      · exact h.closed.fields other found value member held }
  spares := {
    bindings := h.spares.bindings
    fields := fun other outside => by
      have elsewhere : index ≠ other := fun same => outside (same ▸ inside)
      change (store.fields.modify _ _)[other]? = _
      rw [Array.getElem?_modify, if_neg elsewhere]
      exact h.spares.fields other outside }

theorem print (h : before.Confined area store) (line : String) :
    before.Confined area (store.print line) :=
  ⟨⟨h.closed.1, h.closed.2, h.closed.3, h.closed.4, h.closed.5, h.closed.6⟩,
    ⟨h.spares.1, h.spares.2⟩⟩

theorem takeStamps (h : before.Confined area store) (count : Nat) :
    before.Confined area (store.takeStamps count) :=
  ⟨⟨h.closed.1, h.closed.2, h.closed.3, h.closed.4, h.closed.5, h.closed.6⟩,
    ⟨h.spares.1, h.spares.2⟩⟩

end Confined

/-! ## What is found -/

namespace Closed

theorem ancestor? (h : store.Closed area) {distance : Nat} {outer : ScopeId}
    (inside : area.scopes id) (walk : store.forest.ancestor? id distance = some outer) :
    area.scopes outer := by
  induction distance generalizing id with
  | zero =>
      cases walk
      exact inside
  | succ distance ih =>
      rw [Forest.ancestor?] at walk
      split at walk
      · cases walk
      · next link => exact ih (h.enclosing _ _ inside link) walk

theorem ancestor (h : store.Closed area) {distance : Int} {outer : ScopeId}
    (inside : area.scopes id) (walk : store.forest.ancestor id distance = .ok outer) :
    area.scopes outer := by
  unfold Forest.ancestor at walk
  split at walk
  · next found =>
    cases walk
    exact h.ancestor? inside found
  · cases walk

theorem holder? (h : store.Closed area) {holder : ScopeId} (inside : area.scopes id)
    (found : store.forest.holder? name id = some holder) : area.scopes holder := by
  induction id using Nat.strongRecOn with
  | ind id ih =>
      rw [Forest.holder?] at found
      split at found
      · cases found
        exact inside
      · split at found
        · cases found
        · next outer link =>
          split at found
          · next smaller => exact ih outer smaller (h.enclosing _ _ inside link) found
          · cases found

theorem getAt (h : store.Closed area) {distance : Int} (inside : area.scopes id)
    (found : store.forest.getAt id distance name = .ok value) : value.LiesIn area := by
  obtain ⟨outer, walk, held⟩ := Forest.exists_of_getAt found
  exact h.values outer name _ (h.ancestor inside walk) held

theorem find (h : store.Closed area) {token : Token} {holder : ScopeId} (inside : area.scopes id)
    (found : store.forest.find id token = .ok holder) : area.scopes holder := by
  unfold Forest.find at found
  split at found
  · next held =>
    cases found
    exact h.holder? inside held
  · cases found

theorem get (h : store.Closed area) {token : Token} (inside : area.scopes id)
    (found : store.forest.get id token = .ok value) : value.LiesIn area := by
  unfold Forest.get at found
  cases holder : store.forest.find id token with
  | error _ =>
      rw [holder] at found
      cases found
  | ok outer =>
      rw [holder] at found
      simp only [Bind.bind, Except.bind] at found
      split at found
      · next held =>
        cases found
        exact h.values outer _ _ (h.find inside holder) held
      · cases found

theorem findAt (h : store.Closed area) {distance : Int} {token : Token} {holder : ScopeId}
    (inside : area.scopes id) (found : store.forest.findAt id distance token = .ok holder) :
    area.scopes holder := by
  unfold Forest.findAt at found
  cases walk : store.forest.ancestor id distance with
  | error _ =>
      rw [walk] at found
      cases found
  | ok outer =>
      rw [walk] at found
      change (if (store.forest.bindings outer).contains token.lexeme = true then Except.ok outer
        else .error (Forest.undefinedVariable token)) = _ at found
      split at found
      · cases found
        exact h.ancestor inside walk
      · cases found

end Closed

end Store

end LoxLang
