import LoxLang.Proofs.Machine.Events
import LoxLang.Proofs.Store.Chains

/-!
How the links of a store come about. Each scope is made within one that is there, and each class on one that is there,
so all links lead to what was made earlier; and nothing that is made later changes them.
-/

namespace LoxLang

theorem Bindings.nodup_names_ofList {α : Type} (entries : List (String × α)) : (ofList entries).names.Nodup := by
  suffices ∀ bindings : Bindings α, bindings.names.Nodup →
      (entries.foldl (fun bindings entry => bindings.set entry.1 entry.2) bindings).names.Nodup from
    this .empty List.nodup_nil
  induction entries with
  | nil => exact fun _ nodup => nodup
  | cons entry entries ih => exact fun bindings nodup => ih _ (nodup_names_set nodup entry.1 entry.2)

/-! ## Scopes -/

theorem Forest.Ordered.addWithin {forest : Forest} (h : forest.Ordered) {enclosing : ScopeId}
    (inside : enclosing < forest.next) (entries : List (String × Value)) :
    (forest.add (some enclosing) (.ofList entries)).Ordered where
  earlier := by
    intro id outer link
    rw [enclosing?_add] at link
    split at link
    · next new =>
      cases link
      exact new ▸ inside
    · exact h.earlier id outer link
  nodup := by
    intro id
    rw [bindings_add]
    split
    · exact Bindings.nodup_names_ofList entries
    · exact h.nodup id

namespace Store

/-- A later store: names were bound, and scopes were made within those that were there. -/
inductive Unfolds (before : Store) : Store → Prop
  | refl : Unfolds before before
  | define {store : Store} (id : ScopeId) (name : String) (value : Value) :
      Unfolds before store → Unfolds before (store.define id name value)
  | addScope {store : Store} {enclosing : ScopeId} (entries : List (String × Value)) :
      Unfolds before store → enclosing < store.forest.next → Unfolds before (store.addScope enclosing entries)
  | keep {store later : Store} :
      Unfolds before store → later.forest = store.forest → store.stamp ≤ later.stamp → Unfolds before later

namespace Unfolds

variable {before middle store : Store}

theorem trans (first : before.Unfolds middle) (second : middle.Unfolds store) : before.Unfolds store := by
  induction second with
  | refl => exact first
  | define id name value _ ih => exact .define id name value ih
  | addScope entries _ inside ih => exact .addScope entries ih inside
  | keep _ same stamp ih => exact .keep ih same stamp

theorem takeStamps (h : before.Unfolds store) (count : Nat) : before.Unfolds (store.takeStamps count) :=
  h.keep rfl (Nat.le_add_right _ _)

theorem next (h : before.Unfolds store) : before.forest.next ≤ store.forest.next := by
  induction h with
  | refl => exact Nat.le_refl _
  | define id name value _ ih => exact ih.trans_eq (Forest.next_define _ _ _ _).symm
  | addScope entries _ _ ih => exact (Nat.le_succ_of_le ih).trans_eq (Forest.next_add _ _ _).symm
  | keep _ same _ ih => exact same ▸ ih

theorem stamp (h : before.Unfolds store) : before.stamp ≤ store.stamp := by
  induction h with
  | refl => exact Nat.le_refl _
  | define _ _ _ _ ih | addScope _ _ _ ih => exact ih
  | keep _ _ le ih => exact ih.trans le

/-- No link changes once it is there. -/
theorem enclosing (h : before.Unfolds store) {id : ScopeId} (inside : id < before.forest.next) :
    store.forest.enclosing? id = before.forest.enclosing? id := by
  induction h with
  | refl => rfl
  | define scope name value _ ih => exact (Forest.enclosing?_define _ _ _ _ _).trans ih
  | addScope entries earlier _ ih =>
      refine (Forest.enclosing?_add _ _ _ _).trans ?_
      rw [if_neg (Nat.ne_of_lt (inside.trans_le earlier.next))]
      exact ih
  | keep _ same _ ih => rw [same, ih]

theorem ordered (h : before.Unfolds store) (ordered : before.forest.Ordered) : store.forest.Ordered := by
  induction h with
  | refl => exact ordered
  | define id name value _ ih => exact ih.define id name value
  | addScope entries _ inside ih => exact ih.addWithin inside entries
  | keep _ same _ ih => rwa [same]

end Unfolds

end Store

/-! ## Classes -/

/-- Classes in the order in which they were made, last one first. The superclass of each was there already. -/
inductive Pedigree : List ClassValue → Prop
  | none : Pedigree []
  | made {kind : ClassValue} {kinds : List ClassValue} :
      (∀ older ∈ kinds, older.own.stamp < kind.own.stamp) →
      (∀ parent, kind.superclass? = some parent → parent ∈ kinds) → Pedigree kinds → Pedigree (kind :: kinds)

namespace Pedigree

variable {kinds : List ClassValue} {kind other parent : ClassValue}

theorem superclass (h : Pedigree kinds) (member : kind ∈ kinds) (link : kind.superclass? = some parent) :
    parent ∈ kinds ∧ parent.own.stamp < kind.own.stamp := by
  induction h with
  | none => cases member
  | made older parents _ ih =>
      rcases List.mem_cons.mp member with rfl | member
      · have inside := parents parent link
        exact ⟨List.mem_cons_of_mem _ inside, older parent inside⟩
      · obtain ⟨inside, earlier⟩ := ih member
        exact ⟨List.mem_cons_of_mem _ inside, earlier⟩

/-- A class is told from others by its stamp. -/
theorem unique (h : Pedigree kinds) (member : kind ∈ kinds) (another : other ∈ kinds)
    (same : other.own.stamp = kind.own.stamp) : other = kind := by
  induction h with
  | none => cases member
  | made older _ _ ih =>
      rcases List.mem_cons.mp member with rfl | inside
      · rcases List.mem_cons.mp another with rfl | behind
        · rfl
        · exact absurd same (Nat.ne_of_lt (older other behind))
      · rcases List.mem_cons.mp another with rfl | behind
        · exact absurd same.symm (Nat.ne_of_lt (older kind inside))
        · exact ih inside behind

theorem leads (h : Pedigree kinds) (member : kind ∈ kinds) : ∃ chain, kind.Leads chain := by
  obtain ⟨chain, links⟩ := kind.exists_chain
  refine ⟨chain, ClassValue.leads_of_chain links ?_⟩
  have below : (∀ above ∈ chain, above.own.stamp ≤ kind.own.stamp) ∧
      chain.Pairwise fun inner outer => outer.own.stamp < inner.own.stamp := by
    induction links with
    | last => exact ⟨List.forall_mem_singleton.mpr (Nat.le_refl _), List.pairwise_singleton _ _⟩
    | next link _ ih =>
        obtain ⟨inside, earlier⟩ := h.superclass member link
        obtain ⟨below, pairwise⟩ := ih inside
        have lower := fun above inside => (below above inside).trans_lt earlier
        exact ⟨List.forall_mem_cons.mpr ⟨Nat.le_refl _, fun above inside => (lower above inside).le⟩,
          .cons lower pairwise⟩
  exact below.2

end Pedigree

theorem Store.superclass?_classMade (store : Store) (scope : ScopeId) (name : Token)
    (superclass : Option ClassValue) (methods : List FunctionDecl) :
    (store.classMade scope name superclass methods).superclass? = superclass := by
  cases superclass <;> rfl

/-- The scopes and classes of a store are linked to earlier ones only, and all methods of the classes are to be run
in scopes that are there. -/
structure Store.Layered (kinds : List ClassValue) (store : Store) : Prop where
  ordered : store.forest.Ordered
  globals : Forest.globals < store.forest.next
  pedigree : Pedigree kinds
  below : ∀ kind ∈ kinds, kind.own.stamp < store.stamp
  methods : ∀ kind ∈ kinds, ∀ layer ∈ kind.layers, ∀ name method, layer.methods.get? name = some method →
    method.scope < store.forest.next

theorem Store.Layered.later {kinds : List ClassValue} {before store : Store} (h : before.Layered kinds)
    (unfolds : before.Unfolds store) : store.Layered kinds where
  ordered := unfolds.ordered h.ordered
  globals := h.globals.trans_le unfolds.next
  pedigree := h.pedigree
  below := fun kind member => (h.below kind member).trans_le unfolds.stamp
  methods := fun kind member layer inside name method found =>
    (h.methods kind member layer inside name method found).trans_le unfolds.next

end LoxLang
