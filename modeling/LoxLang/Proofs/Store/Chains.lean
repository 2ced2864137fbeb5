import LoxLang.Proofs.Store.Search

/-!
Chains of links. From a scope the links to the enclosing ones are followed, from a class those to its superclasses.
Where each link leads to what was made earlier a chain comes to its end, and whatever is looked for along
it is the first that is found in a finite list.
-/

namespace LoxLang

/-- What is come to when a link is followed as long as there is one. -/
inductive Chain {α : Type} (link : α → Option α) : α → List α → Prop
  | last {first : α} : link first = none → Chain link first [first]
  | next {first second : α} {rest : List α} :
      link first = some second → Chain link second rest → Chain link first (first :: rest)

variable {forest : Forest} {id : ScopeId} {scopes : List ScopeId} {kind : ClassValue} {kinds : List ClassValue}
  {name : String}

/-! ## Scopes -/

namespace Forest

theorem Ordered.chain (ordered : forest.Ordered) (id : ScopeId) : ∃ scopes, Chain forest.enclosing? id scopes := by
  induction id using Nat.strongRecOn with
  | ind id ih =>
      cases link : forest.enclosing? id with
      | none => exact ⟨[id], .last link⟩
      | some outer =>
          obtain ⟨rest, chain⟩ := ih outer (ordered.earlier id outer link)
          exact ⟨id :: rest, .next link chain⟩

theorem le_of_mem_chain (ordered : forest.Ordered) (chain : Chain forest.enclosing? id scopes) :
    ∀ scope ∈ scopes, scope ≤ id := by
  induction chain with
  | last => exact List.forall_mem_singleton.mpr (Nat.le_refl _)
  | next link _ ih =>
      have earlier := ordered.earlier _ _ link
      exact List.forall_mem_cons.mpr ⟨Nat.le_refl _, fun scope member => (ih scope member).trans earlier.le⟩

theorem pairwise_chain (ordered : forest.Ordered) (chain : Chain forest.enclosing? id scopes) :
    scopes.Pairwise (· > ·) := by
  induction chain with
  | last => exact List.pairwise_singleton _ _
  | next link chain ih =>
      have earlier := ordered.earlier _ _ link
      exact .cons (fun scope member => (le_of_mem_chain ordered chain scope member).trans_lt earlier) ih

theorem ancestor?_eq_getElem? (chain : Chain forest.enclosing? id scopes) (distance : Nat) :
    forest.ancestor? id distance = scopes[distance]? := by
  induction chain generalizing distance with
  | last link =>
      cases distance with
      | zero => rfl
      | succ distance => rw [ancestor?, link]; rfl
  | next link _ ih =>
      cases distance with
      | zero => rfl
      | succ distance =>
          rw [ancestor?, link]
          exact ih distance

/-- A search is never given up before the end of the chain. -/
theorem Ordered.holder?_eq_find? (ordered : forest.Ordered) (chain : Chain forest.enclosing? id scopes)
    (name : String) : forest.holder? name id = scopes.find? fun scope => (forest.bindings scope).contains name := by
  induction chain with
  | last link =>
      rw [holder?, link, List.find?_singleton]
  | next link _ ih =>
      rw [holder?, link, List.find?_cons]
      split
      · next held => rw [held]
      · next lacking =>
        rw [Bool.eq_false_of_not_eq_true lacking]
        simp only [if_pos (ordered.earlier _ _ link)]
        exact ih

/-- What comes of following the links from a scope. -/
structure Leads (forest : Forest) (id : ScopeId) (scopes : List ScopeId) : Prop where
  chain : Chain forest.enclosing? id scopes
  earlier : scopes.Pairwise (· > ·)
  ancestor : ∀ distance, forest.ancestor? id distance = scopes[distance]?
  search : ∀ name, forest.holder? name id = scopes.find? fun scope => (forest.bindings scope).contains name
  get : ∀ name, (∃ value, forest.get id name = .ok value) ∨ forest.get id name = .error (undefinedVariable name)
  assign : ∀ name value, (∃ changed, forest.assign id name value = .ok changed) ∨
    forest.assign id name value = .error (undefinedVariable name)

theorem Ordered.leads (ordered : forest.Ordered) (id : ScopeId) : ∃ scopes, forest.Leads id scopes := by
  obtain ⟨scopes, chain⟩ := ordered.chain id
  refine ⟨scopes, chain, pairwise_chain ordered chain, ancestor?_eq_getElem? chain,
    ordered.holder?_eq_find? chain, fun name => ?_, fun name value => ?_⟩
  all_goals cases found : forest.holder? name.lexeme id with
    | none => ?_
    | some holder => ?_
  · exact .inr (get_of_missing found)
  · obtain ⟨value, bound⟩ := Bindings.contains_iff.mp (holds_holder? found)
    exact .inl ⟨value, get_of_holder? found bound⟩
  · exact .inr (assign_of_missing found value)
  · exact .inl ⟨_, assign_of_holder? found value⟩

end Forest

/-! ## Classes -/

namespace ClassValue

theorem exists_chain (kind : ClassValue) : ∃ kinds, Chain superclass? kind kinds := by
  obtain ⟨own, above⟩ := kind
  induction above generalizing own with
  | nil => exact ⟨_, .last rfl⟩
  | cons next above ih =>
      obtain ⟨kinds, chain⟩ := ih next
      exact ⟨_, .next rfl chain⟩

theorem superclass?_eq_none (h : kind.superclass? = none) : kind.layers = [kind.own] := by
  obtain ⟨own, _ | ⟨next, above⟩⟩ := kind
  · rfl
  · cases h

theorem layers_of_superclass? {parent : ClassValue} (h : kind.superclass? = some parent) :
    kind.layers = kind.own :: parent.layers := by
  obtain ⟨own, _ | ⟨next, above⟩⟩ := kind
  · cases h
  · cases h
    rfl

theorem layers_eq_map (chain : Chain superclass? kind kinds) : kind.layers = kinds.map own := by
  induction chain with
  | last link => exact superclass?_eq_none link
  | next link _ ih => rw [layers_of_superclass? link, ih, List.map_cons]

/-- What comes of following the links from a class. -/
structure Leads (kind : ClassValue) (kinds : List ClassValue) : Prop where
  chain : Chain superclass? kind kinds
  earlier : kinds.Pairwise fun inner outer => outer.own.stamp < inner.own.stamp
  method : ∀ name, kind.method? name = kinds.findSome? (·.own.methods.get? name)
  arity : kind.arity = ((kinds.findSome? (·.own.methods.get? "init")).map Closure.arity).getD 0

theorem method?_eq_findSome? (chain : Chain superclass? kind kinds) (name : String) :
    kind.method? name = kinds.findSome? (·.own.methods.get? name) := by
  rw [method?, layers_eq_map chain, List.findSome?_map]
  rfl

theorem leads_of_chain (chain : Chain superclass? kind kinds)
    (earlier : kinds.Pairwise fun inner outer => outer.own.stamp < inner.own.stamp) : kind.Leads kinds where
  chain := chain
  earlier := earlier
  method := method?_eq_findSome? chain
  arity := by
    rw [ClassValue.arity, method?_eq_findSome? chain]
    cases kinds.findSome? (·.own.methods.get? "init") <;> rfl

end ClassValue

end LoxLang
