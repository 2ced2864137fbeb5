import LoxLang.Machine.Step
import LoxLang.Proofs.Variation.Values

/-!
Variations of stores under lookup and change.
-/

namespace LoxLang

open Scoping

variable {r : Respelling} {outline : Outline} {before : Array String} {store other : Store}
  {scope : ScopeId} {levels : Levels}

/-! ## Interruptions -/

inductive Fault.Varies (r : Respelling) : Fault → Fault → Prop
  | same {fault : Fault} : Varies r fault fault
  | notDefinedThere {level : Bool} {name : String} {distance : Int} :
      (level = true → name ≠ r.new) →
      Varies r (.notDefinedThere name distance) (.notDefinedThere (r.spell level name) distance)

/-- The error may name a variable in the other spelling. -/
inductive Interruption.Varies (r : Respelling) : Interruption → Interruption → Prop
  | located {level : Bool} {token token' : Token} {cause : RuntimeError.Cause} :
      r.named level token token' → Varies r (.located token cause) (.located token' cause)
  | undefinedVariable {level : Bool} {token token' : Token} :
      r.named level token token' →
      Varies r (Forest.undefinedVariable token) (Forest.undefinedVariable token')
  | stackOverflow : Varies r .stackOverflow .stackOverflow
  | fault {fault fault' : Fault} : fault.Varies r fault' → Varies r (.fault fault) (.fault fault')

/-- Both results are related, or both are interruptions. -/
inductive ResultsVary {α β : Type} (r : Respelling) (related : α → β → Prop) :
    Except Interruption α → Except Interruption β → Prop
  | ok {result : α} {result' : β} :
      related result result' → ResultsVary r related (.ok result) (.ok result')
  | error {interruption interruption' : Interruption} :
      interruption.Varies r interruption' →
      ResultsVary r related (.error interruption) (.error interruption')

theorem ResultsVary.bind {α β γ δ : Type} {related : α → β → Prop} {further : γ → δ → Prop}
    {result : Except Interruption α} {result' : Except Interruption β}
    {next : α → Except Interruption γ} {next' : β → Except Interruption δ}
    (h : ResultsVary r related result result')
    (rest : ∀ value value', related value value' → ResultsVary r further (next value) (next' value')) :
    ResultsVary r further (result >>= next) (result' >>= next') := by
  cases h with
  | ok values => exact rest _ _ values
  | error interruption => exact .error interruption

/-! ## Globals -/

namespace Forest

theorem find_globals (forest : Forest) (name : Token) :
    forest.find Forest.globals name =
      if (forest.bindings Forest.globals).contains name.lexeme then .ok Forest.globals
      else .error (undefinedVariable name) := by
  have outermost : forest.holder? name.lexeme Forest.globals =
      if (forest.bindings Forest.globals).contains name.lexeme then some Forest.globals
      else none := by
    rw [holder?]
    split
    · rfl
    · cases forest.enclosing? Forest.globals with
      | none => rfl
      | some outer => exact if_neg (Nat.not_lt_zero outer)
  rw [find, outermost]
  cases (forest.bindings globals).contains name.lexeme <;> rfl

theorem get_globals (forest : Forest) (name : Token) :
    forest.get Forest.globals name =
      match (forest.bindings Forest.globals).get? name.lexeme with
      | some value => .ok value
      | none => .error (undefinedVariable name) := by
  rw [get, find_globals, Bindings.contains]
  cases found : (forest.bindings Forest.globals).get? name.lexeme with
  | none => rfl
  | some value =>
      change (match (forest.bindings Forest.globals).get? name.lexeme with
        | some value => _
        | none => _) = _
      rw [found]
      rfl

end Forest

/-! ## Scopes -/

namespace Store.Varies

theorem enclosing (h : store.Varies r outline before other) (id : ScopeId) :
    other.forest.enclosing? id = store.forest.enclosing? id := by
  rw [h.link, h.link']

theorem ancestor? (h : store.Varies r outline before other) (scope : ScopeId) (distance : Nat) :
    other.forest.ancestor? scope distance = store.forest.ancestor? scope distance := by
  induction distance generalizing scope with
  | zero => rfl
  | succ distance ih =>
      rw [Forest.ancestor?, Forest.ancestor?, h.enclosing]
      cases store.forest.enclosing? scope with
      | none => rfl
      | some outer => exact ih outer

/-- The scope at a distance has the level at that distance. -/
theorem level_ancestor? (h : store.Varies r outline before other)
    (leads : outline.Leads scope levels) {distance : Nat} {id : ScopeId}
    (walk : store.forest.ancestor? scope distance = some id) :
    outline.level id = levels[distance]?.getD false := by
  induction distance generalizing scope levels with
  | zero =>
      cases walk
      rw [leads.level_eq]
      cases leads with
      | root _ | inner _ _ => rfl
  | succ distance ih =>
      rw [Forest.ancestor?, h.link] at walk
      cases leads with
      | root found =>
          rw [found] at walk
          cases walk
      | inner found rest =>
          rw [found] at walk
          exact ih rest walk

theorem ancestor (h : store.Varies r outline before other) (leads : outline.Leads scope levels)
    (distance : Int) :
    ResultsVary r (fun id id' => id' = id ∧ outline.level id = levels[distance.toNat]?.getD false)
      (store.forest.ancestor scope distance) (other.forest.ancestor scope distance) := by
  rw [Forest.ancestor, Forest.ancestor, h.ancestor?]
  cases walk : store.forest.ancestor? scope distance.toNat with
  | none => exact .error (.fault .same)
  | some id => exact .ok ⟨rfl, h.level_ancestor? leads walk⟩

theorem level_globals (h : store.Varies r outline before other) :
    outline.level Forest.globals = false := by
  rw [Outline.level, h.root]

theorem leads_globals (h : store.Varies r outline before other) :
    outline.Leads Forest.globals [false] :=
  .root h.root

/-! ## Lookup -/

theorem getAt (h : store.Varies r outline before other) (leads : outline.Leads scope levels)
    (distance : Int) {name : String}
    (fresh : levels[distance.toNat]?.getD false = true → name ≠ r.new) :
    ResultsVary r (Value.Varies r outline) (store.forest.getAt scope distance name)
      (other.forest.getAt scope distance
        (r.spell (levels[distance.toNat]?.getD false) name)) := by
  refine (h.ancestor leads distance).bind ?_
  rintro holder holder' ⟨same, level⟩
  subst same
  have found := (h.bindings holder').get? (r.spell_injective _) name
  rw [level] at found
  change ResultsVary r _ (match (store.forest.bindings holder').get? name with
    | some value => _
    | none => _) (match (other.forest.bindings holder').get? _ with
    | some value => _
    | none => _)
  generalize (store.forest.bindings holder').get? name = value at found ⊢
  generalize (other.forest.bindings holder').get? _ = value' at found ⊢
  cases found with
  | some values => exact .ok values
  | none => exact .error (.fault (.notDefinedThere fresh))

theorem lookup (h : store.Varies r outline before other) (leads : outline.Leads scope levels)
    {use use' : NameUse} (uses : use.Varies r.variation levels use') :
    ResultsVary r (Value.Varies r outline) (Machine.lookup store.forest scope use)
      (Machine.lookup other.forest scope use') := by
  obtain ⟨name, hops⟩ := use
  obtain ⟨name', hops'⟩ := use'
  obtain ⟨same, named⟩ := uses
  change hops' = hops at same
  subst same
  have spelling := Respelling.lexeme_of_named named
  cases hops' with
  | some hops =>
      have found := h.getAt leads hops (Respelling.ne_new_of_named named)
      change name'.lexeme = r.spell (levels[hops]?.getD false) name.lexeme at spelling
      rw [Int.toNat_natCast, ← spelling] at found
      exact found
  | none =>
      change name'.lexeme = name.lexeme at spelling
      have bindings := h.bindings Forest.globals
      rw [h.level_globals] at bindings
      have found := bindings.get? (r.spell_injective _) name.lexeme
      change Option.Rel _ _ ((other.forest.bindings Forest.globals).get? name.lexeme) at found
      rw [Machine.lookup, Machine.lookup]
      change ResultsVary r _ (store.forest.get _ name) (other.forest.get _ name')
      rw [Forest.get_globals, Forest.get_globals, spelling]
      generalize (store.forest.bindings Forest.globals).get? name.lexeme = value at found ⊢
      generalize (other.forest.bindings Forest.globals).get? name.lexeme = value' at found ⊢
      cases found with
      | some values => exact .ok values
      | none => exact .error (.undefinedVariable named)

/-- An assignment changes the same scope, under the name as it is spelled there. -/
theorem target (h : store.Varies r outline before other) (leads : outline.Leads scope levels)
    {use use' : NameUse} (uses : use.Varies r.variation levels use') :
    ResultsVary r
      (fun id id' => id' = id ∧ use'.name.lexeme = r.spell (outline.level id) use.name.lexeme)
      (Machine.target store.forest scope use) (Machine.target other.forest scope use') := by
  obtain ⟨name, hops⟩ := use
  obtain ⟨name', hops'⟩ := use'
  obtain ⟨same, named⟩ := uses
  change hops' = hops at same
  subst same
  have spelling := Respelling.lexeme_of_named named
  cases hops' with
  | some hops =>
      change name'.lexeme = r.spell (levels[hops]?.getD false) name.lexeme at spelling
      refine (h.ancestor leads hops).bind ?_
      rintro holder holder' ⟨same, level⟩
      subst same
      rw [Int.toNat_natCast] at level
      have contains := (h.bindings holder').contains (r.spell_injective _) name.lexeme
      rw [level, ← spelling] at contains
      change ResultsVary r _ (if (store.forest.bindings holder').contains name.lexeme = true then _ else _)
        (if (other.forest.bindings holder').contains name'.lexeme = true then _ else _)
      rw [contains]
      split
      · exact .ok ⟨rfl, by rw [level]; exact spelling⟩
      · exact .error (.undefinedVariable named)
  | none =>
      change name'.lexeme = name.lexeme at spelling
      have contains := (h.bindings Forest.globals).contains (r.spell_injective _) name.lexeme
      rw [h.level_globals] at contains
      change (other.forest.bindings Forest.globals).contains name.lexeme = _ at contains
      rw [Machine.target, Machine.target]
      change ResultsVary r _ (store.forest.find _ name) (other.forest.find _ name')
      rw [Forest.find_globals, Forest.find_globals, spelling, contains]
      split
      · exact .ok ⟨rfl, by rw [h.level_globals]; rfl⟩
      · exact .error (.undefinedVariable named)

theorem superReceiver (h : store.Varies r outline before other)
    (leads : outline.Leads scope levels) {keyword keyword' : NameUse}
    (uses : keyword.Varies r.variation levels keyword') :
    ResultsVary r (fun found found' => found.1.Varies r outline found'.1 ∧
        found.2.Varies r outline found'.2)
      (Machine.superReceiver store.forest scope keyword)
      (Machine.superReceiver other.forest scope keyword') := by
  unfold Machine.superReceiver
  rw [uses.hops]
  cases keyword.hops with
  | none => exact .error (.fault .same)
  | some hops =>
      have first := h.getAt leads hops fun _ => r.new_ne_super.symm
      have second := h.getAt leads ((hops : Int) - 1) fun _ => r.new_ne_this.symm
      rw [Respelling.spell_super] at first
      rw [Respelling.spell_this] at second
      refine first.bind fun kind kind' kinds => second.bind fun receiver receiver' receivers => ?_
      cases kinds with
      | «class» kinds => exact .ok ⟨kinds, receivers⟩
      | _ => exact .error (.fault .same)

theorem field? (h : store.Varies r outline before other) (index : Nat) (name : String) :
    Option.Rel (Value.Varies r outline) (store.field? index name) (other.field? index name) :=
  rel_field? h.fields index name

/-! ## Changes -/

theorem define (h : store.Varies r outline before other) (id : ScopeId) {name name' : String}
    (spelling : name' = r.spell (outline.level id) name) {value value' : Value}
    (values : value.Varies r outline value') :
    (store.define id name value).Varies r outline before (other.define id name' value') where
  root := h.root
  next := (Forest.next_define _ _ _ _).trans h.next
  next' := (Forest.next_define _ _ _ _).trans h.next'
  link := fun scope => (Forest.enclosing?_define _ _ _ _ _).trans (h.link scope)
  link' := fun scope => (Forest.enclosing?_define _ _ _ _ _).trans (h.link' scope)
  bindings := by
    intro scope
    have there : id < other.forest.next ↔ id < store.forest.next := by rw [h.next, h.next']
    change ((store.forest.define id name value).bindings scope).Varies _ _
      ((other.forest.define id name' value').bindings scope)
    rw [Forest.bindings_define, Forest.bindings_define, spelling]
    simp only [there]
    split
    · next same =>
      rw [same.1]
      exact (h.bindings id).set (r.spell_injective _) name values
    · exact h.bindings scope
  size := h.size
  fields := h.fields
  stamp := h.stamp
  printed := h.printed

theorem print (h : store.Varies r outline before other) (line : String) :
    (store.print line).Varies r outline before (other.print line) where
  root := h.root
  next := h.next
  next' := h.next'
  link := h.link
  link' := h.link'
  bindings := h.bindings
  size := h.size
  fields := h.fields
  stamp := h.stamp
  printed := by
    change other.printed.push line = before ++ store.printed.push line
    rw [h.printed, Array.append_push]

theorem takeStamps (h : store.Varies r outline before other) (count : Nat) :
    (store.takeStamps count).Varies r outline before (other.takeStamps count) where
  root := h.root
  next := h.next
  next' := h.next'
  link := h.link
  link' := h.link'
  bindings := h.bindings
  size := h.size
  fields := h.fields
  stamp := congrArg (· + count) h.stamp
  printed := h.printed

theorem setField (h : store.Varies r outline before other) (index : Nat) (name : String)
    {value value' : Value} (values : value.Varies r outline value') :
    (store.setField index name value).Varies r outline before
      (other.setField index name value') where
  root := h.root
  next := h.next
  next' := h.next'
  link := h.link
  link' := h.link'
  bindings := h.bindings
  size := by rw [size_fields_setField, size_fields_setField, h.size]
  fields := rel_fields_setField h.fields index name values
  stamp := h.stamp
  printed := h.printed

theorem addInstance (h : store.Varies r outline before other) :
    store.addInstance.Varies r outline before other.addInstance where
  root := h.root
  next := h.next
  next' := h.next'
  link := h.link
  link' := h.link'
  bindings := h.bindings
  size := by rw [size_fields_addInstance, size_fields_addInstance, h.size]
  fields := rel_fields_addInstance h.fields h.size
  stamp := h.stamp
  printed := h.printed

theorem addScope (h : store.Varies r outline before other) (scope : ScopeId) (level : Bool)
    {entries entries' : List (String × Value)}
    (bound : List.Forall₂ (fun entry entry' =>
      entry'.1 = r.spell level entry.1 ∧ entry.2.Varies r outline entry'.2) entries entries') :
    (store.addScope scope entries).Varies r (outline ++ [(some scope, level)]) before
      (other.addScope scope entries') := by
  have subset : outline <+: outline ++ [(some scope, level)] := List.prefix_append _ _
  have added {forest : Forest} (next : forest.next = outline.length)
      (link : ∀ id, forest.enclosing? id = outline[id]? >>= Prod.fst) (id : ScopeId)
      (bindings : Bindings Value) : (forest.add (some scope) bindings).enclosing? id =
        (outline ++ [(some scope, level)])[id]? >>= Prod.fst := by
    rw [Forest.enclosing?_add, next]
    split
    · next same => rw [same, List.getElem?_concat_length]; rfl
    · next different =>
      rw [link]
      rcases Nat.lt_or_ge id outline.length with inside | outside
      · rw [List.getElem?_append_left inside]
      · rw [List.getElem?_eq_none outside, List.getElem?_eq_none]
        rw [List.length_append]
        exact Nat.lt_of_le_of_ne outside (Ne.symm different)
  exact {
    root := Outline.getElem?_later subset h.root
    next := by
      change (store.forest.add _ _).next = _
      rw [Forest.next_add, h.next, List.length_append]
      rfl
    next' := by
      change (other.forest.add _ _).next = _
      rw [Forest.next_add, h.next', List.length_append]
      rfl
    link := fun id => added h.next h.link id _
    link' := fun id => added h.next' h.link' id _
    bindings := by
      intro id
      change ((store.forest.add _ _).bindings id).Varies _ _ ((other.forest.add _ _).bindings id)
      rw [Forest.bindings_add, Forest.bindings_add, h.next, h.next', Outline.level_push]
      split
      · exact .ofList (r.spell_injective _) (bound.imp fun _ _ ⟨name, values⟩ =>
          ⟨name, values.later subset⟩)
      · exact (h.bindings id).mono fun _ _ values => values.later subset
    size := h.size
    fields := fun index => rel_mono (h.fields index) fun _ _ bindings =>
      bindings.mono fun _ _ values => values.later subset
    stamp := h.stamp
    printed := h.printed }

end Store.Varies

end LoxLang
