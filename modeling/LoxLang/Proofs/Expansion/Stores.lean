import LoxLang.Proofs.Expansion.Values
import LoxLang.Proofs.Variation.Stores

/-!
Stores of an expansion, under lookup and change. A name is found in the scope that stands in the place of the one where
the program finds it, as many scopes further out as there are gaps on the way.
-/

namespace LoxLang

/-! ## Interruptions -/

/-- The same error; all faults are alike. -/
inductive Interruption.Expands : Interruption → Interruption → Prop
  | error {error : RuntimeError} : Expands (.error error) (.error error)
  | fault {fault fault' : Fault} : Expands (.fault fault) (.fault fault')

theorem Interruption.expands_self (interruption : Interruption) :
    interruption.Expands interruption := by
  cases interruption with
  | error error => exact .error
  | fault fault => exact .fault

/-- Both results are related, or both are interruptions. -/
inductive ResultsExpand {α β : Type} (related : α → β → Prop) :
    Except Interruption α → Except Interruption β → Prop
  | ok {result : α} {result' : β} :
      related result result' → ResultsExpand related (.ok result) (.ok result')
  | error {interruption interruption' : Interruption} :
      interruption.Expands interruption' →
      ResultsExpand related (.error interruption) (.error interruption')

theorem ResultsExpand.bind {α β γ δ : Type} {related : α → β → Prop} {further : γ → δ → Prop}
    {result : Except Interruption α} {result' : Except Interruption β}
    {next : α → Except Interruption γ} {next' : β → Except Interruption δ}
    (h : ResultsExpand related result result')
    (rest : ∀ value value', related value value' →
      ResultsExpand further (next value) (next' value')) :
    ResultsExpand further (result >>= next) (result' >>= next') := by
  cases h with
  | ok values => exact rest _ _ values
  | error interruption => exact .error interruption

/-! ## Stores -/

structure Store.Expands (free : Prop) (layout : Layout) (store other : Store) : Prop where
  root : layout.Leads [0] Forest.globals Forest.globals
  next : store.forest.next = layout.kept.length
  next' : other.forest.next = layout.links.length
  link : ∀ id, store.forest.enclosing? id = layout.kept[id]? >>= Prod.fst
  link' : ∀ id, other.forest.enclosing? id = layout.links[id]?.join
  inside : ∀ scope place, layout.Places scope place → place < layout.links.length
  apart : ∀ scope scope' place, layout.Places scope place → layout.Places scope' place → scope' = scope
  bindings : ∀ scope place, layout.Places scope place →
    (store.forest.bindings scope).Varies id (Value.Expands free layout) (other.forest.bindings place)
  size : other.fields.size = store.fields.size
  fields : ∀ index : Nat, Option.Rel (Bindings.Varies id (Value.Expands free layout))
    store.fields[index]? other.fields[index]?
  stamp : other.stamp = store.stamp
  printed : other.printed = store.printed

variable {free : Prop} {layout : Layout} {gaps : Gaps} {store other : Store} {scope scope' : ScopeId}

namespace Store.Expands

theorem mono {free' : Prop} (h : store.Expands free layout other) (weaken : free → free') :
    store.Expands free' layout other where
  root := h.root
  next := h.next
  next' := h.next'
  link := h.link
  link' := h.link'
  inside := h.inside
  apart := h.apart
  bindings := fun scope place there =>
    (h.bindings scope place there).mono fun _ _ value => value.mono weaken
  size := h.size
  fields := fun index => rel_mono (h.fields index) fun _ _ bindings =>
    bindings.mono fun _ _ value => value.mono weaken
  stamp := h.stamp
  printed := h.printed

theorem bindings_globals (h : store.Expands free layout other) :
    (store.forest.bindings Forest.globals).Varies id (Value.Expands free layout)
      (other.forest.bindings Forest.globals) :=
  h.bindings _ _ h.root.places

/-- Where the program gets to, the expansion gets to the scope in its place. -/
theorem ancestor? (h : store.Expands free layout other) (leads : layout.Leads gaps scope scope')
    (hops : Nat) :
    Option.Rel layout.Places (store.forest.ancestor? scope hops)
      (other.forest.ancestor? scope' (gaps.shift hops)) := by
  induction leads generalizing hops with
  | @root id id' found link =>
      cases hops with
      | zero => exact .some ⟨none, found⟩
      | succ hops =>
          have outermost : store.forest.enclosing? id = none := by rw [h.link, found]; rfl
          have outermost' : other.forest.enclosing? id' = none := by rw [h.link', link]; rfl
          rw [Gaps.shift, Forest.ancestor?, Forest.ancestor?, outermost, outermost']
          exact .none
  | @inner gaps id id' outer outer' found link _ ih =>
      cases hops with
      | zero => exact .some ⟨some outer, found⟩
      | succ hops =>
          have around : store.forest.enclosing? id = some outer := by rw [h.link, found]; rfl
          have around' : other.forest.enclosing? id' = some outer' := by rw [h.link', link]; rfl
          rw [Gaps.shift, Forest.ancestor?, Forest.ancestor?, around, around', Nat.zero_add]
          exact ih hops
  | @empty gap gaps id id' outer' link _ ih =>
      have around : other.forest.enclosing? id' = some outer' := by rw [h.link', link]; rfl
      rw [Gaps.shift_gap, Forest.ancestor?, around]
      exact ih hops

theorem ancestor (h : store.Expands free layout other) (leads : layout.Leads gaps scope scope')
    {distance distance' : Int} (further : distance'.toNat = gaps.shift distance.toNat) :
    ResultsExpand layout.Places (store.forest.ancestor scope distance)
      (other.forest.ancestor scope' distance') := by
  have found := h.ancestor? leads distance.toNat
  rw [Forest.ancestor, Forest.ancestor, further]
  generalize store.forest.ancestor? scope distance.toNat = outer at found ⊢
  generalize other.forest.ancestor? scope' (gaps.shift distance.toNat) = outer' at found ⊢
  cases found with
  | none => exact .error .fault
  | some place => exact .ok place

/-! ## Lookup -/

theorem getAt (h : store.Expands free layout other) (leads : layout.Leads gaps scope scope')
    {distance distance' : Int} (further : distance'.toNat = gaps.shift distance.toNat)
    (name : String) :
    ResultsExpand (Value.Expands free layout) (store.forest.getAt scope distance name)
      (other.forest.getAt scope' distance' name) := by
  refine (h.ancestor leads further).bind fun holder holder' place => ?_
  have found := (h.bindings holder holder' place).get? Function.injective_id name
  change Option.Rel _ _ ((other.forest.bindings holder').get? name) at found
  generalize (store.forest.bindings holder).get? name = value at found ⊢
  generalize (other.forest.bindings holder').get? name = value' at found ⊢
  cases found with
  | some values => exact .ok values
  | none => exact .error .fault

theorem lookup (h : store.Expands free layout other) (leads : layout.Leads gaps scope scope')
    {use use' : NameUse} (uses : use.Expands gaps use') :
    ResultsExpand (Value.Expands free layout) (Machine.lookup store.forest scope use)
      (Machine.lookup other.forest scope' use') := by
  obtain ⟨name, hops⟩ := use
  obtain ⟨name', hops'⟩ := use'
  obtain ⟨sameName, further⟩ := uses
  dsimp only at sameName further
  subst sameName further
  cases hops with
  | some hops => exact h.getAt leads rfl name'.lexeme
  | none =>
      have found := h.bindings_globals.get? Function.injective_id name'.lexeme
      change Option.Rel _ _ ((other.forest.bindings Forest.globals).get? name'.lexeme) at found
      change ResultsExpand _ (store.forest.get _ name') (other.forest.get _ name')
      rw [Forest.get_globals, Forest.get_globals]
      generalize (store.forest.bindings Forest.globals).get? name'.lexeme = value at found ⊢
      generalize (other.forest.bindings Forest.globals).get? name'.lexeme = value' at found ⊢
      cases found with
      | some values => exact .ok values
      | none => exact .error .error

/-- An assignment changes the scope in the place of the one that the program changes. -/
theorem target (h : store.Expands free layout other) (leads : layout.Leads gaps scope scope')
    {use use' : NameUse} (uses : use.Expands gaps use') :
    ResultsExpand layout.Places (Machine.target store.forest scope use)
      (Machine.target other.forest scope' use') := by
  obtain ⟨name, hops⟩ := use
  obtain ⟨name', hops'⟩ := use'
  obtain ⟨sameName, further⟩ := uses
  dsimp only at sameName further
  subst sameName further
  cases hops with
  | some hops =>
      have further : ((gaps.shift hops : Nat) : Int).toNat = gaps.shift (hops : Int).toNat := rfl
      refine (h.ancestor leads further).bind fun holder holder' place => ?_
      have contains := (h.bindings holder holder' place).contains Function.injective_id name'.lexeme
      change (other.forest.bindings holder').contains name'.lexeme = _ at contains
      change ResultsExpand _ (if (store.forest.bindings holder).contains name'.lexeme = true then _ else _)
        (if (other.forest.bindings holder').contains name'.lexeme = true then _ else _)
      rw [contains]
      split
      · exact .ok place
      · exact .error .error
  | none =>
      have contains := h.bindings_globals.contains Function.injective_id name'.lexeme
      change (other.forest.bindings Forest.globals).contains name'.lexeme = _ at contains
      change ResultsExpand _ (store.forest.find _ name') (other.forest.find _ name')
      rw [Forest.find_globals, Forest.find_globals, contains]
      split
      · exact .ok h.root.places
      · exact .error .error

/-- As no scope lies between that of `super` and that of `this`, both are found. -/
theorem superReceiver (h : store.Expands free layout other)
    (leads : layout.Leads gaps scope scope') {keyword keyword' : NameUse}
    (uses : keyword.Expands gaps keyword')
    (tight : ∀ hops, keyword.hops = some hops → gaps.Tight hops) :
    ResultsExpand (fun found found' => found.1.Expands free layout found'.1 ∧
        found.2.Expands free layout found'.2)
      (Machine.superReceiver store.forest scope keyword)
      (Machine.superReceiver other.forest scope' keyword') := by
  unfold Machine.superReceiver
  rw [uses.hops]
  cases marked : keyword.hops with
  | none => exact .error .fault
  | some hops =>
      have just : (((gaps.shift hops : Nat) : Int) - 1).toNat = gaps.shift ((hops : Int) - 1).toNat := by
        cases hops with
        | zero =>
            rw [Gaps.shift_zero (tight 0 marked)]
            exact (Gaps.shift_zero (tight 0 marked)).symm
        | succ hops =>
            rw [Gaps.shift_succ (tight _ marked), Int.natCast_succ, Int.natCast_succ]
            simp only [Int.add_sub_cancel, Int.toNat_natCast]
      have there : ((gaps.shift hops : Nat) : Int).toNat = gaps.shift (hops : Int).toNat := rfl
      refine (h.getAt leads there "super").bind fun kind kind' kinds =>
        (h.getAt leads just "this").bind fun receiver receiver' receivers => ?_
      cases kinds with
      | «class» kinds => exact .ok ⟨kinds, receivers⟩
      | _ => exact .error .fault

theorem field? (h : store.Expands free layout other) (index : Nat) (name : String) :
    Option.Rel (Value.Expands free layout) (store.field? index name) (other.field? index name) :=
  rel_field? h.fields index name

/-! ## Changes -/

theorem define (h : store.Expands free layout other) {place : ScopeId}
    (there : layout.Places scope place) (name : String) {value value' : Value}
    (values : value.Expands free layout value') :
    (store.define scope name value).Expands free layout (other.define place name value') where
  root := h.root
  next := (Forest.next_define _ _ _ _).trans h.next
  next' := (Forest.next_define _ _ _ _).trans h.next'
  link := fun id => (Forest.enclosing?_define _ _ _ _ _).trans (h.link id)
  link' := fun id => (Forest.enclosing?_define _ _ _ _ _).trans (h.link' id)
  inside := h.inside
  apart := h.apart
  bindings := by
    intro id id' same
    change ((store.forest.define scope name value).bindings id).Varies _ _
      ((other.forest.define place name value').bindings id')
    have made : scope < store.forest.next := by
      obtain ⟨link, found⟩ := there
      rw [h.next]
      exact (List.getElem?_eq_some_iff.mp found).1
    have made' : place < other.forest.next := by
      rw [h.next']
      exact h.inside scope place there
    rw [Forest.bindings_define, Forest.bindings_define]
    by_cases here : id = scope
    · subst here
      have here' : id' = place := same.unique there
      subst here'
      rw [if_pos ⟨rfl, made⟩, if_pos ⟨rfl, made'⟩]
      exact (h.bindings id id' there).set Function.injective_id name values
    · have elsewhere : id' ≠ place := by
        rintro rfl
        exact here (h.apart scope id id' there same)
      rw [if_neg fun both => here both.1, if_neg fun both => elsewhere both.1]
      exact h.bindings id id' same
  size := h.size
  fields := h.fields
  stamp := h.stamp
  printed := h.printed

theorem print (h : store.Expands free layout other) (line : String) :
    (store.print line).Expands free layout (other.print line) where
  root := h.root
  next := h.next
  next' := h.next'
  link := h.link
  link' := h.link'
  inside := h.inside
  apart := h.apart
  bindings := h.bindings
  size := h.size
  fields := h.fields
  stamp := h.stamp
  printed := congrArg (·.push line) h.printed

theorem takeStamps (h : store.Expands free layout other) (count : Nat) :
    (store.takeStamps count).Expands free layout (other.takeStamps count) where
  root := h.root
  next := h.next
  next' := h.next'
  link := h.link
  link' := h.link'
  inside := h.inside
  apart := h.apart
  bindings := h.bindings
  size := h.size
  fields := h.fields
  stamp := congrArg (· + count) h.stamp
  printed := h.printed

theorem takePrinted (h : store.Expands free layout other) :
    store.takePrinted.2.Expands free layout other.takePrinted.2 where
  root := h.root
  next := h.next
  next' := h.next'
  link := h.link
  link' := h.link'
  inside := h.inside
  apart := h.apart
  bindings := h.bindings
  size := h.size
  fields := h.fields
  stamp := h.stamp
  printed := rfl

theorem setField (h : store.Expands free layout other) (index : Nat) (name : String)
    {value value' : Value} (values : value.Expands free layout value') :
    (store.setField index name value).Expands free layout (other.setField index name value') where
  root := h.root
  next := h.next
  next' := h.next'
  link := h.link
  link' := h.link'
  inside := h.inside
  apart := h.apart
  bindings := h.bindings
  size := by rw [size_fields_setField, size_fields_setField, h.size]
  fields := rel_fields_setField h.fields index name values
  stamp := h.stamp
  printed := h.printed

theorem addInstance (h : store.Expands free layout other) :
    store.addInstance.Expands free layout other.addInstance where
  root := h.root
  next := h.next
  next' := h.next'
  link := h.link
  link' := h.link'
  inside := h.inside
  apart := h.apart
  bindings := h.bindings
  size := by rw [size_fields_addInstance, size_fields_addInstance, h.size]
  fields := rel_fields_addInstance h.fields h.size
  stamp := h.stamp
  printed := h.printed

/-! ## New scopes -/

theorem fields_later {more : Layout} (h : store.Expands free layout other) (grows : layout.Grows more)
    (index : Nat) : Option.Rel (Bindings.Varies id (Value.Expands free more)) store.fields[index]?
      other.fields[index]? :=
  rel_mono (h.fields index) fun _ _ bindings => bindings.mono fun _ _ values => values.later grows

/-- Both make a scope, in scopes that correspond. -/
theorem addScope (h : store.Expands free layout other) (scope scope' : ScopeId)
    {entries entries' : List (String × Value)}
    (bound : List.Forall₂ (fun entry entry' =>
      entry'.1 = entry.1 ∧ entry.2.Expands free layout entry'.2) entries entries') :
    (store.addScope scope entries).Expands free (layout.add scope scope')
      (other.addScope scope' entries') where
  root := h.root.later (layout.grows_add _ _)
  next := by
    change (store.forest.add _ _).next = _
    rw [Forest.next_add, h.next, Layout.add, List.length_append]
    rfl
  next' := by
    change (other.forest.add _ _).next = _
    rw [Forest.next_add, h.next', Layout.add, List.length_append]
    rfl
  link := fun id => by
    change (store.forest.add _ _).enclosing? id = _
    rw [Forest.enclosing?_add, h.next, h.link, Layout.add]
    exact Layout.getElem?_push _ _ (· >>= Prod.fst) rfl id
  link' := fun id => by
    change (other.forest.add _ _).enclosing? id = _
    rw [Forest.enclosing?_add, h.next', h.link', Layout.add]
    exact Layout.getElem?_push _ _ Option.join rfl id
  inside := by
    intro id id' place
    rw [Layout.add, List.length_append]
    rcases Layout.places_add.mp place with old | ⟨-, rfl⟩
    · exact Nat.lt_succ_of_lt (h.inside id id' old)
    · exact Nat.lt_succ_self _
  apart := by
    intro id other place first second
    rcases Layout.places_add.mp first with old | ⟨rfl, rfl⟩
    · rcases Layout.places_add.mp second with old' | ⟨-, rfl⟩
      · exact h.apart id other place old old'
      · exact absurd (h.inside _ _ old) (Nat.lt_irrefl _)
    · rcases Layout.places_add.mp second with old' | ⟨rfl, -⟩
      · exact absurd (h.inside _ _ old') (Nat.lt_irrefl _)
      · rfl
  bindings := by
    intro id id' place
    change ((store.forest.add _ _).bindings id).Varies _ _ ((other.forest.add _ _).bindings id')
    rw [Forest.bindings_add, Forest.bindings_add, h.next, h.next']
    rcases Layout.places_add.mp place with old | ⟨rfl, rfl⟩
    · have before : id ≠ layout.kept.length := by
        obtain ⟨link, found⟩ := old
        exact Nat.ne_of_lt (List.getElem?_eq_some_iff.mp found).1
      rw [if_neg before, if_neg (Nat.ne_of_lt (h.inside id id' old))]
      exact (h.bindings id id' old).mono fun _ _ values => values.later (layout.grows_add _ _)
    · rw [if_pos rfl, if_pos rfl]
      exact .ofList Function.injective_id (bound.imp fun _ _ entries =>
        ⟨entries.1, entries.2.later (layout.grows_add _ _)⟩)
  size := h.size
  fields := h.fields_later (layout.grows_add _ _)
  stamp := h.stamp
  printed := h.printed

/-- The expansion alone makes a scope, which stays empty. -/
theorem addEmpty (h : store.Expands free layout other) (scope' : ScopeId) :
    store.Expands free (layout.addEmpty scope') (other.addScope scope' []) where
  root := h.root.later (layout.grows_addEmpty _)
  next := h.next
  next' := by
    change (other.forest.add _ _).next = _
    rw [Forest.next_add, h.next', Layout.addEmpty, List.length_append]
    rfl
  link := h.link
  link' := fun id => by
    change (other.forest.add _ _).enclosing? id = _
    rw [Forest.enclosing?_add, h.next', h.link', Layout.addEmpty]
    exact Layout.getElem?_push _ _ Option.join rfl id
  inside := by
    intro id id' place
    rw [Layout.addEmpty, List.length_append]
    exact Nat.lt_succ_of_lt (h.inside id id' place)
  apart := h.apart
  bindings := by
    intro id id' place
    change Bindings.Varies _ _ _ ((other.forest.add _ _).bindings id')
    rw [Forest.bindings_add, h.next', if_neg (Nat.ne_of_lt (h.inside id id' place))]
    exact (h.bindings id id' place).mono fun _ _ values => values.later (layout.grows_addEmpty _)
  size := h.size
  fields := h.fields_later (layout.grows_addEmpty _)
  stamp := h.stamp
  printed := h.printed

end Store.Expands

end LoxLang
