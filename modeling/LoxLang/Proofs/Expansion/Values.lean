import LoxLang.Proofs.Expansion.Trees
import LoxLang.Proofs.Machine.Contents
import LoxLang.Proofs.Value.Alike
import LoxLang.Proofs.Variation.Values

/-!
Values of an expansion. Each scope of a program has one in the place of it when the expansion runs; the expansion makes
empty scopes besides, for the braces that it has more.
-/

namespace LoxLang

open Scoping

/-! ## Scopes -/

/-- The scopes of a program and of its expansion, both in the order in which they were made. -/
structure Layout where
  /-- For each scope of the program, in which one it lies and which one the expansion has in its place. -/
  kept : List (Option ScopeId × ScopeId)
  /-- For each scope of the expansion, in which one it lies. -/
  links : List (Option ScopeId)

namespace Layout

/-- The scopes from one outwards have these gaps on the way to the outermost one. -/
inductive Leads (layout : Layout) : Gaps → ScopeId → ScopeId → Prop
  | root {id id' : ScopeId} :
      layout.kept[id]? = some (none, id') → layout.links[id']? = some none → Leads layout [0] id id'
  | inner {gaps : Gaps} {id id' outer outer' : ScopeId} :
      layout.kept[id]? = some (some outer, id') → layout.links[id']? = some (some outer') →
      Leads layout gaps outer outer' → Leads layout (0 :: gaps) id id'
  | empty {gap : Nat} {gaps : Gaps} {id id' outer' : ScopeId} :
      layout.links[id']? = some (some outer') → Leads layout (gap :: gaps) id outer' →
      Leads layout ((gap + 1) :: gaps) id id'

structure Grows (layout more : Layout) : Prop where
  kept : layout.kept <+: more.kept
  links : layout.links <+: more.links

/-- The expansion has the one scope in the place of the other. -/
def Places (layout : Layout) (id id' : ScopeId) : Prop :=
  ∃ link, layout.kept[id]? = some (link, id')

/-- Both make a scope, inside these ones. -/
def add (layout : Layout) (outer outer' : ScopeId) : Layout :=
  ⟨layout.kept ++ [(some outer, layout.links.length)], layout.links ++ [some outer']⟩

/-- Only the expansion makes a scope. -/
def addEmpty (layout : Layout) (outer' : ScopeId) : Layout :=
  ⟨layout.kept, layout.links ++ [some outer']⟩

variable {layout more most : Layout} {gap : Nat} {gaps outer : Gaps} {id id' around around' : ScopeId}

theorem Grows.refl (layout : Layout) : layout.Grows layout :=
  ⟨List.prefix_rfl, List.prefix_rfl⟩

theorem Grows.trans (h : layout.Grows more) (further : more.Grows most) : layout.Grows most :=
  ⟨h.kept.trans further.kept, h.links.trans further.links⟩

theorem grows_add (layout : Layout) (outer outer' : ScopeId) : layout.Grows (layout.add outer outer') :=
  ⟨List.prefix_append _ _, List.prefix_append _ _⟩

theorem grows_addEmpty (layout : Layout) (outer' : ScopeId) : layout.Grows (layout.addEmpty outer') :=
  ⟨List.prefix_rfl, List.prefix_append _ _⟩

theorem getElem?_extended {α : Type} {items further : List α} {index : Nat} {item : α}
    (h : items <+: further) (found : items[index]? = some item) : further[index]? = some item := by
  obtain ⟨rest, rfl⟩ := h
  rw [List.getElem?_append_left (List.getElem?_eq_some_iff.mp found).1]
  exact found

theorem Leads.later (h : layout.Leads gaps id id') (grows : layout.Grows more) :
    more.Leads gaps id id' := by
  induction h with
  | root found link =>
      exact .root (getElem?_extended grows.kept found) (getElem?_extended grows.links link)
  | inner found link _ ih =>
      exact .inner (getElem?_extended grows.kept found) (getElem?_extended grows.links link) ih
  | empty link _ ih => exact .empty (getElem?_extended grows.links link) ih

theorem Leads.add (h : layout.Leads gaps around around') :
    (layout.add around around').Leads (0 :: gaps) layout.kept.length layout.links.length :=
  .inner List.getElem?_concat_length List.getElem?_concat_length (h.later (layout.grows_add _ _))

theorem Leads.addEmpty (h : layout.Leads (gap :: outer) id around') :
    (layout.addEmpty around').Leads ((gap + 1) :: outer) id layout.links.length :=
  .empty List.getElem?_concat_length (h.later (layout.grows_addEmpty _))

/-- Where there is no gap, the scope is the one in the place of the other. -/
theorem Leads.places (h : layout.Leads (0 :: outer) id id') : layout.Places id id' := by
  cases h with
  | root found _ | inner found _ _ => exact ⟨_, found⟩

theorem Places.unique {place : ScopeId} (h : layout.Places id id') (same : layout.Places id place) :
    id' = place := by
  obtain ⟨link, found⟩ := h
  obtain ⟨link', found'⟩ := same
  rw [found] at found'
  cases found'
  rfl

/-- What is read of the items when one more has come behind them. -/
theorem getElem?_push {α : Type} (items : List α) (item : α)
    (read : Option α → Option ScopeId) {outer : ScopeId} (last : read (some item) = some outer)
    (id : ScopeId) :
    (if id = items.length then some outer else read items[id]?) = read (items ++ [item])[id]? := by
  rcases Nat.lt_trichotomy id items.length with inside | same | outside
  · rw [if_neg (Nat.ne_of_lt inside), List.getElem?_append_left inside]
  · rw [if_pos same, same, List.getElem?_concat_length, last]
  · rw [if_neg (Nat.ne_of_gt outside), List.getElem?_eq_none (Nat.le_of_lt outside),
      List.getElem?_eq_none]
    rw [List.length_append]
    exact outside

theorem places_add : (layout.add around around').Places id id' ↔
    layout.Places id id' ∨ (id = layout.kept.length ∧ id' = layout.links.length) := by
  unfold Places
  rcases Nat.lt_trichotomy id layout.kept.length with inside | same | outside
  · rw [Layout.add, List.getElem?_append_left inside]
    exact ⟨.inl, fun place => place.resolve_right fun new => Nat.ne_of_lt inside new.1⟩
  · subst same
    rw [Layout.add, List.getElem?_concat_length, List.getElem?_eq_none (Nat.le_refl _)]
    constructor
    · rintro ⟨link, found⟩
      cases found
      exact .inr ⟨rfl, rfl⟩
    · rintro (⟨link, found⟩ | ⟨-, rfl⟩)
      · cases found
      · exact ⟨_, rfl⟩
  · rw [Layout.add, List.getElem?_eq_none, List.getElem?_eq_none (Nat.le_of_lt outside)]
    · constructor
      · rintro ⟨link, found⟩
        cases found
      · rintro (⟨link, found⟩ | ⟨same, -⟩)
        · cases found
        · exact absurd same (Nat.ne_of_gt outside)
    · rw [List.length_append]
      exact outside

end Layout

/-! ## Values -/

section

variable (free : Prop) (layout : Layout)

/-- The function is to be called in scopes within that of the closure, which is where a method is bound. -/
structure Closure.Expands (inner : Gaps) (closure other : Closure) : Prop where
  stamp : other.stamp = closure.stamp
  isInitializer : other.isInitializer = closure.isInitializer
  code : ∃ gaps, layout.Leads (0 :: gaps) closure.scope other.scope ∧
    Node.Expands free (inner ++ 0 :: gaps) (.function closure.declaration) (.function other.declaration)

structure Layer.Expands (layer other : Layer) : Prop where
  stamp : other.stamp = layer.stamp
  name : other.name = layer.name
  methods : layer.methods.Varies id (Closure.Expands free layout [0]) other.methods

structure ClassValue.Expands (kind other : ClassValue) : Prop where
  layers : List.Forall₂ (Layer.Expands free layout) kind.layers other.layers

structure Instance.Expands (object other : Instance) : Prop where
  index : other.index = object.index
  kind : object.kind.Expands free layout other.kind

inductive Value.Expands : Value → Value → Prop
  | nil : Expands .nil .nil
  | bool {value : Bool} : Expands (.bool value) (.bool value)
  | number {value : Float} : Expands (.number value) (.number value)
  | text {value : String} : Expands (.text value) (.text value)
  | function {closure other : Closure} :
      closure.Expands free layout [] other → Expands (.function closure) (.function other)
  | class {kind other : ClassValue} :
      kind.Expands free layout other → Expands (.class kind) (.class other)
  | instance {object other : Instance} :
      object.Expands free layout other → Expands (.instance object) (.instance other)
  | native {index : Nat} : Expands (.native index) (.native index)

end

variable {free : Prop} {layout more : Layout}

/-! ## Later stages -/

theorem Closure.Expands.later {inner : Gaps} {closure other : Closure}
    (h : closure.Expands free layout inner other) (grows : layout.Grows more) :
    closure.Expands free more inner other where
  stamp := h.stamp
  isInitializer := h.isInitializer
  code := by
    obtain ⟨gaps, leads, code⟩ := h.code
    exact ⟨gaps, leads.later grows, code⟩

theorem Closure.Expands.arity {inner : Gaps} {closure other : Closure}
    (h : closure.Expands free layout inner other) : other.arity = closure.arity := by
  obtain ⟨gaps, -, code⟩ := h.code
  rw [Closure.arity, Closure.arity]
  generalize inner ++ 0 :: gaps = around at code
  generalize closure.declaration = declaration at code ⊢
  generalize other.declaration = declaration' at code ⊢
  cases code
  rfl

theorem Layer.Expands.later {layer other : Layer} (h : layer.Expands free layout other)
    (grows : layout.Grows more) : layer.Expands free more other where
  stamp := h.stamp
  name := h.name
  methods := h.methods.mono fun _ _ method => method.later grows

theorem ClassValue.Expands.later {kind other : ClassValue} (h : kind.Expands free layout other)
    (grows : layout.Grows more) : kind.Expands free more other where
  layers := h.layers.imp fun _ _ layer => layer.later grows

theorem Instance.Expands.later {object other : Instance} (h : object.Expands free layout other)
    (grows : layout.Grows more) : object.Expands free more other :=
  ⟨h.index, h.kind.later grows⟩

theorem Value.Expands.later {value other : Value} (h : value.Expands free layout other)
    (grows : layout.Grows more) : value.Expands free more other := by
  cases h with
  | nil => exact .nil
  | bool => exact .bool
  | number => exact .number
  | text => exact .text
  | function closure => exact .function (closure.later grows)
  | «class» kind => exact .class (kind.later grows)
  | «instance» object => exact .instance (object.later grows)
  | native => exact .native

/-! ## More freedom -/

section

variable {free' : Prop} (weaken : free → free')

include weaken

theorem Closure.Expands.mono {inner : Gaps} {closure other : Closure}
    (h : closure.Expands free layout inner other) : closure.Expands free' layout inner other where
  stamp := h.stamp
  isInitializer := h.isInitializer
  code := by
    obtain ⟨gaps, leads, code⟩ := h.code
    exact ⟨gaps, leads, code.mono weaken⟩

theorem Layer.Expands.mono {layer other : Layer} (h : layer.Expands free layout other) :
    layer.Expands free' layout other where
  stamp := h.stamp
  name := h.name
  methods := h.methods.mono fun _ _ method => method.mono weaken

theorem ClassValue.Expands.mono {kind other : ClassValue} (h : kind.Expands free layout other) :
    kind.Expands free' layout other where
  layers := h.layers.imp fun _ _ layer => layer.mono weaken

theorem Value.Expands.mono {value other : Value} (h : value.Expands free layout other) :
    value.Expands free' layout other := by
  cases h with
  | nil => exact .nil
  | bool => exact .bool
  | number => exact .number
  | text => exact .text
  | function closure => exact .function (closure.mono weaken)
  | «class» kind => exact .class (kind.mono weaken)
  | «instance» object => exact .instance ⟨object.index, object.kind.mono weaken⟩
  | native => exact .native

end

/-! ## Classes -/

namespace ClassValue.Expands

variable {kind kind' : ClassValue}

theorem method? (h : kind.Expands free layout kind') (name : String) :
    Option.Rel (Closure.Expands free layout [0]) (kind.method? name) (kind'.method? name) :=
  rel_method? (h.layers.imp fun _ _ layer => layer.methods) name

theorem arity (h : kind.Expands free layout kind') : kind'.arity = kind.arity :=
  arity_eq (h.layers.imp fun _ _ layer => layer.methods) fun _ _ method => method.arity

end ClassValue.Expands

/-! ## Operations -/

theorem Value.IsPlain.expands {value : Value} (plain : value.IsPlain) :
    value.Expands free layout value := by
  cases value with
  | nil => exact .nil
  | bool => exact .bool
  | number => exact .number
  | text => exact .text
  | function _ | «class» _ | «instance» _ | native _ => cases plain

theorem Value.expands_ofConstant (value : Constant) :
    (Value.ofConstant value).Expands free layout (.ofConstant value) := by
  cases value with
  | nil => exact .nil
  | bool => exact .bool
  | number => exact .number
  | text => exact .text

theorem Value.Expands.alike {value value' : Value} (h : value.Expands free layout value') : value.Alike value' := by
  cases h with
  | nil => exact .nil
  | bool => exact .bool
  | number => exact .number
  | text => exact .text
  | @function closure closure' same =>
      obtain ⟨gaps, -, code⟩ := same.code
      refine .function same.stamp ?_
      generalize [] ++ 0 :: gaps = around at code
      generalize closure.declaration = declaration at code ⊢
      generalize closure'.declaration = declaration' at code ⊢
      cases code
      rfl
  | «class» kind =>
      cases kind.layers with
      | cons own _ => exact .class own.stamp own.name
  | «instance» object =>
      cases object.kind.layers with
      | cons own _ => exact .instance object.index own.name
  | native => exact .native

end LoxLang
