import Mathlib.Logic.Equiv.Basic
import LoxLang.Proofs.Variation.Trees
import LoxLang.Store.Basic

/-!
Variations of values and stores. The scopes of both stores are made in the same order, and what a scope binds differs
at most by how a name is spelled in it.
-/

namespace LoxLang

open Scoping

/-- Words may stand for others that tell the same, and where names are respelled two spellings change places. -/
structure Respelling where
  plain : Token → Token → Prop
  old : String
  new : String
  kind {token other : Token} : plain token other → other.kind = token.kind
  lexeme {token other : Token} : plain token other → other.lexeme = token.lexeme
  old_ne_this : old ≠ "this"
  old_ne_super : old ≠ "super"
  new_ne_this : new ≠ "this"
  new_ne_super : new ≠ "super"

namespace Respelling

variable (r : Respelling)

def spell (level : Bool) (name : String) : String :=
  if level then Equiv.swap r.old r.new name else name

/-- The new spelling stands for the old one only where it is not a name itself. -/
def named (level : Bool) (token other : Token) : Prop :=
  ∃ middle, r.plain token middle ∧ (level = true → middle.lexeme ≠ r.new) ∧
    other = ⟨middle.kind, r.spell level middle.lexeme, middle.literal, middle.line⟩

def variation : Variation :=
  ⟨r.plain, r.named⟩

variable {r} {level : Bool} {name : String} {token other : Token}

theorem spell_injective (r : Respelling) (level : Bool) : Function.Injective (r.spell level) := by
  cases level with
  | false => exact Function.injective_id
  | true => exact (Equiv.swap r.old r.new).injective

theorem spell_this (r : Respelling) (level : Bool) : r.spell level "this" = "this" := by
  cases level with
  | false => rfl
  | true => exact Equiv.swap_apply_of_ne_of_ne r.old_ne_this.symm r.new_ne_this.symm

theorem spell_super (r : Respelling) (level : Bool) : r.spell level "super" = "super" := by
  cases level with
  | false => rfl
  | true => exact Equiv.swap_apply_of_ne_of_ne r.old_ne_super.symm r.new_ne_super.symm

theorem named_of_plain (h : r.plain token other) : r.named false token other :=
  ⟨other, h, nofun, rfl⟩

theorem lexeme_of_named (h : r.named level token other) :
    other.lexeme = r.spell level token.lexeme := by
  obtain ⟨middle, plain, -, rfl⟩ := h
  rw [← r.lexeme plain]

theorem ne_new_of_named (h : r.named level token other) (respelled : level = true) :
    token.lexeme ≠ r.new := by
  obtain ⟨middle, plain, fresh, -⟩ := h
  rw [← r.lexeme plain]
  exact fresh respelled

end Respelling

/-! ## Scopes -/

/-- For each scope, in the order in which they were made, in which one it lies and whether names are respelled. -/
abbrev Outline := List (Option ScopeId × Bool)

/-- The scopes from one outwards have these levels. -/
inductive Outline.Leads (outline : Outline) : ScopeId → Levels → Prop
  | root {id : ScopeId} {level : Bool} :
      outline[id]? = some (none, level) → Leads outline id [level]
  | inner {id outer : ScopeId} {level : Bool} {levels : Levels} :
      outline[id]? = some (some outer, level) → Leads outline outer levels →
      Leads outline id (level :: levels)

namespace Outline

variable {outline more : Outline} {id outer : ScopeId} {levels : Levels}

def level (outline : Outline) (id : ScopeId) : Bool :=
  match outline[id]? with
  | some (_, level) => level
  | none => false

theorem getElem?_later {link : Option ScopeId} {level : Bool} (subset : outline <+: more)
    (found : outline[id]? = some (link, level)) : more[id]? = some (link, level) := by
  obtain ⟨rest, rfl⟩ := subset
  rw [List.getElem?_append_left (List.getElem?_eq_some_iff.mp found).1]
  exact found

theorem Leads.later (h : outline.Leads id levels) (subset : outline <+: more) :
    more.Leads id levels := by
  induction h with
  | root found => exact .root (getElem?_later subset found)
  | inner found _ ih => exact .inner (getElem?_later subset found) ih

theorem Leads.level_eq (h : outline.Leads id levels) : outline.level id = levels.headD false := by
  cases h with
  | root found | inner found _ =>
      rw [level, found]
      rfl

theorem level_push (outline : Outline) (outer : ScopeId) (level : Bool) (id : ScopeId) :
    Outline.level (outline ++ [(some outer, level)]) id =
      if id = outline.length then level else outline.level id := by
  unfold Outline.level
  rcases Nat.lt_trichotomy id outline.length with inside | same | outside
  · rw [if_neg (Nat.ne_of_lt inside), List.getElem?_append_left inside]
  · rw [if_pos same, same, List.getElem?_concat_length]
  · rw [if_neg (Nat.ne_of_gt outside), List.getElem?_eq_none (Nat.le_of_lt outside),
      List.getElem?_eq_none]
    rw [List.length_append]
    exact outside

theorem leads_push (h : outline.Leads outer levels) (level : Bool) :
    Leads (outline ++ [(some outer, level)]) outline.length (level :: levels) :=
  .inner (by simp) (h.later (List.prefix_append _ _))

end Outline

/-! ## Bindings -/

/-- The same names in the same order, each in its spelling, are bound to related values. -/
def Bindings.Varies {α β : Type} (spell : String → String) (related : α → β → Prop)
    (bindings : Bindings α) (other : Bindings β) : Prop :=
  List.Forall₂ (fun entry entry' => entry'.1 = spell entry.1 ∧ related entry.2 entry'.2)
    bindings.entries other.entries

namespace Bindings.Varies

variable {α β : Type} {spell : String → String} {related stronger : α → β → Prop}
  {bindings : Bindings α} {other : Bindings β}

theorem mono (h : bindings.Varies spell stronger other)
    (weaken : ∀ value value', stronger value value' → related value value') :
    bindings.Varies spell related other :=
  h.imp fun _ _ ⟨name, value⟩ => ⟨name, weaken _ _ value⟩

theorem get? (h : bindings.Varies spell related other) (injective : Function.Injective spell)
    (name : String) : Option.Rel related (bindings.get? name) (other.get? (spell name)) := by
  obtain ⟨entries⟩ := bindings
  obtain ⟨entries'⟩ := other
  change List.Forall₂ _ entries entries' at h
  change Option.Rel related (entries.lookup name) (entries'.lookup (spell name))
  induction h with
  | nil => exact .none
  | @cons entry entry' _ _ head _ ih =>
      obtain ⟨first, value⟩ := entry
      obtain ⟨first', value'⟩ := entry'
      obtain ⟨spelling, values⟩ := head
      change first' = spell first at spelling
      by_cases same : name = first
      · rw [spelling, ← same, List.lookup_cons_self, List.lookup_cons_self]
        exact .some values
      · have different : (spell name == first') = false := by
          rw [spelling]
          exact beq_eq_false_iff_ne.mpr fun equal => same (injective equal)
        rw [List.lookup_cons, List.lookup_cons, beq_eq_false_iff_ne.mpr same, different]
        exact ih

theorem contains (h : bindings.Varies spell related other) (injective : Function.Injective spell)
    (name : String) : other.contains (spell name) = bindings.contains name := by
  have found := h.get? injective name
  unfold Bindings.contains
  generalize bindings.get? name = value at found ⊢
  generalize other.get? (spell name) = value' at found ⊢
  cases found <;> rfl

theorem set (h : bindings.Varies spell related other) (injective : Function.Injective spell)
    (name : String) {value : α} {value' : β} (values : related value value') :
    (bindings.set name value).Varies spell related (other.set (spell name) value') := by
  obtain ⟨entries⟩ := bindings
  obtain ⟨entries'⟩ := other
  change List.Forall₂ _ entries entries' at h
  change List.Forall₂ _ (setEntry name value entries) (setEntry (spell name) value' entries')
  induction h with
  | nil => exact .cons ⟨rfl, values⟩ .nil
  | @cons entry entry' _ _ head rest ih =>
      obtain ⟨first, old⟩ := entry
      obtain ⟨first', old'⟩ := entry'
      obtain ⟨spelling, olds⟩ := head
      change first' = spell first at spelling
      by_cases same : first = name
      · rw [setEntry, if_pos same, setEntry, if_pos (by rw [spelling, same])]
        exact .cons ⟨rfl, values⟩ rest
      · have different : first' ≠ spell name := by
          rw [spelling]
          exact fun equal => same (injective equal)
        rw [setEntry, if_neg same, setEntry, if_neg different]
        exact .cons ⟨spelling, olds⟩ ih

theorem ofList (injective : Function.Injective spell) {entries : List (String × α)}
    {entries' : List (String × β)}
    (h : List.Forall₂ (fun entry entry' => entry'.1 = spell entry.1 ∧ related entry.2 entry'.2)
      entries entries') :
    (Bindings.ofList entries).Varies spell related (.ofList entries') := by
  have fold {bindings : Bindings α} {other : Bindings β}
      (start : bindings.Varies spell related other) :
      (entries.foldl (fun bindings entry => bindings.set entry.1 entry.2) bindings).Varies spell
        related (entries'.foldl (fun bindings entry => bindings.set entry.1 entry.2) other) := by
    induction h generalizing bindings other with
    | nil => exact start
    | @cons entry entry' _ _ head _ ih =>
        obtain ⟨name, value⟩ := entry
        obtain ⟨name', value'⟩ := entry'
        obtain ⟨spelling, values⟩ := head
        change name' = spell name at spelling
        have next := start.set injective name values
        rw [← spelling] at next
        exact ih next
  exact fold .nil

end Bindings.Varies

/-! ## Fields -/

theorem rel_map {α β γ δ : Type} {p : α → β → Prop} {q : γ → δ → Prop} {f : α → γ} {g : β → δ}
    {first : Option α} {second : Option β} (h : Option.Rel p first second)
    (each : ∀ item other, p item other → q (f item) (g other)) :
    Option.Rel q (first.map f) (second.map g) := by
  cases h with
  | none => exact .none
  | some h => exact .some (each _ _ h)

theorem rel_mono {α β : Type} {p q : α → β → Prop} {first : Option α} {second : Option β}
    (h : Option.Rel p first second) (weaken : ∀ item other, p item other → q item other) :
    Option.Rel q first second := by
  have all := rel_map (f := id) (g := id) h weaken
  rwa [Option.map_id, Option.map_id] at all

namespace Store

variable {related : Value → Value → Prop} {store other : Store}
  (fields : ∀ index : Nat, Option.Rel (Bindings.Varies id related) store.fields[index]? other.fields[index]?)

include fields

theorem rel_field? (index : Nat) (name : String) :
    Option.Rel related (store.field? index name) (other.field? index name) := by
  have found := fields index
  unfold Store.field?
  generalize store.fields[index]? = bindings at found ⊢
  generalize other.fields[index]? = bindings' at found ⊢
  cases found with
  | some bindings => exact bindings.get? Function.injective_id name
  | none => exact .none

theorem rel_fields_setField (index : Nat) (name : String) {value value' : Value} (values : related value value')
    (position : Nat) :
    Option.Rel (Bindings.Varies id related) (store.setField index name value).fields[position]?
      (other.setField index name value').fields[position]? := by
  change Option.Rel _ (store.fields.modify index _)[position]? (other.fields.modify index _)[position]?
  rw [Array.getElem?_modify, Array.getElem?_modify]
  split
  · exact rel_map (fields position) fun _ _ bindings => bindings.set Function.injective_id name values
  · exact fields position

theorem rel_fields_addInstance (size : other.fields.size = store.fields.size) (position : Nat) :
    Option.Rel (Bindings.Varies id related) store.addInstance.fields[position]?
      other.addInstance.fields[position]? := by
  change Option.Rel _ (store.fields.push _)[position]? (other.fields.push _)[position]?
  rw [Array.getElem?_push, Array.getElem?_push, size]
  split
  · exact .some .nil
  · exact fields position

omit fields

theorem size_fields_setField (store : Store) (index : Nat) (name : String) (value : Value) :
    (store.setField index name value).fields.size = store.fields.size :=
  Array.size_modify

theorem size_fields_addInstance (store : Store) : store.addInstance.fields.size = store.fields.size + 1 :=
  Array.size_push _

end Store

/-! ## Values -/

variable (r : Respelling) (outline : Outline)

/-- The function is to be called in scopes within that of the closure, which is where a method is bound. -/
structure Closure.Varies (inner : Levels) (closure other : Closure) : Prop where
  stamp : other.stamp = closure.stamp
  scope : other.scope = closure.scope
  isInitializer : other.isInitializer = closure.isInitializer
  code : ∃ levels, outline.Leads closure.scope levels ∧
    Node.Varies r.variation (inner ++ levels) (.function closure.declaration)
      (.function other.declaration)

structure Layer.Varies (layer other : Layer) : Prop where
  stamp : other.stamp = layer.stamp
  name : other.name = layer.name
  methods : layer.methods.Varies id (Closure.Varies r outline [false]) other.methods

structure ClassValue.Varies (kind other : ClassValue) : Prop where
  layers : List.Forall₂ (Layer.Varies r outline) kind.layers other.layers

structure Instance.Varies (object other : Instance) : Prop where
  index : other.index = object.index
  kind : object.kind.Varies r outline other.kind

inductive Value.Varies : Value → Value → Prop
  | nil : Varies .nil .nil
  | bool {value : Bool} : Varies (.bool value) (.bool value)
  | number {value : Float} : Varies (.number value) (.number value)
  | text {value : String} : Varies (.text value) (.text value)
  | function {closure other : Closure} :
      closure.Varies r outline [] other → Varies (.function closure) (.function other)
  | class {kind other : ClassValue} :
      kind.Varies r outline other → Varies (.class kind) (.class other)
  | instance {object other : Instance} :
      object.Varies r outline other → Varies (.instance object) (.instance other)
  | native {index : Nat} : Varies (.native index) (.native index)

/-! ## Stores -/

/-- The other store has printed some lines before. -/
structure Store.Varies (before : Array String) (store other : Store) : Prop where
  root : outline[Forest.globals]? = some (none, false)
  next : store.forest.next = outline.length
  next' : other.forest.next = outline.length
  link : ∀ id, store.forest.enclosing? id = outline[id]? >>= Prod.fst
  link' : ∀ id, other.forest.enclosing? id = outline[id]? >>= Prod.fst
  bindings : ∀ id, (store.forest.bindings id).Varies (r.spell (outline.level id))
    (Value.Varies r outline) (other.forest.bindings id)
  size : other.fields.size = store.fields.size
  fields : ∀ index : Nat, Option.Rel (Bindings.Varies id (Value.Varies r outline))
    store.fields[index]? other.fields[index]?
  stamp : other.stamp = store.stamp
  printed : other.printed = before ++ store.printed

variable {r : Respelling} {outline more : Outline}

/-! ## Later stages -/

theorem Closure.Varies.later {inner : Levels} {closure other : Closure}
    (h : closure.Varies r outline inner other) (subset : outline <+: more) :
    closure.Varies r more inner other where
  stamp := h.stamp
  scope := h.scope
  isInitializer := h.isInitializer
  code := by
    obtain ⟨levels, leads, code⟩ := h.code
    exact ⟨levels, leads.later subset, code⟩

theorem Closure.Varies.arity {inner : Levels} {closure other : Closure}
    (h : closure.Varies r outline inner other) : other.arity = closure.arity := by
  obtain ⟨levels, -, code⟩ := h.code
  rw [Closure.arity, Closure.arity]
  generalize closure.declaration = declaration at code ⊢
  generalize other.declaration = declaration' at code ⊢
  cases code with
  | declaration _ params _ => exact params.length_eq.symm

theorem Layer.Varies.later {layer other : Layer} (h : layer.Varies r outline other)
    (subset : outline <+: more) : layer.Varies r more other where
  stamp := h.stamp
  name := h.name
  methods := h.methods.mono fun _ _ method => method.later subset

theorem ClassValue.Varies.later {kind other : ClassValue} (h : kind.Varies r outline other)
    (subset : outline <+: more) : kind.Varies r more other where
  layers := h.layers.imp fun _ _ layer => layer.later subset

theorem Instance.Varies.later {object other : Instance} (h : object.Varies r outline other)
    (subset : outline <+: more) : object.Varies r more other :=
  ⟨h.index, h.kind.later subset⟩

theorem Value.Varies.later {value other : Value} (h : value.Varies r outline other)
    (subset : outline <+: more) : value.Varies r more other := by
  cases h with
  | nil => exact .nil
  | bool => exact .bool
  | number => exact .number
  | text => exact .text
  | function closure => exact .function (closure.later subset)
  | «class» kind => exact .class (kind.later subset)
  | «instance» object => exact .instance (object.later subset)
  | native => exact .native

/-! ## Classes -/

section

variable {related : Closure → Closure → Prop} {kind kind' : ClassValue}
  (layers : List.Forall₂ (fun layer layer' : Layer =>
    layer.methods.Varies id related layer'.methods) kind.layers kind'.layers)

include layers

theorem ClassValue.rel_method? (name : String) :
    Option.Rel related (kind.method? name) (kind'.method? name) := by
  unfold ClassValue.method?
  generalize kind.layers = own at layers ⊢
  generalize kind'.layers = own' at layers ⊢
  induction layers with
  | nil => exact .none
  | @cons layer layer' _ _ head _ ih =>
      have found := head.get? Function.injective_id name
      change Option.Rel _ _ (layer'.methods.get? name) at found
      rw [List.findSome?_cons, List.findSome?_cons]
      generalize layer.methods.get? name = method at found ⊢
      generalize layer'.methods.get? name = method' at found ⊢
      cases found with
      | some methods => exact .some methods
      | none => exact ih

theorem ClassValue.searched_eq (name : String) : kind'.searched name = kind.searched name := by
  unfold ClassValue.searched
  generalize kind.layers = own at layers ⊢
  generalize kind'.layers = own' at layers ⊢
  induction layers with
  | nil => rfl
  | @cons layer layer' _ _ head _ ih =>
      have held := head.contains Function.injective_id name
      change layer'.methods.contains name = _ at held
      rw [List.takeWhile_cons, List.takeWhile_cons, held]
      cases layer.methods.contains name with
      | true => rfl
      | false => exact congrArg (· + 1) ih

theorem ClassValue.arity_eq
    (same : ∀ method method', related method method' → method'.arity = method.arity) :
    kind'.arity = kind.arity := by
  have found := rel_method? layers "init"
  unfold ClassValue.arity
  generalize kind.method? "init" = method at found ⊢
  generalize kind'.method? "init" = method' at found ⊢
  cases found with
  | none => rfl
  | some methods => exact same _ _ methods

end

namespace ClassValue.Varies

variable {kind kind' : ClassValue}

theorem method? (h : kind.Varies r outline kind') (name : String) :
    Option.Rel (Closure.Varies r outline [false]) (kind.method? name) (kind'.method? name) :=
  rel_method? (h.layers.imp fun _ _ layer => layer.methods) name

theorem searched (h : kind.Varies r outline kind') (name : String) :
    kind'.searched name = kind.searched name :=
  searched_eq (h.layers.imp fun _ _ layer => layer.methods) name

theorem arity (h : kind.Varies r outline kind') : kind'.arity = kind.arity :=
  arity_eq (h.layers.imp fun _ _ layer => layer.methods) fun _ _ method => method.arity

end ClassValue.Varies

end LoxLang
