import LoxLang.Proofs.Program.WellFormed
import LoxLang.Proofs.Store.Growth

/-!
The scopes of `this` and `super`. What these stand for in a scope never changes, since only names are defined
in scopes that are there already.
-/

namespace LoxLang.Forest

variable {before middle after forest : Forest} {id outer : ScopeId}

structure BindsThis (forest : Forest) (id : ScopeId) (method : Closure) (receiver : Value) :
    Prop where
  this : (forest.bindings id).get? "this" = some receiver
  enclosing : forest.enclosing? id = some method.scope

structure BindsSuper (forest : Forest) (id outer : ScopeId) (kind : ClassValue) : Prop where
  super : (forest.bindings id).get? "super" = some (.class kind)
  enclosing : forest.enclosing? id = some outer

/-- A later stage of a forest in which `this` and `super` stand for what they stood for. -/
structure Remembers (before after : Forest) : Prop where
  next : before.next ≤ after.next
  enclosing : ∀ id < before.next, after.enclosing? id = before.enclosing? id
  keyword : ∀ id < before.next, ∀ name, name = "this" ∨ name = "super" →
    (after.bindings id).get? name = (before.bindings id).get? name

namespace Remembers

theorem refl (forest : Forest) : forest.Remembers forest :=
  ⟨Nat.le_refl _, fun _ _ => rfl, fun _ _ _ _ => rfl⟩

theorem trans (first : before.Remembers middle) (second : middle.Remembers after) :
    before.Remembers after where
  next := Nat.le_trans first.next second.next
  enclosing := fun id inside => by
    rw [second.enclosing id (Nat.lt_of_lt_of_le inside first.next), first.enclosing id inside]
  keyword := fun id inside name keyword => by
    rw [second.keyword id (Nat.lt_of_lt_of_le inside first.next) name keyword,
      first.keyword id inside name keyword]

theorem add (forest : Forest) (enclosing : Option ScopeId) (bindings : Bindings Value) :
    forest.Remembers (forest.add enclosing bindings) where
  next := (grows_add forest enclosing bindings).next
  enclosing := (grows_add forest enclosing bindings).enclosing
  keyword := fun id inside name _ => by rw [bindings_add_of_lt inside]

theorem define (forest : Forest) (scope : ScopeId) {name : Token} (names : name.Names)
    (value : Value) : forest.Remembers (forest.define scope name.lexeme value) where
  next := Nat.le_of_eq (next_define _ _ _ _).symm
  enclosing := fun id _ => enclosing?_define _ _ _ _ _
  keyword := by
    intro id inside keyword either
    have different : keyword ≠ name.lexeme := by
      rintro rfl
      rcases either with same | same
      · exact names.ne_this same
      · exact names.ne_super same
    rw [bindings_define]
    split
    · next same => rw [Bindings.get?_set, if_neg different, same.1]
    · rfl

theorem enclosing_of_some (h : before.Remembers after) (link : before.enclosing? id = some outer) :
    after.enclosing? id = some outer := by
  rw [h.enclosing id (lt_next_of_enclosing? link)]
  exact link

end Remembers

theorem BindsThis.later {method : Closure} {receiver : Value}
    (h : before.BindsThis id method receiver) (remembers : before.Remembers after) :
    after.BindsThis id method receiver where
  this := by
    rw [remembers.keyword id (lt_next_of_get? h.this) "this" (.inl rfl)]
    exact h.this
  enclosing := remembers.enclosing_of_some h.enclosing

theorem BindsSuper.later {kind : ClassValue} (h : before.BindsSuper id outer kind)
    (remembers : before.Remembers after) : after.BindsSuper id outer kind where
  super := by
    rw [remembers.keyword id (lt_next_of_get? h.super) "super" (.inr rfl)]
    exact h.super
  enclosing := remembers.enclosing_of_some h.enclosing

theorem bindsThis_add (forest : Forest) (method : Closure) (receiver : Value) :
    (forest.add (some method.scope) (.ofList [("this", receiver)])).BindsThis forest.next method
      receiver where
  this := by
    rw [bindings_add, if_pos rfl]
    rfl
  enclosing := by rw [enclosing?_add, if_pos rfl]

theorem bindsSuper_add (forest : Forest) (outer : ScopeId) (kind : ClassValue) :
    (forest.add (some outer) (.ofList [("super", .class kind)])).BindsSuper forest.next outer
      kind where
  super := by
    rw [bindings_add, if_pos rfl]
    rfl
  enclosing := by rw [enclosing?_add, if_pos rfl]

end LoxLang.Forest
