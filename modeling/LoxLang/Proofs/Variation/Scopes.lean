import LoxLang.Proofs.Scoping.Marks
import LoxLang.Proofs.Variation.Unmarked
import LoxLang.Proofs.Variation.Values

/-!
Variations of the scopes of a text. Two texts that are marked side by side have the same scopes, in which the names are
the same but for their spelling; of the names in the global scope only those matter that are being declared.
-/

namespace LoxLang

open Scoping

/-- The new spelling is not one of a name of the first text. -/
def Respelling.fresh (r : Respelling) : Variation :=
  ⟨r.plain, fun level token other => r.named level token other ∧ token.lexeme ≠ r.new⟩

/-- A name that is kept and another one do not become the same. -/
theorem Token.Kept.ne {r : Respelling} {levels : Levels} {level : Bool}
    {kept kept' token other : Token} (h : kept.Kept r.fresh levels kept')
    (spelled : r.fresh.named level token other) (different : kept.lexeme ≠ token.lexeme) :
    kept'.lexeme ≠ other.lexeme := by
  rw [r.lexeme h.plain, Respelling.lexeme_of_named spelled.1]
  cases level with
  | false => exact different
  | true =>
      change kept.lexeme ≠ Equiv.swap r.old r.new token.lexeme
      by_cases same : token.lexeme = r.old
      · rw [same, Equiv.swap_apply_left]
        exact h.named.2
      · rw [Equiv.swap_apply_of_ne_of_ne same spelled.2]
        exact different

namespace Scoping

structure Scope.Varies (r : Respelling) (level : Bool) (scope other : Scope) : Prop where
  states (name : String) : other.get? (r.spell level name) = scope.get? name
  absent : scope.get? r.new = none

inductive Scopes.Varies (r : Respelling) : Levels → Scopes → Scopes → Prop
  | global {scope other : Scope} :
      (∀ name, other.get? name = some false ↔ scope.get? name = some false) →
      Varies r [false] [scope] [other]
  | inside {level : Bool} {levels : Levels} {scope other : Scope} {outer outer' : Scopes} :
      Scope.Varies r level scope other → Varies r levels outer outer' →
      Varies r (level :: levels) (scope :: outer) (other :: outer')

variable {r : Respelling} {level : Bool} {levels : Levels} {name : String}

namespace Scope.Varies

variable {scope other : Scope}

theorem contains (h : Scope.Varies r level scope other) (name : String) :
    other.contains (r.spell level name) = scope.contains name := by
  rw [Bindings.contains, Bindings.contains, h.states]

/-- What is no name in a scope is none there in the spelling of another scope either. -/
theorem notContains (h : Scope.Varies r level scope other) (fresh : name ≠ r.new)
    (missing : scope.contains name = false) (spelling : Bool) :
    other.contains (r.spell spelling name) = false := by
  have old_or_same (name : String) (fresh : name ≠ r.new) :
      Equiv.swap r.old r.new name = name ∨ Equiv.swap r.old r.new name = r.new := by
    by_cases same : name = r.old
    · exact .inr (by rw [same, Equiv.swap_apply_left])
    · exact .inl (Equiv.swap_apply_of_ne_of_ne same fresh)
  have new_missing : scope.contains r.new = false := by
    rw [Bindings.contains, h.absent]
    rfl
  cases spelling with
  | false =>
      cases level with
      | false => exact (h.contains name).trans missing
      | true =>
          have turned : r.spell true (Equiv.swap r.old r.new name) = name :=
            Equiv.swap_apply_self _ _ _
          change other.contains name = false
          rw [← turned, h.contains]
          rcases old_or_same name fresh with same | same
          · rw [same, missing]
          · rw [same, new_missing]
  | true =>
      cases level with
      | true => exact (h.contains name).trans missing
      | false =>
          have kept := h.contains (Equiv.swap r.old r.new name)
          change other.contains (Equiv.swap r.old r.new name) = _ at kept
          change other.contains (Equiv.swap r.old r.new name) = false
          rw [kept]
          rcases old_or_same name fresh with same | same
          · rw [same, missing]
          · rw [same, new_missing]

theorem set (h : Scope.Varies r level scope other) (fresh : name ≠ r.new) (complete : Bool) :
    Scope.Varies r level (scope.set name complete) (other.set (r.spell level name) complete) where
  states found := by
    rw [Bindings.get?_set, Bindings.get?_set, h.states]
    simp only [(r.spell_injective level).eq_iff]
  absent := by
    rw [Bindings.get?_set, if_neg fresh.symm]
    exact h.absent

theorem empty (r : Respelling) (level : Bool) : Scope.Varies r level .empty .empty :=
  ⟨fun _ => rfl, rfl⟩

theorem same (h : scope.get? r.new = none) : Scope.Varies r false scope scope :=
  ⟨fun _ => rfl, h⟩

end Scope.Varies

namespace Scopes.Varies

variable {scopes others : Scopes}

theorem ne_nil (h : Scopes.Varies r levels scopes others) : scopes ≠ [] ∧ others ≠ [] := by
  cases h <;> exact ⟨List.cons_ne_nil _ _, List.cons_ne_nil _ _⟩

theorem levels_ne_nil (h : Scopes.Varies r levels scopes others) : levels ≠ [] := by
  cases h <;> exact List.cons_ne_nil _ _

theorem hops?_cons (scope : Scope) {outer : Scopes} (some : outer ≠ []) (name : String) :
    Scopes.hops? (scope :: outer) name =
      if scope.contains name then .some 0 else (Scopes.hops? outer name).map (· + 1) := by
  cases outer with
  | nil => exact absurd rfl some
  | cons => rfl

/-- A name and its spelling lead to the same scope. -/
theorem hops? (h : Scopes.Varies r levels scopes others) (fresh : name ≠ r.new) {use : NameUse}
    (found : use.hops = scopes.hops? name) :
    others.hops? (r.spell (use.level levels) name) = scopes.hops? name := by
  induction h generalizing use with
  | global _ => rfl
  | @inside level levels scope other outer outer' head rest ih =>
      obtain ⟨token, hops⟩ := use
      change hops = _ at found
      rw [hops?_cons scope rest.ne_nil.1] at found ⊢
      rw [hops?_cons other rest.ne_nil.2]
      cases held : scope.contains name with
      | true =>
          rw [held, if_pos rfl] at found
          subst found
          change (if other.contains (r.spell level name) = true then _ else _) = _
          rw [head.contains, held]
          rfl
      | false =>
          rw [held, if_neg Bool.false_ne_true] at found
          have inner := ih (show (⟨token, outer.hops? name⟩ : NameUse).hops = _ from rfl)
          have levels_eq : NameUse.level ⟨token, hops⟩ (level :: levels) =
              NameUse.level ⟨token, outer.hops? name⟩ levels := by
            subst found
            cases outer.hops? name <;> rfl
          rw [levels_eq, head.notContains fresh held, if_neg Bool.false_ne_true, inner,
            if_neg Bool.false_ne_true]

theorem isDeclaring (h : Scopes.Varies r levels scopes others) (fresh : name ≠ r.new) {use : NameUse}
    (found : use.hops = scopes.hops? name) (ready : scopes.isDeclaring name = false) :
    others.isDeclaring (r.spell (use.level levels) name) = false := by
  obtain ⟨token, hops⟩ := use
  change hops = _ at found
  subst found
  cases h with
  | global states =>
      refine decide_eq_false fun declaring => ?_
      exact of_decide_eq_false ready ((states name).mp declaring)
  | @inside level levels scope other outer outer' head rest =>
      have lookup : Scopes.hops? (scope :: outer) name = _ := hops?_cons scope rest.ne_nil.1 name
      refine decide_eq_false fun declaring => ?_
      cases held : scope.contains name with
      | true =>
          rw [lookup, held, if_pos rfl] at declaring
          change other.get? (r.spell level name) = _ at declaring
          rw [head.states] at declaring
          exact of_decide_eq_false ready declaring
      | false =>
          have missing := head.notContains fresh held
            (NameUse.level ⟨token, Scopes.hops? (scope :: outer) name⟩ (level :: levels))
          rw [Bindings.contains, declaring] at missing
          cases missing

theorem redeclares (h : Scopes.Varies r levels scopes others) (name : String) :
    others.redeclares (r.spell (levels.headD false) name) = scopes.redeclares name := by
  cases h with
  | global _ => rfl
  | @inside level levels scope other outer outer' head rest =>
      obtain ⟨some, some'⟩ := rest.ne_nil
      cases outer with
      | nil => exact absurd rfl some
      | cons =>
          cases outer' with
          | nil => exact absurd rfl some'
          | cons => exact head.contains name

theorem mark (h : Scopes.Varies r levels scopes others) (fresh : name ≠ r.new) (complete : Bool) :
    Scopes.Varies r levels (scopes.mark name complete)
      (others.mark (r.spell (levels.headD false) name) complete) := by
  cases h with
  | global states =>
      refine .global fun found => ?_
      change (Bindings.set _ name complete).get? found = _ ↔ _
      rw [Bindings.get?_set, Bindings.get?_set]
      by_cases same : found = name
      · rw [if_pos same, if_pos same]
      · rw [if_neg same, if_neg same]
        exact states found
  | inside head rest => exact .inside (head.set fresh complete) rest

theorem leave (h : Scopes.Varies r (level :: levels) scopes others) (some : levels ≠ []) :
    Scopes.Varies r levels scopes.leave others.leave := by
  cases h with
  | global _ => exact absurd rfl some
  | inside _ rest => exact rest

theorem enter (h : Scopes.Varies r levels scopes others) (level : Bool) :
    Scopes.Varies r (level :: levels) (scopes.enter []) (others.enter []) :=
  .inside (.empty r level) h

theorem enter_names (h : Scopes.Varies r levels scopes others) {names : List String}
    (fresh : r.new ∉ names) :
    Scopes.Varies r (false :: levels) (scopes.enter names) (others.enter names) := by
  refine .inside (.same ?_) h
  rw [Marks.get?_enter, if_neg fresh]

end Scopes.Varies

end Scoping

end LoxLang
