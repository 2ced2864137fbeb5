import Mathlib.Data.List.Pairwise
import LoxLang.Proofs.Scoping.Regions

/-!
Declarations in one scope. Where every declaration is new in its region, no two statements of a block declare the same
name, and none declares what the block held before.
-/

namespace LoxLang.Scoping

variable {regions outer : Regions} {names : Names} {statements : List Stmt} {means : Place → Prop}

theorem Everywhere.part {place inner : Place} (h : Everywhere means place) (part : Part place inner) :
    Everywhere means inner :=
  fun last within => h last (.head part within)

theorem Everywhere.of_mem {stmt : Stmt} (h : Everywhere means ⟨regions, .statements statements⟩)
    (member : stmt ∈ statements) : ∃ inner, Everywhere means ⟨inner, .stmt stmt⟩ := by
  induction statements generalizing regions with
  | nil => cases member
  | cons first rest ih =>
      rcases List.mem_cons.mp member with rfl | member
      · exact ⟨regions, h.part .head⟩
      · exact ih (h.part .tail) member

/-- What a scope held is held behind a statement, and what the statement declares. -/
theorem exists_after (names : Names) (outer : Regions) (stmt : Stmt) :
    ∃ later, (Regions.inside (.block names) outer).after stmt = .inside (.block later) outer ∧
      (∀ name ∈ names.held, name ∈ later.held) ∧
      ∀ name, stmt.declared? = some name → name.lexeme ∈ later.held := by
  cases declared : stmt.declared? with
  | none => exact ⟨names, Regions.after_of_none declared _, fun _ => id, nofun⟩
  | some name =>
      refine ⟨names.hold name.lexeme, by rw [Regions.after, declared]; rfl,
        fun _ => List.mem_cons_of_mem _, fun other same => ?_⟩
      cases same
      exact List.mem_cons_self

/-- The statements do not declare the same name. -/
def Apart (first later : Stmt) : Prop :=
  ∀ name other, first.declared? = some name → later.declared? = some other →
    name.lexeme ≠ other.lexeme

instance : Std.Symm Apart where
  symm _ _ apart name other first later := (apart other name later first).symm

/-- What is declared in a scope without errors has not been declared there before. -/
theorem distinct_statements
    (h : Everywhere Place.Distinct ⟨.inside (.block names) outer, .statements statements⟩) :
    (∀ stmt ∈ statements, ∀ name, stmt.declared? = some name → name.lexeme ∉ names.held) ∧
      statements.Pairwise Apart := by
  induction statements generalizing names with
  | nil => exact ⟨nofun, .nil⟩
  | cons stmt rest ih =>
      obtain ⟨later, after, keeps, adds⟩ := exists_after names outer stmt
      have tail := h.part .tail
      rw [after] at tail
      obtain ⟨unheld, pairs⟩ := ih tail
      refine ⟨List.forall_mem_cons.mpr ⟨h.part .head _ .refl, ?_⟩, .cons ?_ pairs⟩
      · exact fun other member name declared held =>
          unheld other member name declared (keeps _ held)
      · intro other member name next declared declared' same
        exact unheld other member next declared' (same ▸ adds name declared)

end LoxLang.Scoping
