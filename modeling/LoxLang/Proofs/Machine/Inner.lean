import LoxLang.Proofs.Machine.Code
import LoxLang.Proofs.Machine.Soundness
import LoxLang.Proofs.Scoping.Shapes
import LoxLang.Proofs.Store.Keywords

/-!
Code within code. From a piece of code, such as a method, blocks and the bodies of functions lead to scopes further
and further within the scope of that piece; the methods of a class within it are not counted.
-/

namespace LoxLang

open Scoping

/-- A node that lies in the origin, not in a class within it, and a scope in which it runs if the origin runs in the
scope at the start. -/
inductive Inner (forest : Forest) (start : ScopeId) (origin : Node) : ScopeId → Node → Prop
  | here : Inner forest start origin start origin
  | part {scope : ScopeId} {whole part : Node} :
      Inner forest start origin scope whole → whole.Includes part →
      Inner forest start origin scope part
  | block {scope inner : ScopeId} {statements : List Stmt} :
      Inner forest start origin scope (.stmt (.block statements)) →
      forest.enclosing? inner = some scope →
      Inner forest start origin inner (.statements statements)
  | body {scope inner : ScopeId} {declaration : FunctionDecl} :
      Inner forest start origin scope (.function declaration) →
      forest.enclosing? inner = some scope →
      Inner forest start origin inner (.statements declaration.body)

theorem Scoping.Node.Includes.place {whole part : Node} (h : whole.Includes part)
    (regions : Regions) :
    ∃ inner, Part ⟨regions, whole⟩ ⟨inner, part⟩ ∧ inner.shape = regions.shape := by
  cases h with
  | branch member => exact ⟨_, .branch member, rfl⟩
  | expr member => exact ⟨_, .expr member, rfl⟩
  | exprOf member => exact ⟨_, .exprOf member, rfl⟩
  | function => exact ⟨_, .function, Regions.shape_hold _ _⟩
  | head => exact ⟨_, .head, rfl⟩
  | initializer => exact ⟨_, .initializer, Regions.shape_begin _ _⟩
  | superclass => exact ⟨_, .superclass, Regions.shape_begin _ _⟩
  | tail => exact ⟨_, .tail, Regions.shape_after _ _⟩

namespace Inner

variable {before after forest : Forest} {start scope : ScopeId} {origin node : Node}

theorem later (h : Inner before start origin scope node) (remembers : before.Remembers after) :
    Inner after start origin scope node := by
  induction h with
  | here => exact .here
  | part _ includes ih => exact ih.part includes
  | block _ link ih => exact ih.block (remembers.enclosing_of_some link)
  | body _ link ih => exact ih.body (remembers.enclosing_of_some link)

/-- The regions of the origin lie behind one block for each scope within the one at the start. -/
theorem stands {programs : List (List Stmt)} {regions : Regions}
    (h : Inner forest start origin scope node)
    (hstands : StandsIn programs ⟨regions, origin⟩) :
    ∃ inner count, StandsIn programs ⟨inner, node⟩ ∧
      inner.shape = List.replicate count .block ++ regions.shape ∧
      forest.ancestor? scope count = some start := by
  have enter {scope outer : ScopeId} {count : Nat} (link : forest.enclosing? scope = some outer)
      (walk : forest.ancestor? outer count = some start) :
      forest.ancestor? scope (count + 1) = some start := by
    rw [Forest.ancestor?, link]
    exact walk
  induction h with
  | here => exact ⟨regions, 0, hstands, rfl, rfl⟩
  | part _ includes ih =>
      obtain ⟨inner, count, stands, shape, walk⟩ := ih
      obtain ⟨further, part, same⟩ := includes.place inner
      exact ⟨further, count, stands.part part, same.trans shape, walk⟩
  | block _ link ih =>
      obtain ⟨inner, count, stands, shape, walk⟩ := ih
      exact ⟨_, count + 1, stands.part .block, congrArg (List.cons Shape.block) shape, enter link walk⟩
  | body _ link ih =>
      obtain ⟨inner, count, stands, shape, walk⟩ := ih
      exact ⟨_, count + 1, stands.part .body, congrArg (List.cons Shape.block) shape, enter link walk⟩

end Inner

end LoxLang
