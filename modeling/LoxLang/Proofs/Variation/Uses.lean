import LoxLang.Proofs.Variation.Trees
import LoxLang.Scoping.Uses

/-!
Marks of variations. A variation uses names in the same places, and they are marked as they were.
-/

namespace LoxLang

open Scoping

/-- A use in the same form and with the same mark, whatever the name. -/
structure LocalUse.Like (use other : LocalUse) : Prop where
  form : other.form = use.form
  hops : other.hops = use.hops

abbrev UsesLike : List LocalUse → List LocalUse → Prop :=
  List.Forall₂ LocalUse.Like

def Scoping.Node.localUses : Node → List LocalUse
  | .expr value => value.localUses
  | .stmt statement => statement.localUses
  | .statements block => localUsesOfStmts block
  | .function declaration => declaration.localUses

theorem localUsesOfExprs_eq_flatMap (exprs : List Expr) :
    localUsesOfExprs exprs = exprs.flatMap Expr.localUses := by
  induction exprs with
  | nil => rfl
  | cons expr rest ih => rw [localUsesOfExprs, List.flatMap_cons, ih]

theorem localUsesOfFunctions_eq_flatMap (declarations : List FunctionDecl) :
    localUsesOfFunctions declarations = declarations.flatMap FunctionDecl.localUses := by
  induction declarations with
  | nil => rfl
  | cons declaration rest ih => rw [localUsesOfFunctions, List.flatMap_cons, ih]

/-- The uses in entries are alike if those in each entry are. -/
theorem usesLike_flatMap {α : Type} {uses : α → List LocalUse} {items others : List α}
    (count : items.length = others.length)
    (each : ∀ item other, (item, other) ∈ items.zip others → UsesLike (uses item) (uses other)) :
    UsesLike (items.flatMap uses) (others.flatMap uses) :=
  List.rel_flatMap (List.forall₂_iff_zip.mpr ⟨count, fun member => each _ _ member⟩)
    fun _ _ => id

variable {v : Variation} {levels : Levels}

theorem NameUse.Varies.usesLike {use other : NameUse} (h : use.Varies v levels other)
    (form : UseForm) : UsesLike (use.localUse form) (other.localUse form) := by
  unfold NameUse.localUse
  rw [h.hops]
  cases use.hops with
  | none => exact .nil
  | some hops => exact .cons ⟨rfl, rfl⟩ .nil

theorem Expr.Varies.usesLike {expr other : Expr} (h : expr.Varies v levels other) :
    UsesLike expr.localUses other.localUses := by
  induction h with
  | assign target _ value => exact List.rel_append value (target.usesLike .assign)
  | binary _ _ _ left right | logical _ _ _ left right => exact List.rel_append left right
  | call _ _ count _ callee each =>
      refine List.rel_append callee ?_
      rw [localUsesOfExprs_eq_flatMap, localUsesOfExprs_eq_flatMap]
      exact usesLike_flatMap count each
  | get _ _ object => exact object
  | grouping _ inner => exact inner
  | literal => exact .nil
  | set _ _ _ object value => exact List.rel_append value object
  | super keyword _ => exact keyword.usesLike .super
  | this keyword => exact keyword.usesLike .this
  | unary _ _ right => exact right
  | «variable» use => exact use.usesLike .variable

theorem Expr?.Varies.usesLike {expr other : Option Expr} (h : Expr?.Varies v levels expr other) :
    UsesLike (localUsesOfExpr? expr) (localUsesOfExpr? other) := by
  cases h with
  | none => exact .nil
  | some h => exact h.usesLike

/-- A variation is marked as the tree is. -/
theorem Scoping.Node.Varies.usesLike {node other : Node} (h : Node.Varies v levels node other) :
    UsesLike node.localUses other.localUses := by
  induction h with
  | expr value | expression value | print value => exact value.usesLike
  | block _ ih | function _ _ ih | declaration _ _ _ ih => exact ih
  | «break» _ | «continue» _ | nil => exact .nil
  | «class» _ count _ each =>
      refine List.rel_append .nil ?_
      rw [localUsesOfFunctions_eq_flatMap, localUsesOfFunctions_eq_flatMap]
      exact usesLike_flatMap count each
  | subclass _ superclass count _ each =>
      refine List.rel_append (superclass.usesLike .variable) ?_
      rw [localUsesOfFunctions_eq_flatMap, localUsesOfFunctions_eq_flatMap]
      exact usesLike_flatMap count each
  | «if» condition _ first =>
      exact List.rel_append (List.rel_append condition.usesLike first) .nil
  | ifElse condition _ _ first second =>
      exact List.rel_append (List.rel_append condition.usesLike first) second
  | «return» _ value | var _ value => exact value.usesLike
  | «while» condition _ increment body =>
      exact List.rel_append (List.rel_append condition.usesLike body) increment.usesLike
  | cons _ _ stmt rest => exact List.rel_append stmt rest

end LoxLang
