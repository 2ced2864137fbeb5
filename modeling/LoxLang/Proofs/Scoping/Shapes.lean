import LoxLang.Proofs.Scoping.Suited

/-!
The shape of regions: of which sort each region is, whatever names it has. Blocks within the methods of a class
lead to the regions of that class.
-/

namespace LoxLang.Scoping

inductive Shape where
  | block | receiver | superclass

def Region.shape : Region → Shape
  | .block _ => .block
  | .receiver => .receiver
  | .superclass => .superclass

namespace Regions

variable {regions : Regions}

def shape : Regions → List Shape
  | .global _ => []
  | .inside region outer => region.shape :: outer.shape

@[simp] theorem shape_hold (regions : Regions) (name : String) :
    (regions.hold name).shape = regions.shape := by
  match regions with
  | .global _ | .inside (.block _) _ | .inside .receiver _ | .inside .superclass _ => rfl

@[simp] theorem shape_begin (regions : Regions) (name : String) :
    (regions.begin name).shape = regions.shape := by
  match regions with
  | .global _ | .inside (.block _) _ | .inside .receiver _ | .inside .superclass _ => rfl

@[simp] theorem shape_after (regions : Regions) (stmt : Stmt) :
    (regions.after stmt).shape = regions.shape := by
  unfold after
  split
  · exact shape_hold _ _
  · rfl

/-- The innermost class, by the shape of the regions. -/
def classOf : List Shape → ClassContext
  | [] => .none
  | .block :: outer => classOf outer
  | .receiver :: .superclass :: _ => .derived
  | _ => .base

theorem inClass_eq_classOf (regions : Regions) : regions.inClass = classOf regions.shape := by
  induction regions with
  | global _ => rfl
  | inside region outer ih =>
      cases region with
      | block _ => exact ih
      | superclass => rfl
      | receiver =>
          cases outer with
          | global _ => rfl
          | inside next _ => cases next <;> rfl

theorem classOf_blocks (count : Nat) (outer : List Shape) :
    classOf (List.replicate count .block ++ outer) = classOf outer := by
  induction count with
  | zero => rfl
  | succ count ih => exact ih

/-- In the methods of a class `this` is found behind the blocks around the place. -/
theorem Plain.finds_this (h : regions.Plain) {count : Nat} {outer : List Shape}
    (shape : regions.shape = List.replicate count .block ++ .receiver :: outer) :
    regions.Finds "this" count := by
  induction count generalizing regions with
  | zero =>
      match regions with
      | .inside .receiver _ => exact .here rfl
      | .global _ | .inside (.block _) _ | .inside .superclass _ => cases shape
  | succ count ih =>
      match regions with
      | .inside (.block names) inner =>
          have rest : inner.shape = List.replicate count .block ++ .receiver :: outer :=
            (List.cons.inj shape).2
          exact .further (fun declares => (h 0 _ rfl _ declares).1 rfl) (ih h.ofInside rest)
      | .global _ | .inside .receiver _ | .inside .superclass _ => cases shape

theorem Plain.finds_super (h : regions.Plain) {count : Nat} {outer : List Shape}
    (shape : regions.shape = List.replicate count .block ++ .receiver :: .superclass :: outer) :
    regions.Finds "super" (count + 1) := by
  have different : ¬ Region.receiver.Declares "super" :=
    fun (same : "super" = "this") => absurd same (by decide)
  induction count generalizing regions with
  | zero =>
      match regions with
      | .inside .receiver (.inside .superclass _) => exact .further different (.here rfl)
      | .inside .receiver (.global _) | .inside .receiver (.inside (.block _) _)
      | .inside .receiver (.inside .receiver _)
      | .global _ | .inside (.block _) _ | .inside .superclass _ => cases shape
  | succ count ih =>
      match regions with
      | .inside (.block names) inner =>
          have rest : inner.shape =
              List.replicate count .block ++ .receiver :: .superclass :: outer :=
            (List.cons.inj shape).2
          exact .further (fun declares => (h 0 _ rfl _ declares).2 rfl) (ih h.ofInside rest)
      | .global _ | .inside .receiver _ | .inside .superclass _ => cases shape

end Regions

end LoxLang.Scoping
