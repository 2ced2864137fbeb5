import LoxLang.Proofs.Variation.Trees

/-!
Variations of trees without marks. Where there are no marks all names belong to one sort.
-/

namespace LoxLang

open Scoping

/-- The same words may stand for names and for other words. -/
def Variation.loose (related : Token → Token → Prop) : Variation :=
  ⟨related, fun _ => related⟩

/-- Everything that may stand for a word is related to it. -/
structure Variation.Within (v : Variation) (related : Token → Token → Prop) : Prop where
  plain {token other : Token} : v.plain token other → related token other
  named {level : Bool} {token other : Token} : v.named level token other → related token other

def Scoping.Node.unmark : Node → Node
  | .expr value => .expr value.unmark
  | .stmt statement => .stmt statement.unmark
  | .statements block => .statements (unmarkStmts block)
  | .function declaration => .function declaration.unmark

variable {v : Variation} {related : Token → Token → Prop} {levels : Levels}

theorem forall_zip_map {α β : Type} {p : α → α → Prop} {q : β → β → Prop} {f : α → β}
    {items items' : List α} (h : ∀ item item', (item, item') ∈ items.zip items' → p item item')
    (each : ∀ item item', (item, item') ∈ items.zip items' → p item item' → q (f item) (f item')) :
    ∀ item item', (item, item') ∈ (items.map f).zip (items'.map f) → q item item' := by
  intro item item' member
  rw [List.zip_map, List.mem_map] at member
  obtain ⟨⟨first, second⟩, member, same⟩ := member
  cases same
  exact each first second member (h first second member)

theorem NameUse.Varies.unmark {use use' : NameUse} (h : use.Varies v levels use')
    (within : v.Within related) (around : Levels) :
    use.unmark.Varies (.loose related) around use'.unmark :=
  ⟨rfl, within.named h.name⟩

theorem Expr.Varies.unmark {expr expr' : Expr} (h : expr.Varies v levels expr')
    (within : v.Within related) (around : Levels) :
    expr.unmark.Varies (.loose related) around expr'.unmark := by
  induction h with
  | assign target _ value => exact .assign (target.unmark within around) value
  | binary _ operator _ left right => exact .binary left (within.plain operator) right
  | call _ paren count arguments callee each =>
      refine .call callee (within.plain paren) ?_ ?_
      · rw [unmarkExprs_eq_map, unmarkExprs_eq_map, List.length_map, List.length_map, count]
      · rw [unmarkExprs_eq_map, unmarkExprs_eq_map]
        exact forall_zip_map arguments fun argument argument' member _ =>
          each argument argument' member
  | get _ name object => exact .get object (within.plain name)
  | grouping _ inner => exact .grouping inner
  | literal => exact .literal
  | logical _ operator _ left right => exact .logical left (within.plain operator) right
  | set _ name _ object value => exact .set object (within.plain name) value
  | super keyword method => exact .super (keyword.unmark within around) (within.plain method)
  | this keyword => exact .this (keyword.unmark within around)
  | unary operator _ right => exact .unary (within.plain operator) right
  | «variable» use => exact .variable (use.unmark within around)

theorem Expr?.Varies.unmark {expr expr' : Option Expr} (h : Expr?.Varies v levels expr expr')
    (within : v.Within related) (around : Levels) :
    Expr?.Varies (.loose related) around (expr.map Expr.unmark) (expr'.map Expr.unmark) := by
  cases h with
  | none => exact .none
  | some h => exact .some (h.unmark within around)

theorem Token.Kept.unmark {name name' : Token} (h : name.Kept v levels name')
    (within : v.Within related) (around : Levels) :
    name.Kept (.loose related) around name' :=
  ⟨within.plain h.plain, within.plain h.plain⟩

theorem Scoping.Node.Varies.unmark {node node' : Node} (h : Node.Varies v levels node node')
    (within : v.Within related) (around : Levels) :
    Node.Varies (.loose related) around node.unmark node'.unmark := by
  induction h generalizing around with
  | expr expr => exact .expr (expr.unmark within around)
  | block _ ih => exact .block (ih (false :: around))
  | «break» keyword => exact .break (within.plain keyword)
  | «class» name count methods each =>
      refine .class (name.unmark within around) ?_ ?_
      · rw [unmarkFunctions_eq_map, unmarkFunctions_eq_map, List.length_map, List.length_map, count]
      · rw [unmarkFunctions_eq_map, unmarkFunctions_eq_map]
        exact forall_zip_map methods fun method method' member _ => each method method' member _
  | subclass name superclass count methods each =>
      refine .subclass (name.unmark within around) (superclass.unmark within around) ?_ ?_
      · rw [unmarkFunctions_eq_map, unmarkFunctions_eq_map, List.length_map, List.length_map, count]
      · rw [unmarkFunctions_eq_map, unmarkFunctions_eq_map]
        exact forall_zip_map methods fun method method' member _ => each method method' member _
  | «continue» keyword => exact .continue (within.plain keyword)
  | expression value => exact .expression (value.unmark within around)
  | @function _ declaration declaration' name _ ih =>
      have code := ih around
      obtain ⟨name, params, body⟩ := declaration
      obtain ⟨name', params', body'⟩ := declaration'
      exact .function (Token.Kept.unmark (by assumption) within around) code
  | «if» condition _ thenBranch =>
      exact .if (condition.unmark within around) (thenBranch around)
  | ifElse condition _ _ thenBranch elseBranch =>
      exact .ifElse (condition.unmark within around) (thenBranch around) (elseBranch around)
  | print value => exact .print (value.unmark within around)
  | «return» keyword value => exact .return (within.plain keyword) (value.unmark within around)
  | var name value => exact .var (within.named name) (value.unmark within around)
  | «while» condition _ increment body =>
      exact .while (condition.unmark within around) (body around) (increment.unmark within around)
  | nil => exact .nil
  | cons _ _ stmt rest => exact .cons (stmt around) (rest around)
  | declaration name params _ body =>
      exact .declaration (within.plain name) (params.imp fun _ _ => within.named)
        (body (false :: around))

end LoxLang
