import LoxLang.Grammar.Statement
import LoxLang.Proofs.Expansion.Trees

/-!
Replacing a statement. Where a `for` is replaced by the blocks that it stands for, the program becomes an expansion of
itself, as long as no `continue` passes the increment by.
-/

namespace LoxLang

open Scoping

/-- The blocks that a `for` stands for: its initializer, then a loop that ends its body with the increment. -/
def Grammar.spelledLoop (initializer : Option Stmt) (condition : Option Expr)
    (increment : Option Expr) (body : Stmt) : Stmt :=
  let round := .block (body :: (increment.map Stmt.expression).toList)
  let loop := .while (condition.getD (.literal (.bool true))) round none
  .block (initializer.toList ++ [loop])

/-- The other node has a statement in the place of one that stands somewhere in this one. -/
inductive Scoping.Node.Replaces (old new : Stmt) : Node → Node → Prop
  | here : Replaces old new (.stmt old) (.stmt new)
  | block {statements statements' : List Stmt} :
      Replaces old new (.statements statements) (.statements statements') →
      Replaces old new (.stmt (.block statements)) (.stmt (.block statements'))
  | method {name : Token} {superclass : Option NameUse} {before after : List FunctionDecl}
      {method method' : FunctionDecl} :
      Replaces old new (.function method) (.function method') →
      Replaces old new (.stmt (.class name superclass (before ++ method :: after)))
        (.stmt (.class name superclass (before ++ method' :: after)))
  | function {declaration declaration' : FunctionDecl} :
      Replaces old new (.function declaration) (.function declaration') →
      Replaces old new (.stmt (.function declaration)) (.stmt (.function declaration'))
  | thenBranch {condition : Expr} {thenBranch thenBranch' : Stmt} {elseBranch : Option Stmt} :
      Replaces old new (.stmt thenBranch) (.stmt thenBranch') →
      Replaces old new (.stmt (.if condition thenBranch elseBranch))
        (.stmt (.if condition thenBranch' elseBranch))
  | elseBranch {condition : Expr} {thenBranch elseBranch elseBranch' : Stmt} :
      Replaces old new (.stmt elseBranch) (.stmt elseBranch') →
      Replaces old new (.stmt (.if condition thenBranch (some elseBranch)))
        (.stmt (.if condition thenBranch (some elseBranch')))
  | round {condition : Expr} {body body' : Stmt} {increment : Option Expr} :
      Replaces old new (.stmt body) (.stmt body') →
      Replaces old new (.stmt (.while condition body increment))
        (.stmt (.while condition body' increment))
  | head {stmt stmt' : Stmt} {rest : List Stmt} :
      Replaces old new (.stmt stmt) (.stmt stmt') →
      Replaces old new (.statements (stmt :: rest)) (.statements (stmt' :: rest))
  | tail {stmt : Stmt} {rest rest' : List Stmt} :
      Replaces old new (.statements rest) (.statements rest') →
      Replaces old new (.statements (stmt :: rest)) (.statements (stmt :: rest'))
  | body {name : Token} {params : List Token} {body body' : List Stmt} :
      Replaces old new (.statements body) (.statements body') →
      Replaces old new (.function ⟨name, params, body⟩) (.function ⟨name, params, body'⟩)

/-! ## Loops -/

/-- A loop with its round in braces, which the increment ends. -/
theorem expands_loop {condition : Expr} {body : Stmt} {increment : Option Expr}
    (wellFormed : (Stmt.while condition body increment).WellFormed)
    (calm : body.continues = false) (gap : Nat) (outer : Gaps) :
    Node.Expands True (gap :: outer) (.stmt (.while condition body increment))
      (.stmt (.while condition (.block (body :: (increment.map Stmt.expression).toList)) none)) := by
  cases wellFormed with
  | «while» test plain round each =>
      have inner : Node.Expands True ((gap + 1) :: outer) (.stmt body) (.stmt body) :=
        round.expands_self fun declares => absurd plain declares
      cases increment with
      | none => exact .while (test.expands_self _) (.brace trivial inner) .none
      | some increment =>
          exact .unroll trivial calm (test.expands_self _) inner
            ((each increment rfl).expands_self _)

theorem expands_forLoop {initializer : Option Stmt} {condition increment : Option Expr}
    {body : Stmt} (wellFormed : (Grammar.forLoop initializer condition increment body).WellFormed)
    (calm : body.continues = false) (gap : Nat) (outer : Gaps) :
    Node.Expands True (gap :: outer)
      (.stmt (Grammar.forLoop initializer condition increment body))
      (.stmt (Grammar.spelledLoop initializer condition increment body)) := by
  cases initializer with
  | none => exact .brace trivial (expands_loop wellFormed calm (gap + 1) outer)
  | some initializer =>
      cases wellFormed with
      | block each =>
          obtain ⟨first, rest⟩ := List.forall_mem_cons.mp each
          have loop := expands_loop (rest _ (List.mem_singleton_self _)) calm 0 (gap :: outer)
          exact .block (.cons (first.expands_self fun _ => rfl) (.cons loop .nil))

/-! ## Programs -/

def Scoping.Node.WellFormed : Node → Prop
  | .expr part => part.WellFormed
  | .stmt part => part.WellFormed
  | .statements parts => ∀ part ∈ parts, part.WellFormed
  | .function declaration => declaration.WellFormed

namespace Scoping.Node.Replaces

variable {old new : Stmt} {node other : Node}

theorem expands_methods {before after : List FunctionDecl} {method method' : FunctionDecl}
    {gaps : Gaps} (wellFormed : ∀ each ∈ before ++ method :: after, each.WellFormed)
    (changed : Node.Expands True gaps (.function method) (.function method')) :
    (before ++ method :: after).length = (before ++ method' :: after).length ∧
      ∀ each each', (each, each') ∈ (before ++ method :: after).zip (before ++ method' :: after) →
        Node.Expands True gaps (.function each) (.function each') := by
  have self (each : FunctionDecl) (member : each ∈ before ++ method :: after) :
      Node.Expands True gaps (.function each) (.function each) :=
    expands_function fun stmt inside =>
      ((wellFormed each member).body stmt inside).expands_self fun _ => rfl
  have all : List.Forall₂ (fun each each' => Node.Expands True gaps (.function each) (.function each'))
      (before ++ method :: after) (before ++ method' :: after) :=
    List.rel_append (List.forall₂_same.mpr fun each member => self each (List.mem_append_left _ member))
      (.cons changed (List.forall₂_same.mpr fun each member =>
        self each (List.mem_append_right _ (List.mem_cons_of_mem _ member))))
  exact ⟨all.length_eq, fun each each' member => List.forall₂_zip all member⟩

/-- A program in which something is expanded is an expansion, as long as there are no marks. -/
theorem expands (h : Replaces old new node other) (wellFormed : node.WellFormed)
    (there : old.WellFormed → ∀ gap outer, Node.Expands True (gap :: outer) (.stmt old) (.stmt new))
    (outer : Gaps) : Node.Expands True (0 :: outer) node other := by
  induction h generalizing outer with
  | here => exact there wellFormed 0 outer
  | block _ ih =>
      cases wellFormed with
      | block each => exact .block (ih each (0 :: outer))
  | @method _ superclass before after _ _ _ ih =>
      cases wellFormed with
      | «class» _ names params bodies =>
          have each (inner : FunctionDecl) (member : inner ∈ before ++ _ :: after) :
              inner.WellFormed := ⟨params inner member, bodies inner member⟩
          have changed (outer : Gaps) := ih (each _ (by simp)) outer
          cases superclass with
          | none =>
              obtain ⟨count, methods⟩ := expands_methods each (changed (0 :: outer))
              exact .class count methods
          | some superclass =>
              obtain ⟨count, methods⟩ := expands_methods each (changed (0 :: 0 :: outer))
              exact .subclass (NameUse.expands_self (names superclass rfl).1 _) count methods
  | function _ ih =>
      cases wellFormed with
      | function _ params body => exact .function (ih ⟨params, body⟩ outer)
  | @thenBranch _ _ _ elseBranch _ ih =>
      cases wellFormed with
      | «if» condition _ inner plainElse each =>
          cases elseBranch with
          | none => exact .if (condition.expands_self _) (ih inner outer)
          | some elseBranch =>
              exact .ifElse (condition.expands_self _) (ih inner outer)
                ((each elseBranch rfl).expands_self fun _ => rfl)
  | elseBranch _ ih =>
      cases wellFormed with
      | «if» condition _ inner _ each =>
          exact .ifElse (condition.expands_self _) (inner.expands_self fun _ => rfl)
            (ih (each _ rfl) outer)
  | round _ ih =>
      cases wellFormed with
      | «while» condition _ body increment =>
          exact .while (condition.expands_self _) (ih body outer)
            (Expr?.expands_self increment _)
  | head _ ih =>
      obtain ⟨first, rest⟩ := List.forall_mem_cons.mp wellFormed
      exact .cons (ih first outer) (expands_self rest outer)
  | tail _ ih =>
      obtain ⟨first, rest⟩ := List.forall_mem_cons.mp wellFormed
      exact .cons (first.expands_self fun _ => rfl) (ih rest outer)
  | body _ ih => exact .declaration (ih wellFormed.body (0 :: outer))

end Scoping.Node.Replaces

end LoxLang
