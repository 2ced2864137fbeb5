import LoxLang.Proofs.Grammar.WellFormed
import LoxLang.Proofs.Program.Unmarked
import Mathlib.Logic.Basic

/-!
The trees that are read have no marks, whatever the tokens are.
-/

namespace LoxLang.Grammar

/-- Trees with their texts, none of which has marks, make a list without marks. -/
theorem map_snd_eq {α : Type} {unmark : α → α} {pieces : List (List Token × α)}
    (h : ∀ piece ∈ pieces, unmark piece.2 = piece.2) : (pieces.map Prod.snd).map unmark = pieces.map Prod.snd := by
  rw [List.map_map]
  exact List.map_congr_left h

theorem Level.unmark_combine (level : Level) (left : Expr) (operator : Token) (right : Expr) :
    (level.combine left operator right).unmark = level.combine left.unmark operator right.unmark := by
  cases level <;> rfl

theorem Phrase.unmark {rule : Rule} {text : List Token} {expr : Expr} (h : Phrase rule text expr) :
    expr.unmark = expr := by
  induction h with
  | assign _ _ _ ih => exact congrArg (Expr.assign _) ih
  | set _ _ _ _ _ object value => exact congrArg₂ (Expr.set · _) object value
  | operation _ ih | operand _ ih | unsigned _ ih | atom _ ih => exact ih
  | operator _ _ _ left right => rw [Level.unmark_combine, left, right]
  | sign _ _ ih => exact congrArg (Expr.unary _) ih
  | application _ _ _ _ _ _ callee ih =>
      rw [Expr.unmark, callee, unmarkExprs_eq_map, map_snd_eq ih]
  | property _ _ _ object => exact congrArg (Expr.get · _) object
  | literal _ | name _ | this _ | super _ _ _ => rfl
  | grouping _ _ _ ih => exact congrArg Expr.grouping ih

theorem OptionalPhrase.unmark {text : List Token} {expr : Option Expr} (h : OptionalPhrase text expr) :
    expr.map Expr.unmark = expr := by
  cases h with
  | absent => rfl
  | present h => exact congrArg some h.unmark

theorem VariableText.unmark {text : List Token} {stmt : Stmt} (h : VariableText text stmt) :
    stmt.unmark = stmt := by
  cases h with
  | plain => rfl
  | initialized _ _ value _ => exact congrArg (Stmt.var _ ∘ some) value.unmark

theorem ExpressionText.unmark {text : List Token} {stmt : Stmt} (h : ExpressionText text stmt) :
    stmt.unmark = stmt := by
  cases h with
  | expression value _ => exact congrArg Stmt.expression value.unmark

theorem InitializerText.unmark {text : List Token} {stmt : Option Stmt} (h : InitializerText text stmt) :
    unmarkStmt? stmt = stmt := by
  cases h with
  | absent => rfl
  | «variable» _ h => exact congrArg some h.unmark
  | expression h => exact congrArg some h.unmark

theorem SuperclassText.unmark {text : List Token} {superclass : Option NameUse}
    (h : SuperclassText text superclass) : superclass.map NameUse.unmark = superclass := by
  cases h <;> rfl

theorem FunctionText.unmark_declaration {text : FunctionText} (h : ∀ piece ∈ text.body, piece.2.unmark = piece.2) :
    text.declaration.unmark = text.declaration := by
  rw [declaration, FunctionDecl.unmark, unmarkStmts_eq_map, map_snd_eq h]

theorem unmark_forLoop {initializer : Option Stmt} {condition increment : Option Expr} {body : Stmt}
    (hinit : unmarkStmt? initializer = initializer) (hcondition : condition.map Expr.unmark = condition)
    (hincrement : increment.map Expr.unmark = increment) (hbody : body.unmark = body) :
    (forLoop initializer condition increment body).unmark = forLoop initializer condition increment body := by
  have hloop : (forLoop none condition increment body).unmark = forLoop none condition increment body := by
    cases condition with
    | none => rw [forLoop, Stmt.unmark, hbody, hincrement]; rfl
    | some condition => rw [forLoop, Stmt.unmark, hbody, hincrement, Option.getD_some, Option.some.inj hcondition]
  cases initializer with
  | none => exact hloop
  | some initializer => exact congrArg₂ (fun first loop => Stmt.block [first, loop]) (Option.some.inj hinit) hloop

theorem Clause.unmark {form : Form} {text : List Token} {stmt : Stmt} (h : Clause form text stmt) :
    stmt.unmark = stmt := by
  induction h with
  | @«class» _ _ _ _ _ _ methods _ _ hsuper _ _ _ ih =>
      have hmethods : (methods.map FunctionText.declaration).map FunctionDecl.unmark =
          methods.map FunctionText.declaration := by
        rw [List.map_map]
        exact List.map_congr_left fun method hmethod => FunctionText.unmark_declaration (ih method hmethod)
      rw [Stmt.unmark, hsuper.unmark, unmarkFunctions_eq_map, hmethods]
  | function _ _ ih => exact congrArg Stmt.function (FunctionText.unmark_declaration ih)
  | «variable» _ h => exact h.unmark
  | statement _ ih => exact ih
  | «for» _ _ hinit hcondition _ hincrement _ _ ih =>
      exact unmark_forLoop hinit.unmark hcondition.unmark hincrement.unmark ih
  | «if» _ _ hcondition _ _ ih => exact congrArg₂ (Stmt.if · · none) hcondition.unmark ih
  | ifElse _ _ hcondition _ _ _ _ first second =>
      rw [Stmt.unmark, unmarkStmt?, hcondition.unmark, first, second]
  | print _ h _ => exact congrArg Stmt.print h.unmark
  | «return» _ h _ => exact congrArg (Stmt.return _) h.unmark
  | «while» _ _ hcondition _ _ ih => exact congrArg₂ (Stmt.while · · none) hcondition.unmark ih
  | «break» _ _ | «continue» _ _ => rfl
  | block _ _ _ ih => rw [Stmt.unmark, unmarkStmts_eq_map, map_snd_eq ih]
  | expression h => exact h.unmark

end LoxLang.Grammar

namespace LoxLang

open Grammar

/-- A program that is read has no marks, even where there are errors in it. -/
theorem Program.unmark_ofTokens (depth : Nat) (tokens : List Token) :
    unmarkStmts (ofTokens depth tokens).statements = (ofTokens depth tokens).statements := by
  have unmarked : ∀ stmt ∈ (ofTokens depth tokens).statements, stmt.unmark = id stmt := by
    intro stmt member
    have read := clause_of_mem_declarations tokens.length depth tokens.length #[] ⟨tokens, #[]⟩
      (Array.mem_toList_iff.mp member)
    rcases read with absurd | ⟨text, -, clause⟩
    · simp at absurd
    · exact clause.unmark
  rw [unmarkStmts_eq_map, List.map_congr_left unmarked, List.map_id]

end LoxLang
