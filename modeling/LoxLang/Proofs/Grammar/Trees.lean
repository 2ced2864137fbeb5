import LoxLang.Proofs.Grammar.Derivation
import LoxLang.Proofs.Program.Tokens
import Mathlib.Data.List.Flatten

/-!
The trees that the grammar derives. A tree holds tokens of its own text only, each taken from another place
there and all of them in the order of the text.
-/

namespace LoxLang.Grammar

/-! ## Tokens of expressions -/

theorem Listing.sublist {entries : List (List Token)} {text : List Token}
    (h : Listing entries text) : entries.flatten.Sublist text := by
  induction h with
  | none => exact .slnil
  | one => simp
  | more _ _ _ ih =>
      rw [List.flatten_append, List.flatten_singleton]
      exact ih.append (List.sublist_cons_self _ _)

/-- The tokens of all pieces are among those of their texts if that is so of each. -/
theorem sublist_pieces {α : Type} {tokens : α → List Token} (pieces : List (List Token × α))
    (h : ∀ piece ∈ pieces, (tokens piece.2).Sublist piece.1) :
    ((pieces.map Prod.snd).flatMap tokens).Sublist (pieces.flatMap Prod.fst) := by
  rw [List.flatMap_map]
  exact List.Sublist.flatMap_right pieces h

theorem Level.tokens_combine (level : Level) (left : Expr) (operator : Token) (right : Expr) :
    (level.combine left operator right).tokens = left.tokens ++ operator :: right.tokens := by
  cases level <;> rfl

theorem Phrase.sublist {rule : Rule} {text : List Token} {expr : Expr}
    (h : Phrase rule text expr) : expr.tokens.Sublist text := by
  induction h with
  | assign _ _ _ ih => exact (ih.cons _).cons_cons _
  | set _ _ _ _ _ object value => exact object.append ((value.cons _).cons_cons _ |>.cons _)
  | operation _ ih | operand _ ih | unsigned _ ih | atom _ ih => exact ih
  | operator _ _ _ left right =>
      rw [Level.tokens_combine]
      exact left.append (right.cons_cons _)
  | sign _ _ ih => exact ih.cons_cons _
  | @application _ _ _ _ closing arguments _ _ listing _ _ _ callee ih =>
      have entries := (sublist_pieces arguments ih).trans listing.sublist
      rw [← tokensOfExprs_eq_flatMap] at entries
      exact callee.append ((entries.append (.refl [closing])).cons _)
  | property _ _ _ object => exact object.append (List.sublist_cons_self _ _)
  | literal _ => exact List.nil_sublist _
  | name _ => exact .refl _
  | this _ => exact .refl _
  | super _ _ _ => exact (List.sublist_cons_self _ _).cons_cons _
  | grouping _ _ _ ih => exact (ih.trans (List.sublist_append_left _ _)).cons _

theorem OptionalPhrase.sublist {text : List Token} {expr : Option Expr}
    (h : OptionalPhrase text expr) : (tokensOfExpr? expr).Sublist text := by
  cases h with
  | absent => exact .slnil
  | present h => exact h.sublist

/-! ## Tokens of statements -/

theorem VariableText.sublist {text : List Token} {stmt : Stmt} (h : VariableText text stmt) :
    stmt.tokens.Sublist text := by
  cases h with
  | plain _ _ => exact .cons_cons _ (List.nil_sublist _)
  | initialized _ _ value _ =>
      exact ((value.sublist.trans (List.sublist_append_left _ _)).cons _).cons_cons _

theorem ExpressionText.sublist {text : List Token} {stmt : Stmt} (h : ExpressionText text stmt) :
    stmt.tokens.Sublist text := by
  cases h with
  | expression value _ => exact value.sublist.trans (List.sublist_append_left _ _)

theorem InitializerText.sublist {text : List Token} {stmt : Option Stmt}
    (h : InitializerText text stmt) : (tokensOfStmt? stmt).Sublist text := by
  cases h with
  | absent _ => exact List.nil_sublist _
  | «variable» _ h => exact h.sublist.cons _
  | expression h => exact h.sublist

theorem FunctionText.sublist (text : FunctionText)
    (h : ∀ piece ∈ text.body, piece.2.tokens.Sublist piece.1) :
    text.declaration.tokens.Sublist text.tokens := by
  have params : text.params.Sublist text.listing := by
    have flat : (text.params.map ([·])).flatten = text.params := by
      exact List.flatMap_singleton' _
    rw [← flat]
    exact text.listing_params.sublist
  have body : (tokensOfStmts (text.body.map Prod.snd)).Sublist
      (text.body.flatMap Prod.fst ++ [text.stop]) := by
    rw [tokensOfStmts_eq_flatMap]
    exact (sublist_pieces text.body h).trans (List.sublist_append_left _ _)
  exact ((params.append ((body.cons _).cons _)).cons _).cons_cons _

theorem SuperclassText.sublist {text : List Token} {superclass : Option NameUse}
    (h : SuperclassText text superclass) :
    (match superclass with
      | none => []
      | some superclass => [superclass.name]).Sublist text := by
  cases h with
  | absent => exact .slnil
  | present _ _ => exact List.sublist_cons_self _ _

theorem sublist_forLoop {initText conditionText incrementText bodyText : List Token}
    {initializer : Option Stmt} {condition increment : Option Expr} {body : Stmt}
    (hinit : (tokensOfStmt? initializer).Sublist initText)
    (hcondition : (tokensOfExpr? condition).Sublist conditionText)
    (hincrement : (tokensOfExpr? increment).Sublist incrementText)
    (hbody : body.tokens.Sublist bodyText) :
    (forLoop initializer condition increment body).tokens.Sublist
      (initText ++ (conditionText ++ (incrementText ++ bodyText))) := by
  have hloop : (forLoop none condition increment body).tokens.Sublist
      (conditionText ++ (incrementText ++ bodyText)) := by
    refine List.Sublist.append ?_ (hincrement.append hbody)
    cases condition with
    | none => exact List.nil_sublist _
    | some condition => exact hcondition
  cases initializer with
  | none => exact hloop.trans (List.sublist_append_right _ _)
  | some initializer =>
      refine hinit.append (List.Sublist.trans ?_ hloop)
      simp [forLoop, tokensOfStmts]

theorem Clause.sublist {form : Form} {text : List Token} {stmt : Stmt}
    (h : Clause form text stmt) : stmt.tokens.Sublist text := by
  induction h with
  | @«class» _ _ _ _ _ _ methods _ _ superclass _ _ _ ih =>
      have hmethods :
          (tokensOfFunctions (methods.map FunctionText.declaration)).Sublist
            (methods.flatMap FunctionText.tokens) := by
        rw [tokensOfFunctions_eq_flatMap, List.flatMap_map]
        exact List.Sublist.flatMap_right methods fun method member =>
          method.sublist (ih method member)
      exact ((superclass.sublist.append
        ((hmethods.trans (List.sublist_append_left _ _)).cons _)).cons_cons _).cons _
  | @function _ text _ _ ih => exact (text.sublist ih).cons _
  | «variable» _ h => exact h.sublist.cons _
  | statement _ ih => exact ih
  | «for» _ _ init condition _ increment _ _ ih =>
      refine (sublist_forLoop init.sublist condition.sublist increment.sublist ih).trans ?_
      refine List.Sublist.cons _ (.cons _ (.append (.refl _) (.append (.refl _) ?_)))
      exact .cons _ (.append (.refl _) (List.sublist_cons_self _ _))
  | «if» _ _ condition _ _ ih =>
      simp only [Stmt.tokens, tokensOfStmt?, List.append_nil]
      exact ((condition.sublist.append (ih.cons _)).cons _).cons _
  | ifElse _ _ condition _ _ _ _ first second =>
      exact ((condition.sublist.append ((first.append (second.cons _)).cons _)).cons _).cons _
  | print _ value _ => exact (value.sublist.trans (List.sublist_append_left _ _)).cons _
  | «return» _ value _ => exact (value.sublist.trans (List.sublist_append_left _ _)).cons_cons _
  | «while» _ _ condition _ _ ih =>
      simp only [Stmt.tokens, tokensOfExpr?, List.nil_append]
      exact ((condition.sublist.append (ih.cons _)).cons _).cons _
  | «break» _ _ => exact .cons_cons _ (List.nil_sublist _)
  | «continue» _ _ => exact .cons_cons _ (List.nil_sublist _)
  | @block _ _ pieces _ _ _ ih =>
      simp only [Stmt.tokens, tokensOfStmts_eq_flatMap]
      exact ((sublist_pieces pieces ih).trans (List.sublist_append_left _ _)).cons _
  | expression h => exact h.sublist

end LoxLang.Grammar
