import LoxLang.Proofs.Grammar.Slices
import LoxLang.Proofs.Program.WellFormed

/-!
What the grammar derives from well spelled tokens is well formed, and so is every program that is read from
them, with errors or without.
-/

namespace LoxLang.Grammar

theorem Level.wellFormed_combine {level : Level} {left right : Expr} {operator : Token}
    (hkind : operator.kind ∈ level.operators) (hleft : left.WellFormed)
    (hright : right.WellFormed) : (level.combine left operator right).WellFormed := by
  cases level with
  | or | and => exact .logical hleft hright
  | _ => exact .binary (by revert hkind; simp [Level.operators, binaryKinds]; grind) hleft hright

theorem Phrase.wellFormed {rule : Rule} {text : List Token} {expr : Expr}
    (h : Phrase rule text expr) (spelled : ∀ token ∈ text, token.Spelled) :
    expr.WellFormed := by
  induction h with
  | @assign name _ _ _ hname _ _ ih =>
      have target : name.Names := (spelled name (by simp)).names hname
      exact .assign ⟨rfl, target⟩ (ih fun token member => spelled token (by simp [member]))
  | set _ _ _ _ _ object value =>
      exact .set (object fun token member => spelled token (by simp [member]))
        (value fun token member => spelled token (by simp [member]))
  | operation _ ih | operand _ ih | unsigned _ ih | atom _ ih => exact ih spelled
  | operator _ hkind _ left right =>
      exact Level.wellFormed_combine hkind
        (left fun token member => spelled token (by simp [member]))
        (right fun token member => spelled token (by simp [member]))
  | sign hkind _ ih =>
      exact .unary hkind (ih fun token member => spelled token (by simp [member]))
  | @application _ _ _ _ _ arguments _ _ listing _ _ _ callee ih =>
      refine .call (callee fun token member => spelled token (by simp [member])) ?_
      intro argument member
      obtain ⟨piece, hpiece, rfl⟩ := List.mem_map.mp member
      refine ih piece hpiece fun token htoken => spelled token ?_
      have inside : token ∈ (arguments.map Prod.fst).flatten :=
        List.mem_flatten_of_mem (List.mem_map_of_mem hpiece) htoken
      simp [listing.sublist.mem inside]
  | property _ _ _ object => exact .get (object fun token member => spelled token (by simp [member]))
  | literal _ => exact .literal
  | @name name hname =>
      have names : name.Names := (spelled name (by simp)).names hname
      exact .variable ⟨rfl, names⟩
  | @this keyword hkind =>
      have spelling : keyword.lexeme = "this" := (spelled keyword (by simp)).this hkind
      exact .this rfl spelling
  | @super keyword _ _ hkind _ _ =>
      have spelling : keyword.lexeme = "super" := (spelled keyword (by simp)).super hkind
      exact .super rfl spelling
  | grouping _ _ _ ih => exact .grouping (ih fun token member => spelled token (by simp [member]))

theorem OptionalPhrase.wellFormed {text : List Token} {value : Option Expr}
    (h : OptionalPhrase text value) (spelled : ∀ token ∈ text, token.Spelled) :
    WellFormedExpr? value := by
  rintro expr rfl
  cases h with
  | present h => exact h.wellFormed spelled

theorem VariableText.wellFormed {text : List Token} {stmt : Stmt} (h : VariableText text stmt)
    (spelled : ∀ token ∈ text, token.Spelled) : stmt.WellFormed := by
  cases h with
  | plain hname _ => exact .var ((spelled _ (by simp)).names hname) nofun
  | initialized hname _ value _ =>
      refine .var ((spelled _ (by simp)).names hname) ?_
      rintro _ ⟨⟩
      exact value.wellFormed fun token member => spelled token (by simp [member])

theorem ExpressionText.wellFormed {text : List Token} {stmt : Stmt} (h : ExpressionText text stmt)
    (spelled : ∀ token ∈ text, token.Spelled) : stmt.WellFormed := by
  cases h with
  | expression h _ =>
      exact .expression (h.wellFormed fun token member => spelled token (by simp [member]))

theorem InitializerText.wellFormed {text : List Token} {initializer : Option Stmt}
    (h : InitializerText text initializer) (spelled : ∀ token ∈ text, token.Spelled) :
    ∀ stmt, initializer = some stmt → stmt.WellFormed := by
  rintro stmt rfl
  cases h with
  | «variable» _ h => exact h.wellFormed fun token member => spelled token (by simp [member])
  | expression h => exact h.wellFormed spelled

theorem FunctionText.param_names (text : FunctionText)
    (spelled : ∀ token ∈ text.tokens, token.Spelled) :
    ∀ param ∈ text.declaration.params, param.Names := by
  intro param member
  have flat : (text.params.map ([·])).flatten = text.params := List.flatMap_singleton' _
  have inside : param ∈ text.listing := by
    refine text.listing_params.sublist.mem ?_
    rw [flat]
    exact member
  exact (spelled param (by simp [tokens, inside])).names (text.param_kind param member)

theorem wellFormed_forLoop {initializer : Option Stmt} {condition increment : Option Expr}
    {body : Stmt} (hinit : ∀ stmt, initializer = some stmt → stmt.WellFormed)
    (hcondition : WellFormedExpr? condition) (hincrement : WellFormedExpr? increment)
    (hbody : body.WellFormed) (inner : body.declared? = none) :
    (forLoop initializer condition increment body).WellFormed := by
  have hloop : (forLoop none condition increment body).WellFormed := by
    refine .while ?_ inner hbody hincrement
    cases condition with
    | none => exact .literal
    | some condition => exact hcondition condition rfl
  cases initializer with
  | none => exact hloop
  | some initializer =>
      refine .block fun stmt member => ?_
      rcases List.mem_cons.mp member with rfl | member
      · exact hinit _ rfl
      · rw [List.mem_singleton.mp member]
        exact hloop

theorem declared?_forLoop (initializer : Option Stmt) (condition increment : Option Expr)
    (body : Stmt) : (forLoop initializer condition increment body).declared? = none := by
  cases initializer <;> rfl

theorem Clause.declared? {dangles : Bool} {text : List Token} {stmt : Stmt}
    (h : Clause (.statement dangles) text stmt) : stmt.declared? = none := by
  cases h with
  | «for» => exact declared?_forLoop _ _ _ _
  | expression h => cases h; rfl
  | _ => rfl

theorem wellFormed_pieces {pieces : List (List Token × Stmt)}
    (h : ∀ piece ∈ pieces, (∀ token ∈ piece.1, token.Spelled) → piece.2.WellFormed)
    (spelled : ∀ token ∈ pieces.flatMap Prod.fst, token.Spelled) :
    ∀ stmt ∈ pieces.map Prod.snd, stmt.WellFormed := by
  intro stmt member
  obtain ⟨piece, hpiece, rfl⟩ := List.mem_map.mp member
  exact h piece hpiece fun token htoken =>
    spelled token (List.mem_flatMap.mpr ⟨piece, hpiece, htoken⟩)

theorem Clause.wellFormed {form : Form} {text : List Token} {stmt : Stmt}
    (h : Clause form text stmt) (spelled : ∀ token ∈ text, token.Spelled) :
    stmt.WellFormed := by
  induction h with
  | @«class» _ _ _ _ superText superclass methods _ hname hsuper _ _ _ ih =>
      have methodSpelled (method : FunctionText) (hmethod : method ∈ methods) :
          ∀ token ∈ method.tokens, token.Spelled := by
        intro token member
        have inside : token ∈ methods.flatMap FunctionText.tokens :=
          List.mem_flatMap.mpr ⟨method, hmethod, member⟩
        exact spelled token (by simp only [List.mem_cons, List.mem_append, inside]; simp)
      refine .class ((spelled _ (by simp)).names hname) ?_ ?_ ?_
      · rintro found rfl
        cases hsuper with
        | @present _ parent _ hkind =>
            have names : parent.Names := (spelled parent (by simp)).names hkind
            exact ⟨rfl, names⟩
      · intro declaration member
        obtain ⟨method, hmethod, rfl⟩ := List.mem_map.mp member
        exact method.param_names (methodSpelled method hmethod)
      · intro declaration member
        obtain ⟨method, hmethod, rfl⟩ := List.mem_map.mp member
        refine wellFormed_pieces (ih method hmethod) fun token htoken => ?_
        exact methodSpelled method hmethod token
          (by simp only [FunctionText.tokens, List.mem_cons, List.mem_append, htoken]; simp)
  | @function _ text _ _ ih =>
      have bodySpelled : ∀ token ∈ text.tokens, token.Spelled :=
        fun token member => spelled token (List.mem_cons_of_mem _ member)
      have names : text.name.Names :=
        (bodySpelled text.name (by simp [FunctionText.tokens])).names text.name_kind
      refine .function names (text.param_names bodySpelled)
        (wellFormed_pieces ih fun token htoken => ?_)
      exact bodySpelled token
        (by simp only [FunctionText.tokens, List.mem_cons, List.mem_append, htoken]; simp)
  | «variable» _ h => exact h.wellFormed fun token member => spelled token (by simp [member])
  | statement _ ih => exact ih spelled
  | «for» _ _ hinit hcondition _ hincrement _ hbody ih =>
      exact wellFormed_forLoop
        (hinit.wellFormed fun token member => spelled token (by simp [member]))
        (hcondition.wellFormed fun token member => spelled token (by simp [member]))
        (hincrement.wellFormed fun token member => spelled token (by simp [member]))
        (ih fun token member => spelled token (by simp [member])) hbody.declared?
  | «if» _ _ hcondition _ hthen ih =>
      exact .if (hcondition.wellFormed fun token member => spelled token (by simp [member]))
        hthen.declared? (ih fun token member => spelled token (by simp [member])) nofun nofun
  | ifElse _ _ hcondition _ hthen _ helse first second =>
      refine .if (hcondition.wellFormed fun token member => spelled token (by simp [member]))
        hthen.declared? (first fun token member => spelled token (by simp [member])) ?_ ?_
      · rintro found ⟨⟩
        exact helse.declared?
      · rintro found ⟨⟩
        exact second fun token member => spelled token (by simp [member])
  | print _ h _ =>
      exact .print (h.wellFormed fun token member => spelled token (by simp [member]))
  | «return» _ h _ =>
      exact .return (h.wellFormed fun token member => spelled token (by simp [member]))
  | «while» _ _ hcondition _ hbody ih =>
      exact .while (hcondition.wellFormed fun token member => spelled token (by simp [member]))
        hbody.declared? (ih fun token member => spelled token (by simp [member])) nofun
  | «break» _ _ => exact .break
  | «continue» _ _ => exact .continue
  | block _ _ _ ih =>
      exact .block (wellFormed_pieces ih fun token member => spelled token
        (by simp only [List.mem_cons, List.mem_append, member]; simp))
  | expression h => exact h.wellFormed spelled

/-! ## Programs -/

/-- Whatever is read is derived from some of the tokens. -/
theorem clause_of_mem_declarations (rounds depth remaining : Nat)
    (statements : Array Stmt) (cursor : Cursor) {stmt : Stmt}
    (member : stmt ∈ (declarations rounds depth remaining statements cursor).1) :
    stmt ∈ statements ∨
      ∃ text, (∀ token ∈ text, token ∈ cursor.ahead) ∧ Clause .declaration text stmt := by
  induction remaining generalizing statements cursor with
  | zero => exact .inl member
  | succ remaining ih =>
      rw [declarations] at member
      split at member
      · exact .inl member
      split at member
      · next found next hread =>
        obtain ⟨used, errors, moves, sound⟩ := declaration_ok hread
        have clean : errors = [] := by
          cases errors with
          | nil => rfl
          | cons error errors => cases sound.faulty (List.cons_ne_nil _ _)
        obtain ⟨_, hkept, hclause, -⟩ := sound.clean clean
        cases hkept
        rcases ih _ _ member with member | ⟨text, inside, htext⟩
        · rcases Array.mem_push.mp member with member | rfl
          · exact .inl member
          · refine .inr ⟨used, fun token htoken => ?_, hclause⟩
            rw [moves.ahead]
            exact List.mem_append_left _ htoken
        · refine .inr ⟨text, fun token htoken => ?_, htext⟩
          rw [moves.ahead]
          exact List.mem_append_right _ (inside token htoken)
      · next next hread =>
        obtain ⟨used, errors, moves, -⟩ := declaration_ok hread
        rcases ih _ _ member with member | ⟨text, inside, htext⟩
        · exact .inl member
        · refine .inr ⟨text, fun token htoken => ?_, htext⟩
          rw [moves.ahead]
          exact List.mem_append_right _ (inside token htoken)
      · exact .inl member

end LoxLang.Grammar

namespace LoxLang

open Grammar

theorem Program.wellFormed_ofTokens (depth : Nat) {tokens : List Token}
    (spelled : ∀ token ∈ tokens, token.Spelled) :
    ∀ stmt ∈ (ofTokens depth tokens).statements, stmt.WellFormed := by
  intro stmt member
  have read := clause_of_mem_declarations tokens.length depth tokens.length #[] ⟨tokens, #[]⟩ (Array.mem_toList_iff.mp member)
  rcases read with absurd | ⟨text, inside, hclause⟩
  · simp at absurd
  · exact hclause.wellFormed fun token htoken => spelled token (inside token htoken)

end LoxLang
