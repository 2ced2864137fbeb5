import LoxLang.Proofs.Limit.Outlasting
import LoxLang.Scoping.Marking

/-!
Marking with more depth. A tree is marked the same, with the same breaches of the static rules, however deep it may be,
unless it is too deep.
-/

namespace LoxLang.Scoping

/-- The marker with more depth marks the same, unless the tree is too deep for the other one. -/
abbrev Deepens {α : Type} (marker deeper : Marker α) : Prop :=
  Outlasts () marker deeper

variable {α : Type} {depth wide : Nat}

theorem deepens_tooDeep (deeper : Marker α) : Deepens tooDeep deeper :=
  .throw deeper

theorem deepens_withScope {body deeper : Marker α} (h : Deepens body deeper) (names : List String) :
    Deepens (withScope names body) (withScope names deeper) :=
  .bind (.refl _ _) fun _ => h.bind fun _ => .refl _ _

theorem deepens_markOption {mark deeper : α → Marker α}
    (h : ∀ item, Deepens (mark item) (deeper item)) (item : Option α) :
    Deepens (markOption mark item) (markOption deeper item) := by
  cases item with
  | none => exact .refl _ _
  | some item => exact (h item).map

theorem markExpr_deepens (around : Surroundings) :
    ∀ {depth wide : Nat}, depth ≤ wide → ∀ expr,
      Deepens (markExpr around depth expr) (markExpr around wide expr)
  | 0, _, _, _ => deepens_tooDeep _
  | depth + 1, wide + 1, bound, expr => by
      have h := markExpr_deepens around (Nat.le_of_succ_le_succ bound)
      cases expr with
      | assign target value => exact (h value).bind fun _ => .refl _ _
      | binary left operator right | logical left operator right =>
          exact (h left).bind fun _ => (h right).map
      | call callee paren arguments => exact (h callee).bind fun _ => (Outlasts.mapM h arguments).map
      | get object name => exact (h object).map
      | grouping expression => exact (h expression).map
      | set object name value => exact (h value).bind fun _ => (h object).map
      | unary operator right => exact (h right).map
      | literal | super | this | «variable» => exact .refl _ _

structure StatementsDeepen (depth wide : Nat) : Prop where
  stmt (around : Surroundings) (stmt : Stmt) :
    Deepens (markStmt around depth stmt) (markStmt around wide stmt)
  stmts (around : Surroundings) (statements : List Stmt) :
    Deepens (markStmts around depth statements) (markStmts around wide statements)
  function (around : Surroundings) (declaration : FunctionDecl) :
    Deepens (markFunction around depth declaration) (markFunction around wide declaration)
  classDecl (around : Surroundings) (name : Token) (superclass : Option NameUse)
    (methods : List FunctionDecl) :
    Deepens (markClass around depth name superclass methods)
      (markClass around wide name superclass methods)

namespace StatementsDeepen

theorem stmt_step (h : StatementsDeepen depth wide) (bound : depth ≤ wide) (around : Surroundings)
    (stmt : Stmt) : Deepens (markStmt around (depth + 1) stmt) (markStmt around (wide + 1) stmt) := by
  have expr := markExpr_deepens around bound
  cases stmt with
  | block statements => exact (deepens_withScope (h.stmts around statements) []).map
  | «class» name superclass methods => exact h.classDecl around name superclass methods
  | expression expression | print expression => exact (expr expression).map
  | function declaration => exact .bind (.refl _ _) fun _ => (h.function _ declaration).map
  | «if» condition thenBranch elseBranch =>
      refine (expr condition).bind fun _ => (h.stmt around thenBranch).bind fun _ => ?_
      exact (deepens_markOption (h.stmt around) elseBranch).map
  | «return» keyword value =>
      exact .bind (.refl _ _) fun _ => .bind (.refl _ _) fun _ =>
        (deepens_markOption expr value).map
  | var name initializer =>
      exact .bind (.refl _ _) fun _ => (deepens_markOption expr initializer).bind fun _ => .refl _ _
  | «while» condition body increment =>
      refine (expr condition).bind fun _ => (h.stmt around.enterLoop body).bind fun _ => ?_
      exact (deepens_markOption expr increment).map
  | «break» | «continue» => exact .refl _ _

theorem function_step (h : StatementsDeepen depth wide) (around : Surroundings)
    (declaration : FunctionDecl) :
    Deepens (markFunction around (depth + 1) declaration)
      (markFunction around (wide + 1) declaration) := by
  rw [markFunction, markFunction]
  refine deepens_withScope (.bind (.refl _ _) fun _ => ?_) []
  exact (h.stmts around declaration.body).map

theorem classDecl_step (h : StatementsDeepen depth wide) (around : Surroundings) (name : Token)
    (superclass : Option NameUse) (methods : List FunctionDecl) :
    Deepens (markClass around (depth + 1) name superclass methods)
      (markClass around (wide + 1) name superclass methods) := by
  have inner (around : Surroundings) := deepens_withScope
    (.mapM (fun method => h.function (around.enterFunction (methodContext method)) method) methods)
    ["this"]
  rw [markClass, markClass]
  refine .bind (.refl _ _) fun _ => ?_
  cases superclass with
  | none => exact (inner _).map
  | some superclass =>
      refine .bind (.refl _ _) fun _ => .bind (.refl _ _) fun _ => ?_
      exact (deepens_withScope (inner _) ["super"]).map

theorem of_le : ∀ {depth wide : Nat}, depth ≤ wide → StatementsDeepen depth wide
  | 0, _, _ =>
      { stmt := fun _ _ => deepens_tooDeep _
        stmts := fun _ _ => deepens_tooDeep _
        function := fun _ _ => deepens_tooDeep _
        classDecl := fun _ _ _ _ => deepens_tooDeep _ }
  | depth + 1, wide + 1, bound =>
      have less := Nat.le_of_succ_le_succ bound
      have h : StatementsDeepen depth wide := of_le less
      { stmt := h.stmt_step less
        stmts := fun around => Outlasts.mapM (h.stmt around)
        function := h.function_step
        classDecl := h.classDecl_step }

end StatementsDeepen

theorem mark?_deepens (bound : depth ≤ wide) {statements : List Stmt} {marked : Marked}
    (fits : mark? depth statements = some marked) : mark? wide statements = some marked := by
  have all := (StatementsDeepen.of_le bound).stmts .topLevel statements
  unfold mark? at fits ⊢
  cases made : markStmts .topLevel depth statements ⟨.global, #[]⟩ with
  | error _ _ =>
      rw [made] at fits
      cases fits
  | ok result state => rwa [all.ok made, ← made]

/-- A program is marked the same, with the same breaches, when its tree may be deeper, unless it is too deep. -/
theorem mark_deepens (bound : depth ≤ wide) (final : Token) (statements : List Stmt) :
    (∃ error ∈ (mark depth final statements).errors, error.cause = .nesting) ∨
      mark wide final statements = mark depth final statements := by
  unfold mark
  cases fits : mark? depth statements with
  | none => exact .inl ⟨_, List.mem_singleton_self _, rfl⟩
  | some marked =>
      rw [mark?_deepens bound fits]
      exact .inr rfl

end LoxLang.Scoping
