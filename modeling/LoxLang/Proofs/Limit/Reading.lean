import LoxLang.Grammar.Statement
import LoxLang.Proofs.Limit.Outlasting

/-!
Reading with more depth. Every reader reads the same when its rules may nest deeper, unless it gave up before; so a
program in which nothing was nested too deeply is the same program however deep nesting may be.
-/

namespace LoxLang

open Grammar

/-- The reader with more depth reads the same, unless the other one is nested too deeply. -/
abbrev Grammar.Deepens {α : Type} (reader deeper : Reader α) : Prop :=
  Outlasts Stop.tooDeep reader deeper

namespace Outlasts

variable {α : Type}

theorem tooDeep (deeper : Reader α) : Deepens Grammar.tooDeep deeper :=
  .throw deeper

theorem iterate {round deeper : α → Reader (Option α)}
    (step : ∀ state, Deepens (round state) (deeper state)) (rounds : Nat) (state : α) :
    Deepens (Grammar.iterate round rounds state) (Grammar.iterate deeper rounds state) := by
  induction rounds generalizing state with
  | zero => exact .refl _ _
  | succ rounds ih =>
      refine (step state).bind fun result => ?_
      cases result with
      | none => exact .refl _ _
      | some next => exact ih next

theorem commaList {entry deeper : Reader α} (h : Deepens entry deeper) (rounds : Nat)
    (tooMany : SyntaxError.Cause) :
    Deepens (Grammar.commaList rounds entry tooMany) (Grammar.commaList rounds deeper tooMany) := by
  refine h.bind fun first => .bind (.iterate (fun entries => ?_) rounds _) fun _ => .refl _ _
  refine .bind (.refl _ _) fun more => .ite ?_ (.refl _ _)
  exact .ite (.bind (.refl _ _) fun _ => .bind (.refl _ _) fun _ => h.map) h.map

theorem optionally {reader deeper : Reader α} (skip : Reader Bool) (h : Deepens reader deeper) :
    Deepens (Grammar.optionally skip reader) (Grammar.optionally skip deeper) :=
  .bind (.refl _ _) fun _ => .ite (.refl _ _) h.map

/-- A declaration recovers from errors, but not from having been nested too deeply. -/
theorem recovering {reader deeper : Reader Stmt} (h : Deepens reader deeper) :
    Deepens (Grammar.recovering reader) (Grammar.recovering deeper) := by
  intro cursor
  unfold Grammar.recovering
  rcases h cursor with ⟨rest, gaveUp⟩ | same
  · rw [gaveUp]
    exact .inl ⟨rest, rfl⟩
  · rw [same]
    exact .inr rfl

end Outlasts

namespace Grammar

variable {rounds depth wide : Nat}

/-! ## Expressions -/

structure ExpressionsDeepen (rounds depth wide : Nat) : Prop where
  expression : Deepens (expression rounds depth) (expression rounds wide)
  assignment : Deepens (assignment rounds depth) (assignment rounds wide)
  operation (level : Level) : Deepens (operation rounds level depth) (operation rounds level wide)
  unary : Deepens (unary rounds depth) (unary rounds wide)
  call : Deepens (call rounds depth) (call rounds wide)
  finishCall (callee : Expr) :
    Deepens (finishCall rounds callee depth) (finishCall rounds callee wide)
  primary : Deepens (primary rounds depth) (primary rounds wide)

namespace ExpressionsDeepen

theorem assignment_step (h : ExpressionsDeepen rounds depth wide) :
    Deepens (Grammar.assignment rounds (depth + 1)) (Grammar.assignment rounds (wide + 1)) := by
  rw [Grammar.assignment, Grammar.assignment]
  refine (h.operation .or).bind fun target => .bind (.refl _ _) fun equals => ?_
  cases equals with
  | none => exact .refl _ _
  | some equals => exact h.assignment.bind fun _ => .refl _ _

theorem operation_step (h : ExpressionsDeepen rounds depth wide) (level : Level) :
    Deepens (Grammar.operation rounds level (depth + 1))
      (Grammar.operation rounds level (wide + 1)) := by
  rw [Grammar.operation, Grammar.operation]
  refine .bind ?_ fun first => .iterate (fun left => .bind (.refl _ _) fun operator => ?_) _ _
  · cases level with
    | factor => exact h.unary
    | _ => exact h.operation _
  · cases operator with
    | none => exact .refl _ _
    | some operator =>
        cases level with
        | factor => exact h.unary.map
        | _ => exact (h.operation _).map

theorem unary_step (h : ExpressionsDeepen rounds depth wide) :
    Deepens (Grammar.unary rounds (depth + 1)) (Grammar.unary rounds (wide + 1)) := by
  rw [Grammar.unary, Grammar.unary]
  refine .bind (.refl _ _) fun operator => ?_
  cases operator with
  | none => exact h.call
  | some operator => exact h.unary.map

theorem call_step (h : ExpressionsDeepen rounds depth wide) :
    Deepens (Grammar.call rounds (depth + 1)) (Grammar.call rounds (wide + 1)) := by
  rw [Grammar.call, Grammar.call]
  refine h.primary.bind fun callee => .iterate (fun callee => .bind (.refl _ _) fun opens => ?_) _ _
  exact .ite (h.finishCall callee).map (.refl _ _)

theorem finishCall_step (h : ExpressionsDeepen rounds depth wide) (callee : Expr) :
    Deepens (Grammar.finishCall rounds callee (depth + 1))
      (Grammar.finishCall rounds callee (wide + 1)) := by
  rw [Grammar.finishCall, Grammar.finishCall]
  refine .bind (.refl _ _) fun closed => ?_
  cases closed with
  | true => exact .refl _ _
  | false => exact (h.expression.commaList rounds _).bind fun _ => .refl _ _

theorem primary_step (h : ExpressionsDeepen rounds depth wide) :
    Deepens (Grammar.primary rounds (depth + 1)) (Grammar.primary rounds (wide + 1)) := by
  rw [Grammar.primary, Grammar.primary]
  refine .bind (.refl _ _) fun token => ?_
  cases token.kind with
  | leftParen => exact .bind (.refl _ _) fun _ => h.expression.bind fun _ => .refl _ _
  | _ => exact .refl _ _

theorem of_le : ∀ {depth wide : Nat}, depth ≤ wide → ExpressionsDeepen rounds depth wide
  | 0, _, _ =>
      { expression := .tooDeep _
        assignment := .tooDeep _
        operation := fun _ => .tooDeep _
        unary := .tooDeep _
        call := .tooDeep _
        finishCall := fun _ => .tooDeep _
        primary := .tooDeep _ }
  | depth + 1, wide + 1, bound =>
      have h : ExpressionsDeepen rounds depth wide := of_le (Nat.le_of_succ_le_succ bound)
      { expression := h.assignment
        assignment := h.assignment_step
        operation := h.operation_step
        unary := h.unary_step
        call := h.call_step
        finishCall := h.finishCall_step
        primary := h.primary_step }

end ExpressionsDeepen

/-! ## Statements -/

structure StatementsDeepen (rounds depth wide : Nat) : Prop where
  expressionStatement :
    Deepens (expressionStatement rounds depth) (expressionStatement rounds wide)
  printStatement : Deepens (printStatement rounds depth) (printStatement rounds wide)
  returnStatement (keyword : Token) :
    Deepens (returnStatement rounds keyword depth) (returnStatement rounds keyword wide)
  varDeclaration : Deepens (varDeclaration rounds depth) (varDeclaration rounds wide)
  declaration : Deepens (declaration rounds depth) (declaration rounds wide)
  classDeclaration : Deepens (classDeclaration rounds depth) (classDeclaration rounds wide)
  function (form : FunctionForm) :
    Deepens (function rounds form depth) (function rounds form wide)
  block : Deepens (block rounds depth) (block rounds wide)
  statement : Deepens (statement rounds depth) (statement rounds wide)
  forStatement : Deepens (forStatement rounds depth) (forStatement rounds wide)
  ifStatement : Deepens (ifStatement rounds depth) (ifStatement rounds wide)
  whileStatement : Deepens (whileStatement rounds depth) (whileStatement rounds wide)

namespace StatementsDeepen

theorem returnStatement_step (h : ExpressionsDeepen rounds depth wide) (keyword : Token) :
    Deepens (Grammar.returnStatement rounds keyword (depth + 1))
      (Grammar.returnStatement rounds keyword (wide + 1)) :=
  (h.expression.optionally _).bind fun _ => .refl _ _

theorem varDeclaration_step (h : ExpressionsDeepen rounds depth wide) :
    Deepens (Grammar.varDeclaration rounds (depth + 1))
      (Grammar.varDeclaration rounds (wide + 1)) :=
  .bind (.refl _ _) fun _ => (h.expression.optionally _).bind fun _ => .refl _ _

theorem declaration_step (h : StatementsDeepen rounds depth wide) :
    Deepens (Grammar.declaration rounds (depth + 1)) (Grammar.declaration rounds (wide + 1)) := by
  rw [Grammar.declaration, Grammar.declaration]
  refine .recovering (.bind (.refl _ _) fun _ => .ite h.classDeclaration ?_)
  refine .bind (.refl _ _) fun _ => .ite (h.function .function).map ?_
  exact .bind (.refl _ _) fun _ => .ite h.varDeclaration h.statement

theorem classDeclaration_step (h : StatementsDeepen rounds depth wide) :
    Deepens (Grammar.classDeclaration rounds (depth + 1))
      (Grammar.classDeclaration rounds (wide + 1)) := by
  rw [Grammar.classDeclaration, Grammar.classDeclaration]
  refine .bind (.refl _ _) fun name => .bind (.refl _ _) fun superclass =>
    .bind (.refl _ _) fun opens => ?_
  refine .bind (.iterate (fun methods => ?_) _ _) fun _ => .refl _ _
  exact .bind (.refl _ _) fun _ => .ite (.refl _ _) (h.function .method).map

theorem function_step (h : StatementsDeepen rounds depth wide) (form : FunctionForm) :
    Deepens (Grammar.function rounds form (depth + 1))
      (Grammar.function rounds form (wide + 1)) := by
  rw [Grammar.function, Grammar.function]
  refine .bind (.refl _ _) fun name => .bind (.refl _ _) fun opens => ?_
  refine .bind (.refl _ _) fun params => .bind (.refl _ _) fun closes => ?_
  exact .bind (.refl _ _) fun _ => h.block.map

theorem block_step (h : StatementsDeepen rounds depth wide) :
    Deepens (Grammar.block rounds (depth + 1)) (Grammar.block rounds (wide + 1)) := by
  rw [Grammar.block, Grammar.block]
  refine .bind (.iterate (fun statements => ?_) _ _) fun _ => .refl _ _
  exact .bind (.refl _ _) fun _ => .ite (.refl _ _) (h.declaration.bind fun _ => .refl _ _)

theorem forStatement_step (h : StatementsDeepen rounds depth wide)
    (expressions : ExpressionsDeepen rounds depth wide) :
    Deepens (Grammar.forStatement rounds (depth + 1))
      (Grammar.forStatement rounds (wide + 1)) := by
  have initializer : Deepens (forInitializer rounds depth) (forInitializer rounds wide) :=
    .bind (.refl _ _) fun _ => .ite (.refl _ _)
      (.bind (.refl _ _) fun _ => .ite h.varDeclaration.map h.expressionStatement.map)
  rw [Grammar.forStatement, Grammar.forStatement]
  refine .bind (.refl _ _) fun opens => initializer.bind fun initializer => ?_
  refine (expressions.expression.optionally _).bind fun condition => .bind (.refl _ _) fun _ => ?_
  refine (expressions.expression.optionally _).bind fun increment => .bind (.refl _ _) fun _ => ?_
  exact h.statement.map

theorem ifStatement_step (h : StatementsDeepen rounds depth wide)
    (expressions : ExpressionsDeepen rounds depth wide) :
    Deepens (Grammar.ifStatement rounds (depth + 1)) (Grammar.ifStatement rounds (wide + 1)) := by
  rw [Grammar.ifStatement, Grammar.ifStatement]
  refine .bind (.refl _ _) fun opens => expressions.expression.bind fun condition => ?_
  refine .bind (.refl _ _) fun closes => h.statement.bind fun thenBranch => ?_
  exact (h.statement.optionally _).map

theorem whileStatement_step (h : StatementsDeepen rounds depth wide)
    (expressions : ExpressionsDeepen rounds depth wide) :
    Deepens (Grammar.whileStatement rounds (depth + 1))
      (Grammar.whileStatement rounds (wide + 1)) := by
  rw [Grammar.whileStatement, Grammar.whileStatement]
  refine .bind (.refl _ _) fun opens => expressions.expression.bind fun condition => ?_
  exact .bind (.refl _ _) fun _ => h.statement.map

theorem statement_step (h : StatementsDeepen rounds depth wide) :
    Deepens (Grammar.statement rounds (depth + 1)) (Grammar.statement rounds (wide + 1)) := by
  rw [Grammar.statement, Grammar.statement]
  refine .bind (.refl _ _) fun keyword => ?_
  cases keyword.kind with
  | «for» => exact .bind (.refl _ _) fun _ => h.forStatement
  | «if» => exact .bind (.refl _ _) fun _ => h.ifStatement
  | print => exact .bind (.refl _ _) fun _ => h.printStatement
  | «return» => exact .bind (.refl _ _) fun _ => h.returnStatement keyword
  | «while» => exact .bind (.refl _ _) fun _ => h.whileStatement
  | «break» | «continue» => exact .refl _ _
  | leftBrace => exact .bind (.refl _ _) fun _ => h.block.map
  | _ => exact h.expressionStatement

theorem of_le : ∀ {depth wide : Nat}, depth ≤ wide → StatementsDeepen rounds depth wide
  | 0, _, _ =>
      { expressionStatement := .tooDeep _
        printStatement := .tooDeep _
        returnStatement := fun _ => .tooDeep _
        varDeclaration := .tooDeep _
        declaration := .tooDeep _
        classDeclaration := .tooDeep _
        function := fun _ => .tooDeep _
        block := .tooDeep _
        statement := .tooDeep _
        forStatement := .tooDeep _
        ifStatement := .tooDeep _
        whileStatement := .tooDeep _ }
  | depth + 1, wide + 1, bound =>
      have less := Nat.le_of_succ_le_succ bound
      have h : StatementsDeepen rounds depth wide := of_le less
      have expressions : ExpressionsDeepen rounds depth wide := .of_le less
      { expressionStatement := expressions.expression.bind fun _ => .refl _ _
        printStatement := expressions.expression.bind fun _ => .refl _ _
        returnStatement := returnStatement_step expressions
        varDeclaration := varDeclaration_step expressions
        declaration := h.declaration_step
        classDeclaration := h.classDeclaration_step
        function := h.function_step
        block := h.block_step
        statement := h.statement_step
        forStatement := h.forStatement_step expressions
        ifStatement := h.ifStatement_step expressions
        whileStatement := h.whileStatement_step expressions }

end StatementsDeepen

/-! ## Programs -/

theorem declarations_deepen (bound : depth ≤ wide) (rounds remaining : Nat)
    (statements : Array Stmt) (cursor : Cursor) :
    (∃ error ∈ (declarations rounds depth remaining statements cursor).2.errors,
      error.cause = .nesting) ∨
    declarations rounds wide remaining statements cursor =
      declarations rounds depth remaining statements cursor := by
  induction remaining generalizing statements cursor with
  | zero => exact .inr rfl
  | succ remaining ih =>
      rw [declarations, declarations]
      by_cases ended : cursor.atEnd = true
      · rw [if_pos ended, if_pos ended]
        exact .inr rfl
      rw [if_neg ended, if_neg ended]
      rcases (StatementsDeepen.of_le bound).declaration cursor with ⟨rest, gaveUp⟩ | same
      · left
        rw [gaveUp]
        exact ⟨_, Array.mem_push_self, rfl⟩
      · rw [same]
        cases declaration rounds depth cursor with
        | ok result next =>
            cases result with
            | none => exact ih statements next
            | some stmt => exact ih (statements.push stmt) next
        | error stop next => exact .inr rfl

end Grammar

/-- A program is read the same when its rules may nest deeper, unless one of its errors is that they nest too deeply. -/
theorem Program.ofTokens_deepens {depth wide : Nat} (bound : depth ≤ wide) (tokens : List Token) :
    (∃ error ∈ (ofTokens depth tokens).errors, error.cause = .nesting) ∨
      ofTokens wide tokens = ofTokens depth tokens := by
  unfold ofTokens
  dsimp only
  rcases declarations_deepen bound tokens.length tokens.length #[] ⟨tokens, #[]⟩
    with ⟨error, member, nesting⟩ | same
  · exact .inl ⟨error, Array.mem_toList_iff.mpr member, nesting⟩
  · rw [same]
    exact .inr rfl

end LoxLang
