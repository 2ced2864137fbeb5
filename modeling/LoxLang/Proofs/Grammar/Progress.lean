import LoxLang.Proofs.Grammar.Slices
import LoxLang.Proofs.Grammar.StatementRepeating
import LoxLang.Proofs.Grammar.Stepping

/-!
Every reader of the grammar moves its cursor by steps, and each of its loops ends by itself: a round that another one
follows has taken a token.
-/

namespace LoxLang.Grammar

variable {α : Type} {rounds wide depth : Nat} {cursor last : Cursor}

/-! ## Rounds -/

theorem Reads.shortens {reader : Reader α} {least : Nat} {meaning : Meaning α} (reads : Reads reader least meaning)
    (inside : headKind cursor.ahead ≠ .endOfInput) {value : α} (h : reader cursor.advance = .ok value last) :
    last.ahead.length < cursor.ahead.length := by
  have taken := length_advance inside
  have more := reads.length_le h
  omega

theorem Reads.shortens_map {β : Type} {reader : Reader α} {make : α → β} {least : Nat} {meaning : Meaning α}
    (reads : Reads reader least meaning) (inside : headKind cursor.ahead ≠ .endOfInput) {value : β}
    (h : (do return make (← reader) : Reader β) cursor.advance = .ok value last) :
    last.ahead.length < cursor.ahead.length := by
  have made : Reads (do return make (← reader)) least fun _ _ _ => True := reads.map fun _ _ _ _ => trivial
  exact made.shortens inside h

theorem shortens_operationRound (rounds : Nat) (level : Level) (depth : Nat) :
    Shortens (operationRound rounds level depth) := by
  intro left cursor next last h
  have reads := expressionReads rounds depth
  have operand : Reads (level.operand.reader rounds depth) 1 fun _ _ _ => True := by
    cases level with
    | factor => exact reads.unary.mono (Nat.le_refl _) fun _ _ _ _ => trivial
    | _ => exact (reads.operation _).mono (Nat.le_refl _) fun _ _ _ _ => trivial
  by_cases member : cursor.peek.kind ∈ level.operators
  · have inside : cursor.peek.kind ≠ .endOfInput := by
      intro final
      rw [final] at member
      cases level <;> exact absurd member (by decide)
    rw [operationRound, bind_ok (acceptAny_of_mem member)] at h
    exact operand.shortens_map inside h
  · rw [operationRound, bind_ok (acceptAny_of_notMem member)] at h
    cases h

theorem shortens_callRound (rounds depth : Nat) : Shortens (callRound rounds depth) := by
  intro callee cursor next last h
  by_cases paren : cursor.peek.kind = .leftParen
  · rw [callRound, bind_ok (accepts_of_kind paren)] at h
    exact ((expressionReads rounds depth).finishCall callee).shortens_map (by simp [← Cursor.kind_peek, paren]) h
  rw [callRound, bind_ok (accepts_of_ne paren)] at h
  by_cases dot : cursor.peek.kind = .dot
  · simp only [Bool.false_eq_true, if_false] at h
    rw [bind_ok (accepts_of_kind dot)] at h
    exact (Reads.expect .identifier .propertyName (by decide)).shortens_map (by simp [← Cursor.kind_peek, dot]) h
  · simp only [Bool.false_eq_true, if_false] at h
    rw [bind_ok (accepts_of_ne dot)] at h
    cases h

theorem shortens_commaRound {entry : Reader α} {meaning : Meaning α} (reads : Reads entry 1 meaning)
    (tooMany : SyntaxError.Cause) : Shortens (commaRound entry tooMany) := by
  intro entries cursor next last h
  by_cases comma : cursor.peek.kind = .comma
  · have push : Reads (do return some (entries.push (← entry))) 0 fun _ _ _ => True :=
      (reads.map fun _ _ _ _ => trivial).some_or_none
    have reporting : Reads (do
        if maxArguments ≤ entries.size then report (← peek) tooMany
        return some (entries.push (← entry))) 0 fun _ _ _ => True := by
      split
      · exact Reads.peek_bind fun cursor =>
          ((Reads.report _ _ fun _ _ _ => True).bind (n := 0) fun _ =>
            push.mono (Nat.le_refl _) fun _ _ _ _ _ _ => trivial) cursor
      · exact push
    rw [commaRound, bind_ok (accepts_of_kind comma)] at h
    exact reporting.shortens (by simp [← Cursor.kind_peek, comma]) h
  · rw [commaRound, bind_ok (accepts_of_ne comma)] at h
    cases h

theorem shortens_declaration {result : Option Stmt} (inside : headKind cursor.ahead ≠ .endOfInput)
    (h : declaration rounds depth cursor = .ok result last) : last.ahead.length < cursor.ahead.length := by
  obtain ⟨used, found, moves, some⟩ := declaration_progress (Cursor.atEnd_eq_false.mpr inside) h
  have := List.length_pos_iff.mpr some
  rw [moves.ahead, List.length_append]
  omega

/-- A declaration is read in a round, and what it yields is added to the statements. -/
theorem shortens_of_declaration {statements : Array Stmt} {next : Option (Array Stmt)}
    (inside : headKind cursor.ahead ≠ .endOfInput)
    (h : (do
      match ← declaration rounds depth with
      | some stmt => return some (statements.push stmt)
      | none => return some statements : Reader _) cursor = .ok next last) :
    last.ahead.length < cursor.ahead.length := by
  cases read : declaration rounds depth cursor with
  | error stop middle =>
      rw [bind_error read] at h
      cases h
  | ok found middle =>
      rw [bind_ok read] at h
      cases found <;> cases h <;> exact shortens_declaration inside read

theorem shortens_blockRound (rounds depth : Nat) : Shortens (blockRound rounds depth) := by
  intro statements cursor next last h
  rw [blockRound, bind_ok closes_eq] at h
  by_cases final : headKind cursor.ahead = .endOfInput
  · simp only [final, decide_true, Bool.or_true, if_true] at h
    cases h
  split at h
  · cases h
  · exact shortens_of_declaration final h

theorem shortens_classRound (rounds depth : Nat) : Shortens (classRound rounds depth) := by
  intro methods cursor next last h
  rw [classRound, bind_ok closes_eq] at h
  split at h
  · cases h
  · have function : Reads (do return some (methods.push (← Grammar.function rounds .method depth))) 1
        fun _ _ _ => True := ((statementReads rounds depth).function .method).map fun _ _ _ _ => trivial
    have less := function.length_le h
    omega

/-- The parser's own loop, which goes on to the end of the text. -/
def programRound (rounds depth : Nat) (statements : Array Stmt) : Reader (Option (Array Stmt)) := do
  if ← isNext .endOfInput then return none
  else match ← declaration rounds depth with
    | some stmt => return some (statements.push stmt)
    | none => return some statements

theorem shortens_programRound (rounds depth : Nat) : Shortens (programRound rounds depth) := by
  intro statements cursor next last h
  rw [programRound, bind_ok isNext_eq] at h
  by_cases final : headKind cursor.ahead = .endOfInput
  · simp only [final, decide_true, if_true] at h
    cases h
  · simp only [final, decide_false, Bool.false_eq_true, if_false] at h
    exact shortens_of_declaration final h

/-! ## Expressions -/

theorem Proceeds.commaRound {entry other : Reader α} (h : Proceeds rounds entry other) (tooMany : SyntaxError.Cause)
    (entries : Array α) :
    Proceeds rounds (Grammar.commaRound entry tooMany entries) (Grammar.commaRound other tooMany entries) := by
  refine (accepts .comma).bind fun more => .ite ?_ (.pure none)
  refine .ite ?_ h.map
  let pushed (reader : Reader α) : Reader (Option (Array α)) := do return some (entries.push (← reader))
  have counted : Proceeds rounds ((do Grammar.report (← Grammar.peek) tooMany) >>= fun _ => pushed entry)
      ((do Grammar.report (← Grammar.peek) tooMany) >>= fun _ => pushed other) :=
    (reportPeek tooMany).bind fun _ => h.map
  exact counted

theorem Proceeds.commaList {entry other : Reader α} {meaning : Meaning α} (h : Proceeds rounds entry other)
    (reads : Reads entry 1 meaning) (le : rounds ≤ wide) (tooMany : SyntaxError.Cause) :
    Proceeds rounds (Grammar.commaList rounds entry tooMany) (Grammar.commaList wide other tooMany) := by
  rw [commaList_unfold, commaList_unfold]
  refine h.bind fun first => .map ?_
  exact .iterate (h.commaRound tooMany) (shortens_commaRound reads tooMany) (Nat.le_refl _) le _

structure ExpressionsProceed (rounds wide depth : Nat) : Prop where
  expression : Proceeds rounds (expression rounds depth) (expression wide depth)
  assignment : Proceeds rounds (assignment rounds depth) (assignment wide depth)
  operation (level : Level) : Proceeds rounds (operation rounds level depth) (operation wide level depth)
  unary : Proceeds rounds (unary rounds depth) (unary wide depth)
  call : Proceeds rounds (call rounds depth) (call wide depth)
  finishCall (callee : Expr) : Proceeds rounds (finishCall rounds callee depth) (finishCall wide callee depth)
  primary : Proceeds rounds (primary rounds depth) (primary wide depth)

namespace ExpressionsProceed

theorem assignment_succ (h : ExpressionsProceed rounds wide depth) :
    Proceeds rounds (Grammar.assignment rounds (depth + 1)) (Grammar.assignment wide (depth + 1)) := by
  rw [Grammar.assignment, Grammar.assignment]
  refine (h.operation .or).bind fun target => (Proceeds.accept .equal).bind fun equals => ?_
  cases equals with
  | none => exact .pure target
  | some equals =>
      refine h.assignment.bind fun value => ?_
      cases target with
      | «variable» use => exact .pure _
      | get object name => exact .pure _
      | _ => exact (Proceeds.reportTarget equals).bind fun _ => .pure _

theorem operand (h : ExpressionsProceed rounds wide depth) (level : Level) :
    Proceeds rounds (level.operand.reader rounds depth) (level.operand.reader wide depth) := by
  cases level with
  | factor => exact h.unary
  | _ => exact h.operation _

theorem operationRound (h : ExpressionsProceed rounds wide depth) (level : Level) (left : Expr) :
    Proceeds rounds (Grammar.operationRound rounds level depth left)
      (Grammar.operationRound wide level depth left) := by
  refine (Proceeds.acceptAny level.operators).bind fun operator => ?_
  cases operator with
  | none => exact .pure none
  | some operator => exact (h.operand level).map

theorem operation_succ (h : ExpressionsProceed rounds wide depth) (le : rounds ≤ wide) (level : Level) :
    Proceeds rounds (Grammar.operation rounds level (depth + 1)) (Grammar.operation wide level (depth + 1)) := by
  rw [Grammar.operation_succ, Grammar.operation_succ]
  exact (h.operand level).bind fun first =>
    .iterate (h.operationRound level) (shortens_operationRound rounds level depth) (Nat.le_refl _) le first

theorem unary_succ (h : ExpressionsProceed rounds wide depth) :
    Proceeds rounds (Grammar.unary rounds (depth + 1)) (Grammar.unary wide (depth + 1)) := by
  rw [Grammar.unary, Grammar.unary]
  refine (Proceeds.acceptAny _).bind fun operator => ?_
  cases operator with
  | none => exact h.call
  | some operator => exact h.unary.map

theorem callRound (h : ExpressionsProceed rounds wide depth) (callee : Expr) :
    Proceeds rounds (Grammar.callRound rounds depth callee) (Grammar.callRound wide depth callee) := by
  refine (Proceeds.accepts .leftParen).bind fun opens => .ite (h.finishCall callee).map ?_
  exact (Proceeds.accepts .dot).bind fun dot => .ite (Proceeds.expect _ _).map (.pure none)

theorem call_succ (h : ExpressionsProceed rounds wide depth) (le : rounds ≤ wide) :
    Proceeds rounds (Grammar.call rounds (depth + 1)) (Grammar.call wide (depth + 1)) := by
  rw [Grammar.call_succ, Grammar.call_succ]
  exact h.primary.bind fun callee =>
    .iterate h.callRound (shortens_callRound rounds depth) (Nat.le_refl _) le callee

theorem finishCall_succ (h : ExpressionsProceed rounds wide depth) (le : rounds ≤ wide) (callee : Expr) :
    Proceeds rounds (Grammar.finishCall rounds callee (depth + 1)) (Grammar.finishCall wide callee (depth + 1)) := by
  rw [Grammar.finishCall, Grammar.finishCall]
  have closing (arguments : List Expr) :
      Proceeds rounds (do return Expr.call callee (← expect .rightParen .argumentsEnd) arguments)
        (do return Expr.call callee (← expect .rightParen .argumentsEnd) arguments) := (Proceeds.expect _ _).map
  refine (Proceeds.isNext .rightParen).bind fun closed => .ite ((Proceeds.pure []).bind closing) ?_
  exact (h.expression.commaList (expressionReads rounds depth).expression le _).bind closing

theorem primary_succ (h : ExpressionsProceed rounds wide depth) :
    Proceeds rounds (Grammar.primary rounds (depth + 1)) (Grammar.primary wide (depth + 1)) := by
  rw [Grammar.primary, Grammar.primary]
  refine Proceeds.peek.bind fun token => ?_
  cases token.kind with
  | leftParen =>
      exact Proceeds.advance.bind fun _ => h.expression.bind fun _ => (Proceeds.expect _ _).map
  | super =>
      exact Proceeds.advance.bind fun _ => (Proceeds.expect _ _).bind fun _ => (Proceeds.expect _ _).map
  | false | true | nil | number | string | this | identifier => exact Proceeds.advance.bind fun _ => .pure _
  | _ => exact .fail .expression

end ExpressionsProceed

theorem expressionsProceed (le : rounds ≤ wide) : ∀ depth, ExpressionsProceed rounds wide depth
  | 0 =>
      { expression := .tooDeep
        assignment := .tooDeep
        operation := fun _ => .tooDeep
        unary := .tooDeep
        call := .tooDeep
        finishCall := fun _ => .tooDeep
        primary := .tooDeep }
  | depth + 1 =>
      have h := expressionsProceed le depth
      { expression := h.assignment
        assignment := h.assignment_succ
        operation := h.operation_succ le
        unary := h.unary_succ
        call := h.call_succ le
        finishCall := h.finishCall_succ le
        primary := h.primary_succ }

/-! ## Statements -/

structure StatementsProceed (rounds wide depth : Nat) : Prop where
  expressionStatement : Proceeds rounds (expressionStatement rounds depth) (expressionStatement wide depth)
  printStatement : Proceeds rounds (printStatement rounds depth) (printStatement wide depth)
  returnStatement (keyword : Token) :
    Proceeds rounds (returnStatement rounds keyword depth) (returnStatement wide keyword depth)
  varDeclaration : Proceeds rounds (varDeclaration rounds depth) (varDeclaration wide depth)
  declaration : Proceeds rounds (declaration rounds depth) (declaration wide depth)
  classDeclaration : Proceeds rounds (classDeclaration rounds depth) (classDeclaration wide depth)
  function (form : FunctionForm) : Proceeds rounds (function rounds form depth) (function wide form depth)
  block : Proceeds rounds (block rounds depth) (block wide depth)
  statement : Proceeds rounds (statement rounds depth) (statement wide depth)
  forStatement : Proceeds rounds (forStatement rounds depth) (forStatement wide depth)
  ifStatement : Proceeds rounds (ifStatement rounds depth) (ifStatement wide depth)
  whileStatement : Proceeds rounds (whileStatement rounds depth) (whileStatement wide depth)

namespace StatementsProceed

theorem returnStatement_succ (h : ExpressionsProceed rounds wide depth) (keyword : Token) :
    Proceeds rounds (Grammar.returnStatement rounds keyword (depth + 1))
      (Grammar.returnStatement wide keyword (depth + 1)) :=
  (Proceeds.optionally (.isNext _) h.expression).bind fun _ => (Proceeds.expect _ _).map

theorem varDeclaration_succ (h : ExpressionsProceed rounds wide depth) :
    Proceeds rounds (Grammar.varDeclaration rounds (depth + 1)) (Grammar.varDeclaration wide (depth + 1)) :=
  (Proceeds.expect _ _).bind fun _ =>
    (Proceeds.optionally (Proceeds.accepts _).map h.expression).bind fun _ => (Proceeds.expect _ _).map

theorem declaration_succ (h : StatementsProceed rounds wide depth) :
    Proceeds rounds (Grammar.declaration rounds (depth + 1)) (Grammar.declaration wide (depth + 1)) := by
  rw [Grammar.declaration, Grammar.declaration]
  refine .recovering ((Proceeds.accepts .class).bind fun _ => .ite h.classDeclaration ?_)
  refine (Proceeds.accepts .fun).bind fun _ => .ite (h.function .function).map ?_
  exact (Proceeds.accepts .var).bind fun _ => .ite h.varDeclaration h.statement

theorem classRound (h : StatementsProceed rounds wide depth) (methods : Array FunctionDecl) :
    Proceeds rounds (Grammar.classRound rounds depth methods) (Grammar.classRound wide depth methods) :=
  Proceeds.closes.bind fun _ => .ite (.pure none) (h.function .method).map

theorem classDeclaration_succ (h : StatementsProceed rounds wide depth) (le : rounds ≤ wide) :
    Proceeds rounds (Grammar.classDeclaration rounds (depth + 1)) (Grammar.classDeclaration wide (depth + 1)) := by
  rw [Grammar.classDeclaration_succ, Grammar.classDeclaration_succ]
  refine (Proceeds.expect _ _).bind fun name => ?_
  refine (Proceeds.optionally (Proceeds.accepts .less).map (.expect _ _)).bind fun superclass => ?_
  refine (Proceeds.expect _ _).bind fun start => ?_
  refine Proceeds.bind ?_ fun methods => (Proceeds.expect _ _).map
  exact .iterate h.classRound (shortens_classRound rounds depth) (Nat.le_refl _) le _

theorem parameters (le : rounds ≤ wide) :
    Proceeds rounds (Grammar.parameters rounds) (Grammar.parameters wide) := by
  have name : Proceeds rounds (expect .identifier .parameterName) (expect .identifier .parameterName) := .expect _ _
  refine (Proceeds.isNext .rightParen).bind fun _ => .ite (.pure []) ?_
  exact name.commaList (Reads.expect .identifier .parameterName (by decide)) le _

theorem function_succ (h : StatementsProceed rounds wide depth) (le : rounds ≤ wide) (form : FunctionForm) :
    Proceeds rounds (Grammar.function rounds form (depth + 1)) (Grammar.function wide form (depth + 1)) := by
  rw [Grammar.function, Grammar.function]
  refine (Proceeds.expect _ _).bind fun name => (Proceeds.expect _ _).bind fun opening => ?_
  refine (parameters le).bind fun params => (Proceeds.expect _ _).bind fun closing => ?_
  exact (Proceeds.expect _ _).bind fun start => h.block.map

/-- What a declaration yields is added to the statements of a block or of the program. -/
theorem collected (h : StatementsProceed rounds wide depth) (statements : Array Stmt) :
    Proceeds rounds
      (do
        match ← Grammar.declaration rounds depth with
        | some stmt => return some (statements.push stmt)
        | none => return some statements)
      (do
        match ← Grammar.declaration wide depth with
        | some stmt => return some (statements.push stmt)
        | none => return some statements) := by
  refine h.declaration.bind fun result => ?_
  cases result <;> exact .pure _

theorem blockRound (h : StatementsProceed rounds wide depth) (statements : Array Stmt) :
    Proceeds rounds (Grammar.blockRound rounds depth statements) (Grammar.blockRound wide depth statements) :=
  Proceeds.closes.bind fun _ => .ite (.pure none) (h.collected statements)

theorem block_succ (h : StatementsProceed rounds wide depth) (le : rounds ≤ wide) :
    Proceeds rounds (Grammar.block rounds (depth + 1)) (Grammar.block wide (depth + 1)) := by
  rw [Grammar.block_succ, Grammar.block_succ]
  refine Proceeds.bind ?_ fun statements => (Proceeds.expect _ _).map
  exact .iterate h.blockRound (shortens_blockRound rounds depth) (Nat.le_refl _) le _

theorem programRound (h : StatementsProceed rounds wide depth) (statements : Array Stmt) :
    Proceeds rounds (Grammar.programRound rounds depth statements) (Grammar.programRound wide depth statements) :=
  (Proceeds.isNext .endOfInput).bind fun _ => .ite (.pure none) (h.collected statements)

theorem forInitializer (h : StatementsProceed rounds wide depth) :
    Proceeds rounds (Grammar.forInitializer rounds depth) (Grammar.forInitializer wide depth) :=
  (Proceeds.accepts .semicolon).bind fun _ => .ite (.pure none)
    ((Proceeds.accepts .var).bind fun _ => .ite h.varDeclaration.map h.expressionStatement.map)

theorem forStatement_succ (h : StatementsProceed rounds wide depth)
    (expressions : ExpressionsProceed rounds wide depth) :
    Proceeds rounds (Grammar.forStatement rounds (depth + 1)) (Grammar.forStatement wide (depth + 1)) := by
  rw [Grammar.forStatement, Grammar.forStatement]
  refine (Proceeds.expect _ _).bind fun opening => h.forInitializer.bind fun initializer => ?_
  refine (Proceeds.optionally (.isNext _) expressions.expression).bind fun condition => ?_
  refine (Proceeds.expect _ _).bind fun semicolon => ?_
  refine (Proceeds.optionally (.isNext _) expressions.expression).bind fun increment => ?_
  exact (Proceeds.expect _ _).bind fun closing => h.statement.map

theorem ifStatement_succ (h : StatementsProceed rounds wide depth)
    (expressions : ExpressionsProceed rounds wide depth) :
    Proceeds rounds (Grammar.ifStatement rounds (depth + 1)) (Grammar.ifStatement wide (depth + 1)) := by
  rw [Grammar.ifStatement, Grammar.ifStatement]
  refine (Proceeds.expect _ _).bind fun opening => expressions.expression.bind fun condition => ?_
  refine (Proceeds.expect _ _).bind fun closing => h.statement.bind fun thenBranch => ?_
  exact (Proceeds.optionally (Proceeds.accepts .else).map h.statement).map

theorem whileStatement_succ (h : StatementsProceed rounds wide depth)
    (expressions : ExpressionsProceed rounds wide depth) :
    Proceeds rounds (Grammar.whileStatement rounds (depth + 1)) (Grammar.whileStatement wide (depth + 1)) := by
  rw [Grammar.whileStatement, Grammar.whileStatement]
  refine (Proceeds.expect _ _).bind fun opening => expressions.expression.bind fun condition => ?_
  exact (Proceeds.expect _ _).bind fun closing => h.statement.map

theorem statement_succ (h : StatementsProceed rounds wide depth) :
    Proceeds rounds (Grammar.statement rounds (depth + 1)) (Grammar.statement wide (depth + 1)) := by
  rw [Grammar.statement, Grammar.statement]
  refine Proceeds.peek.bind fun keyword => ?_
  cases keyword.kind with
  | «for» => exact Proceeds.advance.bind fun _ => h.forStatement
  | «if» => exact Proceeds.advance.bind fun _ => h.ifStatement
  | print => exact Proceeds.advance.bind fun _ => h.printStatement
  | «return» => exact Proceeds.advance.bind fun _ => h.returnStatement keyword
  | «while» => exact Proceeds.advance.bind fun _ => h.whileStatement
  | «break» | «continue» => exact Proceeds.advance.bind fun _ => (Proceeds.expect _ _).map
  | leftBrace => exact Proceeds.advance.bind fun _ => h.block.map
  | _ => exact h.expressionStatement

end StatementsProceed

theorem statementsProceed (le : rounds ≤ wide) : ∀ depth, StatementsProceed rounds wide depth
  | 0 =>
      { expressionStatement := .tooDeep
        printStatement := .tooDeep
        returnStatement := fun _ => .tooDeep
        varDeclaration := .tooDeep
        declaration := .tooDeep
        classDeclaration := .tooDeep
        function := fun _ => .tooDeep
        block := .tooDeep
        statement := .tooDeep
        forStatement := .tooDeep
        ifStatement := .tooDeep
        whileStatement := .tooDeep }
  | depth + 1 =>
      have h := statementsProceed le depth
      have expressions := expressionsProceed le depth
      { expressionStatement := expressions.expression.bind fun _ => (Proceeds.expect _ _).map
        printStatement := expressions.expression.bind fun _ => (Proceeds.expect _ _).map
        returnStatement := StatementsProceed.returnStatement_succ expressions
        varDeclaration := StatementsProceed.varDeclaration_succ expressions
        declaration := h.declaration_succ
        classDeclaration := h.classDeclaration_succ le
        function := h.function_succ le
        block := h.block_succ le
        statement := h.statement_succ
        forStatement := h.forStatement_succ expressions
        ifStatement := h.ifStatement_succ expressions
        whileStatement := h.whileStatement_succ expressions }

end LoxLang.Grammar
