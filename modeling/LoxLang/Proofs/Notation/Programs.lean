import LoxLang.Proofs.Grammar.Unmarked
import LoxLang.Proofs.Notation.Tokens

/-!
Programs in listings. Two trees are written alike only if they are the same but for the marks of their names,
which a listing leaves out.
-/

namespace LoxLang

open Notation NodeShape

/-! ## Shapes -/

/-- The shape of an expression, which its text begins with. -/
def Expr.nodeShape : Expr → NodeShape
  | .assign .. => assignNode
  | .binary .. => binaryNode
  | .call .. => callNode
  | .get .. => getNode
  | .grouping _ => groupingNode
  | .literal _ => literalNode
  | .logical .. => logicalNode
  | .set .. => setNode
  | .super .. => superNode
  | .this _ => thisNode
  | .unary .. => unaryNode
  | .variable _ => variableNode

def Stmt.nodeShape : Stmt → NodeShape
  | .block _ => blockNode
  | .break _ => breakNode
  | .class .. => classNode
  | .continue _ => continueNode
  | .expression _ => expressionNode
  | .function _ => functionNode
  | .if .. => ifNode
  | .print _ => printNode
  | .return .. => returnNode
  | .var .. => varNode
  | .while .. => whileNode

theorem exists_ofExpr_eq (expr : Expr) : ∃ values, ofExpr expr = expr.nodeShape.write values := by
  cases expr <;> exact ⟨_, rfl⟩

theorem exists_ofFunction_eq (declaration : FunctionDecl) :
    ∃ values, ofFunction declaration = functionNode.write values := by
  cases declaration
  exact ⟨_, rfl⟩

theorem exists_ofStmt_eq (stmt : Stmt) : ∃ values, ofStmt stmt = stmt.nodeShape.write values := by
  cases stmt with
  | function declaration => exact exists_ofFunction_eq declaration
  | _ => exact ⟨_, rfl⟩

/-- Expressions of different shapes show anything. -/
theorem shows_of_expr_shape {same : Prop} {expr other : Expr}
    (unlike : Unlike expr.nodeShape other.nodeShape) : Shows same (ofExpr expr) (ofExpr other) := by
  obtain ⟨values, written⟩ := exists_ofExpr_eq expr
  obtain ⟨values', written'⟩ := exists_ofExpr_eq other
  rw [written, written']
  exact shows_of_unlike unlike values values'

theorem shows_of_stmt_shape {same : Prop} {stmt other : Stmt}
    (unlike : Unlike stmt.nodeShape other.nodeShape) : Shows same (ofStmt stmt) (ofStmt other) := by
  obtain ⟨values, written⟩ := exists_ofStmt_eq stmt
  obtain ⟨values', written'⟩ := exists_ofStmt_eq other
  rw [written, written']
  exact shows_of_unlike unlike values values'

theorem opens_write {first : Char} {family : String} {shape : NodeShape} (named : shape.family = family)
    (opens : Opens first family) (values : List String) : Opens first (shape.write values) := by
  rw [write_eq, named]
  exact (opens.append _).append _

theorem opens_expr (expr : Expr) : Opens 'E' (ofExpr expr) := by
  obtain ⟨values, written⟩ := exists_ofExpr_eq expr
  have named : expr.nodeShape.family = "Expr" := by cases expr <;> rfl
  rw [written]
  exact opens_write named ⟨_, rfl⟩ values

theorem opens_function (declaration : FunctionDecl) : Opens 'S' (ofFunction declaration) := by
  obtain ⟨values, written⟩ := exists_ofFunction_eq declaration
  have named : functionNode.family = "Stmt" := rfl
  rw [written]
  exact opens_write named ⟨_, rfl⟩ values

theorem opens_stmt (stmt : Stmt) : Opens 'S' (ofStmt stmt) := by
  obtain ⟨values, written⟩ := exists_ofStmt_eq stmt
  have named : stmt.nodeShape.family = "Stmt" := by cases stmt <;> rfl
  rw [written]
  exact opens_write named ⟨_, rfl⟩ values

/-! ## Expressions -/

theorem ofExprs_eq_map (exprs : List Expr) : ofExprs exprs = exprs.map ofExpr := by
  induction exprs with
  | nil => rfl
  | cons expr rest ih => rw [ofExprs, List.map_cons, ih]

theorem shows_exprs (exprs others : List Expr)
    (shows : ∀ expr ∈ exprs, ∀ other, Shows (expr.unmark = other.unmark) (ofExpr expr) (ofExpr other)) :
    Shows (unmarkExprs exprs = unmarkExprs others) (list (ofExprs exprs)) (list (ofExprs others)) := by
  rw [unmarkExprs_eq_map, unmarkExprs_eq_map, ofExprs_eq_map, ofExprs_eq_map]
  exact shows_list (shows_each rfl opens_expr exprs others shows)

theorem shows_use (use other : NameUse) :
    Shows (use.unmark = other.unmark) (ofToken use.name) (ofToken other.name) :=
  (shows_token use.name other.name).mono (congrArg NameUse.unmarked)

/-- An expression is shown up to its marks. Other nodes than its own begin with the name of another shape. -/
theorem shows_expr (expr other : Expr) : Shows (expr.unmark = other.unmark) (ofExpr expr) (ofExpr other) := by
  cases expr with
  | assign target value =>
      cases other with
      | assign target' value' =>
          have parts := ShowsEach.cons (shows_use target target') (.cons (shows_expr value value') .nil)
          refine (shows_write parts rfl rfl).mono ?_
          rintro ⟨targets, values, -⟩
          exact congrArg₂ Expr.assign targets values
      | _ => exact shows_of_expr_shape (by simp only [Expr.nodeShape]; decide)
  | binary left operator right =>
      cases other with
      | binary left' operator' right' =>
          have parts := ShowsEach.cons (shows_expr left left')
            (.cons (shows_token operator operator') (.cons (shows_expr right right') .nil))
          refine (shows_write parts rfl rfl).mono ?_
          rintro ⟨lefts, operators, rights, -⟩
          rw [Expr.unmark, Expr.unmark, lefts, operators, rights]
      | _ => exact shows_of_expr_shape (by simp only [Expr.nodeShape]; decide)
  | call callee paren arguments =>
      cases other with
      | call callee' paren' arguments' =>
          have parts := ShowsEach.cons (shows_expr callee callee')
            (.cons (shows_token paren paren') (.cons (shows_exprs arguments arguments'
              fun argument _ other => shows_expr argument other) .nil))
          refine (shows_write parts rfl rfl).mono ?_
          rintro ⟨callees, parens, all, -⟩
          rw [Expr.unmark, Expr.unmark, callees, parens, all]
      | _ => exact shows_of_expr_shape (by simp only [Expr.nodeShape]; decide)
  | get object name =>
      cases other with
      | get object' name' =>
          have parts := ShowsEach.cons (shows_expr object object') (.cons (shows_token name name') .nil)
          refine (shows_write parts rfl rfl).mono ?_
          rintro ⟨objects, names, -⟩
          exact congrArg₂ Expr.get objects names
      | _ => exact shows_of_expr_shape (by simp only [Expr.nodeShape]; decide)
  | grouping inner =>
      cases other with
      | grouping inner' =>
          have parts := ShowsEach.cons (shows_expr inner inner') .nil
          refine (shows_write parts rfl rfl).mono ?_
          rintro ⟨inners, -⟩
          exact congrArg Expr.grouping inners
      | _ => exact shows_of_expr_shape (by simp only [Expr.nodeShape]; decide)
  | literal value =>
      cases other with
      | literal value' =>
          have parts := ShowsEach.cons (shows_constant value value') .nil
          refine (shows_write parts rfl rfl).mono ?_
          rintro ⟨values, -⟩
          exact congrArg Expr.literal values
      | _ => exact shows_of_expr_shape (by simp only [Expr.nodeShape]; decide)
  | logical left operator right =>
      cases other with
      | logical left' operator' right' =>
          have parts := ShowsEach.cons (shows_expr left left')
            (.cons (shows_token operator operator') (.cons (shows_expr right right') .nil))
          refine (shows_write parts rfl rfl).mono ?_
          rintro ⟨lefts, operators, rights, -⟩
          rw [Expr.unmark, Expr.unmark, lefts, operators, rights]
      | _ => exact shows_of_expr_shape (by simp only [Expr.nodeShape]; decide)
  | set object name value =>
      cases other with
      | set object' name' value' =>
          have parts := ShowsEach.cons (shows_expr object object')
            (.cons (shows_token name name') (.cons (shows_expr value value') .nil))
          refine (shows_write parts rfl rfl).mono ?_
          rintro ⟨objects, names, values, -⟩
          rw [Expr.unmark, Expr.unmark, objects, names, values]
      | _ => exact shows_of_expr_shape (by simp only [Expr.nodeShape]; decide)
  | super keyword method =>
      cases other with
      | super keyword' method' =>
          have parts := ShowsEach.cons (shows_use keyword keyword') (.cons (shows_token method method') .nil)
          refine (shows_write parts rfl rfl).mono ?_
          rintro ⟨keywords, methods, -⟩
          exact congrArg₂ Expr.super keywords methods
      | _ => exact shows_of_expr_shape (by simp only [Expr.nodeShape]; decide)
  | this keyword =>
      cases other with
      | this keyword' =>
          have parts := ShowsEach.cons (shows_use keyword keyword') .nil
          refine (shows_write parts rfl rfl).mono ?_
          rintro ⟨keywords, -⟩
          exact congrArg Expr.this keywords
      | _ => exact shows_of_expr_shape (by simp only [Expr.nodeShape]; decide)
  | unary operator right =>
      cases other with
      | unary operator' right' =>
          have parts := ShowsEach.cons (shows_token operator operator') (.cons (shows_expr right right') .nil)
          refine (shows_write parts rfl rfl).mono ?_
          rintro ⟨operators, rights, -⟩
          exact congrArg₂ Expr.unary operators rights
      | _ => exact shows_of_expr_shape (by simp only [Expr.nodeShape]; decide)
  | «variable» use =>
      cases other with
      | «variable» use' =>
          have parts := ShowsEach.cons (shows_use use use') .nil
          refine (shows_write parts rfl rfl).mono ?_
          rintro ⟨uses, -⟩
          exact congrArg Expr.variable uses
      | _ => exact shows_of_expr_shape (by simp only [Expr.nodeShape]; decide)

theorem shows_expr? (expr other : Option Expr) :
    Shows (expr.map Expr.unmark = other.map Expr.unmark) (ofExpr? expr) (ofExpr? other) := by
  have opens : Opens 'N' absent := ⟨_, rfl⟩
  cases expr with
  | none =>
      cases other with
      | none => exact (Shows.refl _).mono fun _ => rfl
      | some other => exact shows_of_opens opens (opens_expr other) (by decide)
  | some expr =>
      cases other with
      | none => exact shows_of_opens (opens_expr expr) opens (by decide)
      | some other => exact (shows_expr expr other).mono (congrArg some)

/-! ## Statements -/

theorem shows_tokens (tokens others : List Token) :
    Shows (tokens = others) (list (tokens.map ofToken)) (list (others.map ofToken)) := by
  have shows : ShowsEach (tokens.map id = others.map id) (tokens.map ofToken) (others.map ofToken) :=
    shows_each rfl opens_token tokens others fun token _ other => shows_token token other
  rw [List.map_id, List.map_id] at shows
  exact shows_list shows

theorem ofStmts_eq_map (statements : List Stmt) : ofStmts statements = statements.map ofStmt := by
  induction statements with
  | nil => rfl
  | cons stmt rest ih => rw [ofStmts, List.map_cons, ih]

theorem ofFunctions_eq_map (declarations : List FunctionDecl) :
    ofFunctions declarations = declarations.map ofFunction := by
  induction declarations with
  | nil => rfl
  | cons declaration rest ih => rw [ofFunctions, List.map_cons, ih]

theorem shows_stmts (statements others : List Stmt)
    (shows : ∀ stmt ∈ statements, ∀ other, Shows (stmt.unmark = other.unmark) (ofStmt stmt) (ofStmt other)) :
    Shows (unmarkStmts statements = unmarkStmts others) (list (ofStmts statements)) (list (ofStmts others)) := by
  rw [unmarkStmts_eq_map, unmarkStmts_eq_map, ofStmts_eq_map, ofStmts_eq_map]
  exact shows_list (shows_each rfl opens_stmt statements others shows)

theorem shows_functions (declarations others : List FunctionDecl)
    (shows : ∀ declaration ∈ declarations, ∀ other,
      Shows (declaration.unmark = other.unmark) (ofFunction declaration) (ofFunction other)) :
    Shows (unmarkFunctions declarations = unmarkFunctions others) (list (ofFunctions declarations))
      (list (ofFunctions others)) := by
  rw [unmarkFunctions_eq_map, unmarkFunctions_eq_map, ofFunctions_eq_map, ofFunctions_eq_map]
  exact shows_list (shows_each rfl opens_function declarations others shows)

/-- A superclass is written as the variable that it is. -/
theorem shows_superclass (superclass other : Option NameUse) :
    Shows (superclass.map NameUse.unmark = other.map NameUse.unmark) (ofExpr? (superclass.map .variable))
      (ofExpr? (other.map .variable)) := by
  refine (shows_expr? _ _).mono fun same => ?_
  cases superclass with
  | none =>
      cases other with
      | none => rfl
      | some _ => cases same
  | some use =>
      cases other with
      | none => cases same
      | some other => exact congrArg some (Expr.variable.inj (Option.some.inj same))

mutual

/-- A statement is shown up to its marks. -/
theorem shows_stmt (stmt other : Stmt) : Shows (stmt.unmark = other.unmark) (ofStmt stmt) (ofStmt other) := by
  cases stmt with
  | block statements =>
      cases other with
      | block statements' =>
          have parts := ShowsEach.cons
            (shows_stmts statements statements' fun stmt _ other => shows_stmt stmt other) .nil
          refine (shows_write parts rfl rfl).mono ?_
          rintro ⟨all, -⟩
          exact congrArg Stmt.block all
      | _ => exact shows_of_stmt_shape (by simp only [Stmt.nodeShape]; decide)
  | «break» keyword =>
      cases other with
      | «break» keyword' =>
          have parts := ShowsEach.cons (shows_token keyword keyword') .nil
          refine (shows_write parts rfl rfl).mono ?_
          rintro ⟨keywords, -⟩
          exact congrArg Stmt.break keywords
      | _ => exact shows_of_stmt_shape (by simp only [Stmt.nodeShape]; decide)
  | «class» name superclass methods =>
      cases other with
      | «class» name' superclass' methods' =>
          have parts := ShowsEach.cons (shows_token name name')
            (.cons (shows_superclass superclass superclass') (.cons (shows_functions methods methods'
              fun method _ other => shows_function method other) .nil))
          refine (shows_write parts rfl rfl).mono ?_
          rintro ⟨names, superclasses, all, -⟩
          rw [Stmt.unmark, Stmt.unmark, names, superclasses, all]
      | _ => exact shows_of_stmt_shape (by simp only [Stmt.nodeShape]; decide)
  | «continue» keyword =>
      cases other with
      | «continue» keyword' =>
          have parts := ShowsEach.cons (shows_token keyword keyword') .nil
          refine (shows_write parts rfl rfl).mono ?_
          rintro ⟨keywords, -⟩
          exact congrArg Stmt.continue keywords
      | _ => exact shows_of_stmt_shape (by simp only [Stmt.nodeShape]; decide)
  | expression value =>
      cases other with
      | expression value' =>
          have parts := ShowsEach.cons (shows_expr value value') .nil
          refine (shows_write parts rfl rfl).mono ?_
          rintro ⟨values, -⟩
          exact congrArg Stmt.expression values
      | _ => exact shows_of_stmt_shape (by simp only [Stmt.nodeShape]; decide)
  | function declaration =>
      cases other with
      | function declaration' =>
          exact (shows_function declaration declaration').mono (congrArg Stmt.function)
      | _ => exact shows_of_stmt_shape (by simp only [Stmt.nodeShape]; decide)
  | «if» condition thenBranch elseBranch =>
      cases other with
      | «if» condition' thenBranch' elseBranch' =>
          have parts := ShowsEach.cons (shows_expr condition condition')
            (.cons (shows_stmt thenBranch thenBranch') (.cons (shows_stmt? elseBranch elseBranch') .nil))
          refine (shows_write parts rfl rfl).mono ?_
          rintro ⟨conditions, thenBranches, elseBranches, -⟩
          rw [Stmt.unmark, Stmt.unmark, conditions, thenBranches, elseBranches]
      | _ => exact shows_of_stmt_shape (by simp only [Stmt.nodeShape]; decide)
  | print value =>
      cases other with
      | print value' =>
          have parts := ShowsEach.cons (shows_expr value value') .nil
          refine (shows_write parts rfl rfl).mono ?_
          rintro ⟨values, -⟩
          exact congrArg Stmt.print values
      | _ => exact shows_of_stmt_shape (by simp only [Stmt.nodeShape]; decide)
  | «return» keyword value =>
      cases other with
      | «return» keyword' value' =>
          have parts := ShowsEach.cons (shows_token keyword keyword') (.cons (shows_expr? value value') .nil)
          refine (shows_write parts rfl rfl).mono ?_
          rintro ⟨keywords, values, -⟩
          exact congrArg₂ Stmt.return keywords values
      | _ => exact shows_of_stmt_shape (by simp only [Stmt.nodeShape]; decide)
  | var name initializer =>
      cases other with
      | var name' initializer' =>
          have parts := ShowsEach.cons (shows_token name name') (.cons (shows_expr? initializer initializer') .nil)
          refine (shows_write parts rfl rfl).mono ?_
          rintro ⟨names, initializers, -⟩
          exact congrArg₂ Stmt.var names initializers
      | _ => exact shows_of_stmt_shape (by simp only [Stmt.nodeShape]; decide)
  | «while» condition body increment =>
      cases other with
      | «while» condition' body' increment' =>
          have parts := ShowsEach.cons (shows_expr condition condition')
            (.cons (shows_stmt body body') (.cons (shows_expr? increment increment') .nil))
          refine (shows_write parts rfl rfl).mono ?_
          rintro ⟨conditions, bodies, increments, -⟩
          rw [Stmt.unmark, Stmt.unmark, conditions, bodies, increments]
      | _ => exact shows_of_stmt_shape (by simp only [Stmt.nodeShape]; decide)

theorem shows_function (declaration other : FunctionDecl) :
    Shows (declaration.unmark = other.unmark) (ofFunction declaration) (ofFunction other) := by
  obtain ⟨name, params, body⟩ := declaration
  obtain ⟨name', params', body'⟩ := other
  have parts := ShowsEach.cons (shows_token name name')
    (.cons (shows_tokens params params')
      (.cons (shows_stmts body body' fun stmt _ other => shows_stmt stmt other) .nil))
  refine (shows_write parts rfl rfl).mono ?_
  rintro ⟨names, allParams, bodies, -⟩
  rw [FunctionDecl.unmark, FunctionDecl.unmark, names, allParams, bodies]

theorem shows_stmt? (stmt other : Option Stmt) :
    Shows (unmarkStmt? stmt = unmarkStmt? other) (ofStmt? stmt) (ofStmt? other) := by
  have opens : Opens 'N' absent := ⟨_, rfl⟩
  cases stmt with
  | none =>
      cases other with
      | none => exact (Shows.refl _).mono fun _ => rfl
      | some other => exact shows_of_opens opens (opens_stmt other) (by decide)
  | some stmt =>
      cases other with
      | none => exact shows_of_opens (opens_stmt stmt) opens (by decide)
      | some other => exact (shows_stmt stmt other).mono (congrArg some)

end

/-! ## Programs -/

/-- Two lists of statements are listed alike only if they are the same but for their marks. -/
theorem unmark_eq_of_list_eq {statements others : List Stmt}
    (same : list (ofStmts statements) = list (ofStmts others)) : unmarkStmts statements = unmarkStmts others :=
  (shows_stmts statements others fun stmt _ other => shows_stmt stmt other).of_eq same

/-- What is read from any two lists of tokens is listed alike if and only if it is the same: the same nodes with
the same tokens, constants and absent parts, and lists of the same lengths. Numbers are the same if their bits are. -/
theorem Program.list_eq_iff (depth depth' : Nat) (tokens tokens' : List Token) :
    list (ofStmts (ofTokens depth tokens).statements) = list (ofStmts (ofTokens depth' tokens').statements) ↔
      (ofTokens depth tokens).statements = (ofTokens depth' tokens').statements := by
  refine ⟨fun same => ?_, congrArg fun statements => list (ofStmts statements)⟩
  have unmarked := unmark_eq_of_list_eq same
  rwa [unmark_ofTokens, unmark_ofTokens] at unmarked

end LoxLang
