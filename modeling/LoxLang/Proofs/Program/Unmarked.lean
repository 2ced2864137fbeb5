import LoxLang.Proofs.Program.WellFormed

/-!
Trees without their marks.
-/

namespace LoxLang

namespace NameUse

def unmark (use : NameUse) : NameUse :=
  .unmarked use.name

theorem unmark_eq {use : NameUse} (h : use.hops = none) {marked : NameUse}
    (same : marked.name = use.name) : marked.unmark = use := by
  obtain ⟨name, hops⟩ := use
  cases h
  exact congrArg NameUse.unmarked same

end NameUse

mutual

def Expr.unmark : Expr → Expr
  | .assign target value => .assign target.unmark value.unmark
  | .binary left operator right => .binary left.unmark operator right.unmark
  | .call callee paren arguments => .call callee.unmark paren (unmarkExprs arguments)
  | .get object name => .get object.unmark name
  | .grouping expression => .grouping expression.unmark
  | .literal value => .literal value
  | .logical left operator right => .logical left.unmark operator right.unmark
  | .set object name value => .set object.unmark name value.unmark
  | .super keyword method => .super keyword.unmark method
  | .this keyword => .this keyword.unmark
  | .unary operator right => .unary operator right.unmark
  | .variable use => .variable use.unmark

def unmarkExprs : List Expr → List Expr
  | [] => []
  | expr :: rest => expr.unmark :: unmarkExprs rest

end

mutual

def Stmt.unmark : Stmt → Stmt
  | .block statements => .block (unmarkStmts statements)
  | .break keyword => .break keyword
  | .class name superclass methods =>
      .class name (superclass.map NameUse.unmark) (unmarkFunctions methods)
  | .continue keyword => .continue keyword
  | .expression expression => .expression expression.unmark
  | .function declaration => .function declaration.unmark
  | .if condition thenBranch elseBranch =>
      .if condition.unmark thenBranch.unmark (unmarkStmt? elseBranch)
  | .print expression => .print expression.unmark
  | .return keyword value => .return keyword (value.map Expr.unmark)
  | .var name initializer => .var name (initializer.map Expr.unmark)
  | .while condition body increment =>
      .while condition.unmark body.unmark (increment.map Expr.unmark)

def FunctionDecl.unmark : FunctionDecl → FunctionDecl
  | ⟨name, params, body⟩ => ⟨name, params, unmarkStmts body⟩

def unmarkStmt? : Option Stmt → Option Stmt
  | none => none
  | some stmt => some stmt.unmark

def unmarkStmts : List Stmt → List Stmt
  | [] => []
  | stmt :: rest => stmt.unmark :: unmarkStmts rest

def unmarkFunctions : List FunctionDecl → List FunctionDecl
  | [] => []
  | declaration :: rest => declaration.unmark :: unmarkFunctions rest

end

theorem unmarkExprs_eq_map (exprs : List Expr) : unmarkExprs exprs = exprs.map Expr.unmark := by
  induction exprs with
  | nil => rfl
  | cons expr rest ih => rw [unmarkExprs, List.map_cons, ih]

theorem unmarkFunctions_eq_map (declarations : List FunctionDecl) :
    unmarkFunctions declarations = declarations.map FunctionDecl.unmark := by
  induction declarations with
  | nil => rfl
  | cons declaration rest ih => rw [unmarkFunctions, List.map_cons, ih]

theorem unmarkStmts_eq_map (statements : List Stmt) :
    unmarkStmts statements = statements.map Stmt.unmark := by
  induction statements with
  | nil => rfl
  | cons stmt rest ih => rw [unmarkStmts, List.map_cons, ih]

@[simp] theorem Stmt.declared?_unmark (stmt : Stmt) :
    stmt.unmark.declared? = stmt.declared? := by
  cases stmt with
  | function declaration => cases declaration; rfl
  | _ => rfl

end LoxLang
