import LoxLang.Program.Basic
import Mathlib.Logic.Basic

/-!
Trees marked anew: every mark is replaced by what a function makes of it, and nothing else changes.
-/

namespace LoxLang

/-- What becomes of a mark, or of a missing one. -/
abbrev Remarking := Option Nat → Option Nat

variable (f g : Remarking)

def NameUse.remark : NameUse → NameUse
  | ⟨name, hops⟩ => ⟨name, f hops⟩

mutual

def Expr.remark : Expr → Expr
  | .assign target value => .assign (target.remark f) value.remark
  | .binary left operator right => .binary left.remark operator right.remark
  | .call callee paren arguments => .call callee.remark paren (remarkExprs arguments)
  | .get object name => .get object.remark name
  | .grouping expression => .grouping expression.remark
  | .literal value => .literal value
  | .logical left operator right => .logical left.remark operator right.remark
  | .set object name value => .set object.remark name value.remark
  | .super keyword method => .super (keyword.remark f) method
  | .this keyword => .this (keyword.remark f)
  | .unary operator right => .unary operator right.remark
  | .variable use => .variable (use.remark f)

def remarkExprs : List Expr → List Expr
  | [] => []
  | expr :: rest => expr.remark :: remarkExprs rest

end

mutual

def Stmt.remark : Stmt → Stmt
  | .block statements => .block (remarkStmts statements)
  | .break keyword => .break keyword
  | .class name superclass methods =>
      .class name (superclass.map (NameUse.remark f)) (remarkFunctions methods)
  | .continue keyword => .continue keyword
  | .expression expression => .expression (expression.remark f)
  | .function declaration => .function declaration.remark
  | .if condition thenBranch elseBranch =>
      .if (condition.remark f) thenBranch.remark (remarkStmt? elseBranch)
  | .print expression => .print (expression.remark f)
  | .return keyword value => .return keyword (value.map (Expr.remark f))
  | .var name initializer => .var name (initializer.map (Expr.remark f))
  | .while condition body increment =>
      .while (condition.remark f) body.remark (increment.map (Expr.remark f))

def FunctionDecl.remark : FunctionDecl → FunctionDecl
  | ⟨name, params, body⟩ => ⟨name, params, remarkStmts body⟩

def remarkStmt? : Option Stmt → Option Stmt
  | none => none
  | some stmt => some stmt.remark

def remarkStmts : List Stmt → List Stmt
  | [] => []
  | stmt :: rest => stmt.remark :: remarkStmts rest

def remarkFunctions : List FunctionDecl → List FunctionDecl
  | [] => []
  | declaration :: rest => declaration.remark :: remarkFunctions rest

end

theorem remarkFunctions_eq_map (declarations : List FunctionDecl) :
    remarkFunctions f declarations = declarations.map (FunctionDecl.remark f) := by
  induction declarations with
  | nil => rfl
  | cons declaration rest ih => rw [remarkFunctions, List.map_cons, ih]

@[simp] theorem FunctionDecl.name_remark (declaration : FunctionDecl) :
    (declaration.remark f).name = declaration.name := by
  cases declaration
  rfl

@[simp] theorem FunctionDecl.params_remark (declaration : FunctionDecl) :
    (declaration.remark f).params = declaration.params := by
  cases declaration
  rfl

@[simp] theorem FunctionDecl.body_remark (declaration : FunctionDecl) :
    (declaration.remark f).body = remarkStmts f declaration.body := by
  cases declaration
  rfl

/-! ## One after the other -/

mutual

theorem Expr.remark_remark (expr : Expr) : (expr.remark f).remark g = expr.remark (g ∘ f) := by
  cases expr with
  | assign target value => exact congrArg (Expr.assign _) value.remark_remark
  | binary left operator right =>
      exact congrArg₂ (Expr.binary · operator) left.remark_remark right.remark_remark
  | call callee paren arguments =>
      exact congrArg₂ (Expr.call · paren) callee.remark_remark (remarkExprs_remarkExprs arguments)
  | get object name => exact congrArg (Expr.get · name) object.remark_remark
  | grouping inner => exact congrArg Expr.grouping inner.remark_remark
  | logical left operator right =>
      exact congrArg₂ (Expr.logical · operator) left.remark_remark right.remark_remark
  | set object name value =>
      exact congrArg₂ (Expr.set · name) object.remark_remark value.remark_remark
  | unary operator right => exact congrArg (Expr.unary operator) right.remark_remark
  | literal _ | super _ _ | this _ | «variable» _ => rfl

theorem remarkExprs_remarkExprs (exprs : List Expr) :
    remarkExprs g (remarkExprs f exprs) = remarkExprs (g ∘ f) exprs := by
  cases exprs with
  | nil => rfl
  | cons first rest =>
      exact congrArg₂ List.cons first.remark_remark (remarkExprs_remarkExprs rest)

end

theorem Expr.map_remark_remark (expr : Option Expr) :
    (expr.map (remark f)).map (remark g) = expr.map (remark (g ∘ f)) := by
  cases expr with
  | none => rfl
  | some expr => exact congrArg some (expr.remark_remark f g)

mutual

theorem Stmt.remark_remark (stmt : Stmt) : (stmt.remark f).remark g = stmt.remark (g ∘ f) := by
  cases stmt with
  | block statements => exact congrArg Stmt.block (remarkStmts_remarkStmts statements)
  | «class» name superclass methods =>
      have uses : (superclass.map (NameUse.remark f)).map (NameUse.remark g) =
          superclass.map (NameUse.remark (g ∘ f)) := Option.map_map ..
      exact congrArg₂ (Stmt.class name) uses (remarkFunctions_remarkFunctions methods)
  | expression value => exact congrArg Stmt.expression (value.remark_remark f g)
  | function declaration => exact congrArg Stmt.function declaration.remark_remark
  | «if» condition thenBranch elseBranch =>
      rw [Stmt.remark, Stmt.remark, Stmt.remark, condition.remark_remark, thenBranch.remark_remark]
      cases elseBranch with
      | none => rfl
      | some elseBranch => rw [remarkStmt?, remarkStmt?, remarkStmt?, elseBranch.remark_remark]
  | print value => exact congrArg Stmt.print (value.remark_remark f g)
  | «return» keyword value =>
      exact congrArg (Stmt.return keyword) (Expr.map_remark_remark f g value)
  | var name initializer => exact congrArg (Stmt.var name) (Expr.map_remark_remark f g initializer)
  | «while» condition body increment =>
      rw [Stmt.remark, Stmt.remark, Stmt.remark, condition.remark_remark, body.remark_remark,
        Expr.map_remark_remark]
  | «break» _ | «continue» _ => rfl

theorem FunctionDecl.remark_remark (declaration : FunctionDecl) :
    (declaration.remark f).remark g = declaration.remark (g ∘ f) := by
  obtain ⟨name, params, body⟩ := declaration
  exact congrArg (FunctionDecl.mk name params) (remarkStmts_remarkStmts body)

theorem remarkStmts_remarkStmts (statements : List Stmt) :
    remarkStmts g (remarkStmts f statements) = remarkStmts (g ∘ f) statements := by
  cases statements with
  | nil => rfl
  | cons stmt rest =>
      exact congrArg₂ List.cons stmt.remark_remark (remarkStmts_remarkStmts rest)

theorem remarkFunctions_remarkFunctions (declarations : List FunctionDecl) :
    remarkFunctions g (remarkFunctions f declarations) = remarkFunctions (g ∘ f) declarations := by
  cases declarations with
  | nil => rfl
  | cons first rest =>
      exact congrArg₂ List.cons first.remark_remark (remarkFunctions_remarkFunctions rest)

end

end LoxLang
