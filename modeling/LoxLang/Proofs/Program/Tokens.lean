import LoxLang.Program.Basic

/-!
The tokens that a tree holds, in the order in which they were written. An increment stands before the body
of its loop, and the parenthesis that a call keeps is the closing one.
-/

namespace LoxLang

mutual

def Expr.tokens : Expr → List Token
  | .assign target value => target.name :: value.tokens
  | .binary left operator right => left.tokens ++ operator :: right.tokens
  | .call callee paren arguments => callee.tokens ++ (tokensOfExprs arguments ++ [paren])
  | .get object name => object.tokens ++ [name]
  | .grouping expression => expression.tokens
  | .literal _ => []
  | .logical left operator right => left.tokens ++ operator :: right.tokens
  | .set object name value => object.tokens ++ name :: value.tokens
  | .super keyword method => [keyword.name, method]
  | .this keyword => [keyword.name]
  | .unary operator right => operator :: right.tokens
  | .variable use => [use.name]

def tokensOfExprs : List Expr → List Token
  | [] => []
  | expr :: rest => expr.tokens ++ tokensOfExprs rest

end

def tokensOfExpr? (expr : Option Expr) : List Token :=
  match expr with
  | none => []
  | some expr => expr.tokens

mutual

def Stmt.tokens : Stmt → List Token
  | .block statements => tokensOfStmts statements
  | .break keyword => [keyword]
  | .class name superclass methods =>
      name :: ((match superclass with
        | none => []
        | some superclass => [superclass.name]) ++ tokensOfFunctions methods)
  | .continue keyword => [keyword]
  | .expression expression => expression.tokens
  | .function declaration => declaration.tokens
  | .if condition thenBranch elseBranch =>
      condition.tokens ++ (thenBranch.tokens ++ tokensOfStmt? elseBranch)
  | .print expression => expression.tokens
  | .return keyword value => keyword :: tokensOfExpr? value
  | .var name initializer => name :: tokensOfExpr? initializer
  | .while condition body increment =>
      condition.tokens ++ (tokensOfExpr? increment ++ body.tokens)

def FunctionDecl.tokens : FunctionDecl → List Token
  | ⟨name, params, body⟩ => name :: (params ++ tokensOfStmts body)

def tokensOfStmt? : Option Stmt → List Token
  | none => []
  | some stmt => stmt.tokens

def tokensOfStmts : List Stmt → List Token
  | [] => []
  | stmt :: rest => stmt.tokens ++ tokensOfStmts rest

def tokensOfFunctions : List FunctionDecl → List Token
  | [] => []
  | declaration :: rest => declaration.tokens ++ tokensOfFunctions rest

end

theorem tokensOfExprs_eq_flatMap (exprs : List Expr) :
    tokensOfExprs exprs = exprs.flatMap Expr.tokens := by
  induction exprs with
  | nil => rfl
  | cons expr rest ih => rw [tokensOfExprs, List.flatMap_cons, ih]

theorem tokensOfStmts_eq_flatMap (statements : List Stmt) :
    tokensOfStmts statements = statements.flatMap Stmt.tokens := by
  induction statements with
  | nil => rfl
  | cons stmt rest ih => rw [tokensOfStmts, List.flatMap_cons, ih]

theorem tokensOfFunctions_eq_flatMap (declarations : List FunctionDecl) :
    tokensOfFunctions declarations = declarations.flatMap FunctionDecl.tokens := by
  induction declarations with
  | nil => rfl
  | cons declaration rest ih => rw [tokensOfFunctions, List.flatMap_cons, ih]

end LoxLang
