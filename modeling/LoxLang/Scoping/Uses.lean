import LoxLang.Program.Basic

/-!
The marked uses of local names in a program, in the order in which marking comes to them.
-/

namespace LoxLang

/-- The nodes that use a name. -/
inductive UseForm where
  | variable | assign | this | super
  deriving DecidableEq

structure LocalUse where
  form : UseForm
  name : Token
  hops : Nat
  deriving DecidableEq

def NameUse.localUse (form : UseForm) (use : NameUse) : List LocalUse :=
  match use.hops with
  | some hops => [⟨form, use.name, hops⟩]
  | none => []

mutual

def Expr.localUses : Expr → List LocalUse
  | .assign target value => value.localUses ++ target.localUse .assign
  | .binary left _ right => left.localUses ++ right.localUses
  | .call callee _ arguments => callee.localUses ++ localUsesOfExprs arguments
  | .get object _ => object.localUses
  | .grouping expression => expression.localUses
  | .literal _ => []
  | .logical left _ right => left.localUses ++ right.localUses
  | .set object _ value => value.localUses ++ object.localUses
  | .super keyword _ => keyword.localUse .super
  | .this keyword => keyword.localUse .this
  | .unary _ right => right.localUses
  | .variable use => use.localUse .variable

def localUsesOfExprs : List Expr → List LocalUse
  | [] => []
  | expr :: rest => expr.localUses ++ localUsesOfExprs rest

end

def localUsesOfExpr? (expr : Option Expr) : List LocalUse :=
  match expr with
  | none => []
  | some expr => expr.localUses

mutual

def Stmt.localUses : Stmt → List LocalUse
  | .block statements => localUsesOfStmts statements
  | .break _ => []
  | .class _ superclass methods =>
      (match superclass with
        | none => []
        | some superclass => superclass.localUse .variable) ++ localUsesOfFunctions methods
  | .continue _ => []
  | .expression expression => expression.localUses
  | .function declaration => declaration.localUses
  | .if condition thenBranch elseBranch =>
      condition.localUses ++ thenBranch.localUses ++ localUsesOfStmt? elseBranch
  | .print expression => expression.localUses
  | .return _ value => localUsesOfExpr? value
  | .var _ initializer => localUsesOfExpr? initializer
  | .while condition body increment =>
      condition.localUses ++ body.localUses ++ localUsesOfExpr? increment

def FunctionDecl.localUses : FunctionDecl → List LocalUse
  | ⟨_, _, body⟩ => localUsesOfStmts body

def localUsesOfStmt? : Option Stmt → List LocalUse
  | none => []
  | some stmt => stmt.localUses

def localUsesOfStmts : List Stmt → List LocalUse
  | [] => []
  | stmt :: rest => stmt.localUses ++ localUsesOfStmts rest

def localUsesOfFunctions : List FunctionDecl → List LocalUse
  | [] => []
  | declaration :: rest => declaration.localUses ++ localUsesOfFunctions rest

end

end LoxLang
