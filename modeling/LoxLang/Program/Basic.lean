import LoxLang.Token.Basic

/-!
Programs as trees. A node that uses a name can be marked with the number of scopes between the use
and the declaration that it refers to; an unmarked name is looked up among the globals.
-/

namespace LoxLang

/-- A use of a name, and how many scopes out its declaration stands, if it is a local one. -/
structure NameUse where
  name : Token
  hops : Option Nat
  deriving DecidableEq

namespace NameUse

def unmarked (name : Token) : NameUse :=
  ⟨name, none⟩

end NameUse

/-- The values that a program can write down. -/
inductive Constant where
  | nil
  | bool (value : Bool)
  | number (value : Float)
  | text (value : String)
  deriving DecidableEq

inductive Expr where
  | assign (target : NameUse) (value : Expr)
  | binary (left : Expr) (operator : Token) (right : Expr)
  | call (callee : Expr) (paren : Token) (arguments : List Expr)
  | get (object : Expr) (name : Token)
  | grouping (expression : Expr)
  | literal (value : Constant)
  | logical (left : Expr) (operator : Token) (right : Expr)
  | set (object : Expr) (name : Token) (value : Expr)
  | super (keyword : NameUse) (method : Token)
  | this (keyword : NameUse)
  | unary (operator : Token) (right : Expr)
  | variable (use : NameUse)

mutual

/-- A function with its name, parameters and body; a method is written in the same way. -/
structure FunctionDecl where
  name : Token
  params : List Token
  body : List Stmt

/-- A loop has an increment only when it was written with `for`; the increment follows every round,
also one that `continue` cut short. -/
inductive Stmt where
  | block (statements : List Stmt)
  | break (keyword : Token)
  | class (name : Token) (superclass : Option NameUse) (methods : List FunctionDecl)
  | continue (keyword : Token)
  | expression (expression : Expr)
  | function (declaration : FunctionDecl)
  | if (condition : Expr) (thenBranch : Stmt) (elseBranch : Option Stmt)
  | print (expression : Expr)
  | return (keyword : Token) (value : Option Expr)
  | var (name : Token) (initializer : Option Expr)
  | while (condition : Expr) (body : Stmt) (increment : Option Expr)

end

end LoxLang
