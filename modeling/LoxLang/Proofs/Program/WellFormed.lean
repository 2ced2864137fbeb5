import LoxLang.Program.Basic

/-!
Trees as they are read. Names are spelled otherwise than `this` and `super`, operators have the kinds that
their nodes are for, what stands in a branch or a loop declares nothing, and no use of a name is marked.
-/

namespace LoxLang

/-! ## Tokens -/

/-- Only the words `this` and `super` are spelled like that. -/
structure Token.Spelled (token : Token) : Prop where
  name : token.kind = .identifier → token.lexeme ≠ "this" ∧ token.lexeme ≠ "super"
  this : token.kind = .this → token.lexeme = "this"
  super : token.kind = .super → token.lexeme = "super"

/-- A token that can be declared. -/
structure Token.Names (token : Token) : Prop where
  ne_this : token.lexeme ≠ "this"
  ne_super : token.lexeme ≠ "super"

theorem Token.Spelled.names {token : Token} (h : token.Spelled)
    (kind : token.kind = .identifier) : token.Names :=
  ⟨(h.name kind).1, (h.name kind).2⟩

def unaryKinds : List Token.Kind :=
  [.bang, .minus]

def binaryKinds : List Token.Kind :=
  [.bangEqual, .equalEqual, .greater, .greaterEqual, .less, .lessEqual, .minus, .plus, .slash,
    .star]

/-! ## Trees -/

def NameUse.Names (use : NameUse) : Prop :=
  use.hops = none ∧ use.name.Names

inductive Expr.WellFormed : Expr → Prop
  | assign {target : NameUse} {value : Expr} :
      target.Names → WellFormed value → WellFormed (.assign target value)
  | binary {left right : Expr} {operator : Token} :
      operator.kind ∈ binaryKinds → WellFormed left → WellFormed right →
      WellFormed (.binary left operator right)
  | call {callee : Expr} {paren : Token} {arguments : List Expr} :
      WellFormed callee → (∀ argument ∈ arguments, WellFormed argument) →
      WellFormed (.call callee paren arguments)
  | get {object : Expr} {name : Token} : WellFormed object → WellFormed (.get object name)
  | grouping {expression : Expr} : WellFormed expression → WellFormed (.grouping expression)
  | literal {value : Constant} : WellFormed (.literal value)
  | logical {left right : Expr} {operator : Token} :
      WellFormed left → WellFormed right → WellFormed (.logical left operator right)
  | set {object value : Expr} {name : Token} :
      WellFormed object → WellFormed value → WellFormed (.set object name value)
  | super {keyword : NameUse} {method : Token} :
      keyword.hops = none → keyword.name.lexeme = "super" → WellFormed (.super keyword method)
  | this {keyword : NameUse} :
      keyword.hops = none → keyword.name.lexeme = "this" → WellFormed (.this keyword)
  | unary {operator : Token} {right : Expr} :
      operator.kind ∈ unaryKinds → WellFormed right → WellFormed (.unary operator right)
  | variable {use : NameUse} : use.Names → WellFormed (.variable use)

def WellFormedExpr? (expr : Option Expr) : Prop :=
  ∀ found, expr = some found → found.WellFormed

/-- The name that a statement adds to the scope in which it stands. -/
def Stmt.declared? : Stmt → Option Token
  | .class name _ _ => some name
  | .function declaration => some declaration.name
  | .var name _ => some name
  | _ => none

/-- The names that statements add to the scope in which they stand. -/
def declaredNames (statements : List Stmt) : List String :=
  (statements.filterMap Stmt.declared?).map Token.lexeme

inductive Stmt.WellFormed : Stmt → Prop
  | block {statements : List Stmt} :
      (∀ stmt ∈ statements, WellFormed stmt) → WellFormed (.block statements)
  | break {keyword : Token} : WellFormed (.break keyword)
  | class {name : Token} {superclass : Option NameUse} {methods : List FunctionDecl} :
      name.Names → (∀ found, superclass = some found → found.Names) →
      (∀ method ∈ methods, ∀ param ∈ method.params, param.Names) →
      (∀ method ∈ methods, ∀ stmt ∈ method.body, WellFormed stmt) →
      WellFormed (.class name superclass methods)
  | continue {keyword : Token} : WellFormed (.continue keyword)
  | expression {expression : Expr} : expression.WellFormed → WellFormed (.expression expression)
  | function {declaration : FunctionDecl} :
      declaration.name.Names → (∀ param ∈ declaration.params, param.Names) →
      (∀ stmt ∈ declaration.body, WellFormed stmt) → WellFormed (.function declaration)
  | if {condition : Expr} {thenBranch : Stmt} {elseBranch : Option Stmt} :
      condition.WellFormed → thenBranch.declared? = none → WellFormed thenBranch →
      (∀ found, elseBranch = some found → found.declared? = none) →
      (∀ found, elseBranch = some found → WellFormed found) →
      WellFormed (.if condition thenBranch elseBranch)
  | print {expression : Expr} : expression.WellFormed → WellFormed (.print expression)
  | return {keyword : Token} {value : Option Expr} :
      WellFormedExpr? value → WellFormed (.return keyword value)
  | var {name : Token} {initializer : Option Expr} :
      name.Names → WellFormedExpr? initializer → WellFormed (.var name initializer)
  | while {condition : Expr} {body : Stmt} {increment : Option Expr} :
      condition.WellFormed → body.declared? = none → WellFormed body →
      WellFormedExpr? increment → WellFormed (.while condition body increment)

structure FunctionDecl.WellFormed (declaration : FunctionDecl) : Prop where
  params : ∀ param ∈ declaration.params, param.Names
  body : ∀ stmt ∈ declaration.body, stmt.WellFormed

end LoxLang
