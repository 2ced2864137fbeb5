import LoxLang.Proofs.Grammar.StatementAcceptance
import Mathlib.Data.List.Forall2

/-!
Programs as they are written. A written statement has a `for` of its own, and `marks` lists what its tokens have
to be: tokens of the tree, symbols and words that the tree does not hold, and tokens that write constants
down. A proper tree obeys the table of tightness and the rule for `else`; however it is written out, the
grammar derives the tree from it.
-/

namespace LoxLang

open Grammar

/-- What a token of a written program has to be. -/
inductive Mark where
  | own (token : Token)
  | symbol (kind : Token.Kind)
  | constant (value : Constant)

def Mark.Allows : Mark → Token → Prop
  | .own token, other => other = token
  | .symbol kind, token => token.kind = kind
  | .constant value, token => constant? token = some value

/-- A text that has a token for each mark. -/
def Spells (marks : List Mark) (text : List Token) : Prop :=
  List.Forall₂ Mark.Allows marks text

/-! ## Expressions -/

mutual

def Expr.marks : Expr → List Mark
  | .assign target value => .own target.name :: .symbol .equal :: value.marks
  | .binary left operator right => left.marks ++ .own operator :: right.marks
  | .call callee paren arguments =>
      callee.marks ++ .symbol .leftParen :: (marksOfArguments arguments ++ [.own paren])
  | .get object name => object.marks ++ [.symbol .dot, .own name]
  | .grouping expression => .symbol .leftParen :: (expression.marks ++ [.symbol .rightParen])
  | .literal value => [.constant value]
  | .logical left operator right => left.marks ++ .own operator :: right.marks
  | .set object name value =>
      object.marks ++ .symbol .dot :: .own name :: .symbol .equal :: value.marks
  | .super keyword method => [.own keyword.name, .symbol .dot, .own method]
  | .this keyword => [.own keyword.name]
  | .unary operator right => .own operator :: right.marks
  | .variable use => [.own use.name]

def marksOfArguments : List Expr → List Mark
  | [] => []
  | expr :: rest => expr.marks ++ marksOfFurtherArguments rest

def marksOfFurtherArguments : List Expr → List Mark
  | [] => []
  | expr :: rest => .symbol .comma :: (expr.marks ++ marksOfFurtherArguments rest)

end

def marksOfExpr? (expr : Option Expr) : List Mark :=
  match expr with
  | none => []
  | some expr => expr.marks

/-- How tightly the parts of an expression hold together, from an assignment to a single token. -/
def Expr.tightness : Expr → Nat
  | .assign .. | .set .. => 0
  | .binary _ operator _ | .logical _ operator _ => (tightness? operator.kind).getD 0
  | .unary .. => 7
  | .call .. | .get .. => 8
  | _ => 9

/-- An operand is as tight as its operator asks for: the left one at least as tight as the operator, the right
one tighter. -/
inductive Expr.Proper : Expr → Prop
  | assign {name : Token} {value : Expr} :
      name.kind = .identifier → Proper value → Proper (.assign (.unmarked name) value)
  | operation {level : Level} {left right : Expr} {operator : Token} :
      operator.kind ∈ level.operators → Proper left → level.tightness ≤ left.tightness →
      Proper right → level.tightness < right.tightness →
      Proper (level.combine left operator right)
  | call {callee : Expr} {paren : Token} {arguments : List Expr} :
      Proper callee → 8 ≤ callee.tightness → paren.kind = .rightParen →
      (∀ argument ∈ arguments, Proper argument) → arguments.length ≤ maxArguments →
      Proper (.call callee paren arguments)
  | get {object : Expr} {name : Token} :
      Proper object → 8 ≤ object.tightness → name.kind = .identifier →
      Proper (.get object name)
  | grouping {expression : Expr} : Proper expression → Proper (.grouping expression)
  | literal {value : Constant} : Proper (.literal value)
  | set {object value : Expr} {name : Token} :
      Proper object → 8 ≤ object.tightness → name.kind = .identifier → Proper value →
      Proper (.set object name value)
  | super {keyword method : Token} :
      keyword.kind = .super → method.kind = .identifier →
      Proper (.super (.unmarked keyword) method)
  | this {keyword : Token} : keyword.kind = .this → Proper (.this (.unmarked keyword))
  | unary {operator : Token} {right : Expr} :
      operator.kind ∈ signKinds → Proper right → 7 ≤ right.tightness →
      Proper (.unary operator right)
  | variable {name : Token} : name.kind = .identifier → Proper (.variable (.unmarked name))

/-! ## Statements -/

namespace Surface

inductive Initializer where
  | absent
  | variable (name : Token) (value : Option Expr)
  | expression (value : Expr)

mutual

structure Function where
  name : Token
  params : List Token
  body : List Statement

inductive Statement where
  | block (statements : List Statement)
  | break (keyword : Token)
  | class (name : Token) (superclass : Option Token) (methods : List Function)
  | continue (keyword : Token)
  | expression (expression : Expr)
  | for (initializer : Initializer) (condition increment : Option Expr) (body : Statement)
  | function (declaration : Function)
  | if (condition : Expr) (thenBranch : Statement)
  | ifElse (condition : Expr) (thenBranch elseBranch : Statement)
  | print (expression : Expr)
  | return (keyword : Token) (value : Option Expr)
  | var (name : Token) (initializer : Option Expr)
  | while (condition : Expr) (body : Statement)

end

def variableMarks (name : Token) (value : Option Expr) : List Mark :=
  match value with
  | none => [.own name, .symbol .semicolon]
  | some value => .own name :: .symbol .equal :: (value.marks ++ [.symbol .semicolon])

def Initializer.marks : Initializer → List Mark
  | .absent => [.symbol .semicolon]
  | .variable name value => .symbol .var :: variableMarks name value
  | .expression value => value.marks ++ [.symbol .semicolon]

def marksOfParams (params : List Token) : List Mark :=
  match params with
  | [] => []
  | param :: rest => .own param :: rest.flatMap fun param => [.symbol .comma, .own param]

def superclassMarks (superclass : Option Token) : List Mark :=
  match superclass with
  | none => []
  | some superclass => [.symbol .less, .own superclass]

mutual

def Statement.marks : Statement → List Mark
  | .block statements =>
      .symbol .leftBrace :: (marksOfStatements statements ++ [.symbol .rightBrace])
  | .break keyword => [.own keyword, .symbol .semicolon]
  | .class name superclass methods =>
      .symbol .class :: .own name :: (superclassMarks superclass ++
        .symbol .leftBrace :: (marksOfFunctions methods ++ [.symbol .rightBrace]))
  | .continue keyword => [.own keyword, .symbol .semicolon]
  | .expression expression => expression.marks ++ [.symbol .semicolon]
  | .for initializer condition increment body =>
      .symbol .for :: .symbol .leftParen :: (initializer.marks ++ (marksOfExpr? condition ++
        .symbol .semicolon :: (marksOfExpr? increment ++ .symbol .rightParen :: body.marks)))
  | .function declaration => .symbol .fun :: declaration.marks
  | .if condition thenBranch =>
      .symbol .if :: .symbol .leftParen ::
        (condition.marks ++ .symbol .rightParen :: thenBranch.marks)
  | .ifElse condition thenBranch elseBranch =>
      .symbol .if :: .symbol .leftParen :: (condition.marks ++ .symbol .rightParen ::
        (thenBranch.marks ++ .symbol .else :: elseBranch.marks))
  | .print expression => .symbol .print :: (expression.marks ++ [.symbol .semicolon])
  | .return keyword value => .own keyword :: (marksOfExpr? value ++ [.symbol .semicolon])
  | .var name initializer => .symbol .var :: variableMarks name initializer
  | .while condition body =>
      .symbol .while :: .symbol .leftParen ::
        (condition.marks ++ .symbol .rightParen :: body.marks)

def Function.marks : Function → List Mark
  | ⟨name, params, body⟩ =>
      .own name :: .symbol .leftParen :: (marksOfParams params ++ .symbol .rightParen ::
        .symbol .leftBrace :: (marksOfStatements body ++ [.symbol .rightBrace]))

def marksOfStatements : List Statement → List Mark
  | [] => []
  | statement :: rest => statement.marks ++ marksOfStatements rest

def marksOfFunctions : List Function → List Mark
  | [] => []
  | declaration :: rest => declaration.marks ++ marksOfFunctions rest

end

def Initializer.tree : Initializer → Option Stmt
  | .absent => none
  | .variable name value => some (.var name value)
  | .expression value => some (.expression value)

mutual

/-- The tree that a written statement stands for. -/
def Statement.tree : Statement → Stmt
  | .block statements => .block (treesOfStatements statements)
  | .break keyword => .break keyword
  | .class name superclass methods =>
      .class name (superclass.map .unmarked) (treesOfFunctions methods)
  | .continue keyword => .continue keyword
  | .expression expression => .expression expression
  | .for initializer condition increment body =>
      forLoop initializer.tree condition increment body.tree
  | .function declaration => .function declaration.tree
  | .if condition thenBranch => .if condition thenBranch.tree none
  | .ifElse condition thenBranch elseBranch =>
      .if condition thenBranch.tree (some elseBranch.tree)
  | .print expression => .print expression
  | .return keyword value => .return keyword value
  | .var name initializer => .var name initializer
  | .while condition body => .while condition body.tree none

def Function.tree : Function → FunctionDecl
  | ⟨name, params, body⟩ => ⟨name, params, treesOfStatements body⟩

def treesOfStatements : List Statement → List Stmt
  | [] => []
  | statement :: rest => statement.tree :: treesOfStatements rest

def treesOfFunctions : List Function → List FunctionDecl
  | [] => []
  | declaration :: rest => declaration.tree :: treesOfFunctions rest

end

/-- The text of the statement ends in an `if` without `else`. -/
def Statement.dangles : Statement → Bool
  | .for _ _ _ body => body.dangles
  | .if _ _ => true
  | .ifElse _ _ elseBranch => elseBranch.dangles
  | .while _ body => body.dangles
  | _ => false

/-- A declaration cannot be the body of a loop or a branch. -/
def Statement.declares : Statement → Bool
  | .class .. | .function _ | .var .. => true
  | _ => false

def ProperExpr? (expr : Option Expr) : Prop :=
  ∀ found, expr = some found → found.Proper

def Initializer.Proper : Initializer → Prop
  | .absent => True
  | .variable name value => name.kind = .identifier ∧ ProperExpr? value
  | .expression value => value.Proper

/-- The name and the parameters of a function are identifiers, and there are not too many of them. -/
structure Function.ProperHead (declaration : Function) : Prop where
  name_kind : declaration.name.kind = .identifier
  param_kind : ∀ param ∈ declaration.params, param.kind = .identifier
  length_params : declaration.params.length ≤ maxArguments

inductive Statement.Proper : Statement → Prop
  | block {statements : List Statement} :
      (∀ statement ∈ statements, Proper statement) → Proper (.block statements)
  | break {keyword : Token} : keyword.kind = .break → Proper (.break keyword)
  | class {name : Token} {superclass : Option Token} {methods : List Function} :
      name.kind = .identifier →
      (∀ found, superclass = some found → found.kind = .identifier) →
      (∀ method ∈ methods, method.ProperHead) →
      (∀ method ∈ methods, ∀ statement ∈ method.body, Proper statement) →
      Proper (.class name superclass methods)
  | continue {keyword : Token} : keyword.kind = .continue → Proper (.continue keyword)
  | expression {expression : Expr} : expression.Proper → Proper (.expression expression)
  | for {initializer : Initializer} {condition increment : Option Expr} {body : Statement} :
      initializer.Proper → ProperExpr? condition → ProperExpr? increment →
      body.declares = false → Proper body →
      Proper (.for initializer condition increment body)
  | function {declaration : Function} :
      declaration.ProperHead → (∀ statement ∈ declaration.body, Proper statement) →
      Proper (.function declaration)
  | if {condition : Expr} {thenBranch : Statement} :
      condition.Proper → thenBranch.declares = false → Proper thenBranch →
      Proper (.if condition thenBranch)
  | ifElse {condition : Expr} {thenBranch elseBranch : Statement} :
      condition.Proper → thenBranch.declares = false → thenBranch.dangles = false →
      Proper thenBranch → elseBranch.declares = false → Proper elseBranch →
      Proper (.ifElse condition thenBranch elseBranch)
  | print {expression : Expr} : expression.Proper → Proper (.print expression)
  | return {keyword : Token} {value : Option Expr} :
      keyword.kind = .return → ProperExpr? value → Proper (.return keyword value)
  | var {name : Token} {initializer : Option Expr} :
      name.kind = .identifier → ProperExpr? initializer → Proper (.var name initializer)
  | while {condition : Expr} {body : Statement} :
      condition.Proper → body.declares = false → Proper body → Proper (.while condition body)

end Surface

end LoxLang
