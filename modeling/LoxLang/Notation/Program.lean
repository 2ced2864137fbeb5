import LoxLang.Notation.Token
import LoxLang.Program.Basic
import LoxLang.Program.Shape

/-!
Programs in the notation of listings. A node is written with its variant and the names of its parts;
the marks of names are left out.
-/

namespace LoxLang.Notation

/-- An absent part. -/
def absent : String := "None"

def ofBool (value : Bool) : String :=
  if value then "True" else "False"

def ofConstant : Constant → String
  | .nil => absent
  | .bool value => ofBool value
  | .number value => ofNumber value
  | .text value => Text.quoted value

def list (items : List String) : String :=
  "[" ++ ", ".intercalate items ++ "]"

open NodeShape in
mutual

def ofExpr : Expr → String
  | .assign target value => assignNode.write [ofToken target.name, ofExpr value]
  | .binary left operator right =>
      binaryNode.write [ofExpr left, ofToken operator, ofExpr right]
  | .call callee paren arguments =>
      callNode.write [ofExpr callee, ofToken paren, list (ofExprs arguments)]
  | .get object name => getNode.write [ofExpr object, ofToken name]
  | .grouping expression => groupingNode.write [ofExpr expression]
  | .literal value => literalNode.write [ofConstant value]
  | .logical left operator right =>
      logicalNode.write [ofExpr left, ofToken operator, ofExpr right]
  | .set object name value => setNode.write [ofExpr object, ofToken name, ofExpr value]
  | .super keyword method => superNode.write [ofToken keyword.name, ofToken method]
  | .this keyword => thisNode.write [ofToken keyword.name]
  | .unary operator right => unaryNode.write [ofToken operator, ofExpr right]
  | .variable use => variableNode.write [ofToken use.name]

def ofExprs : List Expr → List String
  | [] => []
  | expr :: rest => ofExpr expr :: ofExprs rest

end

def ofExpr? (expr : Option Expr) : String :=
  match expr with
  | none => absent
  | some expr => ofExpr expr

open NodeShape in
mutual

def ofStmt : Stmt → String
  | .block statements => blockNode.write [list (ofStmts statements)]
  | .break keyword => breakNode.write [ofToken keyword]
  | .class name superclass methods =>
      classNode.write [ofToken name, ofExpr? (superclass.map .variable),
        list (ofFunctions methods)]
  | .continue keyword => continueNode.write [ofToken keyword]
  | .expression expression => expressionNode.write [ofExpr expression]
  | .function declaration => ofFunction declaration
  | .if condition thenBranch elseBranch =>
      ifNode.write [ofExpr condition, ofStmt thenBranch, ofStmt? elseBranch]
  | .print expression => printNode.write [ofExpr expression]
  | .return keyword value => returnNode.write [ofToken keyword, ofExpr? value]
  | .var name initializer => varNode.write [ofToken name, ofExpr? initializer]
  | .while condition body increment =>
      whileNode.write [ofExpr condition, ofStmt body, ofExpr? increment]

def ofFunction : FunctionDecl → String
  | ⟨name, params, body⟩ =>
      functionNode.write [ofToken name, list (params.map ofToken), list (ofStmts body)]

def ofStmt? : Option Stmt → String
  | none => absent
  | some stmt => ofStmt stmt

def ofStmts : List Stmt → List String
  | [] => []
  | stmt :: rest => ofStmt stmt :: ofStmts rest

def ofFunctions : List FunctionDecl → List String
  | [] => []
  | declaration :: rest => ofFunction declaration :: ofFunctions rest

end

end LoxLang.Notation
