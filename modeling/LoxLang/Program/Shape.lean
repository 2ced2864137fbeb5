/-!
The shapes of the nodes of a program: the family and the variant of a node and the names of its parts.
A node is made from exactly its parts, and never changes afterwards.
-/

namespace LoxLang

structure NodeShape where
  family : String
  variant : String
  parts : List String
  deriving DecidableEq

namespace NodeShape

def assignNode : NodeShape := ⟨"Expr", "Assign", ["name", "value"]⟩
def binaryNode : NodeShape := ⟨"Expr", "Binary", ["left", "operator", "right"]⟩
def callNode : NodeShape := ⟨"Expr", "Call", ["callee", "paren", "arguments"]⟩
def getNode : NodeShape := ⟨"Expr", "Get", ["object", "name"]⟩
def groupingNode : NodeShape := ⟨"Expr", "Grouping", ["expression"]⟩
def literalNode : NodeShape := ⟨"Expr", "Literal", ["value"]⟩
def logicalNode : NodeShape := ⟨"Expr", "Logical", ["left", "operator", "right"]⟩
def setNode : NodeShape := ⟨"Expr", "Set", ["object", "name", "value"]⟩
def superNode : NodeShape := ⟨"Expr", "Super", ["keyword", "method"]⟩
def thisNode : NodeShape := ⟨"Expr", "This", ["keyword"]⟩
def unaryNode : NodeShape := ⟨"Expr", "Unary", ["operator", "right"]⟩
def variableNode : NodeShape := ⟨"Expr", "Variable", ["name"]⟩
def blockNode : NodeShape := ⟨"Stmt", "Block", ["statements"]⟩
def breakNode : NodeShape := ⟨"Stmt", "Break", ["keyword"]⟩
def classNode : NodeShape := ⟨"Stmt", "Class", ["name", "superclass", "methods"]⟩
def continueNode : NodeShape := ⟨"Stmt", "Continue", ["keyword"]⟩
def expressionNode : NodeShape := ⟨"Stmt", "Expression", ["expression"]⟩
def functionNode : NodeShape := ⟨"Stmt", "Function", ["name", "params", "body"]⟩
def ifNode : NodeShape := ⟨"Stmt", "If", ["condition", "then_branch", "else_branch"]⟩
def printNode : NodeShape := ⟨"Stmt", "Print", ["expression"]⟩
def returnNode : NodeShape := ⟨"Stmt", "Return", ["keyword", "value"]⟩
def varNode : NodeShape := ⟨"Stmt", "Var", ["name", "initializer"]⟩
def whileNode : NodeShape := ⟨"Stmt", "While", ["condition", "body", "increment"]⟩

def all : List NodeShape :=
  [assignNode, binaryNode, callNode, getNode, groupingNode, literalNode, logicalNode, setNode,
    superNode, thisNode, unaryNode, variableNode, blockNode, breakNode, classNode,
    continueNode, expressionNode, functionNode, ifNode, printNode, returnNode, varNode,
    whileNode]

def find? (family variant : String) : Option NodeShape :=
  all.find? fun shape => shape.family = family && shape.variant = variant

/-- A node in writing, given its parts in writing. -/
def write (shape : NodeShape) (values : List String) : String :=
  let parts := (shape.parts.zip values).map fun (part, value) => part ++ "=" ++ value
  shape.family ++ "." ++ shape.variant ++ "(" ++ ", ".intercalate parts ++ ")"

inductive Misuse where
  | wrongCount (shape : NodeShape) (given : Nat)
  | changed (shape : NodeShape)
  deriving DecidableEq

def Misuse.message : Misuse → String
  | .wrongCount shape given =>
      shape.variant ++ ".__init__() take " ++ shape.parts.length.repr ++
        " positional arguments but " ++ given.repr ++ " were given"
  | .changed shape => shape.family ++ "." ++ shape.variant ++ " nodes are immutable"

/-- The parts of a node made from `values`, some part of which is then changed or not. -/
def make (shape : NodeShape) (values : List String) (change : Bool) : Except Misuse String :=
  if values.length ≠ shape.parts.length then .error (.wrongCount shape values.length)
  else if change then .error (.changed shape)
  else .ok (shape.write values)

end NodeShape

end LoxLang
