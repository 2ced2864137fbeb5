import LoxLang.Program.Basic
import LoxLang.Scoping.Scopes

/-!
Marking a program. The tree is gone through once, in the order in which it is run; every use of a local
name is marked with the number of scopes between the use and the scope that holds the name at that
moment, and every breach of the static rules is recorded. The nodes of the tree may be `depth` levels deep;
to look a name up, to enter it or to report it needs no level.
-/

namespace LoxLang.Scoping

/-- The innermost function around a place. -/
inductive FunctionContext where
  | none | function | initializer | method
  deriving DecidableEq

/-- The innermost class around a place, which has a superclass or not. -/
inductive ClassContext where
  | none | base | derived
  deriving DecidableEq

/-- What encloses a place. -/
structure Surroundings where
  inFunction : FunctionContext
  inClass : ClassContext
  inLoop : Bool

def Surroundings.topLevel : Surroundings :=
  ⟨.none, .none, false⟩

structure State where
  scopes : Scopes
  errors : Array ResolutionError

/-- A marker gives up, without a result, where its tree nests too deeply. -/
abbrev Marker := EStateM Unit State

def tooDeep {α : Type} : Marker α :=
  throw ()

def report (token : Token) (cause : ResolutionError.Cause) : Marker Unit :=
  modify fun ⟨scopes, errors⟩ => ⟨scopes, errors.push ⟨cause, token⟩⟩

def reportIf (condition : Bool) (token : Token) (cause : ResolutionError.Cause) : Marker Unit :=
  if condition then report token cause else return ()

def updateScopes (update : Scopes → Scopes) : Marker Unit :=
  modify fun ⟨scopes, errors⟩ => ⟨update scopes, errors⟩

def withScope {α : Type} (names : List String) (body : Marker α) : Marker α := do
  updateScopes (·.enter names)
  let result ← body
  updateScopes .leave
  return result

def declare (name : Token) : Marker Unit := do
  reportIf ((← get).scopes.redeclares name.lexeme) name .redeclaration
  updateScopes (·.mark name.lexeme false)

def complete (name : Token) : Marker Unit :=
  updateScopes (·.mark name.lexeme true)

def declareFully (name : Token) : Marker Unit := do
  declare name
  complete name

def locate (name : Token) : Marker NameUse :=
  return ⟨name, (← get).scopes.hops? name.lexeme⟩

def markVariable (name : Token) : Marker NameUse := do
  reportIf ((← get).scopes.isDeclaring name.lexeme) name .ownInitializer
  locate name

def markThis (around : Surroundings) (keyword : NameUse) : Marker NameUse := do
  if around.inClass = .none then
    report keyword.name .thisOutsideClass
    return keyword
  else
    locate keyword.name

def markSuper (around : Surroundings) (keyword : Token) : Marker NameUse := do
  match around.inClass with
  | .none => report keyword .superOutsideClass
  | .base => report keyword .superWithoutSuperclass
  | .derived => pure ()
  locate keyword

def markExpr (around : Surroundings) : (depth : Nat) → Expr → Marker Expr
  | 0, _ => tooDeep
  | depth + 1, expr => do
      match expr with
      | .assign target value =>
          let value ← markExpr around depth value
          return .assign (← locate target.name) value
      | .binary left operator right =>
          let left ← markExpr around depth left
          return .binary left operator (← markExpr around depth right)
      | .call callee paren arguments =>
          let callee ← markExpr around depth callee
          return .call callee paren (← arguments.mapM (markExpr around depth))
      | .get object name => return .get (← markExpr around depth object) name
      | .grouping expression => return .grouping (← markExpr around depth expression)
      | .literal value => return .literal value
      | .logical left operator right =>
          let left ← markExpr around depth left
          return .logical left operator (← markExpr around depth right)
      | .set object name value =>
          let value ← markExpr around depth value
          return .set (← markExpr around depth object) name value
      | .super keyword method => return .super (← markSuper around keyword.name) method
      | .this keyword => return .this (← markThis around keyword)
      | .unary operator right => return .unary operator (← markExpr around depth right)
      | .variable use => return .variable (← markVariable use.name)

/-- A function's context is its own: no loop reaches into it. -/
def Surroundings.enterFunction (around : Surroundings) (kind : FunctionContext) : Surroundings :=
  ⟨kind, around.inClass, false⟩

def Surroundings.enterLoop (around : Surroundings) : Surroundings :=
  ⟨around.inFunction, around.inClass, true⟩

def Surroundings.enterClass (around : Surroundings) (kind : ClassContext) : Surroundings :=
  ⟨around.inFunction, kind, around.inLoop⟩

def methodContext (method : FunctionDecl) : FunctionContext :=
  if method.name.lexeme = "init" then .initializer else .method

def markOption {α : Type} (mark : α → Marker α) : Option α → Marker (Option α)
  | none => return none
  | some item => return some (← mark item)

mutual

def markStmt (around : Surroundings) : (depth : Nat) → Stmt → Marker Stmt
  | 0, _ => tooDeep
  | depth + 1, stmt => do
      match stmt with
      | .block statements =>
          return .block (← withScope [] (markStmts around depth statements))
      | .class name superclass methods => markClass around depth name superclass methods
      | .expression expression => return .expression (← markExpr around depth expression)
      | .print expression => return .print (← markExpr around depth expression)
      | .function declaration =>
          declareFully declaration.name
          return .function (← markFunction (around.enterFunction .function) depth declaration)
      | .if condition thenBranch elseBranch =>
          let condition ← markExpr around depth condition
          let thenBranch ← markStmt around depth thenBranch
          return .if condition thenBranch (← markOption (markStmt around depth) elseBranch)
      | .return keyword value =>
          reportIf (around.inFunction = .none) keyword .returnOutsideFunction
          reportIf (value.isSome && around.inFunction = .initializer) keyword
            .returnFromInitializer
          return .return keyword (← markOption (markExpr around depth) value)
      | .var name initializer =>
          declare name
          let initializer ← markOption (markExpr around depth) initializer
          complete name
          return .var name initializer
      | .while condition body increment =>
          let condition ← markExpr around depth condition
          let body ← markStmt around.enterLoop depth body
          return .while condition body (← markOption (markExpr around depth) increment)
      | .break keyword =>
          reportIf (!around.inLoop) keyword .breakOutsideLoop
          return .break keyword
      | .continue keyword =>
          reportIf (!around.inLoop) keyword .continueOutsideLoop
          return .continue keyword

def markStmts (around : Surroundings) : (depth : Nat) → List Stmt → Marker (List Stmt)
  | 0, _ => tooDeep
  | depth + 1, statements => statements.mapM (markStmt around depth)

/-- The parameters and the body share one scope. -/
def markFunction (around : Surroundings) :
    (depth : Nat) → FunctionDecl → Marker FunctionDecl
  | 0, _ => tooDeep
  | depth + 1, declaration => withScope [] do
      declaration.params.forM declareFully
      let body ← markStmts around depth declaration.body
      return ⟨declaration.name, declaration.params, body⟩

/-- The methods of a class lie in a scope with `this`, which lies in one with `super` if the class has a
superclass. -/
def markClass (around : Surroundings) : (depth : Nat) → (name : Token) →
    (superclass : Option NameUse) → (methods : List FunctionDecl) → Marker Stmt
  | 0, _, _, _ => tooDeep
  | depth + 1, name, superclass, methods => do
      declareFully name
      let markMethods (around : Surroundings) : Marker (List FunctionDecl) :=
        withScope ["this"] (methods.mapM fun method =>
          markFunction (around.enterFunction (methodContext method)) depth method)
      match superclass with
      | none => return .class name none (← markMethods (around.enterClass .base))
      | some superclass =>
          reportIf (name.lexeme = superclass.name.lexeme) superclass.name .selfInheritance
          let superclass ← markVariable superclass.name
          let methods ← withScope ["super"] (markMethods (around.enterClass .derived))
          return .class name (some superclass) methods

end

/-- A program with its uses of names marked, and the breaches of the static rules. -/
structure Marked where
  statements : List Stmt
  errors : List ResolutionError

/-- Marks a program whose tree is at most `depth` levels deep. -/
def mark? (depth : Nat) (statements : List Stmt) : Option Marked :=
  match markStmts .topLevel depth statements ⟨.global, #[]⟩ with
  | .ok statements state => some ⟨statements, state.errors.toList⟩
  | .error _ _ => none

/-- Marks a program that ends at `final`; one whose tree is too deep has that as its only error. -/
def mark (depth : Nat) (final : Token) (statements : List Stmt) : Marked :=
  (mark? depth statements).getD ⟨statements, [⟨.nesting, final⟩]⟩

end LoxLang.Scoping
