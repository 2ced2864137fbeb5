import LoxLang.Bindings
import LoxLang.Diagnostic

/-!
Scopes of a text. While a program is gone through, each scope that encloses the current place holds
the names declared in it so far, and whether the declaration of each is complete. The global scope is
outermost; a name found only there is not a local one.
-/

namespace LoxLang

inductive ResolutionError.Cause where
  | redeclaration | ownInitializer
  | returnOutsideFunction | returnFromInitializer
  | breakOutsideLoop | continueOutsideLoop
  | selfInheritance
  | thisOutsideClass | superOutsideClass | superWithoutSuperclass
  | nesting
  deriving DecidableEq

def ResolutionError.Cause.message : ResolutionError.Cause → String
  | .redeclaration => "Already a variable with this name in this scope."
  | .ownInitializer => "Can't read local variable in its own initializer."
  | .returnOutsideFunction => "Can't return from top-level code."
  | .returnFromInitializer => "Can't return a value from an initializer."
  | .breakOutsideLoop => "Can't use 'break' outside of a loop."
  | .continueOutsideLoop => "Can't use 'continue' outside of a loop."
  | .selfInheritance => "A class can't inherit from itself."
  | .thisOutsideClass => "Can't use 'this' outside of a class."
  | .superOutsideClass => "Can't use 'super' outside of a class."
  | .superWithoutSuperclass => "Can't use 'super' in a class with no superclass."
  | .nesting => "Too much nesting."

structure ResolutionError where
  cause : ResolutionError.Cause
  token : Token
  deriving DecidableEq

def ResolutionError.diagnostic (error : ResolutionError) : Diagnostic :=
  .located .resolution error.token error.cause.message

namespace Scoping

/-- The names of one scope; a name is complete once its declaration has ended. -/
abbrev Scope := Bindings Bool

/-- The scopes around a place, innermost first. -/
abbrev Scopes := List Scope

namespace Scopes

def global : Scopes :=
  [.empty]

/-- Enters a scope that holds some names from the start. -/
def enter (scopes : Scopes) (names : List String) : Scopes :=
  Bindings.ofList (names.map (·, true)) :: scopes

def leave (scopes : Scopes) : Scopes :=
  scopes.tail

/-- Enters a name into the innermost scope. -/
def mark (scopes : Scopes) (name : String) (complete : Bool) : Scopes :=
  match scopes with
  | [] => []
  | scope :: outer => scope.set name complete :: outer

/-- How many scopes out the nearest scope with the name is, the global one not counted. -/
def hops? (scopes : Scopes) (name : String) : Option Nat :=
  match scopes with
  | [] | [_] => none
  | scope :: outer => if scope.contains name then some 0 else (hops? outer name).map (· + 1)

/-- Whether the innermost scope has the name already, which only a local scope objects to. -/
def redeclares (scopes : Scopes) (name : String) : Bool :=
  match scopes with
  | [] | [_] => false
  | scope :: _ => scope.contains name

/-- Whether the innermost scope is still declaring the name. -/
def isDeclaring (scopes : Scopes) (name : String) : Bool :=
  match scopes with
  | [] => false
  | scope :: _ => scope.get? name = some false

end Scopes

end Scoping

end LoxLang
