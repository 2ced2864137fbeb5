import LoxLang.Diagnostic
import LoxLang.Text.Quoted

/-!
What ends a running program early: an error of the program, or a fault, which shows that the program
was not marked as it should have been.
-/

namespace LoxLang

inductive RuntimeError.Cause where
  | undefinedVariable (name : String)
  | undefinedProperty (name : String)
  | propertyOfOther | fieldOfOther
  | superclassNotClass
  | notCallable
  | wrongArity (expected given : Nat)
  | operandNotNumber | operandsNotNumbers | operandsNotAddable
  | stackOverflow
  deriving DecidableEq

def RuntimeError.Cause.message : RuntimeError.Cause → String
  | .undefinedVariable name => s!"Undefined variable '{name}'."
  | .undefinedProperty name => s!"Undefined property '{name}'."
  | .propertyOfOther => "Only instances have properties."
  | .fieldOfOther => "Only instances have fields."
  | .superclassNotClass => "Superclass must be a class."
  | .notCallable => "Can only call functions and classes."
  | .wrongArity expected given => s!"Expected {expected} arguments but got {given}."
  | .operandNotNumber => "Operand must be a number."
  | .operandsNotNumbers => "Operands must be numbers."
  | .operandsNotAddable => "Operands must be two numbers or two strings."
  | .stackOverflow => "Stack overflow."

/-- Every error but the overflow of the stack arises at a token. -/
structure RuntimeError where
  cause : RuntimeError.Cause
  token : Option Token
  deriving DecidableEq

def RuntimeError.diagnostic (error : RuntimeError) : Diagnostic :=
  .failure error.token error.cause.message

inductive Fault where
  | chainTooShort (distance : Int)
  | notDefinedThere (name : String) (distance : Int)
  | superUnmarked
  | unknownUnary (operator : String)
  | unknownBinary (operator : String)
  deriving DecidableEq

def Fault.message : Fault → String
  | .chainTooShort distance => s!"Scope chain is shorter than {distance}."
  | .notDefinedThere name distance =>
      s!"'{name}' was resolved {distance} scopes out but is not defined there."
  | .superUnmarked => "'super' was not resolved."
  | .unknownUnary operator => s!"Unknown unary operator {Text.quoted operator}"
  | .unknownBinary operator => s!"Unknown binary operator {Text.quoted operator}"

inductive Interruption where
  | error (error : RuntimeError)
  | fault (fault : Fault)
  deriving DecidableEq

namespace Interruption

def located (token : Token) (cause : RuntimeError.Cause) : Interruption :=
  .error ⟨cause, some token⟩

def stackOverflow : Interruption :=
  .error ⟨.stackOverflow, none⟩

end Interruption

end LoxLang
