import LoxLang.Store.Basic

/-!
Configurations of a running program: what is being done, what is left to do around it, the scope in
which it is done, and the store. The work left is a list of frames, innermost first.

A stack of limited height has places for what is under way around a part of the program. Each frame takes
a number of them, and no expression or statement is begun without one; the search for a method takes
places as well, one for each class that it goes through. What else a step does takes none, as it ends at
once: a name is looked up, operands are checked, a method is bound.
-/

namespace LoxLang

/-- How a statement ends when no error ends it. -/
inductive Completion where
  | normal | break | continue
  | return (value : Value)

/-- What a call yields once its body has ended: the returned value or nil, or what `this` is in the scope
of an initializer, or the new instance. -/
inductive Yield where
  | returned
  | receiver (scope : ScopeId)
  | constructed (object : Instance)

inductive Frame where
  | assign (target : NameUse)
  | binaryLeft (operator : Token) (right : Expr)
  | binaryRight (left : Value) (operator : Token)
  | callee (paren : Token) (arguments : List Expr)
  /-- The arguments before the current one, last one first, and those after it. -/
  | argument (callee : Value) (paren : Token) (before : List Value) (after : List Expr)
  | get (name : Token)
  | grouping
  | logicalLeft (operator : Token) (right : Expr)
  | logicalRight
  | setObject (name : Token) (value : Expr)
  | setValue (object : Instance) (name : Token)
  | unary (operator : Token)
  /-- A running call. -/
  | activation (yield : Yield)
  | expression
  | print
  | return
  | var (name : Token)
  | ifCondition (thenBranch : Stmt) (elseBranch : Option Stmt)
  | ifBranch
  | whileCondition (condition : Expr) (body : Stmt) (increment : Option Expr)
  | whileBody (condition : Expr) (body : Stmt) (increment : Option Expr)
  | whileIncrement (condition : Expr) (body : Stmt) (increment : Option Expr)
  /-- The statements left in a block; what follows the block goes on in the outer scope. -/
  | block (rest : List Stmt) (outer : ScopeId)
  | superclass (name : Token) (superclass : Token) (methods : List FunctionDecl)
  | program (rest : List Stmt)

/-- The places that a frame takes: one for each call that goes on while the part inside it is evaluated or executed. -/
def Frame.height : Frame → Nat
  | .callee .. => 2
  | .argument .. => 3
  | .activation (.constructed _) => 3
  | .activation _ => 2
  | .whileCondition .. | .whileBody .. | .whileIncrement .. => 2
  | .block .. => 2
  | .superclass .. => 2
  | _ => 1

inductive Control where
  | eval (expr : Expr)
  | exec (stmt : Stmt)
  | value (value : Value)
  | done (completion : Completion)
  | failed (interruption : Interruption)

/-- The error or fault that is ending the program, if one is. -/
def Control.interruption? : Control → Option Interruption
  | .failed interruption => some interruption
  | _ => none

structure Machine where
  control : Control
  frames : List Frame
  scope : ScopeId
  /-- The places that the frames take together. -/
  height : Nat
  store : Store

/-- A function that a program can call and that is not written in it. -/
structure Native where
  name : String
  arity : Nat
  /-- The answer may depend on the time at which it is asked for. -/
  answer : (now : Float) → (arguments : List Value) → Value

/-- What a program runs on. -/
structure Host where
  natives : Array Native
  heightLimit : Nat
  now : Float

namespace Machine

/-- A program about to run. -/
def load (statements : List Stmt) (store : Store) : Machine :=
  ⟨.done .normal, [.program statements], Forest.globals, 1, store⟩

/-- Nothing is left to do. -/
def isFinal (machine : Machine) : Bool :=
  match machine.control, machine.frames with
  | .value _, [] | .done _, [] | .failed _, [] => true
  | _, _ => false

end Machine

end LoxLang
