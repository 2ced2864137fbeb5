import LoxLang.Proofs.Machine.Frames
import LoxLang.Proofs.Variation.Stores

/-!
Variations of machines. The frames of both are of the same sorts, in the same order and of the same heights, and what
is being done in each of them varies as the levels of its scope have it. At the bottom the other program may have more
statements.
-/

namespace LoxLang

open Scoping

section

variable (r : Respelling) (outline : Outline)

inductive Completion.Varies : Completion → Completion → Prop
  | normal : Varies .normal .normal
  | break : Varies .break .break
  | continue : Varies .continue .continue
  | return {value value' : Value} :
      value.Varies r outline value' → Varies (.return value) (.return value')

inductive Yield.Varies : Yield → Yield → Prop
  | returned : Varies .returned .returned
  | receiver {scope : ScopeId} {levels : Levels} :
      outline.Leads scope levels → Varies (.receiver scope) (.receiver scope)
  | constructed {object object' : Instance} :
      object.Varies r outline object' → Varies (.constructed object) (.constructed object')

inductive Control.Varies (levels : Levels) : Awaited → Control → Control → Prop
  | eval {expr expr' : Expr} :
      expr.Varies r.variation levels expr' → Varies levels .value (.eval expr) (.eval expr')
  | exec {stmt stmt' : Stmt} :
      Node.Varies r.variation levels (.stmt stmt) (.stmt stmt') →
      Varies levels .completion (.exec stmt) (.exec stmt')
  | value {value value' : Value} :
      value.Varies r outline value' → Varies levels .value (.value value) (.value value')
  | done {completion completion' : Completion} :
      completion.Varies r outline completion' →
      Varies levels .completion (.done completion) (.done completion')
  | failed {awaited : Awaited} {interruption interruption' : Interruption} :
      interruption.Varies r interruption' →
      Varies levels awaited (.failed interruption) (.failed interruption')

/-- What a loop goes on with. -/
structure LoopVaries (levels : Levels) (condition condition' : Expr) (body body' : Stmt)
    (increment increment' : Option Expr) : Prop where
  condition : condition.Varies r.variation levels condition'
  body : Node.Varies r.variation levels (.stmt body) (.stmt body')
  increment : Expr?.Varies r.variation levels increment increment'

/-- The frame awaits something and hands something on. -/
inductive Frame.Varies (levels : Levels) : Awaited → Awaited → Frame → Frame → Prop
  | assign {target target' : NameUse} :
      target.Varies r.variation levels target' →
      Varies levels .value .value (.assign target) (.assign target')
  | binaryLeft {operator operator' : Token} {right right' : Expr} :
      r.plain operator operator' → right.Varies r.variation levels right' →
      Varies levels .value .value (.binaryLeft operator right) (.binaryLeft operator' right')
  | binaryRight {left left' : Value} {operator operator' : Token} :
      left.Varies r outline left' → r.plain operator operator' →
      Varies levels .value .value (.binaryRight left operator) (.binaryRight left' operator')
  | callee {paren paren' : Token} {arguments arguments' : List Expr} :
      r.plain paren paren' →
      List.Forall₂ (Expr.Varies r.variation levels) arguments arguments' →
      Varies levels .value .value (.callee paren arguments) (.callee paren' arguments')
  | argument {callee callee' : Value} {paren paren' : Token} {done done' : List Value}
      {ahead ahead' : List Expr} :
      callee.Varies r outline callee' → r.plain paren paren' →
      List.Forall₂ (Value.Varies r outline) done done' →
      List.Forall₂ (Expr.Varies r.variation levels) ahead ahead' →
      Varies levels .value .value (.argument callee paren done ahead)
        (.argument callee' paren' done' ahead')
  | get {name name' : Token} : r.plain name name' →
      Varies levels .value .value (.get name) (.get name')
  | grouping : Varies levels .value .value .grouping .grouping
  | logicalLeft {operator operator' : Token} {right right' : Expr} :
      r.plain operator operator' → right.Varies r.variation levels right' →
      Varies levels .value .value (.logicalLeft operator right) (.logicalLeft operator' right')
  | logicalRight : Varies levels .value .value .logicalRight .logicalRight
  | setObject {name name' : Token} {value value' : Expr} :
      r.plain name name' → value.Varies r.variation levels value' →
      Varies levels .value .value (.setObject name value) (.setObject name' value')
  | setValue {object object' : Instance} {name name' : Token} :
      object.Varies r outline object' → r.plain name name' →
      Varies levels .value .value (.setValue object name) (.setValue object' name')
  | unary {operator operator' : Token} :
      r.plain operator operator' → Varies levels .value .value (.unary operator) (.unary operator')
  | activation {yield yield' : Yield} :
      yield.Varies r outline yield' →
      Varies levels .completion .value (.activation yield) (.activation yield')
  | expression : Varies levels .value .completion .expression .expression
  | print : Varies levels .value .completion .print .print
  | return : Varies levels .value .completion .return .return
  | var {name name' : Token} :
      r.named (levels.headD false) name name' →
      Varies levels .value .completion (.var name) (.var name')
  | ifCondition {thenBranch thenBranch' : Stmt} {elseBranch elseBranch' : Option Stmt} :
      Node.Varies r.variation levels (.stmt thenBranch) (.stmt thenBranch') →
      Option.Rel (fun stmt stmt' => Node.Varies r.variation levels (.stmt stmt) (.stmt stmt'))
        elseBranch elseBranch' →
      Varies levels .value .completion (.ifCondition thenBranch elseBranch)
        (.ifCondition thenBranch' elseBranch')
  | ifBranch : Varies levels .completion .completion .ifBranch .ifBranch
  | whileCondition {condition condition' : Expr} {body body' : Stmt}
      {increment increment' : Option Expr} :
      LoopVaries r levels condition condition' body body' increment increment' →
      Varies levels .value .completion (.whileCondition condition body increment)
        (.whileCondition condition' body' increment')
  | whileBody {condition condition' : Expr} {body body' : Stmt}
      {increment increment' : Option Expr} :
      LoopVaries r levels condition condition' body body' increment increment' →
      Varies levels .completion .completion (.whileBody condition body increment)
        (.whileBody condition' body' increment')
  | whileIncrement {condition condition' : Expr} {body body' : Stmt}
      {increment increment' : Option Expr} :
      LoopVaries r levels condition condition' body body' increment increment' →
      Varies levels .value .completion (.whileIncrement condition body increment)
        (.whileIncrement condition' body' increment')
  | block {rest rest' : List Stmt} {outer : ScopeId} :
      Node.Varies r.variation levels (.statements rest) (.statements rest') →
      Varies levels .completion .completion (.block rest outer) (.block rest' outer)
  | superclass {name name' token token' : Token} {level : Bool}
      {methods methods' : List FunctionDecl} :
      name.Kept r.variation levels name' → r.named level token token' →
      List.Forall₂ (fun method method' => Node.Varies r.variation (false :: false :: levels)
        (.function method) (.function method')) methods methods' →
      Varies levels .value .completion (.superclass name token methods)
        (.superclass name' token' methods')

/-- Frames that are entered from a scope with what they await, and the places that they take. The lowest frame is
that of the program, whose scope is that of the globals. -/
inductive FramesVary (tail : List Stmt) :
    ScopeId → Awaited → Nat → List Frame → List Frame → Prop
  | nil {awaited : Awaited} : FramesVary tail Forest.globals awaited 0 [] []
  | program {rest rest' : List Stmt} :
      Node.Varies r.variation [false] (.statements rest) (.statements rest') →
      FramesVary tail Forest.globals .completion 1 [.program rest] [.program (rest' ++ tail)]
  | cons {scope : ScopeId} {levels : Levels} {awaited next : Awaited} {height : Nat}
      {frame frame' : Frame} {frames frames' : List Frame} :
      outline.Leads scope levels → frame.Varies r outline levels awaited next frame' →
      FramesVary tail (Machine.Frame.outerScope frame scope) next height frames frames' →
      FramesVary tail scope awaited (height + frame.height) (frame :: frames) (frame' :: frames')

structure Machine.Varies (before : Array String) (tail : List Stmt) (machine other : Machine) :
    Prop where
  control : ∃ levels awaited, outline.Leads machine.scope levels ∧
    machine.control.Varies r outline levels awaited other.control ∧
    FramesVary r outline tail machine.scope awaited machine.height machine.frames other.frames
  scope : other.scope = machine.scope
  height : other.height = machine.height
  store : machine.store.Varies r outline before other.store

end

end LoxLang
