import LoxLang.Machine.Step
import LoxLang.Proofs.Expansion.Stores

/-!
Machines of an expansion. Each frame has one of the same sort in the place of it. Besides, the other machine has frames
for the braces that there are more, and an unrolled loop runs its increment as the last statement of a block.
-/

namespace LoxLang

open Scoping

/-- What a frame awaits: a value, or the completion of a statement, which may be that of a `continue` or not. -/
inductive Due where
  | value
  | completion (mayContinue : Bool)

section

variable (free : Prop) (layout : Layout)

inductive Completion.Expands : Bool → Completion → Completion → Prop
  | normal {mayContinue : Bool} : Expands mayContinue .normal .normal
  | break {mayContinue : Bool} : Expands mayContinue .break .break
  | continue : Expands true .continue .continue
  | return {mayContinue : Bool} {value value' : Value} :
      value.Expands free layout value' → Expands mayContinue (.return value) (.return value')

inductive Yield.Expands : Yield → Yield → Prop
  | returned : Expands .returned .returned
  | receiver {scope scope' : ScopeId} {gaps : Gaps} :
      layout.Leads (0 :: gaps) scope scope' → Expands (.receiver scope) (.receiver scope')
  | constructed {object object' : Instance} :
      object.Expands free layout object' → Expands (.constructed object) (.constructed object')

inductive Control.Expands (scope scope' : ScopeId) : Due → Control → Control → Prop
  | eval {gaps : Gaps} {expr expr' : Expr} :
      layout.Leads gaps scope scope' → expr.Expands gaps expr' →
      Expands scope scope' .value (.eval expr) (.eval expr')
  | exec {gaps : Gaps} {mayContinue : Bool} {stmt stmt' : Stmt} :
      layout.Leads gaps scope scope' → Node.Expands free gaps (.stmt stmt) (.stmt stmt') →
      (stmt.continues → mayContinue) →
      Expands scope scope' (.completion mayContinue) (.exec stmt) (.exec stmt')
  | value {value value' : Value} :
      value.Expands free layout value' → Expands scope scope' .value (.value value) (.value value')
  | done {mayContinue : Bool} {completion completion' : Completion} :
      completion.Expands free layout mayContinue completion' →
      Expands scope scope' (.completion mayContinue) (.done completion) (.done completion')

/-! ## Frames -/

/-- What a loop goes on with that is a loop of the same form. -/
structure LoopExpands (gaps : Gaps) (condition condition' : Expr) (body body' : Stmt)
    (increment increment' : Option Expr) : Prop where
  condition : condition.Expands gaps condition'
  body : Node.Expands free gaps (.stmt body) (.stmt body')
  increment : Expr?.Expands gaps increment increment'

/-- What a loop goes on with whose increment has been put at the end of its body. -/
structure LoopUnrolls (gap : Nat) (outer : Gaps) (condition condition' : Expr) (body body' : Stmt)
    (increment increment' : Expr) : Prop where
  allowed : free
  calm : body.continues = false
  condition : condition.Expands (gap :: outer) condition'
  body : Node.Expands free ((gap + 1) :: outer) (.stmt body) (.stmt body')
  increment : increment.Expands ((gap + 1) :: outer) increment'

/-- The frame awaits something and hands something on. -/
inductive Frame.Expands (gaps : Gaps) : Due → Due → Frame → Frame → Prop
  | assign {target target' : NameUse} :
      target.Expands gaps target' → Expands gaps .value .value (.assign target) (.assign target')
  | binaryLeft {operator : Token} {right right' : Expr} :
      right.Expands gaps right' →
      Expands gaps .value .value (.binaryLeft operator right) (.binaryLeft operator right')
  | binaryRight {left left' : Value} {operator : Token} :
      left.Expands free layout left' →
      Expands gaps .value .value (.binaryRight left operator) (.binaryRight left' operator)
  | callee {paren : Token} {arguments arguments' : List Expr} :
      List.Forall₂ (Expr.Expands gaps) arguments arguments' →
      Expands gaps .value .value (.callee paren arguments) (.callee paren arguments')
  | argument {callee callee' : Value} {paren : Token} {done done' : List Value}
      {ahead ahead' : List Expr} :
      callee.Expands free layout callee' → List.Forall₂ (Value.Expands free layout) done done' →
      List.Forall₂ (Expr.Expands gaps) ahead ahead' →
      Expands gaps .value .value (.argument callee paren done ahead)
        (.argument callee' paren done' ahead')
  | get {name : Token} : Expands gaps .value .value (.get name) (.get name)
  | grouping : Expands gaps .value .value .grouping .grouping
  | logicalLeft {operator : Token} {right right' : Expr} :
      right.Expands gaps right' →
      Expands gaps .value .value (.logicalLeft operator right) (.logicalLeft operator right')
  | logicalRight : Expands gaps .value .value .logicalRight .logicalRight
  | setObject {name : Token} {value value' : Expr} :
      value.Expands gaps value' →
      Expands gaps .value .value (.setObject name value) (.setObject name value')
  | setValue {object object' : Instance} {name : Token} :
      object.Expands free layout object' →
      Expands gaps .value .value (.setValue object name) (.setValue object' name)
  | unary {operator : Token} : Expands gaps .value .value (.unary operator) (.unary operator)
  | activation {yield yield' : Yield} :
      yield.Expands free layout yield' →
      Expands gaps (.completion true) .value (.activation yield) (.activation yield')
  | expression {mayContinue : Bool} :
      Expands gaps .value (.completion mayContinue) .expression .expression
  | print {mayContinue : Bool} : Expands gaps .value (.completion mayContinue) .print .print
  | return {mayContinue : Bool} : Expands gaps .value (.completion mayContinue) .return .return
  | ifCondition {mayContinue : Bool} {thenBranch thenBranch' : Stmt}
      {elseBranch elseBranch' : Option Stmt} :
      Node.Expands free gaps (.stmt thenBranch) (.stmt thenBranch') →
      (thenBranch.continues → mayContinue) →
      Option.Rel (fun stmt stmt' => Node.Expands free gaps (.stmt stmt) (.stmt stmt') ∧
        (stmt.continues → mayContinue)) elseBranch elseBranch' →
      Expands gaps .value (.completion mayContinue) (.ifCondition thenBranch elseBranch)
        (.ifCondition thenBranch' elseBranch')
  | ifBranch {mayContinue : Bool} :
      Expands gaps (.completion mayContinue) (.completion mayContinue) .ifBranch .ifBranch
  | whileCondition {mayContinue : Bool} {condition condition' : Expr} {body body' : Stmt}
      {increment increment' : Option Expr} :
      LoopExpands free gaps condition condition' body body' increment increment' →
      Expands gaps .value (.completion mayContinue) (.whileCondition condition body increment)
        (.whileCondition condition' body' increment')
  | whileBody {mayContinue : Bool} {condition condition' : Expr} {body body' : Stmt}
      {increment increment' : Option Expr} :
      LoopExpands free gaps condition condition' body body' increment increment' →
      Expands gaps (.completion true) (.completion mayContinue) (.whileBody condition body increment)
        (.whileBody condition' body' increment')
  | whileIncrement {mayContinue : Bool} {condition condition' : Expr} {body body' : Stmt}
      {increment increment' : Option Expr} :
      LoopExpands free gaps condition condition' body body' increment increment' →
      Expands gaps .value (.completion mayContinue) (.whileIncrement condition body increment)
        (.whileIncrement condition' body' increment')
  | block {mayContinue : Bool} {rest rest' : List Stmt} {scope scope' : ScopeId} :
      Node.Expands free gaps (.statements rest) (.statements rest') →
      (continuesAny rest → mayContinue) →
      Expands gaps (.completion mayContinue) (.completion mayContinue) (.block rest scope)
        (.block rest' scope')
  | var {outer : Gaps} {mayContinue : Bool} {name : Token} :
      gaps = 0 :: outer → Expands gaps .value (.completion mayContinue) (.var name) (.var name)
  | superclass {outer : Gaps} {mayContinue : Bool} {name token : Token}
      {methods methods' : List FunctionDecl} :
      gaps = 0 :: outer →
      List.Forall₂ (fun method method' => Node.Expands free (0 :: 0 :: gaps)
        (.function method) (.function method')) methods methods' →
      Expands gaps .value (.completion mayContinue) (.superclass name token methods)
        (.superclass name token methods')

/-- Frames that are entered from a scope with what they await. The lowest one is that of the program, whose scope is
that of the globals. -/
inductive FramesExpand : ScopeId → ScopeId → Due → List Frame → List Frame → Prop
  | program {rest rest' : List Stmt} :
      Node.Expands free [0] (.statements rest) (.statements rest') →
      FramesExpand Forest.globals Forest.globals (.completion true) [.program rest] [.program rest']
  | cons {scope scope' : ScopeId} {gaps : Gaps} {due next : Due} {frame frame' : Frame}
      {frames frames' : List Frame} :
      layout.Leads gaps scope scope' → frame.Expands free layout gaps due next frame' →
      FramesExpand (Machine.Frame.outerScope frame scope) (Machine.Frame.outerScope frame' scope')
        next frames frames' →
      FramesExpand scope scope' due (frame :: frames) (frame' :: frames')
  | brace {scope scope' outer' : ScopeId} {mayContinue : Bool} {frames frames' : List Frame} :
      free → FramesExpand scope outer' (.completion mayContinue) frames frames' →
      FramesExpand scope scope' (.completion mayContinue) frames (.block [] outer' :: frames')
  | unrolledCondition {scope scope' : ScopeId} {gap : Nat} {outer : Gaps} {mayContinue : Bool}
      {condition condition' increment increment' : Expr} {body body' : Stmt}
      {frames frames' : List Frame} :
      layout.Leads (gap :: outer) scope scope' →
      LoopUnrolls free gap outer condition condition' body body' increment increment' →
      FramesExpand scope scope' (.completion mayContinue) frames frames' →
      FramesExpand scope scope' .value (.whileCondition condition body (some increment) :: frames)
        (.whileCondition condition' (.block [body', .expression increment']) none :: frames')
  | unrolledBody {scope scope' outer' : ScopeId} {gap : Nat} {outer : Gaps} {mayContinue : Bool}
      {condition condition' increment increment' : Expr} {body body' : Stmt}
      {frames frames' : List Frame} :
      layout.Leads (gap :: outer) scope outer' → layout.Leads ((gap + 1) :: outer) scope scope' →
      LoopUnrolls free gap outer condition condition' body body' increment increment' →
      FramesExpand scope outer' (.completion mayContinue) frames frames' →
      FramesExpand scope scope' (.completion false)
        (.whileBody condition body (some increment) :: frames)
        (.block [.expression increment'] outer' ::
          .whileBody condition' (.block [body', .expression increment']) none :: frames')
  | unrolledIncrement {scope scope' outer' : ScopeId} {gap : Nat} {outer : Gaps} {mayContinue : Bool}
      {condition condition' increment increment' : Expr} {body body' : Stmt}
      {frames frames' : List Frame} :
      layout.Leads (gap :: outer) scope outer' →
      LoopUnrolls free gap outer condition condition' body body' increment increment' →
      FramesExpand scope outer' (.completion mayContinue) frames frames' →
      FramesExpand scope scope' .value (.whileIncrement condition body (some increment) :: frames)
        (.expression :: .block [] outer' ::
          .whileBody condition' (.block [body', .expression increment']) none :: frames')

/-! ## Machines -/

/-- How high the frames are stacked does not matter; once there is an interruption, neither do the frames. -/
inductive Machine.Expands : Machine → Machine → Prop
  | running {due : Due} {control control' : Control} {frames frames' : List Frame}
      {scope scope' : ScopeId} {height height' : Nat} {store store' : Store} :
      control.Expands free layout scope scope' due control' →
      FramesExpand free layout scope scope' due frames frames' → store.Expands free layout store' →
      Expands ⟨control, frames, scope, height, store⟩ ⟨control', frames', scope', height', store'⟩
  | ended {scope scope' : ScopeId} {height height' : Nat} {store store' : Store} :
      store.Expands free layout store' →
      Expands ⟨.done .normal, [], scope, height, store⟩ ⟨.done .normal, [], scope', height', store'⟩
  | failed {interruption interruption' : Interruption} {frames frames' : List Frame}
      {scope scope' : ScopeId} {height height' : Nat} {store store' : Store} :
      interruption.Expands interruption' → store.Expands free layout store' →
      Expands ⟨.failed interruption, frames, scope, height, store⟩
        ⟨.failed interruption', frames', scope', height', store'⟩

end

end LoxLang
