import LoxLang.Proofs.Machine.Lookup

/-!
Sound machines. The frames of a machine belong to nodes that stand in the programs, each in the regions
that the scope then current agrees with, and what a frame hands on is what the next one awaits.
-/

namespace LoxLang

open Scoping

inductive Awaited where
  | value | completion

/-- Where a run goes on once what is awaited is there. -/
structure Point where
  scope : ScopeId
  regions : Regions
  awaited : Awaited

variable (programs : List (List Stmt)) (forest : Forest)

/-- A frame that awaits something at one point and goes on at another. -/
inductive Frame.Leads : Frame → Point → Point → Prop
  | assign {id : ScopeId} {regions : Regions} {use : NameUse} {value : Expr} :
      StandsIn programs ⟨regions, .expr (.assign use value)⟩ →
      Leads (.assign use) ⟨id, regions, .value⟩ ⟨id, regions, .value⟩
  | binaryLeft {id : ScopeId} {regions : Regions} {left right : Expr} {operator : Token} :
      StandsIn programs ⟨regions, .expr (.binary left operator right)⟩ →
      Leads (.binaryLeft operator right) ⟨id, regions, .value⟩ ⟨id, regions, .value⟩
  | binaryRight {id : ScopeId} {regions : Regions} {left right : Expr} {operator : Token}
      {value : Value} :
      StandsIn programs ⟨regions, .expr (.binary left operator right)⟩ →
      Leads (.binaryRight value operator) ⟨id, regions, .value⟩ ⟨id, regions, .value⟩
  | callee {id : ScopeId} {regions : Regions} {paren : Token} {arguments : List Expr} :
      (∀ part ∈ arguments, StandsIn programs ⟨regions, .expr part⟩) →
      Leads (.callee paren arguments) ⟨id, regions, .value⟩ ⟨id, regions, .value⟩
  | argument {id : ScopeId} {regions : Regions} {callee : Value} {paren : Token}
      {before : List Value} {after : List Expr} :
      callee.Sound programs forest → (∀ value ∈ before, value.Sound programs forest) →
      (∀ part ∈ after, StandsIn programs ⟨regions, .expr part⟩) →
      Leads (.argument callee paren before after) ⟨id, regions, .value⟩ ⟨id, regions, .value⟩
  | get {id : ScopeId} {regions : Regions} {name : Token} :
      Leads (.get name) ⟨id, regions, .value⟩ ⟨id, regions, .value⟩
  | grouping {id : ScopeId} {regions : Regions} :
      Leads .grouping ⟨id, regions, .value⟩ ⟨id, regions, .value⟩
  | logicalLeft {id : ScopeId} {regions : Regions} {operator : Token} {right : Expr} :
      StandsIn programs ⟨regions, .expr right⟩ →
      Leads (.logicalLeft operator right) ⟨id, regions, .value⟩ ⟨id, regions, .value⟩
  | logicalRight {id : ScopeId} {regions : Regions} :
      Leads .logicalRight ⟨id, regions, .value⟩ ⟨id, regions, .value⟩
  | setObject {id : ScopeId} {regions : Regions} {name : Token} {value : Expr} :
      StandsIn programs ⟨regions, .expr value⟩ →
      Leads (.setObject name value) ⟨id, regions, .value⟩ ⟨id, regions, .value⟩
  | setValue {id : ScopeId} {regions : Regions} {object : Instance} {name : Token} :
      Leads (.setValue object name) ⟨id, regions, .value⟩ ⟨id, regions, .value⟩
  | unary {id : ScopeId} {regions : Regions} {operator : Token} {right : Expr} :
      StandsIn programs ⟨regions, .expr (.unary operator right)⟩ →
      Leads (.unary operator) ⟨id, regions, .value⟩ ⟨id, regions, .value⟩
  | activation {id : ScopeId} {regions : Regions} {yield : Yield} :
      (∀ scope, yield = .receiver scope → forest.Holds scope "this") →
      (∀ object, yield = .constructed object → object.kind.Sound programs forest) →
      Leads (.activation yield) ⟨id, regions, .completion⟩ ⟨id, regions, .value⟩
  | expression {id : ScopeId} {regions : Regions} :
      Leads .expression ⟨id, regions, .value⟩ ⟨id, regions, .completion⟩
  | print {id : ScopeId} {regions : Regions} :
      Leads .print ⟨id, regions, .value⟩ ⟨id, regions, .completion⟩
  | return {id : ScopeId} {regions : Regions} :
      Leads .return ⟨id, regions, .value⟩ ⟨id, regions, .completion⟩
  | var {id : ScopeId} {regions : Regions} {name : Token} {initializer : Expr} :
      StandsIn programs ⟨regions, .stmt (.var name (some initializer))⟩ →
      Leads (.var name) ⟨id, regions.begin name.lexeme, .value⟩
        ⟨id, regions.hold name.lexeme, .completion⟩
  | ifCondition {id : ScopeId} {regions : Regions} {condition : Expr} {thenBranch : Stmt}
      {elseBranch : Option Stmt} :
      StandsIn programs ⟨regions, .stmt (.if condition thenBranch elseBranch)⟩ →
      Leads (.ifCondition thenBranch elseBranch) ⟨id, regions, .value⟩
        ⟨id, regions, .completion⟩
  | ifBranch {id : ScopeId} {regions : Regions} :
      Leads .ifBranch ⟨id, regions, .completion⟩ ⟨id, regions, .completion⟩
  | whileCondition {id : ScopeId} {regions : Regions} {condition : Expr} {body : Stmt}
      {increment : Option Expr} :
      StandsIn programs ⟨regions, .stmt (.while condition body increment)⟩ →
      Leads (.whileCondition condition body increment) ⟨id, regions, .value⟩
        ⟨id, regions, .completion⟩
  | whileBody {id : ScopeId} {regions : Regions} {condition : Expr} {body : Stmt}
      {increment : Option Expr} :
      StandsIn programs ⟨regions, .stmt (.while condition body increment)⟩ →
      Leads (.whileBody condition body increment) ⟨id, regions, .completion⟩
        ⟨id, regions, .completion⟩
  | whileIncrement {id : ScopeId} {regions : Regions} {condition : Expr} {body : Stmt}
      {increment : Option Expr} :
      StandsIn programs ⟨regions, .stmt (.while condition body increment)⟩ →
      Leads (.whileIncrement condition body increment) ⟨id, regions, .value⟩
        ⟨id, regions, .completion⟩
  | block {id outerScope : ScopeId} {regions outerRegions : Regions} {rest : List Stmt} :
      StandsIn programs ⟨regions, .statements rest⟩ → forest.Agrees outerScope outerRegions →
      Leads (.block rest outerScope) ⟨id, regions, .completion⟩
        ⟨outerScope, outerRegions, .completion⟩
  | superclass {id : ScopeId} {regions : Regions} {name token : Token} {use : NameUse}
      {methods : List FunctionDecl} :
      StandsIn programs ⟨regions, .stmt (.class name (some use) methods)⟩ →
      Leads (.superclass name token methods) ⟨id, regions.begin name.lexeme, .value⟩
        ⟨id, regions.hold name.lexeme, .completion⟩
  | program {id : ScopeId} {regions : Regions} {rest : List Stmt} :
      StandsIn programs ⟨regions, .statements rest⟩ →
      Leads (.program rest) ⟨id, regions, .completion⟩
        ⟨id, regions.afterAll rest, .completion⟩

/-- Frames that go on from a point, one after the other. -/
inductive Frames : List Frame → Point → Prop
  | nil {point : Point} : Frames [] point
  | cons {frame : Frame} {frames : List Frame} {point next : Point} :
      frame.Leads programs forest point next → Frames frames next → Frames (frame :: frames) point

def Completion.Sound (completion : Completion) : Prop :=
  ∀ value, completion = .return value → value.Sound programs forest

/-- What is being done is done at a place with whose regions the current scope agrees, and the frames go on
from there. -/
def Control.Sound (scope : ScopeId) (frames : List Frame) : Control → Prop
  | .eval expr => ∃ regions, forest.Agrees scope regions ∧
      StandsIn programs ⟨regions, .expr expr⟩ ∧ Frames programs forest frames ⟨scope, regions, .value⟩
  | .exec stmt => ∃ regions, forest.Agrees scope regions ∧
      StandsIn programs ⟨regions, .stmt stmt⟩ ∧
      Frames programs forest frames ⟨scope, regions.after stmt, .completion⟩
  | .value result => result.Sound programs forest ∧ ∃ regions, forest.Agrees scope regions ∧
      Frames programs forest frames ⟨scope, regions, .value⟩
  | .done completion => completion.Sound programs forest ∧ ∃ regions,
      forest.Agrees scope regions ∧ Frames programs forest frames ⟨scope, regions, .completion⟩
  | .failed interruption => interruption.IsError

structure Machine.Sound (machine : Machine) : Prop where
  store : machine.store.Sound programs
  control : machine.control.Sound programs machine.store.forest machine.scope machine.frames

variable {programs more : List (List Stmt)} {before after : Forest}

theorem Frame.Leads.later {frame : Frame} {point next : Point}
    (h : frame.Leads programs before point next) (grows : before.Grows after) :
    frame.Leads programs after point next := by
  cases h with
  | assign stands => exact .assign stands
  | binaryLeft stands => exact .binaryLeft stands
  | binaryRight stands => exact .binaryRight stands
  | callee parts => exact .callee parts
  | argument callee values parts =>
      exact .argument (callee.grow grows) (fun value member => (values value member).grow grows) parts
  | get => exact .get
  | grouping => exact .grouping
  | logicalLeft stands => exact .logicalLeft stands
  | logicalRight => exact .logicalRight
  | setObject stands => exact .setObject stands
  | setValue => exact .setValue
  | unary stands => exact .unary stands
  | activation receiver constructed =>
      refine .activation (fun scope same => grows.holds _ _ (receiver scope same)) ?_
      exact fun object same => (constructed object same).later (List.Subset.refl _) grows
  | expression => exact .expression
  | print => exact .print
  | «return» => exact .return
  | var stands => exact .var stands
  | ifCondition stands => exact .ifCondition stands
  | ifBranch => exact .ifBranch
  | whileCondition stands => exact .whileCondition stands
  | whileBody stands => exact .whileBody stands
  | whileIncrement stands => exact .whileIncrement stands
  | block stands agrees => exact .block stands (agrees.grow grows)
  | superclass stands => exact .superclass stands
  | program stands => exact .program stands

theorem Frames.grow {frames : List Frame} {point : Point}
    (h : Frames programs before frames point) (grows : before.Grows after) :
    Frames programs after frames point := by
  induction h with
  | nil => exact .nil
  | cons leads _ ih => exact .cons (leads.later grows) ih

theorem Completion.Sound.normal : Completion.Sound programs after .normal :=
  nofun

end LoxLang
