import Mathlib.Logic.Relation
import LoxLang.Proofs.Program.WellFormed

/-!
Lexical scoping without a traversal. Every place in a program lies in some regions, one inside the other,
and each region has names of its own at that place. A declaration adds its name to the innermost region
for the places behind it and for those within it.
-/

namespace LoxLang.Scoping

/-! ## Regions -/

/-- The names of a region at a place in it. -/
structure Names where
  /-- Their declarations end before the place, or have it in their bodies. -/
  held : List String
  /-- The place is in the initializer or superclass clause of its declaration. -/
  begun : Option String

namespace Names

def ofList (held : List String) : Names :=
  ⟨held, none⟩

def hold (names : Names) (name : String) : Names :=
  ⟨name :: names.held, none⟩

def begin (names : Names) (name : String) : Names :=
  ⟨names.held, some name⟩

end Names

/-- A local region: a block or a function with its parameters, the methods of a class, and around them the
subclass, if it is one. -/
inductive Region where
  | block (names : Names)
  | receiver
  | superclass

namespace Region

def Holds (region : Region) (name : String) : Prop :=
  match region with
  | .block names => name ∈ names.held
  | .receiver => name = "this"
  | .superclass => name = "super"

def Declares (region : Region) (name : String) : Prop :=
  match region with
  | .block names => name ∈ names.held ∨ names.begun = some name
  | .receiver => name = "this"
  | .superclass => name = "super"

end Region

/-- The regions around a place, innermost first. The global one is outermost, and not local. -/
inductive Regions where
  | global (names : Names)
  | inside (region : Region) (outer : Regions)

namespace Regions

def start : Regions :=
  .global (.ofList [])

def hold : Regions → String → Regions
  | .global names, name => .global (names.hold name)
  | .inside (.block names) outer, name => .inside (.block (names.hold name)) outer
  | regions, _ => regions

def begin : Regions → String → Regions
  | .global names, name => .global (names.begin name)
  | .inside (.block names) outer, name => .inside (.block (names.begin name)) outer
  | regions, _ => regions

/-- The regions behind a statement. -/
def after (regions : Regions) (stmt : Stmt) : Regions :=
  match stmt.declared? with
  | some name => regions.hold name.lexeme
  | none => regions

def afterAll (regions : Regions) (statements : List Stmt) : Regions :=
  statements.foldl after regions

/-- The regions of a method. -/
def ofMethods (regions : Regions) (superclass : Option NameUse) : Regions :=
  match superclass with
  | none => .inside .receiver regions
  | some _ => .inside .receiver (.inside .superclass regions)

/-- The innermost region does not hold the name yet, which only matters in a local one. -/
def Admits : Regions → String → Prop
  | .inside (.block names) _, name => name ∉ names.held
  | _, _ => True

/-- The local region that many regions out. -/
def at? : Regions → (hops : Nat) → Option Region
  | .global _, _ => none
  | .inside region _, 0 => some region
  | .inside _ outer, hops + 1 => outer.at? hops

/-- So many local regions lie between the place and the innermost one that declares the name. -/
inductive Finds : Regions → (name : String) → (hops : Nat) → Prop
  | here {region : Region} {outer : Regions} {name : String} :
      region.Declares name → Finds (.inside region outer) name 0
  | further {region : Region} {outer : Regions} {name : String} {hops : Nat} :
      ¬ region.Declares name → Finds outer name hops →
      Finds (.inside region outer) name (hops + 1)

theorem after_of_none {stmt : Stmt} (h : stmt.declared? = none) (regions : Regions) :
    regions.after stmt = regions := by
  rw [after, h]

theorem Finds.at? {name : String} {regions : Regions} {hops : Nat}
    (h : regions.Finds name hops) :
    ∃ region, regions.at? hops = some region ∧ region.Declares name := by
  induction h with
  | here declares => exact ⟨_, rfl, declares⟩
  | further _ _ ih => exact ih

end Regions

end LoxLang.Scoping

namespace LoxLang

/-! ## Places -/

def Expr.parts : Expr → List Expr
  | .assign _ value => [value]
  | .binary left _ right | .logical left _ right => [left, right]
  | .call callee _ arguments => callee :: arguments
  | .get object _ => [object]
  | .grouping expression => [expression]
  | .set object _ value => [object, value]
  | .unary _ right => [right]
  | .literal _ | .super _ _ | .this _ | .variable _ => []

/-- The direct parts of a statement that are expressions and see the names that the statement sees. -/
def Stmt.exprs : Stmt → List Expr
  | .expression value | .print value => [value]
  | .if condition _ _ => [condition]
  | .return _ value => value.toList
  | .while condition _ increment => condition :: increment.toList
  | _ => []

/-- The statements that stand in no block of their own. -/
def Stmt.branches : Stmt → List Stmt
  | .if _ thenBranch elseBranch => thenBranch :: elseBranch.toList
  | .while _ body _ => [body]
  | _ => []

namespace Scoping

inductive Node where
  | expr (expr : Expr)
  | stmt (stmt : Stmt)
  | statements (statements : List Stmt)
  | function (declaration : FunctionDecl)

/-- A node of a program with the regions around it. -/
structure Place where
  regions : Regions
  node : Node

/-- The uses of names that a node itself makes. -/
def Node.uses : Node → List NameUse
  | .expr (.assign use _) | .expr (.super use _) | .expr (.this use) | .expr (.variable use) =>
      [use]
  | _ => []

/-- A place and one directly in it. -/
inductive Part : Place → Place → Prop
  | expr {regions : Regions} {whole part : Expr} :
      part ∈ whole.parts → Part ⟨regions, .expr whole⟩ ⟨regions, .expr part⟩
  | exprOf {regions : Regions} {stmt : Stmt} {part : Expr} :
      part ∈ stmt.exprs → Part ⟨regions, .stmt stmt⟩ ⟨regions, .expr part⟩
  | initializer {regions : Regions} {name : Token} {value : Expr} :
      Part ⟨regions, .stmt (.var name (some value))⟩
        ⟨regions.begin name.lexeme, .expr value⟩
  | superclass {regions : Regions} {name : Token} {use : NameUse}
      {methods : List FunctionDecl} :
      Part ⟨regions, .stmt (.class name (some use) methods)⟩
        ⟨regions.begin name.lexeme, .expr (.variable use)⟩
  | branch {regions : Regions} {stmt branch : Stmt} :
      branch ∈ stmt.branches → Part ⟨regions, .stmt stmt⟩ ⟨regions, .stmt branch⟩
  | block {regions : Regions} {statements : List Stmt} :
      Part ⟨regions, .stmt (.block statements)⟩
        ⟨.inside (.block (.ofList [])) regions, .statements statements⟩
  | function {regions : Regions} {declaration : FunctionDecl} :
      Part ⟨regions, .stmt (.function declaration)⟩
        ⟨regions.hold declaration.name.lexeme, .function declaration⟩
  | method {regions : Regions} {name : Token} {superclass : Option NameUse}
      {methods : List FunctionDecl} {method : FunctionDecl} :
      method ∈ methods →
      Part ⟨regions, .stmt (.class name superclass methods)⟩
        ⟨(regions.hold name.lexeme).ofMethods superclass, .function method⟩
  | body {regions : Regions} {declaration : FunctionDecl} :
      Part ⟨regions, .function declaration⟩
        ⟨.inside (.block (.ofList (declaration.params.map Token.lexeme))) regions,
          .statements declaration.body⟩
  | head {regions : Regions} {stmt : Stmt} {rest : List Stmt} :
      Part ⟨regions, .statements (stmt :: rest)⟩ ⟨regions, .stmt stmt⟩
  | tail {regions : Regions} {stmt : Stmt} {rest : List Stmt} :
      Part ⟨regions, .statements (stmt :: rest)⟩ ⟨regions.after stmt, .statements rest⟩

/-- The places in a program. -/
def Stands (program : List Stmt) (place : Place) : Prop :=
  Relation.ReflTransGen Part ⟨.start, .statements program⟩ place

theorem Stands.part {program : List Stmt} {place inner : Place} (h : Stands program place)
    (part : Part place inner) : Stands program inner :=
  Relation.ReflTransGen.tail h part

/-- A property of all places in a place, the place itself included. -/
def Everywhere (means : Place → Prop) (place : Place) : Prop :=
  ∀ inner, Relation.ReflTransGen Part place inner → means inner

theorem Everywhere.intro {means : Place → Prop} {place : Place} (here : means place)
    (parts : ∀ inner, Part place inner → Everywhere means inner) : Everywhere means place := by
  intro inner within
  cases Relation.ReflTransGen.cases_head within with
  | inl same =>
      rw [← same]
      exact here
  | inr step =>
      obtain ⟨part, first, rest⟩ := step
      exact parts part first inner rest

/-! ## Marks -/

/-- A use is marked if and only if some local region declares its name, and then with the number of
regions within the innermost of these. -/
def Regions.Locates (regions : Regions) (use : NameUse) : Prop :=
  ∀ hops, use.hops = some hops ↔ regions.Finds use.name.lexeme hops

/-- The region that a use is marked with holds its name. -/
def Regions.Reaches (regions : Regions) (use : NameUse) : Prop :=
  ∀ hops, use.hops = some hops →
    ∃ region, regions.at? hops = some region ∧ region.Holds use.name.lexeme

/-- What the static rules say of an expression, its parts apart. -/
def Regions.AllowsExpr (regions : Regions) : Expr → Prop
  | .assign target _ =>
      target.name.Names ∧
        ∀ hops, target.hops = some hops → ∃ region, regions.at? hops = some region
  | .binary _ operator _ => operator.kind ∈ binaryKinds
  | .super keyword _ =>
      ∃ hops, keyword.hops = some (hops + 1) ∧ regions.at? hops = some .receiver ∧
        regions.at? (hops + 1) = some .superclass
  | .this use | .variable use => regions.Reaches use
  | .unary operator _ => operator.kind ∈ unaryKinds
  | _ => True

def Node.Allowed (node : Node) (regions : Regions) : Prop :=
  match node with
  | .expr part => regions.AllowsExpr part
  | .stmt part =>
      (∀ name, part.declared? = some name → name.Names) ∧
        ∀ branch ∈ part.branches, branch.declared? = none
  | _ => True

def Place.Located (place : Place) : Prop :=
  ∀ use ∈ place.node.uses, place.regions.Locates use

def Place.Allowed (place : Place) : Prop :=
  place.node.Allowed place.regions

/-- What a statement declares is new in the region in which it stands. -/
def Place.Distinct (place : Place) : Prop :=
  match place.node with
  | .stmt part => ∀ name, part.declared? = some name → place.regions.Admits name.lexeme
  | _ => True

end Scoping

end LoxLang
