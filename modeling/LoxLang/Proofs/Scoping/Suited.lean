import LoxLang.Proofs.Scoping.Tracking

/-!
Programs in their surroundings. In a program that was marked without an error every `break` and `continue` has a
loop around it in the same function, every `return` has a function around it, `this` stands in a class and
`super` in one that has a superclass.
-/

namespace LoxLang

open Scoping

/-! ## Suited trees -/

/-- What an expression, its parts apart, asks of the innermost class around it. -/
def Expr.Suits (inClass : ClassContext) : Expr → Prop
  | .assign target _ => target.name.Names
  | .super keyword _ => keyword.name.lexeme = "super" ∧ inClass = .derived
  | .this keyword => keyword.name.lexeme = "this" ∧ inClass ≠ .none
  | _ => True

inductive Expr.Suited (inClass : ClassContext) : Expr → Prop
  | intro {expr : Expr} :
      expr.Suits inClass → (∀ part ∈ expr.parts, Suited inClass part) → Suited inClass expr

theorem Expr.Suited.suits {inClass : ClassContext} {expr : Expr} (h : expr.Suited inClass) :
    expr.Suits inClass := by
  cases h with
  | intro suits _ => exact suits

theorem Expr.Suited.part {inClass : ClassContext} {expr part : Expr} (h : expr.Suited inClass)
    (member : part ∈ expr.parts) : part.Suited inClass := by
  cases h with
  | intro _ parts => exact parts part member

namespace Scoping

/-- The context of methods in a class with such a superclass clause. -/
def ClassContext.ofClause : Option NameUse → ClassContext
  | .none => .base
  | .some _ => .derived

/-- Every jump in a statement has a target in the statement or among what is around it, and so has every `this`
and `super`. -/
inductive Suited : Surroundings → Stmt → Prop
  | block {around : Surroundings} {statements : List Stmt} :
      (∀ stmt ∈ statements, Suited around stmt) → Suited around (.block statements)
  | break {around : Surroundings} {keyword : Token} :
      around.inLoop = true → Suited around (.break keyword)
  | class {around : Surroundings} {name : Token} {superclass : Option NameUse}
      {methods : List FunctionDecl} :
      name.Names → (∀ method ∈ methods, ∀ param ∈ method.params, param.Names) →
      (∀ method ∈ methods, ∀ stmt ∈ method.body,
        Suited ((around.enterClass (.ofClause superclass)).enterFunction (methodContext method))
          stmt) →
      Suited around (.class name superclass methods)
  | continue {around : Surroundings} {keyword : Token} :
      around.inLoop = true → Suited around (.continue keyword)
  | expression {around : Surroundings} {value : Expr} :
      value.Suited around.inClass → Suited around (.expression value)
  | function {around : Surroundings} {declaration : FunctionDecl} :
      declaration.name.Names → (∀ param ∈ declaration.params, param.Names) →
      (∀ stmt ∈ declaration.body, Suited (around.enterFunction .function) stmt) →
      Suited around (.function declaration)
  | if {around : Surroundings} {condition : Expr} {thenBranch : Stmt}
      {elseBranch : Option Stmt} :
      condition.Suited around.inClass → Suited around thenBranch →
      (∀ found, elseBranch = some found → Suited around found) →
      Suited around (.if condition thenBranch elseBranch)
  | print {around : Surroundings} {value : Expr} :
      value.Suited around.inClass → Suited around (.print value)
  | return {around : Surroundings} {keyword : Token} {value : Option Expr} :
      around.inFunction ≠ .none → (∀ found, value = some found → found.Suited around.inClass) →
      Suited around (.return keyword value)
  | var {around : Surroundings} {name : Token} {initializer : Option Expr} :
      name.Names → (∀ found, initializer = some found → found.Suited around.inClass) →
      Suited around (.var name initializer)
  | while {around : Surroundings} {condition : Expr} {body : Stmt} {increment : Option Expr} :
      condition.Suited around.inClass → Suited around.enterLoop body →
      (∀ found, increment = some found → found.Suited around.inClass) →
      Suited around (.while condition body increment)

structure SuitedFunction (around : Surroundings) (declaration : FunctionDecl) : Prop where
  params : ∀ param ∈ declaration.params, param.Names
  body : ∀ stmt ∈ declaration.body, Suited around stmt

/-- What is around the body of a function. -/
structure Surroundings.AroundBody (around : Surroundings) : Prop where
  inFunction : around.inFunction ≠ .none
  noLoop : around.inLoop = false

theorem methodContext_ne_none (method : FunctionDecl) : methodContext method ≠ .none := by
  unfold methodContext
  split <;> exact nofun

def Node.Suited (around : Surroundings) : Node → Prop
  | .expr part => part.Suited around.inClass
  | .stmt part => Scoping.Suited around part
  | .statements parts => ∀ part ∈ parts, Scoping.Suited around part
  | .function declaration => around.AroundBody ∧ SuitedFunction around declaration

theorem Suited.branch {around : Surroundings} {condition : Expr} {thenBranch branch : Stmt}
    {elseBranch : Option Stmt} (h : Suited around (.if condition thenBranch elseBranch))
    (member : branch ∈ (Stmt.if condition thenBranch elseBranch).branches) :
    Suited around branch := by
  cases h with
  | «if» _ first second =>
      rcases List.mem_cons.mp member with rfl | member
      · exact first
      · exact second branch (Option.mem_toList.mp member)

theorem Suited.expr {around : Surroundings} {stmt : Stmt} {part : Expr} (h : Suited around stmt)
    (member : part ∈ stmt.exprs) : part.Suited around.inClass := by
  cases h with
  | expression value | print value =>
      rw [List.mem_singleton.mp member]
      exact value
  | «if» condition _ _ =>
      rw [List.mem_singleton.mp member]
      exact condition
  | «return» _ value => exact value part (Option.mem_toList.mp member)
  | «while» condition _ increment =>
      rcases List.mem_cons.mp member with rfl | member
      · exact condition
      · exact increment part (Option.mem_toList.mp member)
  | _ => cases member

/-! ## Regions of suited trees -/

/-- Statements can stand directly in the regions. -/
def Regions.Open : Regions → Prop
  | .global _ | .inside (.block _) _ => True
  | .inside _ _ => False

/-- No declaration in the regions is called `this` or `super`. -/
def Regions.Plain (regions : Regions) : Prop :=
  ∀ hops region, regions.at? hops = some region → region.Regular

namespace Regions

variable {regions outer : Regions} {region : Region} {name : Token}

theorem Open.hold (h : regions.Open) (name : String) : (regions.hold name).Open := by
  match regions, h with
  | .global _, _ => trivial
  | .inside (.block _) _, _ => trivial

theorem Open.begin (h : regions.Open) (name : String) : (regions.begin name).Open := by
  match regions, h with
  | .global _, _ => trivial
  | .inside (.block _) _, _ => trivial

theorem Open.inClass_receiver (h : regions.Open) :
    (Regions.inside .receiver regions).inClass = .base := by
  match regions, h with
  | .global _, _ => rfl
  | .inside (.block _) _, _ => rfl

theorem Plain.inside (h : outer.Plain) (regular : region.Regular) :
    (Regions.inside region outer).Plain := by
  intro hops other found
  cases hops with
  | zero =>
      cases found
      exact regular
  | succ hops => exact h hops other found

theorem Plain.ofInside (h : (Regions.inside region outer).Plain) : outer.Plain :=
  fun hops other found => h (hops + 1) other found

theorem Plain.hold (h : regions.Plain) (names : name.Names) :
    (regions.hold name.lexeme).Plain := by
  match regions with
  | .global _ => exact nofun
  | .inside .receiver _ | .inside .superclass _ => exact h
  | .inside (.block held) outer =>
      refine h.ofInside.inside fun other declared => ?_
      rcases declared with declared | begun
      · rcases List.mem_cons.mp declared with rfl | declared
        · exact ⟨names.ne_this, names.ne_super⟩
        · exact h 0 _ rfl other (.inl declared)
      · cases begun

theorem Plain.begin (h : regions.Plain) (names : name.Names) :
    (regions.begin name.lexeme).Plain := by
  match regions with
  | .global _ => exact nofun
  | .inside .receiver _ | .inside .superclass _ => exact h
  | .inside (.block held) outer =>
      refine h.ofInside.inside fun other declared => ?_
      rcases declared with declared | begun
      · exact h 0 _ rfl other (.inl declared)
      · cases begun
        exact ⟨names.ne_this, names.ne_super⟩

theorem Plain.ofMethods (h : regions.Plain) (superclass : Option NameUse) :
    (regions.ofMethods superclass).Plain := by
  cases superclass with
  | none =>
      have regular : Region.receiver.Regular := trivial
      exact h.inside regular
  | some _ =>
      have inner : Region.receiver.Regular := trivial
      have middle : Region.superclass.Regular := trivial
      exact (h.inside middle).inside inner

theorem Plain.params (h : regions.Plain) {params : List Token}
    (names : ∀ param ∈ params, param.Names) :
    (Regions.inside (.block (.ofList (params.map Token.lexeme))) regions).Plain :=
  h.inside (regular_params names)

theorem Open.inClass_ofMethods (h : regions.Open) (superclass : Option NameUse) :
    (regions.ofMethods superclass).inClass = .ofClause superclass := by
  cases superclass with
  | none => exact h.inClass_receiver
  | some _ => rfl

end Regions

theorem Suited.names {around : Surroundings} {stmt : Stmt} (h : Suited around stmt) {name : Token}
    (declared : stmt.declared? = some name) : name.Names := by
  cases h with
  | «class» names _ _ | function names _ _ | var names _ =>
      cases declared
      exact names
  | _ => cases declared

/-- A node is suited in its surroundings, which are those of the regions around it. -/
structure Place.Suited (around : Surroundings) (place : Place) : Prop where
  node : place.node.Suited around
  inClass : place.regions.inClass = around.inClass
  isOpen : (∀ declaration, place.node ≠ .function declaration) → place.regions.Open
  plain : place.regions.Plain

theorem Place.Suited.part {whole part : Place} {around : Surroundings}
    (h : whole.Suited around) (hpart : Part whole part) : ∃ inner, part.Suited inner := by
  obtain ⟨node, inClass, isOpen, plain⟩ := h
  cases hpart with
  | expr member => exact ⟨around, node.part member, inClass, fun _ => isOpen nofun, plain⟩
  | exprOf member => exact ⟨around, node.expr member, inClass, fun _ => isOpen nofun, plain⟩
  | initializer =>
      cases node with
      | var names value =>
          refine ⟨around, value _ rfl, ?_, fun _ => (isOpen nofun).begin _, plain.begin names⟩
          rw [Regions.inClass_begin, inClass]
  | superclass =>
      cases node with
      | «class» names _ _ =>
          refine ⟨around, .intro trivial nofun, ?_, fun _ => (isOpen nofun).begin _,
            plain.begin names⟩
          rw [Regions.inClass_begin, inClass]
  | branch member =>
      cases node with
      | «if» condition first second =>
          exact ⟨around, (Suited.if condition first second).branch member, inClass,
            fun _ => isOpen nofun, plain⟩
      | «while» _ body _ =>
          rw [List.mem_singleton.mp member]
          exact ⟨around.enterLoop, body, inClass, fun _ => isOpen nofun, plain⟩
      | _ => cases member
  | block =>
      cases node with
      | block statements =>
          exact ⟨around, statements, inClass, fun _ => trivial,
            plain.inside (Regions.regular_ofList nofun)⟩
  | function =>
      cases node with
      | function names params body =>
          refine ⟨around.enterFunction .function, ⟨⟨nofun, rfl⟩, params, body⟩, ?_,
            fun _ => (isOpen nofun).hold _, plain.hold names⟩
          rw [Regions.inClass_hold, inClass]
          rfl
  | @method _ _ superclass _ method member =>
      cases node with
      | «class» names params bodies =>
          refine ⟨(around.enterClass (.ofClause superclass)).enterFunction (methodContext method),
            ⟨⟨methodContext_ne_none method, rfl⟩, params method member, bodies method member⟩,
            ((isOpen nofun).hold _).inClass_ofMethods superclass, fun absurd => ?_,
            (plain.hold names).ofMethods superclass⟩
          exact (absurd method rfl).elim
  | body => 
      exact ⟨around, node.2.body, inClass, fun _ => trivial, plain.params node.2.params⟩
  | head =>
      exact ⟨around, node _ List.mem_cons_self, inClass, fun _ => isOpen nofun, plain⟩
  | @tail _ stmt _ =>
      have suited : Scoping.Suited around stmt := node _ List.mem_cons_self
      have rest : Node.Suited around (.statements _) := fun other member =>
        node other (List.mem_cons_of_mem _ member)
      unfold Regions.after
      split
      · next name declared =>
        refine ⟨around, rest, ?_, fun _ => (isOpen nofun).hold _, plain.hold (suited.names declared)⟩
        rw [Regions.inClass_hold, inClass]
      · exact ⟨around, rest, inClass, fun _ => isOpen nofun, plain⟩

theorem suited_of_stands {program : List Stmt} (h : ∀ stmt ∈ program, Suited .topLevel stmt)
    {place : Place} (stands : Stands program place) : ∃ around, place.Suited around := by
  induction stands with
  | refl => exact ⟨.topLevel, h, rfl, fun _ => trivial, nofun⟩
  | tail _ part ih =>
      obtain ⟨around, suited⟩ := ih
      exact suited.part part

end Scoping

end LoxLang
