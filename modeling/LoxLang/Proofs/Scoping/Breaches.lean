import LoxLang.Proofs.Scoping.Regions
import LoxLang.Scoping.Scopes

/-!
Breaches of the static rules. Whether a node breaks a rule follows from the node, from what lies around it, and from
the names that its scope was given before it; the breaches of a program are those of its nodes, in the order
in which the nodes are come to.
-/

namespace LoxLang.Scoping

/-- What can lie around a node and matters to a rule. -/
inductive Enclosure where
  | initializer (name : String)
  | loopBody
  | function
  | method (name : String)
  | class (derived : Bool)
  deriving DecidableEq

namespace Enclosure

def isFunction : Enclosure → Bool
  | .function | .method _ => true
  | _ => false

def isClass : Enclosure → Bool
  | .class _ => true
  | _ => false

end Enclosure

/-- A node and what the rules look at around it. -/
structure Visit where
  /-- What lies around the node, innermost first. -/
  around : List Enclosure
  /-- The names declared before the node in the scope where it stands, unless this is the global scope, in which
  names may be declared again. -/
  earlier : Option (List String)
  node : Node

/-- An error if a rule is broken. -/
def breachIf (broken : Prop) [Decidable broken] (cause : ResolutionError.Cause)
    (token : Token) : List ResolutionError :=
  if broken then [⟨cause, token⟩] else []

/-- The parameters that have the name of one before them. -/
def repeatedParams (earlier : List String) : List Token → List ResolutionError
  | [] => []
  | param :: rest =>
      breachIf (param.lexeme ∈ earlier) .redeclaration param ++
        repeatedParams (param.lexeme :: earlier) rest

namespace Visit

def program (statements : List Stmt) : Visit :=
  ⟨[], none, .statements statements⟩

variable (visit : Visit)

def enclosingFunction? : Option Enclosure :=
  visit.around.find? Enclosure.isFunction

def enclosingClass? : Option Enclosure :=
  visit.around.find? Enclosure.isClass

/-- Around the node there is the body of a loop that no function separates from it. -/
def InLoop : Prop :=
  .loopBody ∈ visit.around.takeWhile fun enclosure => !enclosure.isFunction

instance : Decidable visit.InLoop :=
  inferInstanceAs (Decidable (_ ∈ _))

def redeclared (name : Token) : List ResolutionError :=
  breachIf (name.lexeme ∈ visit.earlier.getD []) .redeclaration name

/-- The rules that a node breaks itself. -/
def breaches : List ResolutionError :=
  match visit.node with
  | .expr (.variable use) =>
      breachIf (.initializer use.name.lexeme ∈ visit.around) .ownInitializer use.name
  | .expr (.this keyword) =>
      breachIf (visit.enclosingClass? = none) .thisOutsideClass keyword.name
  | .expr (.super keyword _) =>
      breachIf (visit.enclosingClass? = none) .superOutsideClass keyword.name ++
        breachIf (visit.enclosingClass? = some (.class false)) .superWithoutSuperclass keyword.name
  | .stmt (.break keyword) => breachIf (¬ visit.InLoop) .breakOutsideLoop keyword
  | .stmt (.continue keyword) => breachIf (¬ visit.InLoop) .continueOutsideLoop keyword
  | .stmt (.return keyword value) =>
      breachIf (visit.enclosingFunction? = none) .returnOutsideFunction keyword ++
        breachIf (value.isSome ∧ visit.enclosingFunction? = some (.method "init"))
          .returnFromInitializer keyword
  | .stmt (.var name _) => visit.redeclared name
  | .stmt (.function declaration) => visit.redeclared declaration.name
  | .stmt (.class name none _) => visit.redeclared name
  | .stmt (.class name (some superclass) _) =>
      visit.redeclared name ++
        breachIf (name.lexeme = superclass.name.lexeme) .selfInheritance superclass.name
  | .function declaration => repeatedParams [] declaration.params
  | .expr _ | .stmt _ | .statements _ => []

/-- Another node at the same place. -/
def here (node : Node) : Visit :=
  ⟨visit.around, visit.earlier, node⟩

/-- A node with more around it than this one has, innermost first. -/
def inside (enclosures : List Enclosure) (node : Node) : Visit :=
  ⟨enclosures ++ visit.around, visit.earlier, node⟩

/-- A node in a scope that begins with some names. -/
def scope (names : List String) (node : Node) : Visit :=
  ⟨visit.around, some names, node⟩

/-- What stands behind a statement. -/
def behind (stmt : Stmt) (node : Node) : Visit :=
  match stmt.declared? with
  | some name => ⟨visit.around, visit.earlier.map (name.lexeme :: ·), node⟩
  | none => visit.here node

/-- The nodes directly in a node, in the order in which they are come to. -/
def parts : List Visit :=
  match visit.node with
  | .expr (.set object _ value) => [visit.here (.expr value), visit.here (.expr object)]
  | .expr expr => expr.parts.map fun part => visit.here (.expr part)
  | .stmt (.block statements) => [visit.scope [] (.statements statements)]
  | .stmt (.break _) | .stmt (.continue _) => []
  | .stmt (.class _ superclass methods) =>
      superclass.toList.map (fun use => visit.here (.expr (.variable use))) ++
        methods.map fun method =>
          visit.inside [.method method.name.lexeme, .class superclass.isSome] (.function method)
  | .stmt (.expression value) | .stmt (.print value) => [visit.here (.expr value)]
  | .stmt (.function declaration) => [visit.inside [.function] (.function declaration)]
  | .stmt (.if condition thenBranch elseBranch) =>
      visit.here (.expr condition) :: visit.here (.stmt thenBranch) ::
        elseBranch.toList.map fun branch => visit.here (.stmt branch)
  | .stmt (.return _ value) => value.toList.map fun value => visit.here (.expr value)
  | .stmt (.var name initializer) =>
      initializer.toList.map fun value => visit.inside [.initializer name.lexeme] (.expr value)
  | .stmt (.while condition body increment) =>
      visit.here (.expr condition) :: visit.inside [.loopBody] (.stmt body) ::
        increment.toList.map fun value => visit.here (.expr value)
  | .statements [] => []
  | .statements (stmt :: rest) => [visit.here (.stmt stmt), visit.behind stmt (.statements rest)]
  | .function declaration =>
      [visit.scope (declaration.params.map Token.lexeme) (.statements declaration.body)]

end Visit

/-- The breaches of some nodes and of all that is in them, in the order in which they are come to. -/
inductive Reports : List Visit → List ResolutionError → Prop
  | nil : Reports [] []
  | cons {visit : Visit} {rest : List Visit} {inner later : List ResolutionError} :
      Reports visit.parts inner → Reports rest later →
      Reports (visit :: rest) (visit.breaches ++ inner ++ later)

namespace Reports

variable {visit : Visit} {visits others : List Visit} {found more : List ResolutionError}

theorem append (first : Reports visits found) (second : Reports others more) :
    Reports (visits ++ others) (found ++ more) := by
  induction first with
  | nil => exact second
  | cons inner _ _ ih =>
      rw [List.cons_append, List.append_assoc _ _ more]
      exact .cons inner ih

theorem one (same : visit.parts = visits) (parts : Reports visits found) :
    Reports [visit] (visit.breaches ++ found) := by
  rw [← List.append_nil (visit.breaches ++ found)]
  exact .cons (same ▸ parts) .nil

theorem leaf (empty : visit.parts = []) : Reports [visit] visit.breaches := by
  rw [← List.append_nil visit.breaches]
  exact one empty .nil

/-- A node that breaks no rule itself. -/
theorem through (quiet : visit.breaches = []) (same : visit.parts = visits)
    (parts : Reports visits found) : Reports [visit] found := by
  have all := one same parts
  rwa [quiet] at all

theorem unique (first : Reports visits found) (second : Reports visits more) : found = more := by
  induction first generalizing more with
  | nil =>
      cases second
      rfl
  | cons _ _ ihInner ihLater =>
      cases second with
      | cons inner later => rw [ihInner inner, ihLater later]

end Reports

end LoxLang.Scoping
