import LoxLang.Bindings
import LoxLang.Program.Basic

/-!
The values of a running program. Functions, classes and instances are told apart by the stamp that
each is given when it is made; they hold all that never changes about them, so that only scopes and
the fields of instances live in the store.
-/

namespace LoxLang

abbrev ScopeId := Nat

/-- A function together with the scope in which its names are looked up. -/
structure Closure where
  stamp : Nat
  declaration : FunctionDecl
  scope : ScopeId
  isInitializer : Bool

def Closure.arity (closure : Closure) : Nat :=
  closure.declaration.params.length

/-- What one class declaration adds to the classes above it. -/
structure Layer where
  stamp : Nat
  name : String
  methods : Bindings Closure

/-- A class: its own layer, then those of its superclasses, nearest first. -/
structure ClassValue where
  own : Layer
  above : List Layer

namespace ClassValue

def layers (value : ClassValue) : List Layer :=
  value.own :: value.above

def superclass? (value : ClassValue) : Option ClassValue :=
  match value.above with
  | [] => none
  | own :: above => some ⟨own, above⟩

/-- The nearest method of that name. -/
def method? (value : ClassValue) (name : String) : Option Closure :=
  value.layers.findSome? (·.methods.get? name)

/-- The places that the search for a method takes: one for each layer that has none of that name, and one more. -/
def searched (value : ClassValue) (name : String) : Nat :=
  (value.layers.takeWhile (!·.methods.contains name)).length + 1

/-- Making an instance takes the arguments of the initializer, if there is one. -/
def arity (value : ClassValue) : Nat :=
  match value.method? "init" with
  | some initializer => initializer.arity
  | none => 0

end ClassValue

/-- An instance is told from others by its index, under which the store keeps its fields. -/
structure Instance where
  index : Nat
  kind : ClassValue

inductive Value where
  | nil
  | bool (value : Bool)
  | number (value : Float)
  | text (value : String)
  | function (closure : Closure)
  | class (value : ClassValue)
  | instance (value : Instance)
  | native (index : Nat)

namespace Value

def ofConstant : Constant → Value
  | .nil => .nil
  | .bool value => .bool value
  | .number value => .number value
  | .text value => .text value

/-- Everything is true but `nil` and `false`. -/
def isTruthy : Value → Bool
  | .nil => false
  | .bool value => value
  | _ => true

/-- Values of different sorts differ; numbers compare as numbers do, so that the one that is no number
differs from itself. -/
def isEqual : Value → Value → Bool
  | .nil, .nil => true
  | .bool left, .bool right => left == right
  | .number left, .number right => left == right
  | .text left, .text right => left == right
  | .function left, .function right => left.stamp == right.stamp
  | .class left, .class right => left.own.stamp == right.own.stamp
  | .instance left, .instance right => left.index == right.index
  | .native left, .native right => left == right
  | _, _ => false

end Value

end LoxLang
