import LoxLang.Interruption
import LoxLang.Value.Basic

/-!
The scopes of a running program. Each scope but the outermost ones is enclosed by one made before it,
so the scopes form a forest. A name is found either by search, from a scope outwards to the nearest
one that holds it, or at a given distance.
-/

namespace LoxLang

structure Scope where
  bindings : Bindings Value
  enclosing : Option ScopeId

structure Forest where
  scopes : Array Scope

namespace Forest

/-- The forest of one empty scope. -/
def single : Forest :=
  ⟨#[⟨.empty, none⟩]⟩

/-- The outermost scope of a session, which is made first. -/
def globals : ScopeId := 0

/-- The scope that is made next. -/
def next (forest : Forest) : ScopeId :=
  forest.scopes.size

def add : Forest → Option ScopeId → Bindings Value → Forest
  | ⟨scopes⟩, enclosing, bindings => ⟨scopes.push ⟨bindings, enclosing⟩⟩

/-- Binds a name in a scope, whether or not it is bound there already. -/
def define : Forest → ScopeId → String → Value → Forest
  | ⟨scopes⟩, id, name, value =>
      ⟨scopes.modify id fun ⟨bindings, enclosing⟩ => ⟨bindings.set name value, enclosing⟩⟩

def bindings (forest : Forest) (id : ScopeId) : Bindings Value :=
  match forest.scopes[id]? with
  | some scope => scope.bindings
  | none => .empty

def enclosing? (forest : Forest) (id : ScopeId) : Option ScopeId :=
  forest.scopes[id]? >>= Scope.enclosing

@[simp] theorem next_define (forest : Forest) (id : ScopeId) (name : String) (value : Value) :
    (forest.define id name value).next = forest.next := by
  simp [next, define]

@[simp] theorem next_add (forest : Forest) (enclosing : Option ScopeId)
    (bindings : Bindings Value) : (forest.add enclosing bindings).next = forest.next + 1 := by
  simp [next, add]

/-- A definition changes the bindings of one scope. -/
theorem bindings_define (forest : Forest) (id other : ScopeId) (name : String) (value : Value) :
    (forest.define id name value).bindings other =
      if other = id ∧ id < forest.next then (forest.bindings id).set name value
      else forest.bindings other := by
  by_cases h : other = id
  · subst h
    by_cases hlt : other < forest.scopes.size
    · simp [bindings, define, next, hlt, Array.getElem_modify]
    · simp [bindings, define, next, hlt]
  · simp [bindings, define, Array.getElem?_modify, h, Ne.symm h]

@[simp] theorem enclosing?_define (forest : Forest) (id other : ScopeId) (name : String)
    (value : Value) :
    (forest.define id name value).enclosing? other = forest.enclosing? other := by
  by_cases h : id = other
  · subst h
    cases hscope : forest.scopes[id]? <;>
      simp [enclosing?, define, Array.getElem?_modify, hscope]
  · simp [enclosing?, define, Array.getElem?_modify, h]

theorem bindings_add (forest : Forest) (enclosing : Option ScopeId) (bindings : Bindings Value)
    (id : ScopeId) :
    (forest.add enclosing bindings).bindings id =
      if id = forest.next then bindings else forest.bindings id := by
  by_cases h : id = forest.next
  · simp_all [Forest.bindings, add, next]
  · have hne : id ≠ forest.scopes.size := h
    simp [Forest.bindings, add, Array.getElem?_push, hne, h]

theorem enclosing?_add (forest : Forest) (enclosing : Option ScopeId)
    (bindings : Bindings Value) (id : ScopeId) :
    (forest.add enclosing bindings).enclosing? id =
      if id = forest.next then enclosing else forest.enclosing? id := by
  by_cases h : id = forest.next
  · simp_all [enclosing?, add, next]
  · have hne : id ≠ forest.scopes.size := h
    simp [enclosing?, add, Array.getElem?_push, hne, h]

/-- The nearest scope that holds the name, from `id` outwards. -/
def holder? (forest : Forest) (name : String) (id : ScopeId) : Option ScopeId :=
  if (forest.bindings id).contains name then some id
  else match forest.enclosing? id with
    | none => none
    | some outer => if outer < id then holder? forest name outer else none
termination_by id

/-- The scope that many links outwards. -/
def ancestor? (forest : Forest) (id : ScopeId) : (distance : Nat) → Option ScopeId
  | 0 => some id
  | distance + 1 =>
      match forest.enclosing? id with
      | none => none
      | some outer => ancestor? forest outer distance

/-- The scope at a distance, where a distance below zero counts as zero. -/
def ancestor (forest : Forest) (id : ScopeId) (distance : Int) : Except Interruption ScopeId :=
  match forest.ancestor? id distance.toNat with
  | some outer => .ok outer
  | none => .error (.fault (.chainTooShort distance))

def undefinedVariable (name : Token) : Interruption :=
  .located name (.undefinedVariable name.lexeme)

def find (forest : Forest) (id : ScopeId) (name : Token) : Except Interruption ScopeId :=
  match forest.holder? name.lexeme id with
  | some holder => .ok holder
  | none => .error (undefinedVariable name)

def findAt (forest : Forest) (id : ScopeId) (distance : Int) (name : Token) :
    Except Interruption ScopeId := do
  let outer ← forest.ancestor id distance
  if (forest.bindings outer).contains name.lexeme then return outer
  else throw (undefinedVariable name)

def get (forest : Forest) (id : ScopeId) (name : Token) : Except Interruption Value := do
  let holder ← forest.find id name
  match (forest.bindings holder).get? name.lexeme with
  | some value => return value
  | none => throw (undefinedVariable name)

def getAt (forest : Forest) (id : ScopeId) (distance : Int) (name : String) :
    Except Interruption Value := do
  let outer ← forest.ancestor id distance
  match (forest.bindings outer).get? name with
  | some value => return value
  | none => throw (.fault (.notDefinedThere name distance))

def assign (forest : Forest) (id : ScopeId) (name : Token) (value : Value) :
    Except Interruption Forest := do
  return forest.define (← forest.find id name) name.lexeme value

def assignAt (forest : Forest) (id : ScopeId) (distance : Int) (name : Token) (value : Value) :
    Except Interruption Forest := do
  return forest.define (← forest.findAt id distance name) name.lexeme value

end Forest

end LoxLang
