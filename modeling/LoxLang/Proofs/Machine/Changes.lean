import Mathlib.Logic.Relation
import LoxLang.Proofs.Machine.Code

/-!
What a step changes in the store. Whatever is done, it is one change or a few, each of which comes from what the machine is
about to do: a statement declares its name, a variable is assigned, a method is bound to a receiver, a body is entered. So
what the store keeps through each of these changes it keeps through every step.
-/

namespace LoxLang

open Scoping

/-- The declaration of which the body is run when the value is called. -/
inductive Value.Runs : Value → FunctionDecl → Prop
  | function {closure : Closure} : Runs (.function closure) closure.declaration
  | initializer {kind : ClassValue} {method : Closure} :
      kind.method? "init" = some method → Runs (.class kind) method.declaration

namespace Machine

/-- A change in what was made of the machine's store so far; the machine has code of which `q` is true. -/
inductive Change (q : ScopeId → Node → Prop) (machine : Machine) : Store → Store → Prop
  | declare {stmt : Stmt} {name : Token} : q machine.scope (.stmt stmt) → stmt.declared? = some name →
      ∀ (store : Store) (value : Value), Change q machine store (store.define machine.scope name.lexeme value)
  | assign {use : NameUse} {part : Expr} {id : ScopeId} : q machine.scope (.expr (.assign use part)) →
      target machine.store.forest machine.scope use = .ok id →
      ∀ value : Value, Change q machine machine.store (machine.store.define id use.name.lexeme value)
  | block (store : Store) : Change q machine store (store.addScope machine.scope [])
  | superclass (store : Store) (kind : ClassValue) :
      Change q machine store (store.addScope machine.scope [("super", .class kind)])
  | receiver {method : Closure} {receiver : Value} : machine.Finds method receiver →
      ∀ store : Store, Change q machine store (store.addScope method.scope [("this", receiver)])
  | parameters {callee : Value} {arguments : List Value} {declaration : FunctionDecl} :
      machine.call? = some (callee, arguments) → callee.Runs declaration → ∀ (store : Store) (scope : ScopeId),
      Change q machine store (store.addScope scope ((declaration.params.map Token.lexeme).zip arguments))
  | instance (store : Store) : Change q machine store store.addInstance
  | field (store : Store) (index : Nat) (name : String) (value : Value) :
      Change q machine store (store.setField index name value)
  | print (store : Store) (line : String) : Change q machine store (store.print line)
  | stamps (store : Store) (count : Nat) : Change q machine store (store.takeStamps count)

def Changes (q : ScopeId → Node → Prop) (machine : Machine) : Store → Store → Prop :=
  Relation.ReflTransGen (machine.Change q)

variable {host : Host} {machine : Machine} {q : ScopeId → Node → Prop} {frames : List Frame} {scope : ScopeId}
  {height : Nat} {store : Store}

theorem Changes.refl (store : Store) : machine.Changes q store store :=
  Relation.ReflTransGen.refl

theorem Change.changes {before after : Store} (h : machine.Change q before after) : machine.Changes q before after :=
  .single h

/-! ## Calls and classes -/

theorem changes_bind {method : Closure} {receiver : Value} (finds : machine.Finds method receiver) (store : Store) :
    machine.Changes q store (bind store method receiver).2 :=
  (Change.receiver finds store).changes.tail (.stamps _ 1)

theorem changes_bindMethod {kind : ClassValue} {name : Token} {receiver : Value}
    (finds : ∀ method, kind.method? name.lexeme = some method → machine.Finds method receiver) (host : Host)
    (height : Nat) (store : Store) :
    machine.Changes q store (bindMethod host height store kind name receiver).2 := by
  rcases bindMethod_cases host height store kind name receiver with
    ⟨interruption, same⟩ | ⟨method, found, same⟩
  · rw [same]
    exact .refl _
  · rw [same]
    exact changes_bind (finds method found) store

theorem changes_call {callee : Value} {arguments : List Value}
    (calling : machine.call? = some (callee, arguments)) (host : Host) (paren : Token) (frames : List Frame)
    (scope : ScopeId) (height : Nat) :
    machine.Changes q machine.store
      (call host callee paren arguments frames scope height machine.store).store := by
  have called := called_call host callee paren arguments frames scope height machine.store
  generalize call host callee paren arguments frames scope height machine.store = next at called ⊢
  cases called with
  | fails | native => exact .refl _
  | function => exact (Change.parameters calling .function _ _).changes
  | @«class» kind =>
      have made : machine.Changes q machine.store machine.store.addInstance := (Change.instance _).changes
      cases init : kind.method? "init" with
      | none =>
          simp only [construct, init]
          exact made
      | some initializer =>
          rw [construct_of_init init]
          have bound := made.trans (changes_bind (q := q) (.initializer calling init) _)
          exact bound.tail (.parameters calling (.initializer init) _ _)

theorem changes_declareClass {name : Token} {use : Option NameUse} {methods : List FunctionDecl}
    (held : q machine.scope (.stmt (.class name use methods))) (superclass : Option ClassValue) (store : Store) :
    machine.Changes q store (declareClass store machine.scope name superclass methods) := by
  rw [declareClass_eq]
  have first : machine.Changes q store (store.define machine.scope name.lexeme .nil) :=
    (Change.declare held rfl _ _).changes
  have last (before : Store) (value : Value) : machine.Changes q before
      ((before.takeStamps (methods.length + 1)).define machine.scope name.lexeme value) :=
    (Change.stamps _ _).changes.tail (.declare held rfl _ _)
  cases superclass with
  | none => exact first.trans (last _ _)
  | some kind => exact (first.tail (.superclass _ kind)).trans (last _ _)

/-! ## Steps -/

theorem changes_eval (host : Host) (expr : Expr) :
    Changes q ⟨.eval expr, frames, scope, height, store⟩ store (eval host expr frames scope height store).store := by
  cases expr with
  | super keyword name =>
      simp only [eval]
      split
      · exact .refl _
      next superclass receiver holds =>
      exact changes_bindMethod (fun method found => .super rfl holds found) host _ _
  | _ => exact .refl _

theorem changes_exec {stmt : Stmt} (held : q scope (.stmt stmt)) :
    Changes q ⟨.exec stmt, frames, scope, height, store⟩ store (exec stmt frames scope height store).store := by
  cases stmt with
  | block statements => exact (Change.block _).changes
  | «class» name superclass methods =>
      cases superclass with
      | none => exact changes_declareClass held none store
      | some superclass => exact .refl _
  | function declaration => exact (Change.stamps _ 1).changes.tail (.declare held rfl _ _)
  | var name initializer =>
      cases initializer with
      | none => exact (Change.declare held rfl _ _).changes
      | some value => exact .refl _
  | «return» keyword value => cases value <;> exact .refl _
  | _ => exact .refl _

theorem changes_resumeValue (host : Host) {frame : Frame} {value : Value} (held : frame.Keeps (q scope)) :
    Changes q ⟨.value value, frame :: frames, scope, height, store⟩ store
      (step host ⟨.value value, frame :: frames, scope, height, store⟩).store := by
  cases frame with
  | assign use =>
      obtain ⟨part, held⟩ := held
      simp only [step, resumeValue]
      split
      · exact .refl _
      · next found => exact (Change.assign held found _).changes
  | callee paren arguments =>
      cases arguments with
      | nil => exact changes_call rfl host _ _ _ _
      | cons argument rest => exact .refl _
  | argument callee paren before after =>
      cases after with
      | nil => exact changes_call rfl host _ _ _ _
      | cons argument rest => exact .refl _
  | get name =>
      cases value with
      | «instance» object =>
          simp only [step, resumeValue]
          split
          · exact .refl _
          · next field => exact changes_bindMethod (fun method found => .get rfl rfl field found) host _ _
      | _ => exact .refl _
  | setValue object name => exact (Change.field _ _ _ _).changes
  | print => exact (Change.print _ _).changes
  | var name =>
      obtain ⟨initializer, held⟩ := held
      exact (Change.declare held rfl _ _).changes
  | superclass name token methods =>
      obtain ⟨use, held⟩ := held
      cases value with
      | «class» kind =>
          exact changes_declareClass held (some kind) store
      | _ => exact .refl _
  | setObject name part => cases value <;> exact .refl _
  | logicalLeft | whileCondition =>
      simp only [step, resumeValue]
      split <;> exact .refl _
  | ifCondition thenBranch elseBranch =>
      simp only [step, resumeValue]
      split
      · exact .refl _
      · cases elseBranch <;> exact .refl _
  | _ => exact .refl _

theorem store_resumeDone (frame : Frame) (completion : Completion) :
    (resumeDone frame completion frames scope height store).store = store := by
  cases frame with
  | block rest outer =>
      cases rest with
      | nil => rfl
      | cons stmt rest => cases completion <;> rfl
  | whileBody condition body increment => cases completion <;> cases increment <;> rfl
  | program rest => cases rest <;> rfl
  | _ => rfl

/-- All that a step does to the store comes from the code of the machine and from what it is about to do. -/
theorem changes_step (host : Host) (h : machine.Codes q) :
    machine.Changes q machine.store (step host machine).store := by
  obtain ⟨control, frames, scope, height, store⟩ := machine
  obtain ⟨held, hframes⟩ := h
  cases control with
  | eval expr =>
      simp only [step]
      split
      · exact .refl _
      · exact changes_eval host expr
  | exec stmt =>
      simp only [step]
      split
      · exact .refl _
      · exact changes_exec held
  | value value =>
      cases frames with
      | nil => exact .refl _
      | cons frame frames => exact changes_resumeValue host hframes.1
  | done completion =>
      cases frames with
      | nil => exact .refl _
      | cons frame frames =>
          have same : (resumeDone frame completion frames scope (height - frame.height) store).store = store :=
            store_resumeDone frame completion
          change Changes q _ store (resumeDone frame completion frames scope (height - frame.height) store).store
          rw [same]
          exact .refl _
  | failed interruption => cases frames <;> exact .refl _

end Machine

end LoxLang
