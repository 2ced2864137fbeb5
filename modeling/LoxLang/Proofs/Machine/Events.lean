import LoxLang.Proofs.Machine.Calling
import LoxLang.Proofs.Store.Keywords

/-!
What a step does beyond moving values: it calls, it binds a method to a receiver, or it runs a class statement
to its end.
-/

namespace LoxLang

namespace Machine

variable {host : Host} {machine : Machine}

/-! ## Calls -/

/-- The callee and arguments of a call that is next. -/
def call? : Machine → Option (Value × List Value)
  | ⟨.value callee, .callee _ [] :: _, _, _, _⟩ => some (callee, [])
  | ⟨.value last, .argument callee _ before [] :: _, _, _, _⟩ =>
      some (callee, (last :: before).reverse)
  | _ => none

theorem step_of_call? {callee : Value} {arguments : List Value}
    (h : machine.call? = some (callee, arguments)) (host : Host) :
    ∃ paren height, step host machine =
      call host callee paren arguments machine.frames.tail machine.scope height machine.store := by
  unfold call? at h
  split at h
  · cases h
    exact ⟨_, _, rfl⟩
  · cases h
    exact ⟨_, _, rfl⟩
  · cases h

/-! ## Methods -/

/-- What `super` and `this` stand for is looked up at the distance that the word is marked with. -/
theorem of_superReceiver {forest : Forest} {scope : ScopeId} {keyword : NameUse} {superclass : ClassValue}
    {receiver : Value} (found : superReceiver forest scope keyword = .ok (superclass, receiver)) :
    ∃ hops : Nat, keyword.hops = some hops ∧ forest.getAt scope hops "super" = .ok (.class superclass) ∧
      forest.getAt scope ((hops : Int) - 1) "this" = .ok receiver := by
  unfold superReceiver at found
  split at found
  · cases found
  next hops marked =>
  cases atSuper : forest.getAt scope hops "super" with
  | error _ =>
      rw [atSuper] at found
      cases found
  | ok value =>
      rw [atSuper] at found
      cases atThis : forest.getAt scope ((hops : Int) - 1) "this" with
      | error _ =>
          rw [atThis] at found
          cases found
      | ok this =>
          rw [atThis] at found
          cases value with
          | «class» kind =>
              cases found
              exact ⟨hops, marked, atSuper, atThis⟩
          | _ => cases found

/-- The next step looks the method up for the receiver. -/
inductive Finds (machine : Machine) : Closure → Value → Prop
  | get {object : Instance} {name : Token} {frames : List Frame} {method : Closure} :
      machine.control = .value (.instance object) → machine.frames = .get name :: frames →
      machine.store.field? object.index name.lexeme = none →
      object.kind.method? name.lexeme = some method → Finds machine method (.instance object)
  | initializer {kind : ClassValue} {arguments : List Value} {method : Closure} :
      machine.call? = some (.class kind, arguments) → kind.method? "init" = some method →
      Finds machine method (.instance ⟨machine.store.fields.size, kind⟩)
  | super {keyword : NameUse} {name : Token} {superclass : ClassValue} {receiver : Value}
      {method : Closure} :
      machine.control = .eval (.super keyword name) →
      superReceiver machine.store.forest machine.scope keyword = .ok (superclass, receiver) →
      superclass.method? name.lexeme = some method → Finds machine method receiver

/-- The next step binds the method to the receiver: it makes the scope in which that is `this`. -/
structure Binds (host : Host) (machine : Machine) (method : Closure) (receiver : Value) :
    Prop where
  finds : machine.Finds method receiver
  scope : machine.store.forest.next < (step host machine).store.forest.next

/-- A method is found and bound, or there is an error and nothing is made. -/
theorem bindMethod_cases (host : Host) (height : Nat) (store : Store) (kind : ClassValue)
    (name : Token) (receiver : Value) :
    (∃ interruption, bindMethod host height store kind name receiver =
      (.failed interruption, store)) ∨
    ∃ method, kind.method? name.lexeme = some method ∧
      bindMethod host height store kind name receiver =
        (.value (.function (bind store method receiver).1), (bind store method receiver).2) := by
  unfold bindMethod
  split
  · exact .inl ⟨_, rfl⟩
  · split
    · exact .inl ⟨_, rfl⟩
    · next method found => exact .inr ⟨method, found, rfl⟩

theorem bindMethod_of_full {height : Nat} {kind : ClassValue} {name : Token}
    (full : host.heightLimit < height + kind.searched name.lexeme) (store : Store) (receiver : Value) :
    bindMethod host height store kind name receiver = (.failed .stackOverflow, store) := by
  rw [bindMethod, if_pos full]

theorem bindMethod_of_room {height : Nat} {kind : ClassValue} {name : Token}
    (room : ¬ host.heightLimit < height + kind.searched name.lexeme) (store : Store) (receiver : Value) :
    bindMethod host height store kind name receiver =
      match kind.method? name.lexeme with
      | none => (.failed (.located name (.undefinedProperty name.lexeme)), store)
      | some method => (.value (.function (bind store method receiver).1), (bind store method receiver).2) := by
  unfold bindMethod
  exact if_neg room

theorem bindMethod_of_method? {height : Nat} {store : Store} {kind : ClassValue} {name : Token}
    {method : Closure} (found : kind.method? name.lexeme = some method) (receiver : Value)
    (made : store.forest.next < (bindMethod host height store kind name receiver).2.forest.next) :
    bindMethod host height store kind name receiver =
      (.value (.function (bind store method receiver).1), (bind store method receiver).2) := by
  unfold bindMethod at made ⊢
  split at made
  · exact absurd made (Nat.lt_irrefl _)
  · next room =>
    rw [if_neg room]
    simp only [found]

/-- Where the stack is not full, `super` is looked up in the class that it stands for. -/
theorem step_super {keyword : NameUse} {name : Token} {superclass : ClassValue}
    {receiver : Value} (control : machine.control = .eval (.super keyword name))
    (holds : superReceiver machine.store.forest machine.scope keyword = .ok (superclass, receiver))
    (room : machine.height < host.heightLimit) :
    step host machine =
      ⟨(bindMethod host machine.height machine.store superclass name receiver).1, machine.frames,
        machine.scope, machine.height,
        (bindMethod host machine.height machine.store superclass name receiver).2⟩ := by
  obtain ⟨_, frames, scope, height, store⟩ := machine
  cases control
  change superReceiver store.forest scope keyword = .ok (superclass, receiver) at holds
  simp only [step, eval, holds]
  exact if_neg (Nat.not_le.mpr room)

theorem step_get (host : Host) {object : Instance} {name : Token} {frames : List Frame}
    (control : machine.control = .value (.instance object))
    (hframes : machine.frames = .get name :: frames)
    (field : machine.store.field? object.index name.lexeme = none) :
    step host machine =
      ⟨(bindMethod host (machine.height - 1) machine.store object.kind name (.instance object)).1,
        frames, machine.scope, machine.height - 1,
        (bindMethod host (machine.height - 1) machine.store object.kind name (.instance object)).2⟩ := by
  obtain ⟨_, _, scope, height, store⟩ := machine
  cases control
  cases hframes
  change store.field? object.index name.lexeme = none at field
  simp only [step, resumeValue, field]
  rfl

/-- A stack that is full lets no scope be made. -/
theorem room_of_made {expr : Expr} (control : machine.control = .eval expr)
    (made : machine.store.forest.next < (step host machine).store.forest.next) :
    machine.height < host.heightLimit := by
  obtain ⟨_, frames, scope, height, store⟩ := machine
  cases control
  simp only [step] at made
  split at made
  · exact absurd made (Nat.lt_irrefl _)
  · next room => exact Nat.not_le.mp room

theorem bindsThis_of_binds {method : Closure} {receiver : Value}
    (h : machine.Binds host method receiver) :
    (step host machine).store.forest.BindsThis machine.store.forest.next method receiver := by
  obtain ⟨finds, made⟩ := h
  cases finds with
  | @get object name frames _ control hframes field found =>
      rw [step_get host control hframes field] at made ⊢
      rw [bindMethod_of_method? found _ made]
      exact Forest.bindsThis_add _ _ _
  | @initializer kind arguments _ calling found =>
      obtain ⟨paren, height, same⟩ := step_of_call? calling host
      rw [same] at made ⊢
      have called :=
        called_call host (.class kind) paren arguments machine.frames.tail machine.scope height machine.store
      generalize call host (.class kind) paren arguments machine.frames.tail machine.scope height machine.store = next
        at called made ⊢
      cases called with
      | fails error => exact absurd made (Nat.lt_irrefl _)
      | «class» =>
          rw [construct_of_init found]
          exact (Forest.bindsThis_add _ _ _).later (.add _ _ _)
  | @super keyword name superclass _ _ control holds found =>
      have room := room_of_made control made
      rw [step_super control holds room] at made ⊢
      rw [bindMethod_of_method? found _ made]
      exact Forest.bindsThis_add _ _ _

/-! ## Classes -/

/-- The next step runs a class statement to its end; the superclass is known, if there is one. -/
inductive Declares (host : Host) (machine : Machine) :
    Token → Option ClassValue → List FunctionDecl → Prop
  | base {name : Token} {methods : List FunctionDecl} :
      machine.control = .exec (.class name none methods) → machine.height < host.heightLimit →
      Declares host machine name none methods
  | derived {name token : Token} {superclass : ClassValue} {methods : List FunctionDecl}
      {frames : List Frame} :
      machine.control = .value (.class superclass) →
      machine.frames = .superclass name token methods :: frames →
      Declares host machine name (some superclass) methods

end Machine

/-- The scope in which the names of a class's methods are looked up. -/
def Store.methodScope (store : Store) (scope : ScopeId) : Option ClassValue → ScopeId
  | none => scope
  | some _ => store.forest.next

/-- The class that a class statement makes. -/
def Store.classMade (store : Store) (scope : ScopeId) (name : Token)
    (superclass : Option ClassValue) (methods : List FunctionDecl) : ClassValue where
  own := ⟨store.stamp, name.lexeme,
    Machine.methodTable (store.stamp + 1) (store.methodScope scope superclass) methods⟩
  above := (superclass.map ClassValue.layers).getD []

namespace Machine

theorem declareClass_eq (store : Store) (scope : ScopeId) (name : Token)
    (superclass : Option ClassValue) (methods : List FunctionDecl) :
    declareClass store scope name superclass methods =
      (Store.takeStamps (match superclass with
        | none => store.define scope name.lexeme .nil
        | some kind =>
            (store.define scope name.lexeme .nil).addScope scope [("super", .class kind)])
        (methods.length + 1)).define scope name.lexeme
          (.class (store.classMade scope name superclass methods)) := by
  cases superclass with
  | none => rfl
  | some kind =>
      have next : (store.define scope name.lexeme .nil).forest.next = store.forest.next :=
        Forest.next_define _ _ _ _
      simp only [declareClass, Store.classMade, Store.methodScope, next]
      rfl

theorem bindsSuper_of_declares {name : Token} {superclass : ClassValue}
    {methods : List FunctionDecl} (names : name.Names)
    (h : machine.Declares host name (some superclass) methods) :
    (step host machine).store.forest.BindsSuper machine.store.forest.next machine.scope
      superclass := by
  cases h with
  | derived control frames =>
      obtain ⟨_, _, scope, height, store⟩ := machine
      cases control
      cases frames
      change (declareClass store scope name (some superclass) methods).forest.BindsSuper _ _ _
      rw [declareClass_eq]
      have next : (store.forest.define scope name.lexeme .nil).next = store.forest.next :=
        Forest.next_define _ _ _ _
      rw [← next]
      exact (Forest.bindsSuper_add _ _ _).later (.define _ _ names _)

end Machine

end LoxLang
