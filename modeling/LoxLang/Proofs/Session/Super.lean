import LoxLang.Proofs.Session.Receivers

/-!
What `super` and `this` stand for. Wherever a method ends up, `super` is looked up in the class that was the
superclass when the class of the method was made, and both are about the receiver that the method was bound to.
-/

namespace LoxLang

open Scoping

namespace Forest

variable {forest : Forest} {scope outer : ScopeId} {count : Nat} {name : String} {value : Value}

theorem ancestor?_succ (h : forest.ancestor? scope count = some outer) :
    forest.ancestor? scope (count + 1) = forest.enclosing? outer := by
  induction count generalizing scope with
  | zero =>
      cases h
      rw [ancestor?]
      cases link : forest.enclosing? outer <;> rfl
  | succ count ih =>
      cases link : forest.enclosing? scope with
      | none =>
          rw [ancestor?, link] at h
          cases h
      | some next =>
          rw [ancestor?, link] at h
          have rest := ih h
          rw [ancestor?, link]
          exact rest

theorem getAt_of_ancestor? (walk : forest.ancestor? scope count = some outer)
    (found : (forest.bindings outer).get? name = some value) :
    forest.getAt scope (count : Int) name = .ok value :=
  getAt_of_get? (ancestor_of_ancestor? walk) found

end Forest

variable {programs : List (List Stmt)} {past : List Moment} {machine : Machine} {host : Host}
  {forest : Forest} {scope : ScopeId} {node : Node} {binding : Binding programs past}

/-! ## Bindings -/

theorem Traced.bindsThis (h : Traced programs past machine) (binding : Binding programs past) :
    machine.store.forest.BindsThis binding.scope binding.method binding.receiver :=
  (Machine.bindsThis_of_binds binding.binds).later (h.memory binding.moment binding.member)

theorem Traced.bindsSuper (h : Traced programs past machine) (suited : AllSuited programs)
    (binding : Binding programs past) {superclass : ClassValue}
    (derived : binding.run.superclass = some superclass) :
    machine.store.forest.BindsSuper binding.method.scope binding.run.moment.machine.scope
      superclass := by
  have scope := binding.own.place.2
  have declares := binding.run.declares
  rw [derived] at scope declares
  obtain ⟨around, place⟩ := suited _ binding.run.stands
  have names : binding.run.name.Names := Scoping.Suited.names place.node rfl
  rw [scope]
  exact (Machine.bindsSuper_of_declares names declares).later
    (h.memory binding.run.moment binding.run.member)

/-- The code lies in the method, not in a class within it, and runs for that receiver. -/
def Binding.Around (binding : Binding programs past) (forest : Forest) (scope : ScopeId)
    (node : Node) : Prop :=
  Inner forest binding.scope (.function binding.method.declaration) scope node

/-- Code that stands in classes only lies in a method that was bound. -/
theorem Grounded.around (h : Grounded programs past forest scope node)
    (inside : ∀ regions, StandsIn programs ⟨regions, node⟩ → regions.inClass ≠ .none) :
    ∃ binding : Binding programs past, binding.Around forest scope node := by
  obtain ⟨start, origin, root, inner⟩ := h
  cases root with
  | method binding => exact ⟨binding, inner⟩
  | program member =>
      obtain ⟨here, count, stands, shape, -⟩ := inner.stands ⟨_, member, .refl⟩
      have outside : here.inClass = .none := by
        rw [Regions.inClass_eq_classOf, shape, Regions.classOf_blocks]
        rfl
      exact absurd outside (inside here stands)

/-- Code in a method stands behind some blocks, as many as there are scopes up to that of the receiver. -/
theorem Binding.Around.stands (h : binding.Around forest scope node) :
    ∃ regions count, StandsIn programs ⟨regions, node⟩ ∧
      regions.shape = List.replicate count .block ++
        ((binding.run.regions.hold binding.run.name.lexeme).ofMethods binding.run.clause).shape ∧
      forest.ancestor? scope count = some binding.scope :=
  Inner.stands h binding.own.place.1

/-! ## Lookup -/

theorem Scoping.Regions.shape_ofMethods (regions : Regions) (clause : Option NameUse) :
    ∃ outer, (regions.ofMethods clause).shape = .receiver :: outer := by
  cases clause <;> exact ⟨_, rfl⟩

theorem lookup_this (traced : Traced programs past machine)
    (settled : Session.Settled programs machine) {keyword : NameUse}
    (around : binding.Around machine.store.forest machine.scope (.expr (.this keyword))) :
    Machine.lookup machine.store.forest machine.scope keyword = .ok binding.receiver := by
  obtain ⟨regions, count, stands, shape, walk⟩ := around.stands
  obtain ⟨surroundings, place⟩ := settled.suited _ stands
  obtain ⟨lexeme, -⟩ := Expr.Suited.suits place.node
  obtain ⟨outer, methods⟩ := Regions.shape_ofMethods
    (binding.run.regions.hold binding.run.name.lexeme) binding.run.clause
  rw [methods] at shape
  have finds : regions.Finds keyword.name.lexeme count := by
    rw [lexeme]
    exact place.plain.finds_this shape
  have hops : keyword.hops = some count :=
    (settled.located _ stands keyword List.mem_cons_self count).mpr finds
  rw [Machine.lookup, hops, lexeme]
  exact Forest.getAt_of_ancestor? walk (traced.bindsThis binding).this

/-- In a method where `super` is allowed its scope is the one around that of the receiver. -/
theorem superReceiver_super (traced : Traced programs past machine)
    (settled : Session.Settled programs machine) {keyword : NameUse} {name : Token}
    (around : binding.Around machine.store.forest machine.scope (.expr (.super keyword name))) :
    ∃ superclass, binding.run.superclass = some superclass ∧
      Machine.superReceiver machine.store.forest machine.scope keyword =
        .ok (superclass, binding.receiver) := by
  obtain ⟨regions, count, stands, shape, walk⟩ := around.stands
  obtain ⟨surroundings, place⟩ := settled.suited _ stands
  obtain ⟨lexeme, derived⟩ := Expr.Suited.suits place.node
  have isDerived : ClassContext.ofClause binding.run.clause = .derived := by
    obtain ⟨_, whole⟩ := settled.suited _ binding.run.stands
    rw [← ((whole.isOpen nofun).hold _).inClass_ofMethods, Regions.inClass_eq_classOf,
      ← Regions.classOf_blocks count, ← shape, ← Regions.inClass_eq_classOf, place.inClass]
    exact derived
  cases clause : binding.run.clause with
  | none =>
      rw [clause] at isDerived
      cases isDerived
  | some use =>
      rw [clause] at shape
      obtain ⟨superclass, found⟩ : ∃ superclass, binding.run.superclass = some superclass := by
        apply Option.isSome_iff_exists.mp
        rw [← binding.run.derived, clause]
        rfl
      have finds : regions.Finds keyword.name.lexeme (count + 1) := by
        rw [lexeme]
        exact place.plain.finds_super shape
      have hops : keyword.hops = some (count + 1) :=
        (settled.located _ stands keyword List.mem_cons_self (count + 1)).mpr finds
      have this := traced.bindsThis binding
      have super := traced.bindsSuper settled.suited binding found
      have further : machine.store.forest.ancestor? machine.scope (count + 1) =
          some binding.method.scope := by
        rw [Forest.ancestor?_succ walk, this.enclosing]
      have atSuper := Forest.getAt_of_ancestor? further super.super
      have atThis := Forest.getAt_of_ancestor? walk this.this
      have inner : ((count + 1 : Nat) : Int) - 1 = count := by omega
      refine ⟨superclass, found, ?_⟩
      simp only [Machine.superReceiver, hops, inner, atSuper, atThis]
      rfl

/-! ## Outcomes -/

/-- The nearest layer with a method of that name has this one. -/
def ClassValue.Supplies (kind : ClassValue) (name : String) (method : Closure) : Prop :=
  ∃ below layer above, kind.layers = below ++ layer :: above ∧
    layer.methods.get? name = some method ∧ ∀ other ∈ below, other.methods.get? name = none

def ClassValue.Lacks (kind : ClassValue) (name : String) : Prop :=
  ∀ layer ∈ kind.layers, layer.methods.get? name = none

/-- The stack has no place for the next expression, or for the search in the layers of the class. -/
def Machine.Full (host : Host) (machine : Machine) (kind : ClassValue) (name : Token) : Prop :=
  host.heightLimit ≤ machine.height ∨ host.heightLimit < machine.height + kind.searched name.lexeme

/-- The next step gets the method from that class, bound to the receiver; it is an error if and only if the class
lacks it, or the stack is full. -/
structure Machine.Gets (host : Host) (machine : Machine) (kind : ClassValue) (name : Token)
    (receiver : Value) : Prop where
  full : machine.Full host kind name → (machine.step host).control = .failed .stackOverflow
  supplied : ¬ machine.Full host kind name → ∀ method, kind.Supplies name.lexeme method →
    ∃ bound : Closure, (machine.step host).control = .value (.function bound) ∧
      bound.declaration = method.declaration ∧ bound.isInitializer = method.isInitializer ∧
      (machine.step host).store.forest.BindsThis bound.scope method receiver
  lacked : ¬ machine.Full host kind name →
    ((machine.step host).control = .failed (.located name (.undefinedProperty name.lexeme)) ↔
      kind.Lacks name.lexeme)

theorem ClassValue.method?_eq_some_iff {kind : ClassValue} {name : String} {method : Closure} :
    kind.method? name = some method ↔ kind.Supplies name method :=
  List.findSome?_eq_some_iff

theorem ClassValue.method?_eq_none_iff {kind : ClassValue} {name : String} :
    kind.method? name = none ↔ kind.Lacks name :=
  List.findSome?_eq_none_iff

theorem Machine.control_of_full {expr : Expr} (control : machine.control = .eval expr)
    (full : host.heightLimit ≤ machine.height) :
    (machine.step host).control = .failed .stackOverflow := by
  obtain ⟨_, frames, scope, height, store⟩ := machine
  cases control
  change host.heightLimit ≤ height at full
  rw [step, if_pos full]

theorem Machine.gets_super (host : Host) {keyword : NameUse} {name : Token}
    {superclass : ClassValue} {receiver : Value}
    (control : machine.control = .eval (.super keyword name))
    (holds : superReceiver machine.store.forest machine.scope keyword =
      .ok (superclass, receiver)) :
    machine.Gets host superclass name receiver := by
  by_cases room : machine.height < host.heightLimit
  · have step := step_super control holds room
    constructor
    · intro full
      have search := full.resolve_left (Nat.not_le.mpr room)
      rw [step, bindMethod_of_full search]
    · intro roomy method supplies
      have search : ¬ host.heightLimit < machine.height + superclass.searched name.lexeme :=
        fun long => roomy (.inr long)
      have found := ClassValue.method?_eq_some_iff.mpr supplies
      rw [step, bindMethod_of_room search, found]
      exact ⟨_, rfl, rfl, rfl, Forest.bindsThis_add _ _ _⟩
    · intro roomy
      have search : ¬ host.heightLimit < machine.height + superclass.searched name.lexeme :=
        fun long => roomy (.inr long)
      rw [← ClassValue.method?_eq_none_iff, step, bindMethod_of_room search]
      cases found : superclass.method? name.lexeme with
      | none => exact ⟨fun _ => rfl, fun _ => rfl⟩
      | some method => exact ⟨nofun, nofun⟩
  · have full : machine.Full host superclass name := .inl (Nat.not_lt.mp room)
    exact ⟨fun _ => control_of_full control (Nat.not_lt.mp room), fun roomy => absurd full roomy,
      fun roomy => absurd full roomy⟩

theorem Machine.control_of_this {keyword : NameUse} {receiver : Value}
    (control : machine.control = .eval (.this keyword))
    (holds : lookup machine.store.forest machine.scope keyword = .ok receiver)
    (room : machine.height < host.heightLimit) :
    (machine.step host).control = .value receiver := by
  obtain ⟨_, frames, scope, height, store⟩ := machine
  cases control
  change lookup store.forest scope keyword = .ok receiver at holds
  change height < host.heightLimit at room
  rw [step, if_neg (Nat.not_le.mpr room), eval, holds]
  rfl

namespace Session

/-- Wherever `super` and `this` are evaluated in the course of a session, they stand in a method of a class that a
class statement made, outside the classes within it, and the scopes lead to the one in which that method was
bound to its receiver. There `super` gets methods from the class that was the superclass when the
class statement was run, for that receiver, and `this` is that receiver. -/
theorem super_stays {natives : List Native} (passive : ∀ native ∈ natives, native.Passive)
    (course : Course natives programs past machine) :
    (∀ keyword name, machine.control = .eval (.super keyword name) →
      ∃ (binding : Binding programs past) (superclass : ClassValue),
        binding.run.superclass = some superclass ∧
        binding.Around machine.store.forest machine.scope (.expr (.super keyword name)) ∧
        machine.store.forest.BindsThis binding.scope binding.method binding.receiver ∧
        ∀ host, machine.Gets host superclass name binding.receiver) ∧
    ∀ keyword, machine.control = .eval (.this keyword) →
      ∃ binding : Binding programs past,
        binding.Around machine.store.forest machine.scope (.expr (.this keyword)) ∧
        machine.store.forest.BindsThis binding.scope binding.method binding.receiver ∧
        ∀ host, (machine.step host).control =
          if machine.height < host.heightLimit then .value binding.receiver
          else .failed .stackOverflow := by
  have settled := course.settled fun native member => (passive native member).sound
  have traced := course.traced passive
  have held {expr : Expr} (control : machine.control = .eval expr) :
      Grounded programs past machine.store.forest machine.scope (.expr expr) := by
    have code := traced.codes.control
    rw [control] at code
    exact code
  constructor
  · intro keyword name control
    have inside (regions : Regions)
        (stands : StandsIn programs ⟨regions, .expr (.super keyword name)⟩) :
        regions.inClass ≠ .none := by
      obtain ⟨surroundings, place⟩ := settled.suited _ stands
      obtain ⟨-, derived⟩ := Expr.Suited.suits place.node
      rw [place.inClass, derived]
      exact nofun
    obtain ⟨binding, around⟩ := (held control).around inside
    obtain ⟨superclass, found, holds⟩ := superReceiver_super traced settled around
    exact ⟨binding, superclass, found, around, traced.bindsThis binding,
      fun host => Machine.gets_super host control holds⟩
  · intro keyword control
    have inside (regions : Regions)
        (stands : StandsIn programs ⟨regions, .expr (.this keyword)⟩) :
        regions.inClass ≠ .none := by
      obtain ⟨surroundings, place⟩ := settled.suited _ stands
      obtain ⟨-, some⟩ := Expr.Suited.suits place.node
      rw [place.inClass]
      exact some
    obtain ⟨binding, around⟩ := (held control).around inside
    refine ⟨binding, around, traced.bindsThis binding, fun host => ?_⟩
    split
    · next room => exact Machine.control_of_this control (lookup_this traced settled around) room
    · next full => exact Machine.control_of_full control (Nat.not_lt.mp full)

/-- A method of a superclass that is called from the one in its place. -/
def superSource : String :=
  "class A \x7bm() \x7b\x7d\x7d class B < A \x7bm() \x7bsuper.m();\x7d\x7d B().m();"

def supers? (machine : Machine) : Option (NameUse × Token) :=
  match machine.control with
  | .eval (.super keyword name) => some (keyword, name)
  | _ => none

theorem control_of_supers? {keyword : NameUse} {name : Token}
    (h : supers? machine = some (keyword, name)) :
    machine.control = .eval (.super keyword name) := by
  unfold supers? at h
  split at h
  · next control =>
    cases h
    exact control
  · cases h

theorem super_stays_above :
    ∃ programs past machine keyword name, Course [] programs past machine ∧
      machine.control = .eval (.super keyword name) ∧
      ∃ (binding : Binding programs past) (superclass : ClassValue),
        binding.run.superclass = some superclass ∧
        ∀ host, machine.Gets host superclass name binding.receiver := by
  let host : Host := ⟨(start []).natives, 40, 0⟩
  let after (statements : List Stmt) : Machine :=
    .advance host 18 (.load statements (start []).store)
  have reaches : ((prepare 40 superSource).toOption.bind (supers? ∘ after)).isSome = true := by
    decide +kernel
  obtain ⟨⟨keyword, name⟩, atSuper⟩ := Option.isSome_iff_exists.mp reaches
  obtain ⟨statements, prepared, found⟩ := Option.bind_eq_some_iff.mp atSuper
  have accepted := eq_ok_of_toOption prepared
  have runs : (start []).Runs 40 statements (after statements) := Runs.load.advance 0 18
  have control := control_of_supers? found
  obtain ⟨past, course⟩ := Reached.start.course accepted runs
  have passive : ∀ native ∈ ([] : List Native), native.Passive := nofun
  obtain ⟨supers, -⟩ := super_stays passive course
  obtain ⟨binding, superclass, above, -, -, gets⟩ := supers keyword name control
  exact ⟨_, past, _, keyword, name, course, control, binding, superclass, above, gets⟩

end Session

end LoxLang
