import LoxLang.Proofs.Machine.Entries
import LoxLang.Proofs.Machine.Receivers
import LoxLang.Proofs.Session.Receivers

/-!
Calls in sessions whose statements were read from texts, whether they are marked or not. What is called gets as many
arguments as it declares parameters, and an initializer yields the instance that it is bound to.
-/

namespace LoxLang

open Scoping

/-! ## Instances -/

/-- A value that was read or made in a proper way: instances are among those of the store, and `this` stands for an
instance in the scope of an initializer. -/
def Value.Proper (store : Store) : Value → Prop
  | .function closure => (Node.function closure.declaration).Read ∧ (closure.isInitializer = true →
      ∃ object, (store.forest.bindings closure.scope).get? "this" = some (.instance object))
  | .class kind => kind.Read
  | .instance object => object.index < store.fields.size ∧ object.kind.Read
  | _ => True

namespace Value

variable {before after store : Store} {value : Value}

theorem Proper.later (h : value.Proper before) (remembers : before.forest.Remembers after.forest)
    (fields : before.fields.size ≤ after.fields.size) : value.Proper after := by
  cases value with
  | function closure =>
      refine ⟨h.1, fun initializer => ?_⟩
      obtain ⟨object, this⟩ := h.2 initializer
      refine ⟨object, ?_⟩
      rw [remembers.keyword _ (Forest.lt_next_of_get? this) "this" (.inl rfl)]
      exact this
  | «instance» object => exact ⟨Nat.lt_of_lt_of_le h.1 fields, h.2⟩
  | _ => exact h

theorem Proper.read (h : value.Proper store) : value.Read := by
  cases value with
  | function closure => exact h.1
  | «instance» object => exact h.2
  | _ => exact h

theorem proper_of_isPlain (h : value.IsPlain) : value.Proper store := by
  cases value with
  | nil | bool _ | number _ | text _ => trivial
  | _ => exact h.elim

end Value

/-- `this` stands for nothing but instances. -/
def Store.ReceivesInstances (store : Store) : Prop :=
  ∀ id receiver, (store.forest.bindings id).get? "this" = some receiver → ∃ object, receiver = .instance object

theorem Store.Advances.receivesInstances {before after : Store} (h : before.Advances after)
    (instances : before.ReceivesInstances) : after.ReceivesInstances := by
  intro id receiver found
  rcases h.receivers id receiver found with ⟨other, there⟩ | object
  · exact instances other receiver there
  · exact object

namespace Machine

variable {host : Host} {machine : Machine} {scope : ScopeId} {node : Node}

/-- What is known of the code and the values in a machine. -/
structure Orderly (machine : Machine) : Prop where
  linked : machine.Linked
  codes : machine.Codes fun _ node => node.Read
  values : machine.All (Value.Proper machine.store)
  receivers : machine.store.ReceivesInstances

namespace Orderly

theorem methodRead (h : machine.Orderly) {method : Closure} {receiver : Value}
    (finds : machine.Finds method receiver) : (Node.function method.declaration).Read := by
  cases finds with
  | @get object name _ _ control _ _ found =>
      have proper := h.values.control
      rw [control] at proper
      exact (proper (.instance object) List.mem_cons_self).2.method found
  | initializer calling found => exact ClassValue.Read.method (h.values.call calling).1 found
  | super _ holds found => exact ClassValue.Read.method (h.values.store.superReceiver holds).1 found

theorem instance_of_finds (h : machine.Orderly) {method : Closure} {receiver : Value}
    (finds : machine.Finds method receiver) : ∃ object, receiver = .instance object := by
  rcases receives_of_finds finds with ⟨id, there⟩ | object
  · exact h.receivers id _ there
  · exact object

theorem callsRead (h : machine.Orderly) : machine.CallsRead :=
  fun _ _ calling => (h.values.call calling).1.read

theorem advances (h : machine.Orderly) (host : Host) : machine.store.Advances (step host machine).store :=
  advances_step host h.codes (fun _ _ read => read.definesNames) h.callsRead

theorem remembers (h : machine.Orderly) (host : Host) :
    machine.store.forest.Remembers (step host machine).store.forest :=
  remembers_step host h.codes fun _ _ read => read.definesNames

theorem enters (h : machine.Orderly) (enters : machine.Enters host scope node) : node.Read := by
  cases enters with
  | block control =>
      have read := h.codes.control
      rw [control] at read
      exact Node.Read.block read
  | @function closure _ calling =>
      have read : (Node.function closure.declaration).Read := (h.values.call calling).1.1
      exact read.body
  | initializer binds => exact (h.methodRead binds.finds).body

/-- The methods that a class statement makes were read from texts, as those of its superclass. -/
theorem classRead (h : machine.Orderly) {name : Token} {superclass : Option ClassValue}
    {methods : List FunctionDecl} (declares : machine.Declares host name superclass methods) :
    (machine.store.classMade machine.scope name superclass methods).Read := by
  have own : ∀ method ∈ methods, (Node.function method).Read := by
    cases declares with
    | base control _ =>
        have read := h.codes.control
        rw [control] at read
        exact fun method member => Node.Read.method read member
    | derived _ frames =>
        have read := h.codes.frames
        rw [frames] at read
        obtain ⟨⟨use, read⟩, -⟩ := read
        exact fun method member => Node.Read.method read member
  have parent : ∀ kind, superclass = some kind → kind.Read := by
    intro kind same
    cases declares with
    | base => cases same
    | derived control _ =>
        cases same
        have proper := h.values.control
        rw [control] at proper
        exact proper _ List.mem_cons_self
  intro layer member name method found
  rcases List.mem_cons.mp member with rfl | member
  · obtain ⟨index, inside, same⟩ := List.mem_mapIdx.mp (Bindings.mem_of_get?_ofList found)
    cases same
    exact own _ (List.getElem_mem inside)
  · cases superclass with
    | none => cases member
    | some kind => exact parent kind rfl layer member name method found

theorem makes (passive : ∀ native ∈ host.natives, native.Passive) (h : machine.Orderly) {value : Value}
    (makes : machine.Makes host value)
    (adds : ∀ kind arguments, machine.call? = some (.class kind, arguments) →
      machine.store.fields.size < (step host machine).store.fields.size) :
    value.Proper (step host machine).store := by
  have remembers := h.remembers host
  have fields := (h.advances host).fields
  cases makes with
  | @answer _ native arguments calling found =>
      rcases passive native (Array.mem_of_getElem? found) host.now arguments with plain | member
      · exact Value.proper_of_isPlain plain
      · exact ((h.values.call calling).2 _ member).later remembers fields
  | «class» declares => exact h.classRead declares
  | @function declaration control =>
      have held := h.codes.control
      rw [control] at held
      have read : (Node.stmt (.function declaration)).Read := held
      exact ⟨read.includes .function, nofun⟩
  | @«instance» kind arguments calling =>
      exact ⟨adds kind arguments calling, (h.values.call calling).1⟩
  | @method method receiver binds =>
      have read : (Node.function method.declaration).Read := h.methodRead binds.finds
      refine ⟨read, fun _ => ?_⟩
      obtain ⟨object, rfl⟩ := h.instance_of_finds binds.finds
      exact ⟨object, (bindsThis_of_binds binds).this⟩
  | plain plain => exact Value.proper_of_isPlain plain

theorem step (passive : ∀ native ∈ host.natives, native.Passive) (h : machine.Orderly) :
    (Machine.step host machine).Orderly where
  linked := h.linked.step host
  codes := codes_step (fun _ _ _ read includes => read.includes includes) (fun _ _ enters => h.enters enters)
    (fun _ _ _ _ control => h.linked.not_block control) h.codes
  values :=
    all_step_of_adds (h.values.mono fun _ proper => proper.later (h.remembers host) (h.advances host).fields)
      fun adds _ made => h.makes passive made adds
  receivers := (h.advances host).receivesInstances h.receivers

end Orderly

/-! ## The course of a call -/

/-- Where the call of a value is that was next in a machine: it runs the body of a function, or it is over. -/
inductive InCall (first : Machine) (callee : Value) : Machine → Prop
  | runs {closure : Closure} {yield : Yield} {store : Store} {machine : Machine} :
      Performs first.store callee closure yield store → store.forest.Remembers machine.store.forest →
      Above (.activation yield :: first.frames.tail) machine → InCall first callee machine
  | fails {machine : Machine} {interruption : Interruption} :
      machine.frames = first.frames.tail → machine.control = .failed interruption → InCall first callee machine
  | yields {closure : Closure} {yield : Yield} {store : Store} {machine : Machine} {completion : Completion} :
      Performs first.store callee closure yield store → store.forest.Remembers machine.store.forest →
      machine.frames = first.frames.tail →
      machine.control = ofResult (yieldOf machine.store.forest yield completion) → InCall first callee machine
  | native {index : Nat} {machine : Machine} :
      callee = .native index → machine.frames = first.frames.tail → InCall first callee machine
  | makes {kind : ClassValue} {machine : Machine} :
      callee = .class kind → machine.frames = first.frames.tail →
      machine.control = .value (.instance ⟨first.store.fields.size, kind⟩) → InCall first callee machine

section

variable {first : Machine} {callee : Value} {arguments : List Value}

theorem inCall_step (calling : first.call? = some (callee, arguments)) (host : Host) :
    InCall first callee (step host first) := by
  have answers := answers_step calling host
  generalize step host first = next at answers ⊢
  cases answers with
  | fails interruption => exact .fails rfl rfl
  | begins performs begins =>
      obtain ⟨outer, frames⟩ := begins.frames
      refine .runs performs ?_ ⟨[_], frames, fun _ => List.cons_ne_nil _ _⟩
      rw [begins.store]
      exact .add _ _ _
  | native same => exact .native same rfl
  | makes same => exact .makes same rfl rfl

theorem length_le_of_above (calling : first.call? = some (callee, arguments)) {yield : Yield}
    (above : Above (.activation yield :: first.frames.tail) machine) : first.frames.length ≤ machine.frames.length := by
  rw [length_of_call? calling]
  exact above.suffix.length_le

/-- While the frames of a call are there, it runs the body of a function, and goes on or ends with what it yields. -/
theorem InCall.step (h : InCall first callee machine) (orderly : machine.Orderly)
    (more : first.frames.tail.length < machine.frames.length) (host : Host) :
    InCall first callee (Machine.step host machine) := by
  have ended (same : machine.frames = first.frames.tail) : InCall first callee (Machine.step host machine) :=
    absurd (congrArg List.length same) (Nat.ne_of_gt more)
  cases h with
  | runs performs remembers above =>
      have later := remembers.trans (orderly.remembers host)
      rcases step_within_call host orderly.linked above with above | leaves
      · exact .runs performs later above
      · generalize Machine.step host machine = next at leaves later ⊢
        cases leaves with
        | fails interruption => exact .fails rfl rfl
        | yields => exact .yields performs later rfl rfl
  | fails same | yields _ _ same | native _ same | makes _ same => exact ended same

end

theorem orderly_load {statements : List Stmt} {store : Store}
    (read : ∀ stmt ∈ unmarkStmts statements, stmt.WellFormed) (values : store.All (Value.Proper store))
    (receivers : store.ReceivesInstances) : (load statements store).Orderly where
  linked := linked_load statements store
  codes := ⟨trivial, Node.Read.statements_of_unmark read, trivial⟩
  values := by
    refine ⟨nofun, fun frame inside => ?_, values⟩
    rw [List.mem_singleton.mp inside]
    exact nofun
  receivers := receivers

end Machine

/-! ## Sessions -/

/-- The statements are those that a text is read as, with errors or not, and with whatever marks. -/
def Written (statements : List Stmt) : Prop :=
  ∃ depth tokens, (∀ token ∈ tokens, token.Spelled) ∧
    unmarkStmts statements = (Program.ofTokens depth tokens).statements

theorem Written.read {statements : List Stmt} (h : Written statements) :
    ∀ stmt ∈ unmarkStmts statements, stmt.WellFormed := by
  obtain ⟨depth, tokens, spelled, same⟩ := h
  rw [same]
  exact Program.wellFormed_ofTokens depth spelled

/-- Marks are all that marking adds, so accepted sources are among what is read from texts. -/
theorem written_of_prepare {limit : Nat} {source : String} {statements : List Stmt}
    (accepted : prepare limit source = .ok statements) : Written statements := by
  obtain ⟨-, program, read, marked⟩ := prepare_eq_ok_iff.mp accepted
  have spelled := Tokens.spelled_ofText source
  have wellFormed := Program.wellFormed_ofTokens limit spelled
  rw [read] at wellFormed
  obtain ⟨same, -⟩ := markedStmts_of_mark? wellFormed marked
  exact ⟨limit, _, spelled, by rw [same, read]⟩

namespace Session

/-- The sessions that arise when natives that make nothing get names that a program can use, and what is read from texts
is run, whether it is marked or not and however it ends. -/
inductive Develops : Session → Prop
  | new : Develops ⟨#[], .initial⟩
  | native {session : Session} {native : Native} :
      native.Passive → native.name ≠ "this" → native.name ≠ "super" → Develops session →
      Develops (session.addNative native)
  | run {session : Session} {limit : Nat} {statements : List Stmt} {machine : Machine} (now : Float) :
      Develops session → Written statements → session.Runs limit statements machine → machine.isFinal = true →
      Develops (unload ⟨session.natives, limit, now⟩ machine).2

theorem Develops.foldl {session : Session} (develops : Develops session) {natives : List Native}
    (passive : ∀ native ∈ natives, native.Passive)
    (named : ∀ native ∈ natives, native.name ≠ "this" ∧ native.name ≠ "super") :
    Develops (natives.foldl addNative session) := by
  induction natives generalizing session with
  | nil => exact develops
  | cons native natives ih =>
      obtain ⟨first, rest⟩ := List.forall_mem_cons.mp passive
      obtain ⟨name, names⟩ := List.forall_mem_cons.mp named
      exact ih (.native first name.1 name.2 develops) rest names

/-- The sessions in which accepted sources are run are among these. -/
theorem Reached.develops {natives : List Native} {programs : List (List Stmt)} {session : Session}
    (passive : ∀ native ∈ natives, native.Passive)
    (named : ∀ native ∈ natives, native.name ≠ "this" ∧ native.name ≠ "super")
    (reached : Reached natives programs session) : session.Develops := by
  induction reached with
  | start =>
      have clockPassive : clock.Passive := fun _ _ => .inl trivial
      have first : Develops (Session.addNative ⟨#[], .initial⟩ clock) :=
        .native clockPassive (by decide) (by decide) .new
      exact first.foldl passive named
  | run now _ accepted runs final ih => exact .run now ih (written_of_prepare accepted) runs final

/-- What is known of the values in a session. -/
structure Orderly (session : Session) : Prop where
  passive : ∀ native ∈ session.natives, native.Passive
  values : session.store.All (Value.Proper session.store)
  receivers : session.store.ReceivesInstances

variable {session : Session} {limit : Nat} {statements : List Stmt} {machine : Machine}

theorem orderly_new : Orderly ⟨#[], .initial⟩ where
  passive := fun native nothing => absurd nothing (Array.not_mem_empty native)
  values := fresh_initial.all fun _ => trivial
  receivers := by
    intro id receiver found
    cases id with
    | zero => cases found
    | succ id => cases found

theorem Orderly.addNative (h : session.Orderly) {native : Native} (passive : native.Passive)
    (notThis : native.name ≠ "this") (notSuper : native.name ≠ "super") : (session.addNative native).Orderly := by
  have names : Token.Names ⟨.identifier, native.name, .none, 1⟩ := ⟨notThis, notSuper⟩
  have advances := Store.Advances.define session.store Forest.globals names (.native session.natives.size)
  have remembers := Forest.Remembers.define session.store.forest Forest.globals names (.native session.natives.size)
  have kept : (session.addNative native).store.All (Value.Proper session.store) := h.values.define _ _ trivial
  refine ⟨fun other member => ?_, kept.mono fun _ proper => proper.later remembers advances.fields,
    advances.receivesInstances h.receivers⟩
  rcases Array.mem_push.mp member with member | rfl
  · exact h.passive other member
  · exact passive

theorem Runs.orderly (h : session.Orderly) (written : Written statements)
    (runs : session.Runs limit statements machine) : machine.Orderly := by
  induction runs with
  | load => exact Machine.orderly_load written.read h.values h.receivers
  | step now _ ih => exact ih.step h.passive

theorem Develops.orderly (develops : Develops session) : session.Orderly := by
  induction develops with
  | new => exact orderly_new
  | native passive notThis notSuper _ ih => exact ih.addNative passive notThis notSuper
  | run now _ written runs _ ih =>
      have last := runs.orderly ih written
      exact ⟨ih.passive, last.values.store.takePrinted.mono fun _ proper => proper.later (.refl _) (Nat.le_refl _),
        last.receivers⟩

/-- The machines that the call that is next leads to, up to the one in which it is over. -/
inductive During (session : Session) (limit : Nat) (first : Machine) : Machine → Prop
  | start (now : Float) : During session limit first (first.step ⟨session.natives, limit, now⟩)
  | step {machine : Machine} (now : Float) : During session limit first machine →
      first.frames.length ≤ machine.frames.length →
      During session limit first (machine.step ⟨session.natives, limit, now⟩)

section

variable {first : Machine} {callee : Value} {arguments : List Value}

theorem During.runs (h : session.During limit first machine) (runs : session.Runs limit statements first) :
    session.Runs limit statements machine := by
  induction h with
  | start now => exact runs.step now
  | step now _ _ ih => exact ih.step now

theorem During.remembers (h : session.During limit first machine) (orderly : session.Orderly)
    (written : Written statements) (runs : session.Runs limit statements first) :
    first.store.forest.Remembers machine.store.forest := by
  induction h with
  | start now => exact (runs.orderly orderly written).remembers _
  | step now during _ ih => exact ih.trans (((during.runs runs).orderly orderly written).remembers _)

/-- Every step of a call keeps to `InCall`, as long as the frames of the call are there. -/
theorem During.inCall (h : session.During limit first machine) (orderly : session.Orderly)
    (written : Written statements) (runs : session.Runs limit statements first)
    (calling : first.call? = some (callee, arguments)) : Machine.InCall first callee machine := by
  induction h with
  | start now => exact Machine.inCall_step calling _
  | step now during more ih =>
      rw [Machine.length_of_call? calling] at more
      exact ih.step ((during.runs runs).orderly orderly written) more _

end

theorem During.iterate {first : Machine} {now : Float} {count : Nat}
    (running : ∀ earlier < count, first.frames.length ≤
      ((Machine.step ⟨session.natives, limit, now⟩)^[earlier + 1] first).frames.length) :
    session.During limit first ((Machine.step ⟨session.natives, limit, now⟩)^[count + 1] first) := by
  induction count with
  | zero => exact .start now
  | succ count ih =>
      rw [Function.iterate_succ_apply']
      exact .step now (ih fun earlier less => running earlier (Nat.lt_succ_of_lt less))
        (running count (Nat.lt_succ_self count))

/-- Once the call that is next is over, it has failed or yielded the value, and no frame of it is left. -/
def Yields (session : Session) (limit : Nat) (first : Machine) (value : Value) : Prop :=
  ∀ last, session.During limit first last → last.frames.length < first.frames.length →
    last.frames = first.frames.tail ∧
      ((∃ interruption, last.control = .failed interruption) ∨ last.control = .value value)

/-- What is true of the call that is next in a machine, if there is one. -/
structure Calls (session : Session) (limit : Nat) (first : Machine) : Prop where
  /-- Nothing but a call begins the body of a function, and it binds each parameter to an argument. -/
  entered : ∀ now, first.running < (first.step ⟨session.natives, limit, now⟩).running →
    ∃ callee arguments closure yield store, first.call? = some (callee, arguments) ∧
      Machine.Performs first.store callee closure yield store ∧
      (first.step ⟨session.natives, limit, now⟩).Begins closure arguments yield first.frames.tail store ∧
      (first.step ⟨session.natives, limit, now⟩).Supplies closure arguments
  /-- A native is asked with as many arguments as it takes. -/
  asked : ∀ now index arguments, first.call? = some (.native index, arguments) →
    (∃ interruption, (first.step ⟨session.natives, limit, now⟩).control = .failed interruption) ∨
    ∃ native, session.natives[index]? = some native ∧ arguments.length = native.arity ∧
      (first.step ⟨session.natives, limit, now⟩).control = .value (native.answer now arguments)
  /-- An initializer yields the instance that it is bound to. -/
  initializer : ∀ closure arguments, first.call? = some (.function closure, arguments) →
    closure.isInitializer = true → ∃ object,
      first.store.forest.getAt closure.scope 0 "this" = .ok (.instance object) ∧
      (∀ last, session.During limit first last →
        last.store.forest.getAt closure.scope 0 "this" = .ok (.instance object)) ∧
      session.Yields limit first (.instance object)
  /-- The call of a class yields an instance of the class that was not there before, on which its initializer runs. -/
  constructs : ∀ kind arguments, first.call? = some (.class kind, arguments) →
    first.All (fun value => ∀ object, value = .instance object → object.index ≠ first.store.fields.size) ∧
    (∀ last, session.During limit first last → first.frames.length ≤ last.frames.length →
      last.store.forest.getAt first.store.forest.next 0 "this" =
        .ok (.instance ⟨first.store.fields.size, kind⟩)) ∧
    session.Yields limit first (.instance ⟨first.store.fields.size, kind⟩)

section

variable {first : Machine}

theorem getAt_this {forest : Forest} {id : ScopeId} {receiver : Value}
    (this : (forest.bindings id).get? "this" = some receiver) : forest.getAt id 0 "this" = .ok receiver :=
  Forest.getAt_of_get? rfl this

/-- However the body of an initializer ends, the call yields what the initializer is bound to. -/
theorem yields_initializer (develops : Develops session) (written : Written statements)
    (runs : session.Runs limit statements first) {closure : Closure} {arguments : List Value} {receiver : Value}
    (calling : first.call? = some (.function closure, arguments)) (initializer : closure.isInitializer = true)
    (this : ∀ last, session.During limit first last →
      last.store.forest.getAt closure.scope 0 "this" = .ok receiver) : session.Yields limit first receiver := by
  intro last during ended
  have inCall := during.inCall develops.orderly written runs calling
  cases inCall with
  | runs _ _ above => exact absurd (Machine.length_le_of_above calling above) (Nat.not_le.mpr ended)
  | fails frames control => exact ⟨frames, .inl ⟨_, control⟩⟩
  | yields performs _ frames control =>
      refine ⟨frames, .inr ?_⟩
      cases performs with
      | function =>
          rw [Machine.functionYield, if_pos initializer] at control
          rw [control, Machine.yieldOf, this last during]
          rfl
  | native same => cases same
  | makes same => cases same

/-- However the body of its initializer ends, the call of a class yields the new instance. -/
theorem yields_class (develops : Develops session) (written : Written statements)
    (runs : session.Runs limit statements first) {kind : ClassValue} {arguments : List Value}
    (calling : first.call? = some (.class kind, arguments)) :
    session.Yields limit first (.instance ⟨first.store.fields.size, kind⟩) := by
  intro last during ended
  have inCall := during.inCall develops.orderly written runs calling
  cases inCall with
  | runs _ _ above => exact absurd (Machine.length_le_of_above calling above) (Nat.not_le.mpr ended)
  | fails frames control => exact ⟨frames, .inl ⟨_, control⟩⟩
  | yields performs _ frames control =>
      refine ⟨frames, .inr ?_⟩
      cases performs with
      | initializer => exact control
  | native same => cases same
  | makes same frames control =>
      cases same
      exact ⟨frames, .inr control⟩

end

/-- Every call binds what it is given and ends with what it yields, whatever the session and wherever the run is. -/
theorem calls_stay (develops : Develops session) (written : Written statements)
    (runs : session.Runs limit statements machine) : session.Calls limit machine := by
  have orderly := develops.orderly
  have here := runs.orderly orderly written
  refine ⟨fun now more => ?_, fun now index arguments calling => Machine.fails_or_asks calling _,
    fun closure arguments calling initializer => ?_, fun kind arguments calling => ?_⟩
  · obtain ⟨callee, arguments, closure, yield, store, calling, performs, begins⟩ := Machine.begins_of_running_lt more
    exact ⟨callee, arguments, closure, yield, store, calling, performs, begins, begins.supplies⟩
  · obtain ⟨object, this⟩ := (here.values.call calling).1.2 initializer
    have stays (last : Machine) (during : session.During limit machine last) :
        last.store.forest.getAt closure.scope 0 "this" = .ok (.instance object) := by
      apply getAt_this
      rw [(during.remembers orderly written runs).keyword _ (Forest.lt_next_of_get? this) "this" (.inl rfl)]
      exact this
    exact ⟨object, getAt_this this, stays, yields_initializer develops written runs calling initializer stays⟩
  · refine ⟨here.values.mono ?_, fun last during running => ?_, yields_class develops written runs calling⟩
    · rintro _ proper object rfl
      exact Nat.ne_of_lt proper.1
    · have inCall := during.inCall orderly written runs calling
      have ended (same : last.frames = machine.frames.tail) : False := by
        rw [same, Machine.length_of_call? calling] at running
        exact Nat.not_succ_le_self _ running
      cases inCall with
      | runs performs remembers =>
          cases performs with
          | @initializer _ method =>
              have bound := Forest.bindsThis_add machine.store.forest method
                (.instance ⟨machine.store.fields.size, kind⟩)
              exact getAt_this (bound.later remembers).this
      | fails same | yields _ _ same | native _ same | makes _ same => exact (ended same).elim

/-- An initializer with a `return` that no accepted program may have. -/
def returningText : List Token :=
  [⟨.class, "class", .none, 1⟩, ⟨.identifier, "A", .none, 1⟩, ⟨.leftBrace, "\x7b", .none, 1⟩,
    ⟨.identifier, "init", .none, 1⟩, ⟨.leftParen, "(", .none, 1⟩, ⟨.identifier, "x", .none, 1⟩,
    ⟨.rightParen, ")", .none, 1⟩, ⟨.leftBrace, "\x7b", .none, 1⟩, ⟨.return, "return", .none, 1⟩,
    ⟨.identifier, "A", .none, 1⟩, ⟨.semicolon, ";", .none, 1⟩, ⟨.rightBrace, "\x7d", .none, 1⟩,
    ⟨.rightBrace, "\x7d", .none, 1⟩, ⟨.identifier, "A", .none, 1⟩, ⟨.leftParen, "(", .none, 1⟩,
    ⟨.nil, "nil", .none, 1⟩, ⟨.rightParen, ")", .none, 1⟩, ⟨.semicolon, ";", .none, 1⟩, .final 1]

def returningStatements : List Stmt :=
  let name : Token := ⟨.identifier, "A", .none, 1⟩
  [.class name none [⟨⟨.identifier, "init", .none, 1⟩, [⟨.identifier, "x", .none, 1⟩],
      [.return ⟨.return, "return", .none, 1⟩ (some (.variable (.unmarked name)))]⟩],
    .expression (.call (.variable (.unmarked name)) ⟨.rightParen, ")", .none, 1⟩ [.literal .nil])]

/-- The machine at the call of the class, where nothing is marked. -/
def returningCall : Machine :=
  .advance ⟨(start []).natives, 60, 0⟩ 8 (.load returningStatements (start []).store)

/-- The class that is next to be called. -/
def calledClass? (machine : Machine) : Option ClassValue :=
  match machine.call? with
  | some (.class kind, _) => some kind
  | _ => none

theorem call?_of_calledClass? {kind : ClassValue} (h : calledClass? machine = some kind) :
    ∃ arguments, machine.call? = some (.class kind, arguments) := by
  unfold calledClass? at h
  split at h
  · next calling =>
    cases h
    exact ⟨_, calling⟩
  · cases h

theorem calls_stay_returning :
    ∃ kind arguments last, returningCall.call? = some (.class kind, arguments) ∧
      (start []).During 60 returningCall last ∧ last.frames = returningCall.frames.tail ∧
      last.control = .value (.instance ⟨0, kind⟩) := by
  have spelled : ∀ token ∈ returningText, token.Spelled := by
    have each : ∀ token ∈ returningText,
        (token.kind = .identifier → token.lexeme ≠ "this" ∧ token.lexeme ≠ "super") ∧
          (token.kind = .this → token.lexeme = "this") ∧ (token.kind = .super → token.lexeme = "super") := by
      decide
    exact fun token member => ⟨(each token member).1, (each token member).2.1, (each token member).2.2⟩
  have read : unmarkStmts returningStatements = (Program.ofTokens 60 returningText).statements := rfl
  have develops : Develops (start []) := Reached.start.develops (List.forall_mem_nil _) (List.forall_mem_nil _)
  have runs : (start []).Runs 60 returningStatements returningCall := Runs.load.advance 0 8
  have reaches : (calledClass? returningCall).isSome = true := by decide +kernel
  obtain ⟨kind, found⟩ := Option.isSome_iff_exists.mp reaches
  obtain ⟨arguments, calling⟩ := call?_of_calledClass? found
  obtain ⟨-, -, yields⟩ :=
    (calls_stay develops ⟨60, returningText, spelled, read⟩ runs).constructs kind arguments calling
  let last := (Machine.step ⟨(start []).natives, 60, 0⟩)^[7] returningCall
  have during : (start []).During 60 returningCall last := .iterate (by decide +kernel)
  obtain ⟨frames, failed | value⟩ := yields last during (by decide +kernel)
  · obtain ⟨interruption, failed⟩ := failed
    have fine : last.control.interruption? = none := by decide +kernel
    rw [failed] at fine
    cases fine
  · have empty : returningCall.store.fields.size = 0 := by decide +kernel
    rw [empty] at value
    exact ⟨kind, arguments, last, calling, during, frames, value⟩

end Session

end LoxLang
