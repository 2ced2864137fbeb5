import LoxLang.Proofs.Machine.Contents
import LoxLang.Proofs.Machine.Inner
import LoxLang.Proofs.Machine.Memory
import LoxLang.Proofs.Session.Course

/-!
Classes and receivers in the course of a session. All code that runs lies in a program, outside its classes, or in a
method that was bound to a receiver, and every class was made by a class statement.
-/

namespace LoxLang

open Scoping

/-- A class statement of the programs that was run to its end. -/
structure ClassRun (programs : List (List Stmt)) (past : List Moment) where
  moment : Moment
  name : Token
  superclass : Option ClassValue
  clause : Option NameUse
  methods : List FunctionDecl
  regions : Regions
  member : moment ∈ past
  declares : moment.machine.Declares moment.host name superclass methods
  stands : StandsIn programs ⟨regions, .stmt (.class name clause methods)⟩
  derived : clause.isSome = superclass.isSome

namespace ClassRun

variable {programs more : List (List Stmt)} {past longer : List Moment}

/-- The class that the statement made. -/
def kind (run : ClassRun programs past) : ClassValue :=
  run.moment.machine.store.classMade run.moment.machine.scope run.name run.superclass run.methods

/-- A method in the body of the class. -/
def Owns (run : ClassRun programs past) (method : Closure) : Prop :=
  ∃ name, run.kind.own.methods.get? name = some method

def weaken (run : ClassRun programs past) (subset : programs ⊆ more) (inside : past ⊆ longer) :
    ClassRun more longer :=
  ⟨run.moment, run.name, run.superclass, run.clause, run.methods, run.regions,
    inside run.member, run.declares, run.stands.mono subset, run.derived⟩

theorem Owns.place {run : ClassRun programs past} {method : Closure} (h : run.Owns method) :
    StandsIn programs
        ⟨(run.regions.hold run.name.lexeme).ofMethods run.clause, .function method.declaration⟩ ∧
      method.scope =
        run.moment.machine.store.methodScope run.moment.machine.scope run.superclass := by
  obtain ⟨name, found⟩ := h
  obtain ⟨index, inside, same⟩ := List.mem_mapIdx.mp (Bindings.mem_of_get?_ofList found)
  cases same
  exact ⟨run.stands.part (.method (List.getElem_mem inside)), rfl⟩

end ClassRun

/-- A method of a class that was bound to a receiver. -/
structure Binding (programs : List (List Stmt)) (past : List Moment) where
  run : ClassRun programs past
  moment : Moment
  method : Closure
  receiver : Value
  own : run.Owns method
  member : moment ∈ past
  binds : moment.machine.Binds moment.host method receiver

namespace Binding

variable {programs more : List (List Stmt)} {past longer : List Moment}

/-- The scope in which the receiver is `this`. -/
def scope (binding : Binding programs past) : ScopeId :=
  binding.moment.machine.store.forest.next

def weaken (binding : Binding programs past) (subset : programs ⊆ more) (inside : past ⊆ longer) :
    Binding more longer :=
  ⟨binding.run.weaken subset inside, binding.moment, binding.method, binding.receiver,
    binding.own, inside binding.member, binding.binds⟩

end Binding

variable (programs : List (List Stmt)) (past : List Moment) (forest : Forest)

/-- Code that runs as a whole: a program, or a method for a receiver. -/
inductive Root : ScopeId → Node → Prop
  | program {program : List Stmt} :
      program ∈ programs → Root Forest.globals (.statements program)
  | method (binding : Binding programs past) :
      Root binding.scope (.function binding.method.declaration)

def Grounded (scope : ScopeId) (node : Node) : Prop :=
  ∃ start origin, Root programs past start origin ∧ Inner forest start origin scope node

/-- A class and all above it were made by class statements. -/
def ClassValue.Made (kind : ClassValue) : Prop :=
  ∀ layer above, layer :: above <:+ kind.layers →
    ∃ run : ClassRun programs past, run.kind = ⟨layer, above⟩

def Value.Traced : Value → Prop
  | .function closure =>
      Grounded programs past forest closure.scope (.function closure.declaration)
  | .class kind => kind.Made programs past
  | .instance object => object.kind.Made programs past
  | _ => True

/-- What is known of all code and values in a machine, and of the scopes that past steps made. -/
structure Traced (machine : Machine) : Prop where
  codes : machine.Codes (Grounded programs past machine.store.forest)
  values : machine.All (Value.Traced programs past machine.store.forest)
  memory : ∀ moment ∈ past,
    (moment.machine.step moment.host).store.forest.Remembers machine.store.forest

variable {programs more : List (List Stmt)} {past longer : List Moment} {before after : Forest}
  {machine : Machine} {host : Host} {scope : ScopeId} {node : Node}

/-! ## Later stages -/

theorem Root.weaken (h : Root programs past scope node) (subset : programs ⊆ more)
    (inside : past ⊆ longer) : Root more longer scope node := by
  cases h with
  | program member => exact .program (subset member)
  | method binding => exact .method (binding.weaken subset inside)

theorem Grounded.later (h : Grounded programs past before scope node) (subset : programs ⊆ more)
    (inside : past ⊆ longer) (remembers : before.Remembers after) :
    Grounded more longer after scope node := by
  obtain ⟨start, origin, root, inner⟩ := h
  exact ⟨start, origin, root.weaken subset inside, inner.later remembers⟩

theorem ClassValue.Made.weaken {kind : ClassValue} (h : kind.Made programs past)
    (subset : programs ⊆ more) (inside : past ⊆ longer) : kind.Made more longer := by
  intro layer above suffix
  obtain ⟨run, same⟩ := h layer above suffix
  exact ⟨run.weaken subset inside, same⟩

theorem Value.Traced.later {value : Value} (h : value.Traced programs past before)
    (subset : programs ⊆ more) (inside : past ⊆ longer) (remembers : before.Remembers after) :
    value.Traced more longer after := by
  cases value with
  | function closure => exact Grounded.later h subset inside remembers
  | «class» kind => exact ClassValue.Made.weaken h subset inside
  | «instance» object => exact ClassValue.Made.weaken h subset inside
  | _ => trivial

theorem Value.traced_of_isPlain {value : Value} (h : value.IsPlain) :
    value.Traced programs past before := by
  cases value with
  | nil | bool _ | number _ | text _ => trivial
  | _ => exact h.elim

theorem Grounded.part {part : Node} (h : Grounded programs past before scope node)
    (includes : node.Includes part) : Grounded programs past before scope part := by
  obtain ⟨start, origin, root, inner⟩ := h
  exact ⟨start, origin, root, inner.part includes⟩

/-! ## Places -/

theorem Root.stands (h : Root programs past scope node) :
    ∃ regions, StandsIn programs ⟨regions, node⟩ := by
  cases h with
  | @program program member => exact ⟨.start, program, member, .refl⟩
  | method binding => exact ⟨_, binding.own.place.1⟩

theorem Grounded.definesNames (suited : AllSuited programs)
    (h : Grounded programs past before scope node) : node.DefinesNames := by
  obtain ⟨start, origin, root, inner⟩ := h
  obtain ⟨regions, stands⟩ := root.stands
  obtain ⟨here, _, standing, -, -⟩ := inner.stands stands
  obtain ⟨around, proper⟩ := suited _ standing
  cases node with
  | expr part =>
      cases part with
      | assign target value => exact Expr.Suited.suits proper.node
      | _ => trivial
  | stmt part => exact fun name declared => Scoping.Suited.names proper.node declared
  | statements _ | function _ => trivial

/-! ## Steps -/

theorem ClassValue.Made.owns {kind : ClassValue} (h : kind.Made programs past) {name : String}
    {method : Closure} (found : kind.method? name = some method) :
    ∃ run : ClassRun programs past, run.Owns method := by
  obtain ⟨layer, member, hmethod⟩ := List.exists_of_findSome?_eq_some found
  obtain ⟨below, above, split⟩ := List.append_of_mem member
  obtain ⟨run, same⟩ := h layer above ⟨below, split.symm⟩
  refine ⟨run, name, ?_⟩
  rw [same]
  exact hmethod

theorem Traced.owns (h : Traced programs past machine) {method : Closure} {receiver : Value}
    (finds : machine.Finds method receiver) : ∃ run : ClassRun programs past, run.Owns method := by
  cases finds with
  | @get object name _ _ control _ _ found =>
      have traced := h.values.control
      rw [control] at traced
      exact ClassValue.Made.owns (traced _ List.mem_cons_self) found
  | initializer calling found => exact ClassValue.Made.owns (h.values.call calling).1 found
  | super _ holds found =>
      exact ClassValue.Made.owns (h.values.store.superReceiver holds).1 found

theorem Traced.root (h : Traced programs past machine) {method : Closure} {receiver : Value}
    (binds : machine.Binds host method receiver) :
    Root programs (⟨host, machine⟩ :: past) machine.store.forest.next
      (.function method.declaration) := by
  obtain ⟨run, own⟩ := h.owns binds.finds
  have inside : past ⊆ ⟨host, machine⟩ :: past := List.subset_cons_self _ _
  exact .method ⟨run.weaken (List.Subset.refl _) inside, ⟨host, machine⟩, method, receiver, own,
    List.mem_cons_self, binds⟩

theorem ClassRun.made (run : ClassRun programs past)
    (parent : ∀ kind, run.superclass = some kind → kind.Made programs past) :
    run.kind.Made programs past := by
  intro layer above suffix
  rcases List.suffix_cons_iff.mp suffix with same | suffix
  · cases same
    exact ⟨run, rfl⟩
  · change layer :: above <:+ (run.superclass.map ClassValue.layers).getD [] at suffix
    cases hsuperclass : run.superclass with
    | none =>
        rw [hsuperclass] at suffix
        cases List.suffix_nil.mp suffix
    | some kind =>
        rw [hsuperclass] at suffix
        exact parent kind hsuperclass layer above suffix

theorem Grounded.stands (h : Grounded programs past before scope node) :
    ∃ regions, StandsIn programs ⟨regions, node⟩ := by
  obtain ⟨start, origin, root, inner⟩ := h
  obtain ⟨regions, stands⟩ := root.stands
  obtain ⟨here, _, standing, -, -⟩ := inner.stands stands
  exact ⟨here, standing⟩

/-- A class statement that is run to its end is one of the programs, and what it makes is a class of theirs. -/
theorem Traced.declares (h : Traced programs past machine) {name : Token}
    {superclass : Option ClassValue} {methods : List FunctionDecl}
    (declares : machine.Declares host name superclass methods) :
    (machine.store.classMade machine.scope name superclass methods).Made programs
      (⟨host, machine⟩ :: past) := by
  have inside : past ⊆ ⟨host, machine⟩ :: past := List.subset_cons_self _ _
  have found : ∃ clause regions, StandsIn programs ⟨regions, .stmt (.class name clause methods)⟩ ∧
      clause.isSome = superclass.isSome := by
    cases declares with
    | base control _ =>
        have held := h.codes.control
        rw [control] at held
        obtain ⟨regions, stands⟩ := Grounded.stands held
        exact ⟨none, regions, stands, rfl⟩
    | derived _ frames =>
        have held := h.codes.frames
        rw [frames] at held
        obtain ⟨⟨use, code⟩, -⟩ := held
        obtain ⟨regions, stands⟩ := Grounded.stands code
        exact ⟨some use, regions, stands, rfl⟩
  obtain ⟨clause, regions, stands, derived⟩ := found
  let run : ClassRun programs (⟨host, machine⟩ :: past) :=
    ⟨⟨host, machine⟩, name, superclass, clause, methods, regions, List.mem_cons_self, declares,
      stands, derived⟩
  refine run.made fun kind same => ?_
  cases declares with
  | base _ _ => cases same
  | derived control _ =>
      cases same
      have traced := h.values.control
      rw [control] at traced
      exact ClassValue.Made.weaken (traced _ List.mem_cons_self) (List.Subset.refl _) inside

/-- A native that makes no functions, classes or instances. -/
def Native.Passive (native : Native) : Prop :=
  ∀ now arguments, (native.answer now arguments).IsPlain ∨
    native.answer now arguments ∈ arguments

theorem Traced.makes (passive : ∀ native ∈ host.natives, native.Passive)
    (h : Traced programs past machine)
    (remembers : machine.store.forest.Remembers (machine.step host).store.forest) {value : Value}
    (makes : machine.Makes host value) :
    value.Traced programs (⟨host, machine⟩ :: past) (machine.step host).store.forest := by
  have inside : past ⊆ ⟨host, machine⟩ :: past := List.subset_cons_self _ _
  have subset := List.Subset.refl programs
  cases makes with
  | @answer _ native arguments calling found =>
      rcases passive native (Array.mem_of_getElem? found) host.now arguments with plain | member
      · exact Value.traced_of_isPlain plain
      · exact ((h.values.call calling).2 _ member).later subset inside remembers
  | «class» declares => exact h.declares declares
  | function control =>
      have held := h.codes.control
      rw [control] at held
      exact (Grounded.later held subset inside remembers).part .function
  | «instance» calling => exact ClassValue.Made.weaken (h.values.call calling).1 subset inside
  | method binds => exact ⟨_, _, h.root binds, .here⟩
  | plain plain => exact Value.traced_of_isPlain plain

theorem Traced.enters (h : Traced programs past machine)
    (remembers : machine.store.forest.Remembers (machine.step host).store.forest)
    (enters : machine.Enters host scope node) :
    Grounded programs (⟨host, machine⟩ :: past) (machine.step host).store.forest scope node := by
  have inside : past ⊆ ⟨host, machine⟩ :: past := List.subset_cons_self _ _
  have subset := List.Subset.refl programs
  cases enters with
  | block control link =>
      have held := h.codes.control
      rw [control] at held
      obtain ⟨start, origin, root, inner⟩ := Grounded.later held subset inside remembers
      exact ⟨start, origin, root, inner.block link⟩
  | function calling link =>
      obtain ⟨start, origin, root, inner⟩ :=
        Grounded.later (h.values.call calling).1 subset inside remembers
      exact ⟨start, origin, root, inner.body link⟩
  | initializer binds link => exact ⟨_, _, h.root binds, .body .here link⟩

theorem Traced.step (passive : ∀ native ∈ host.natives, native.Passive)
    (suited : AllSuited programs) (placed : machine.Placed) (h : Traced programs past machine) :
    Traced programs (⟨host, machine⟩ :: past) (machine.step host) := by
  have inside : past ⊆ ⟨host, machine⟩ :: past := List.subset_cons_self _ _
  have subset := List.Subset.refl programs
  have remembers : machine.store.forest.Remembers (machine.step host).store.forest :=
    Machine.remembers_step host h.codes fun _ _ held => held.definesNames suited
  refine ⟨?_, ?_, ?_⟩
  · have weakened := h.codes.mono fun _ _ held => held.later subset inside remembers
    refine Machine.codes_step (fun _ _ _ held includes => held.part includes)
      (fun _ _ enters => h.enters remembers enters) ?_ weakened
    intro value rest outer frames control hframes
    rw [Machine.Placed, control, hframes] at placed
    cases placed with
    | operand operand _ => exact operand
    | part part _ => cases part
  · have weakened := h.values.mono fun _ traced => traced.later subset inside remembers
    exact Machine.all_step weakened fun _ makes => h.makes passive remembers makes
  · intro moment member
    rcases List.mem_cons.mp member with rfl | member
    · exact .refl _
    · exact (h.memory moment member).trans remembers

theorem traced_load {store : Store} {statements : List Stmt} (member : statements ∈ programs)
    (values : store.All (Value.Traced programs past store.forest))
    (memory : ∀ moment ∈ past,
      (moment.machine.step moment.host).store.forest.Remembers store.forest) :
    Traced programs past (.load statements store) where
  codes := ⟨trivial, ⟨_, _, .program member, .here⟩, trivial⟩
  values := by
    refine ⟨nofun, fun frame inside => ?_, values⟩
    rw [List.mem_singleton.mp inside]
    exact nofun
  memory := memory

theorem Native.Passive.sound {native : Native} (h : native.Passive) : native.Sound := by
  intro programs forest now arguments sound
  rcases h now arguments with plain | member
  · cases answer : native.answer now arguments with
    | nil | bool _ | number _ | text _ => trivial
    | function _ | «class» _ | «instance» _ | native _ =>
        rw [answer] at plain
        exact plain.elim
  · exact sound _ member

namespace Session

theorem Fresh.all {session : Session} (h : session.Fresh) {p : Value → Prop}
    (natives : ∀ index, p (.native index)) : session.store.All p := by
  constructor
  · intro id name value found
    obtain ⟨index, rfl⟩ := h.values id name value found
    exact natives index
  · intro index name value found
    rw [h.fields] at found
    cases found

theorem passive_start {natives : List Native} (passive : ∀ native ∈ natives, native.Passive) :
    ∀ native ∈ (start natives).natives, native.Passive := by
  intro native member
  rcases mem_natives_foldl member with nothing | member
  · exact absurd nothing (Array.not_mem_empty native)
  · rcases List.mem_cons.mp member with rfl | member
    · exact fun _ _ => .inl trivial
    · exact passive native member

theorem Course.traced {natives : List Native} (passive : ∀ native ∈ natives, native.Passive)
    (course : Course natives programs past machine) : Traced programs past machine := by
  have honest : ∀ native ∈ natives, native.Sound := fun native member =>
    (passive native member).sound
  induction course with
  | @first _ _ statements _ =>
      have fresh : (start natives).Fresh := fresh_initial.foldl (clock :: natives)
      have values : (start natives).store.All
          (Value.Traced [statements] [] (start natives).store.forest) := fresh.all fun _ => trivial
      exact traced_load List.mem_cons_self values fun _ absurd => nomatch absurd
  | step limit now course ih =>
      have settled := course.settled honest
      exact ih.step (passive_start passive) settled.suited settled.placed
  | @next programs _ machine _ _ statements _ _ _ ih =>
      have subset : programs ⊆ statements :: programs := List.subset_cons_self _ _
      have values := ih.values.store.takePrinted.mono fun _ traced =>
        traced.later subset (List.Subset.refl _) (.refl _)
      exact traced_load List.mem_cons_self values ih.memory

end Session

end LoxLang
