import LoxLang.Proofs.Machine.Fields
import LoxLang.Proofs.Session.Super

/-!
Properties in the course of a session. What is read is the value that was stored last in that very instance, wherever
that was done; where none was ever stored, it is the nearest method of the class of which the instance was made.
-/

namespace LoxLang

variable {natives : List Native} {programs : List (List Stmt)} {past before since : List Moment}
  {born moment : Moment} {machine : Machine} {host : Host} {store : Store} {object : Instance}

namespace Moment

def Creates (moment : Moment) (object : Instance) : Prop :=
  moment.machine.Creates moment.host object

def stores? (moment : Moment) (index : Nat) (name : String) : Option Value :=
  moment.machine.stores? index name

end Moment

/-! ## Steps after each other -/

/-- Each step begins with the fields that the one before it left. -/
inductive Chained : List Moment → Store → Prop
  | none {store : Store} : Chained [] store
  | step {past : List Moment} {moment : Moment} {store : Store} : Chained past moment.machine.store →
      store.fields = (moment.machine.step moment.host).store.fields → Chained (moment :: past) store

namespace Chained

theorem congr {other : Store} (h : Chained past store) (same : other.fields = store.fields) :
    Chained past other := by
  cases h with
  | none => exact .none
  | step chained left => exact .step chained (same.trans left)

theorem earlier (h : Chained (since ++ moment :: before) store) : Chained before moment.machine.store := by
  induction since generalizing store with
  | nil =>
      cases h with
      | step chained _ => exact chained
  | cons last since ih =>
      cases h with
      | step chained _ => exact ih chained

/-- Since an instance was made, a field of it holds what was stored in it last. -/
theorem field? (h : Chained (since ++ born :: before) store) (creates : born.Creates object) (name : String) :
    object.index < store.fields.size ∧
      store.field? object.index name = since.findSome? (·.stores? object.index name) := by
  induction since generalizing store with
  | nil =>
      cases h with
      | step _ left =>
          rw [Store.field?_congr left, left]
          exact creates.field? name
  | cons last since ih =>
      cases h with
      | step chained left =>
          obtain ⟨inside, held⟩ := ih chained
          rw [Store.field?_congr left, left, Machine.field?_step last.host inside, held, List.findSome?_cons]
          refine ⟨Nat.lt_of_lt_of_le inside (Machine.size_fields_step _ _), ?_⟩
          change (last.stores? object.index name).or _ = _
          cases last.stores? object.index name <;> rfl

/-- No index is given to a second instance. -/
theorem once (h : Chained (since ++ born :: before) store) (creates : born.Creates object)
    (member : moment ∈ since ++ before) {other : Instance} (another : moment.Creates other) :
    other.index ≠ object.index := by
  rcases List.mem_append.mp member with inside | inside
  · -- A later step finds the index taken.
    obtain ⟨after, between, rfl⟩ := List.append_of_mem inside
    rw [List.append_assoc, List.cons_append] at h
    have inside := (h.earlier.field? creates "").1
    rw [another.index]
    exact Nat.ne_of_gt inside
  · -- What an earlier step made was there when this instance was made.
    obtain ⟨between, first, rfl⟩ := List.append_of_mem inside
    have inside := (h.earlier.field? another "").1
    rw [creates.index]
    exact Nat.ne_of_lt inside

end Chained

namespace Session

theorem Course.chained (course : Course natives programs past machine) : Chained past machine.store := by
  induction course with
  | first => exact .none
  | step limit now _ ih => exact .step ih rfl
  | next _ _ _ ih => exact ih.congr rfl

/-- Each step of a course was taken in an earlier stage of it. -/
theorem Course.earlier (course : Course natives programs (since ++ moment :: before) machine) :
    ∃ fewer, fewer ⊆ programs ∧ Course natives fewer before moment.machine := by
  generalize same : since ++ moment :: before = past at course
  induction course generalizing since with
  | first => cases since <;> cases same
  | @step programs past machine limit now course ih =>
      cases since with
      | nil =>
          cases same
          exact ⟨programs, List.Subset.refl _, course⟩
      | cons last since =>
          cases same
          exact ih rfl
  | next _ _ _ ih =>
      obtain ⟨fewer, subset, course⟩ := ih same
      exact ⟨fewer, List.Subset.trans subset (List.subset_cons_self _ _), course⟩

end Session

/-! ## Where instances come from -/

/-- An instance was made in one of the steps. -/
def Value.Created (past : List Moment) : Value → Prop
  | .instance object => ∃ moment ∈ past, moment.Creates object
  | _ => True

theorem Value.Created.later {value : Value} (h : value.Created past) {longer : List Moment} (inside : past ⊆ longer) :
    value.Created longer := by
  cases value with
  | «instance» object =>
      obtain ⟨moment, member, creates⟩ := h
      exact ⟨moment, inside member, creates⟩
  | _ => trivial

theorem Machine.created_step (passive : ∀ native ∈ host.natives, native.Passive)
    (h : machine.All (Value.Created past)) :
    (machine.step host).All (Value.Created (⟨host, machine⟩ :: past)) := by
  have kept := h.mono fun _ created => created.later (List.subset_cons_self ⟨host, machine⟩ past)
  refine Machine.all_step_of_adds kept fun adds value makes => ?_
  cases makes with
  | @answer _ native arguments calling found =>
      rcases passive native (Array.mem_of_getElem? found) host.now arguments with plain | member
      · generalize native.answer host.now arguments = answer at plain
        cases answer with
        | «instance» object => exact plain.elim
        | _ => trivial
      · exact (kept.call calling).2 _ member
  | «instance» calling =>
      exact ⟨⟨host, machine⟩, List.mem_cons_self, Machine.creates_of_size_lt calling (adds _ _ calling)⟩
  | plain plain =>
      cases value with
      | «instance» object => exact plain.elim
      | _ => trivial
  | «class» | function | method => trivial

theorem Session.Course.created (passive : ∀ native ∈ natives, native.Passive)
    (course : Course natives programs past machine) : machine.All (Value.Created past) := by
  induction course with
  | @first _ _ statements _ =>
      have fresh : (start natives).Fresh := fresh_initial.foldl (clock :: natives)
      refine ⟨nofun, fun frame inside => ?_, fresh.all fun _ => trivial⟩
      rw [List.mem_singleton.mp inside]
      exact nofun
  | step limit now _ ih => exact Machine.created_step (passive_start passive) ih
  | next _ _ _ ih =>
      refine ⟨nofun, fun frame inside => ?_, ih.store.takePrinted⟩
      rw [List.mem_singleton.mp inside]
      exact nofun

/-- The step that made an instance, between those before it and those since. No other one made an instance of that
index, and the class and those above it were made by class statements before. -/
structure Origin (programs : List (List Stmt)) (past : List Moment) (object : Instance) where
  before : List Moment
  born : Moment
  since : List Moment
  split : past = since ++ born :: before
  creates : born.Creates object
  once : ∀ moment ∈ since ++ before, ∀ other, moment.Creates other → other.index ≠ object.index
  kind : object.kind.Made programs before

theorem Session.Course.origin (passive : ∀ native ∈ natives, native.Passive)
    (course : Course natives programs past machine) (created : Value.Created past (.instance object)) :
    Nonempty (Origin programs past object) := by
  obtain ⟨born, member, creates⟩ := created
  obtain ⟨since, before, rfl⟩ := List.append_of_mem member
  obtain ⟨fewer, subset, stage⟩ := course.earlier
  obtain ⟨arguments, calling⟩ := creates.call
  have made : object.kind.Made fewer before := ((stage.traced passive).values.call calling).1
  exact ⟨before, born, since, rfl, creates,
    fun _ inside _ another => course.chained.once creates inside another,
    made.weaken subset (List.Subset.refl _)⟩

/-- An instance is told from others by its index. -/
theorem Origin.unique (origin : Origin programs past object) {other : Instance}
    (created : Value.Created past (.instance other)) (same : other.index = object.index) : other = object := by
  obtain ⟨moment, member, creates⟩ := created
  rw [origin.split, List.mem_append, List.mem_cons] at member
  have elsewhere (inside : moment ∈ origin.since ++ origin.before) : other = object :=
    absurd same (origin.once moment inside other creates)
  rcases member with inside | rfl | inside
  · exact elsewhere (List.mem_append_left _ inside)
  · obtain ⟨arguments, calling⟩ := origin.creates.call
    obtain ⟨arguments', calling'⟩ := creates.call
    obtain ⟨index, kind⟩ := object
    obtain ⟨index', kind'⟩ := other
    rw [calling] at calling'
    cases calling'
    cases same
    rfl
  · exact elsewhere (List.mem_append_right _ inside)

/-! ## Reading -/

/-- The object of a property is known, and the property is read next. -/
def Machine.Reads (machine : Machine) (object : Instance) (name : Token) : Prop :=
  machine.control = .value (.instance object) ∧ ∃ frames, machine.frames = .get name :: frames

/-- Of the steps, last ones first, one stored the value in the field, and no later one stored any there. -/
def LastStored (since : List Moment) (index : Nat) (name : String) (value : Value) : Prop :=
  ∃ after moment before, since = after ++ moment :: before ∧ moment.stores? index name = some value ∧
    ∀ other ∈ after, other.stores? index name = none

def NeverStored (since : List Moment) (index : Nat) (name : String) : Prop :=
  ∀ moment ∈ since, moment.stores? index name = none

/-- The stack has a place for each layer of the class in which a method is looked for. -/
def Machine.Roomy (host : Host) (machine : Machine) (kind : ClassValue) (name : Token) : Prop :=
  machine.height - 1 + kind.searched name.lexeme ≤ host.heightLimit

/-- What is read in the next step: the value that was stored last, or else the method from the nearest class that has
one, bound to the instance. It is an error if and only if there is neither, or no room to look for a method. -/
structure Machine.Obtains (host : Host) (machine : Machine) (object : Instance) (name : Token)
    (since : List Moment) : Prop where
  stored : ∀ value, LastStored since object.index name.lexeme value →
    machine.step host = ⟨.value value, machine.frames.tail, machine.scope, machine.height - 1, machine.store⟩
  supplied : NeverStored since object.index name.lexeme → machine.Roomy host object.kind name →
    ∀ method, object.kind.Supplies name.lexeme method → ∃ bound : Closure,
      (machine.step host).control = .value (.function bound) ∧
      bound.declaration = method.declaration ∧ bound.isInitializer = method.isInitializer ∧
      (machine.step host).store.forest.BindsThis bound.scope method (.instance object)
  undefined : (machine.step host).control = .failed (.located name (.undefinedProperty name.lexeme)) ↔
    NeverStored since object.index name.lexeme ∧ object.kind.Lacks name.lexeme ∧
      machine.Roomy host object.kind name
  cramped : NeverStored since object.index name.lexeme → ¬ machine.Roomy host object.kind name →
    (machine.step host).control = .failed .stackOverflow

theorem lastStored_iff {index : Nat} {name : String} {value : Value} :
    since.findSome? (·.stores? index name) = some value ↔ LastStored since index name value :=
  List.findSome?_eq_some_iff

theorem neverStored_iff {index : Nat} {name : String} :
    since.findSome? (·.stores? index name) = none ↔ NeverStored since index name :=
  List.findSome?_eq_none_iff

theorem Machine.Reads.step_of_field? {name : Token} {value : Value} (reads : machine.Reads object name)
    (field : machine.store.field? object.index name.lexeme = some value) (host : Host) :
    machine.step host = ⟨.value value, machine.frames.tail, machine.scope, machine.height - 1, machine.store⟩ := by
  obtain ⟨control, frames, hframes⟩ := reads
  obtain ⟨_, _, scope, height, store⟩ := machine
  cases control
  cases hframes
  change store.field? object.index name.lexeme = some value at field
  simp only [step, resumeValue, field]
  rfl

/-- A field that was stored is read as it is, and no method is looked for. -/
theorem Machine.Reads.obtains_field {name : Token} {value : Value} (reads : machine.Reads object name)
    (field : machine.store.field? object.index name.lexeme = some value)
    (found : since.findSome? (·.stores? object.index name.lexeme) = some value) (host : Host) :
    machine.Obtains host object name since := by
  have step := reads.step_of_field? field host
  have stored : ¬ NeverStored since object.index name.lexeme := by
    rw [← neverStored_iff, found]
    nofun
  refine ⟨fun other last => ?_, fun never => absurd never stored, ?_, fun never => absurd never stored⟩
  · rw [← lastStored_iff, found] at last
    cases last
    exact step
  · rw [step]
    exact iff_of_false nofun fun missing => stored missing.1

/-- Where no field was stored, a method is looked for. -/
theorem Machine.Reads.obtains_method {name : Token} (reads : machine.Reads object name)
    (field : machine.store.field? object.index name.lexeme = none)
    (never : NeverStored since object.index name.lexeme) (host : Host) :
    machine.Obtains host object name since := by
  obtain ⟨control, frames, hframes⟩ := reads
  have step := Machine.step_get host control hframes field
  have notLast (value : Value) : ¬ LastStored since object.index name.lexeme value := by
    rw [← lastStored_iff, neverStored_iff.mpr never]
    nofun
  refine ⟨fun value last => absurd last (notLast value), fun _ roomy method supplies => ?_, ?_,
    fun _ cramped => ?_⟩
  · have method? := ClassValue.method?_eq_some_iff.mpr supplies
    rw [step, bindMethod_of_room (Nat.not_lt.mpr roomy), method?]
    exact ⟨_, rfl, rfl, rfl, Forest.bindsThis_add _ _ _⟩
  · rw [step]
    by_cases roomy : machine.Roomy host object.kind name
    · rw [bindMethod_of_room (Nat.not_lt.mpr roomy), ← ClassValue.method?_eq_none_iff]
      cases method? : object.kind.method? name.lexeme with
      | none => exact iff_of_true rfl ⟨never, rfl, roomy⟩
      | some method => exact iff_of_false nofun fun missing => nomatch missing.2.1
    · rw [bindMethod_of_full (Nat.not_le.mp roomy)]
      exact iff_of_false nofun fun missing => roomy missing.2.2
  · rw [step, bindMethod_of_full (Nat.not_le.mp cramped)]

theorem Machine.Reads.obtains {name : Token} (reads : machine.Reads object name)
    (held : machine.store.field? object.index name.lexeme = since.findSome? (·.stores? object.index name.lexeme))
    (host : Host) : machine.Obtains host object name since := by
  cases found : since.findSome? (·.stores? object.index name.lexeme) with
  | some value => exact reads.obtains_field (held.trans found) found host
  | none => exact reads.obtains_method (held.trans found) (neverStored_iff.mp found) host

/-- A property is read when its object is known, and stored when its value is known as well. -/
structure Machine.Accesses (host : Host) (machine : Machine) : Prop where
  get : ∀ part name, machine.control = .eval (.get part name) → machine.height < host.heightLimit →
    (machine.step host).control = .eval part ∧ (machine.step host).frames = .get name :: machine.frames
  set : ∀ part name value, machine.control = .eval (.set part name value) → machine.height < host.heightLimit →
    (machine.step host).control = .eval part ∧
      (machine.step host).frames = .setObject name value :: machine.frames
  object : ∀ object name value frames, machine.control = .value (.instance object) →
    machine.frames = .setObject name value :: frames →
    (machine.step host).control = .eval value ∧ (machine.step host).frames = .setValue object name :: frames
  value : ∀ value object name frames, machine.control = .value value →
    machine.frames = .setValue object name :: frames →
    machine.stores? object.index name.lexeme = some value ∧
      (machine.step host).control = .value value ∧ (machine.step host).frames = frames

theorem Machine.accesses (host : Host) (machine : Machine) : machine.Accesses host := by
  obtain ⟨control, frames, scope, height, store⟩ := machine
  constructor
  · rintro part name rfl room
    simp only [step, if_neg (Nat.not_le.mpr room)]
    exact ⟨rfl, rfl⟩
  · rintro part name value rfl room
    simp only [step, if_neg (Nat.not_le.mpr room)]
    exact ⟨rfl, rfl⟩
  · rintro object name value frames rfl rfl
    exact ⟨rfl, rfl⟩
  · rintro value object name frames rfl rfl
    exact ⟨by rw [stores?_of_setValue rfl rfl, if_pos ⟨rfl, rfl⟩], rfl, rfl⟩

namespace Session

/-- Whenever a property of an instance is read in the course of a session, it yields what was stored last in that very
instance since it was made, whichever way the instance was come by, or else the nearest method of the class of which
it was made, as that class and those above it were made. Nothing but storing under that name in that instance
changes this. -/
theorem reads_last_stored (passive : ∀ native ∈ natives, native.Passive)
    (course : Course natives programs past machine) :
    (∀ object name, machine.Reads object name → ∃ origin : Origin programs past object,
      machine.All (fun value => ∀ other, value = .instance other → other.index = object.index → other = object) ∧
      ∀ host, machine.Obtains host object name origin.since) ∧
    (∀ host, machine.Accesses host) ∧
    ∀ host index name, machine.stores? index name = none →
      (machine.step host).store.field? index name = machine.store.field? index name := by
  refine ⟨fun object name reads => ?_, fun host => machine.accesses host,
    fun host index name => Machine.field?_step_of_stores?_eq_none host⟩
  have created := course.created passive
  have known : Value.Created past (.instance object) := by
    have control := created.control
    rw [reads.1] at control
    exact control _ List.mem_cons_self
  obtain ⟨origin⟩ := course.origin passive known
  have chained := course.chained
  rw [origin.split] at chained
  refine ⟨origin, created.mono ?_, reads.obtains (chained.field? origin.creates name.lexeme).2⟩
  rintro _ another other rfl same
  exact origin.unique another same

/-- A property that is stored by one name of an instance and read by another. -/
def aliasSource : String :=
  "class A \x7b\x7d var a = A(); var b = a; b.n = true; a.n;"

def reads? (machine : Machine) : Option (Instance × Token) :=
  match machine.control, machine.frames with
  | .value (.instance object), .get name :: _ => some (object, name)
  | _, _ => none

theorem reads_of_reads? {name : Token} (h : reads? machine = some (object, name)) : machine.Reads object name := by
  unfold reads? at h
  split at h
  · next control frames =>
    cases h
    exact ⟨control, _, frames⟩
  · cases h

theorem reads_last_stored_alias :
    ∃ programs past machine object name, Course [] programs past machine ∧ machine.Reads object name ∧
      ∃ origin : Origin programs past object, ∀ host, machine.Obtains host object name origin.since := by
  let host : Host := ⟨(start []).natives, 40, 0⟩
  let after (statements : List Stmt) : Machine :=
    .advance host 24 (.load statements (start []).store)
  have reaches : ((prepare 40 aliasSource).toOption.bind (reads? ∘ after)).isSome = true := by
    decide +kernel
  obtain ⟨⟨object, name⟩, atRead⟩ := Option.isSome_iff_exists.mp reaches
  obtain ⟨statements, prepared, found⟩ := Option.bind_eq_some_iff.mp atRead
  have accepted := eq_ok_of_toOption prepared
  have runs : (start []).Runs 40 statements (after statements) := Runs.load.advance 0 24
  have reads := reads_of_reads? found
  obtain ⟨past, course⟩ := Reached.start.course accepted runs
  have passive : ∀ native ∈ ([] : List Native), native.Passive := nofun
  obtain ⟨obtains, -⟩ := reads_last_stored passive course
  obtain ⟨origin, -, each⟩ := obtains object name reads
  exact ⟨_, past, _, object, name, course, reads, origin, each⟩

end Session

end LoxLang
