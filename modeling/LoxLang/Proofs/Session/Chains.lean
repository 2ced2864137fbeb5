import LoxLang.Proofs.Machine.Founding

/-!
Chains never close, whatever programs a session runs and however these are marked: names that `super` or a clause
refers to may be bound again at any time, but links may not. Every scope lies in an earlier one and every class has
an earlier superclass, from when it is made until the session ends, so that each search along these links ends.
-/

namespace LoxLang

namespace Session

/-- Where a session is: between two programs, or within one. -/
inductive Phase where
  | idle (session : Session)
  | busy (natives : Array Native) (machine : Machine)

namespace Phase

def store : Phase → Store
  | .idle session => session.store
  | .busy _ machine => machine.store

/-- What happens next in a session. Statements may have any marks, or none; limits and time may change with each
step. -/
inductive Proceeds : Phase → Phase → Prop
  | native {session : Session} {native : Native} :
      native.Passive → Proceeds (.idle session) (.idle (session.addNative native))
  | load {session : Session} (statements : List Stmt) :
      Proceeds (.idle session) (.busy session.natives (.load statements session.store))
  | step {natives : Array Native} {machine : Machine} (limit : Nat) (now : Float) :
      Proceeds (.busy natives machine) (.busy natives (machine.step ⟨natives, limit, now⟩))
  | unload {natives : Array Native} {machine : Machine} (limit : Nat) (now : Float) :
      machine.isFinal = true →
      Proceeds (.busy natives machine) (.idle (Session.unload ⟨natives, limit, now⟩ machine).2)

/-- The phases from one on. -/
abbrev Leads : Phase → Phase → Prop :=
  Relation.ReflTransGen Proceeds

/-- The phases that come up in a session. -/
def Reached (phase : Phase) : Prop :=
  (idle ⟨#[], .initial⟩).Leads phase

/-- A value is bound to a name, or to a field, or is at hand in the course of a program. -/
inductive Holds : Phase → Value → Prop
  | bound {phase : Phase} {id : ScopeId} {name : String} {value : Value} :
      (phase.store.forest.bindings id).get? name = some value → Holds phase value
  | field {phase : Phase} {index : Nat} {name : String} {value : Value} :
      phase.store.field? index name = some value → Holds phase value
  | current {natives : Array Native} {machine : Machine} {value : Value} :
      value ∈ machine.control.values → Holds (.busy natives machine) value
  | awaited {natives : Array Native} {machine : Machine} {frame : Frame} {value : Value} :
      frame ∈ machine.frames → value ∈ frame.values → Holds (.busy natives machine) value

/-- A class can be got at, by itself, from an instance or from a class below it. -/
inductive Knows (phase : Phase) : ClassValue → Prop
  | «class» {kind : ClassValue} : phase.Holds (.class kind) → Knows phase kind
  | «instance» {object : Instance} : phase.Holds (.instance object) → Knows phase object.kind
  | superclass {kind parent : ClassValue} : Knows phase kind → kind.superclass? = some parent → Knows phase parent

def Founded (kinds : List ClassValue) : Phase → Prop
  | .idle ⟨natives, store⟩ =>
      (∀ native ∈ natives, native.Passive) ∧ store.Layered kinds ∧ store.All (Value.Founded kinds store.forest.next)
  | .busy natives machine => (∀ native ∈ natives, native.Passive) ∧ machine.Founded kinds

variable {phase later : Phase} {kinds : List ClassValue} {kind other parent : ClassValue}

theorem leads_advance {natives : Array Native} (machine : Machine) (limit : Nat) (now : Float) (fuel : Nat) :
    (busy natives machine).Leads (busy natives (machine.advance ⟨natives, limit, now⟩ fuel)) := by
  induction fuel generalizing machine with
  | zero => exact .refl
  | succ fuel ih =>
      rw [Machine.advance]
      split
      · exact .refl
      · exact .head (.step limit now) (ih _)

theorem founded_initial : (idle ⟨#[], .initial⟩).Founded [] := by
  refine ⟨fun native member => absurd member (Array.not_mem_empty native), ?_, fresh_initial.all fun _ => trivial⟩
  have root : ∀ outer ∈ (none : Option ScopeId), outer < Forest.next ⟨#[]⟩ := nofun
  have ordered : Store.initial.forest.Ordered := Forest.ordered_none.add root
  exact ⟨ordered, Nat.zero_lt_one, .none, nofun, nofun⟩

theorem holds_of_idle {session : Session} {p : Value → Prop} (h : session.store.All p) {value : Value}
    (holds : (idle session).Holds value) : p value := by
  cases holds with
  | bound found => exact h.bindings _ _ _ found
  | field found => exact h.fields _ _ _ found

theorem holds_of_busy {natives : Array Native} {machine : Machine} {p : Value → Prop} (h : machine.All p)
    {value : Value} (holds : (busy natives machine).Holds value) : p value := by
  cases holds with
  | bound found => exact h.store.bindings _ _ _ found
  | field found => exact h.store.fields _ _ _ found
  | current member => exact h.control _ member
  | awaited inside member => exact h.frames _ inside _ member

namespace Founded

theorem layered (h : phase.Founded kinds) : phase.store.Layered kinds := by
  cases phase with
  | idle session => exact h.2.1
  | busy natives machine => exact h.2.layered

theorem holds (h : phase.Founded kinds) {value : Value} (holds : phase.Holds value) :
    value.Founded kinds phase.store.forest.next := by
  cases phase with
  | idle session => exact holds_of_idle h.2.2 holds
  | busy natives machine => exact holds_of_busy h.2.values holds

theorem knows (h : phase.Founded kinds) (knows : phase.Knows kind) : kind ∈ kinds := by
  induction knows with
  | «class» holds | «instance» holds => exact h.holds holds
  | superclass _ link ih => exact (h.layered.pedigree.superclass ih link).1

theorem proceeds (h : phase.Founded kinds) (proceeds : phase.Proceeds later) :
    phase.store.Unfolds later.store ∧ ∃ more, kinds <:+ more ∧ later.Founded more := by
  cases proceeds with
  | @native session native passive =>
      obtain ⟨passives, layered, values⟩ := h
      have unfolds : session.store.Unfolds (session.addNative native).store := .define _ _ _ .refl
      refine ⟨unfolds, kinds, List.suffix_refl _, fun other member => ?_, layered.later unfolds, ?_⟩
      · rcases Array.mem_push.mp member with member | rfl
        · exact passives other member
        · exact passive
      · exact (values.mono fun _ value => value.later (List.Subset.refl _) unfolds.next).define _ _ trivial
  | load statements =>
      obtain ⟨passives, layered, values⟩ := h
      exact ⟨.refl, kinds, List.suffix_refl _, passives, Machine.founded_load layered values statements⟩
  | @step natives machine limit now =>
      obtain ⟨passives, founded⟩ := h
      let host : Host := ⟨natives, limit, now⟩
      have passive : ∀ native ∈ host.natives, native.Passive := passives
      obtain ⟨more, suffix, next⟩ := founded.step passive
      exact ⟨(Machine.rests_step _ founded).unfolds, more, suffix, passives, next⟩
  | @unload natives machine limit now final =>
      obtain ⟨passives, founded⟩ := h
      have unfolds : machine.store.Unfolds machine.store.takePrinted.2 := .keep .refl rfl (Nat.le_refl _)
      exact ⟨unfolds, kinds, List.suffix_refl _, passives, founded.layered.later unfolds,
        founded.values.store.takePrinted⟩

theorem leads (h : phase.Founded kinds) (leads : phase.Leads later) :
    phase.store.Unfolds later.store ∧ ∃ more, kinds <:+ more ∧ later.Founded more := by
  induction leads with
  | refl => exact ⟨.refl, kinds, List.suffix_refl _, h⟩
  | tail _ next ih =>
      obtain ⟨unfolds, more, suffix, founded⟩ := ih
      obtain ⟨unfolds', most, suffix', founded'⟩ := founded.proceeds next
      exact ⟨unfolds.trans unfolds', most, suffix.trans suffix', founded'⟩

end Founded

/-! ## New classes -/

/-- A class was known, or it is made now and has a superclass that was known, if it has one. -/
def Emerges (phase : Phase) (kind : ClassValue) : Prop :=
  phase.Knows kind ∨
    kind.own.stamp = phase.store.stamp ∧ ∀ parent, kind.superclass? = some parent → phase.Knows parent

/-- All classes that a value leads to emerge. -/
def Shows (phase : Phase) : Value → Prop
  | .class kind => phase.Emerges kind
  | .instance object => phase.Emerges object.kind
  | _ => True

theorem shows_of_holds {value : Value} (holds : phase.Holds value) : phase.Shows value := by
  cases value with
  | «class» kind => exact .inl (.class holds)
  | «instance» object => exact .inl (.instance holds)
  | _ => trivial

theorem shows_of_isPlain {value : Value} (plain : value.IsPlain) : phase.Shows value := by
  cases value with
  | nil | bool _ | number _ | text _ => trivial
  | _ => exact plain.elim

theorem shows_store (phase : Phase) : phase.store.All phase.Shows :=
  ⟨fun _ _ _ found => shows_of_holds (.bound found), fun _ _ _ found => shows_of_holds (.field found)⟩

theorem shows_machine (natives : Array Native) (machine : Machine) :
    machine.All (busy natives machine).Shows where
  control := fun _ member => shows_of_holds (.current member)
  frames := fun _ inside _ member => shows_of_holds (.awaited inside member)
  store := shows_store (busy natives machine)

theorem shows_made {host : Host} {machine : Machine} {natives : Array Native}
    (passive : ∀ native ∈ host.natives, native.Passive) {value : Value} (makes : machine.Makes host value) :
    (busy natives machine).Shows value := by
  have all := shows_machine natives machine
  cases makes with
  | @answer _ native arguments calling found =>
      rcases passive native (Array.mem_of_getElem? found) host.now arguments with plain | member
      · exact shows_of_isPlain plain
      · exact (all.call calling).2 _ member
  | @«class» name superclass methods declares =>
      refine .inr ⟨rfl, fun parent link => ?_⟩
      rw [Store.superclass?_classMade] at link
      cases declares with
      | base => cases link
      | derived control =>
          cases link
          refine .class (.current ?_)
          rw [control]
          exact List.mem_cons_self
  | function | method => trivial
  | «instance» calling => exact (all.call calling).1
  | plain plain => exact shows_of_isPlain plain

theorem Founded.emerges (h : phase.Founded kinds) (proceeds : phase.Proceeds later) (knows : later.Knows kind) :
    phase.Emerges kind := by
  have shows {value : Value} (holds : later.Holds value) : phase.Shows value := by
    cases proceeds with
    | @native session native passive =>
        have all : (session.addNative native).store.All (idle session).Shows :=
          (shows_store (idle session)).define _ _ trivial
        exact holds_of_idle all holds
    | @load session statements =>
        have all := shows_store (idle session)
        exact holds_of_busy ⟨nofun, List.forall_mem_singleton.mpr nofun, all⟩ holds
    | @step natives machine limit now =>
        have made (value : Value) (makes : machine.Makes ⟨natives, limit, now⟩ value) :
            (busy natives machine).Shows value := shows_made h.1 makes
        exact holds_of_busy (Machine.all_step (shows_machine natives machine) made) holds
    | @unload natives machine limit now final =>
        exact holds_of_idle (shows_store (busy natives machine)).takePrinted holds
  induction knows with
  | «class» holds | «instance» holds => exact shows holds
  | superclass _ link ih =>
      rcases ih with known | ⟨-, parents⟩
      · exact .inl (.superclass known link)
      · exact .inl (parents _ link)

/-! ## Chains -/

/-- What holds of the links that there are while a session is in a phase. -/
structure Linked (phase : Phase) : Prop where
  scopes : ∀ id outer, phase.store.forest.enclosing? id = some outer → outer < id
  scopeChains : ∀ id, ∃ chain, phase.store.forest.Leads id chain
  stamps : ∀ kind, phase.Knows kind → kind.own.stamp < phase.store.stamp
  classes : ∀ kind parent, phase.Knows kind → kind.superclass? = some parent →
    phase.Knows parent ∧ parent.own.stamp < kind.own.stamp
  classChains : ∀ kind, phase.Knows kind → ∃ chain, kind.Leads chain

/-- The links of a phase are the same later. -/
structure Stays (phase later : Phase) : Prop where
  scopes : phase.store.forest.next ≤ later.store.forest.next
  enclosing : ∀ id < phase.store.forest.next, later.store.forest.enclosing? id = phase.store.forest.enclosing? id
  stamps : phase.store.stamp ≤ later.store.stamp
  classes : ∀ kind other, phase.Knows kind → later.Knows other → other.own.stamp = kind.own.stamp → other = kind

theorem Founded.linked (h : phase.Founded kinds) : phase.Linked where
  scopes := h.layered.ordered.earlier
  scopeChains := h.layered.ordered.leads
  stamps := fun _ knows => h.layered.below _ (h.knows knows)
  classes := fun _ _ knows link => ⟨.superclass knows link, (h.layered.pedigree.superclass (h.knows knows) link).2⟩
  classChains := fun _ knows => h.layered.pedigree.leads (h.knows knows)

theorem Founded.stays (h : phase.Founded kinds) (leads : phase.Leads later) : phase.Stays later := by
  obtain ⟨unfolds, more, suffix, founded⟩ := h.leads leads
  exact ⟨unfolds.next, fun _ inside => unfolds.enclosing inside, unfolds.stamp, fun _ _ before after same =>
    founded.layered.pedigree.unique (suffix.subset (h.knows before)) (founded.knows after) same⟩

end Phase

/-- The links from scopes and classes lead to earlier ones as long as a session lasts and do not change, and what is
new is linked to what was there. So all searches along them end. -/
theorem chains_never_close {phase : Phase} (reached : phase.Reached) :
    phase.Linked ∧ (∀ later, phase.Proceeds later → ∀ kind, later.Knows kind → phase.Emerges kind) ∧
      ∀ later, phase.Leads later → phase.Stays later := by
  obtain ⟨-, kinds, -, founded⟩ := Phase.founded_initial.leads reached
  exact ⟨founded.linked, fun _ proceeds _ knows => founded.emerges proceeds knows, fun _ leads => founded.stays leads⟩

/-- A class, and one of the same name that is derived from it; no name is marked. -/
def heirStatements : List Stmt :=
  [.class ⟨.identifier, "A", .none, 1⟩ none [],
    .class ⟨.identifier, "A", .none, 2⟩ (some (.unmarked ⟨.identifier, "A", .none, 2⟩)) []]

def heirMachine : Machine :=
  .advance ⟨#[], 40, 0⟩ 6 (.load heirStatements .initial)

/-- The stamps of what a name stands for, if it stands for a class, and of the classes above it. -/
def heirStamps : Option (List Nat) :=
  match (heirMachine.store.forest.bindings Forest.globals).get? "A" with
  | some (.class kind) => some (kind.layers.map Layer.stamp)
  | _ => none

theorem chains_never_close_heir :
    ∃ kind parent, (Phase.busy #[] heirMachine).Knows kind ∧ kind.superclass? = some parent ∧
      kind.own.stamp = 1 ∧ parent.own.stamp = 0 ∧ parent.superclass? = none ∧ ∃ chain, kind.Leads chain := by
  have reached : (Phase.busy #[] heirMachine).Reached :=
    .trans (.single (.load heirStatements)) (Phase.leads_advance _ 40 0 6)
  obtain ⟨linked, -, -⟩ := chains_never_close reached
  have stamps : heirStamps = some [1, 0] := by decide +kernel
  unfold heirStamps at stamps
  split at stamps
  · next kind bound =>
    have knows : (Phase.busy #[] heirMachine).Knows kind := .class (.bound bound)
    obtain ⟨own, above⟩ := kind
    obtain ⟨first, rest⟩ := List.cons.inj (Option.some.inj stamps)
    obtain ⟨parent, none, rfl, same, nothing⟩ := List.map_eq_cons_iff.mp rest
    obtain rfl := List.map_eq_nil_iff.mp nothing
    exact ⟨_, ⟨parent, []⟩, knows, rfl, first, same, rfl, linked.classChains _ knows⟩
  · cases stamps

end Session

end LoxLang
