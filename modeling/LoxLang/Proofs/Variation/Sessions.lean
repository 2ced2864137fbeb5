import LoxLang.Proofs.Session
import LoxLang.Proofs.Variation.Rewording
import LoxLang.Proofs.Variation.Runs

/-!
Variations of sessions. Every session that comes up varies from itself, whatever the two spellings are, because no name
of a global is respelled; so two programs that vary can be run in it side by side.
-/

namespace LoxLang

open Scoping

variable {r : Respelling} {outline : Outline} {before : Array String}

/-- Related arguments get related answers, whatever the relation: nothing that a program cannot tell is told. -/
def Native.Uniform (native : Native) : Prop :=
  ∀ r outline now, native.AnswersVary r outline now now

/-! ## Programs without respelled names -/

/-- A program varies from itself. -/
theorem varies_self {statements : List Stmt}
    (plain : ∀ token ∈ tokensOfStmts statements, r.plain token token) :
    Node.Varies r.variation [false] (.statements statements) (.statements statements) :=
  stmts_varies_self (List.forall_mem_singleton.mpr rfl) statements fun token member =>
    ⟨plain token member, Respelling.named_of_plain (plain token member)⟩

/-! ## Stores of sessions -/

namespace Store.Varies

theorem initial (r : Respelling) :
    Store.initial.Varies r [(none, false)] #[] .initial where
  root := rfl
  next := rfl
  next' := rfl
  link id := by cases id <;> rfl
  link' id := by cases id <;> rfl
  bindings id := by cases id <;> exact .nil
  size := rfl
  fields _ := .none
  stamp := rfl
  printed := rfl

theorem takePrinted {store other : Store} (h : store.Varies r outline before other) :
    store.takePrinted.2.Varies r outline #[] other.takePrinted.2 where
  root := h.root
  next := h.next
  next' := h.next'
  link := h.link
  link' := h.link'
  bindings := h.bindings
  size := h.size
  fields := h.fields
  stamp := h.stamp
  printed := rfl

/-- The lines that are taken from one store were printed before in the other one. -/
theorem takePrinted_left {store other : Store} (h : store.Varies r outline #[] other) :
    store.takePrinted.2.Varies r outline store.printed other where
  root := h.root
  next := h.next
  next' := h.next'
  link := h.link
  link' := h.link'
  bindings := h.bindings
  size := h.size
  fields := h.fields
  stamp := h.stamp
  printed := by
    change other.printed = store.printed ++ #[]
    rw [h.printed, Array.empty_append, Array.append_empty]

end Store.Varies

namespace Session

theorem varies_addNative {session : Session} (h : session.store.Varies r outline #[] session.store)
    (native : Native) :
    (session.addNative native).store.Varies r outline #[] (session.addNative native).store := by
  refine h.define Forest.globals ?_ .native
  rw [h.level_globals]
  rfl

/-- Programs that vary are begun alike. -/
theorem varies_load {store store' : Store} (h : store.Varies r outline before store')
    {statements others : List Stmt} (tail : List Stmt)
    (varies : Node.Varies r.variation [false] (.statements statements) (.statements others)) :
    (Machine.load statements store).Varies r outline before tail
      (.load (others ++ tail) store') :=
  ⟨⟨[false], _, h.leads_globals, .done .normal, .program varies⟩, rfl, rfl, h⟩

theorem answersVary_of_getElem? {session : Session}
    (uniform : ∀ native ∈ session.natives, native.Uniform) {index : Nat} {native : Native}
    (found : session.natives[index]? = some native) (now : Float) :
    native.AnswersVary r outline now now :=
  uniform native (Array.mem_of_getElem? found) r outline now

theorem Runs.varies {session : Session} {limit : Nat} {statements : List Stmt} {machine : Machine}
    (uniform : ∀ native ∈ session.natives, native.Uniform)
    (h : session.store.Varies r outline #[] session.store)
    (plain : ∀ token ∈ tokensOfStmts statements, r.plain token token)
    (runs : session.Runs limit statements machine) :
    Machine.Follow r outline #[] [] machine machine := by
  induction runs with
  | load =>
      have start := varies_load h [] (varies_self plain)
      rw [List.append_nil] at start
      exact start.follow
  | @step machine now _ ih =>
      obtain ⟨more, subset, varies⟩ := ih
      exact (Machine.step_varies ⟨rfl, rfl⟩ varies
        (fun _ _ _ _ found => answersVary_of_getElem? uniform found now)
        fun _ _ _ => rfl).earlier subset

/-- The sessions in which natives have been added and programs have been run, with these programs, last one first. -/
inductive After : List (List Stmt) → Session → Prop
  | new : After [] ⟨#[], .initial⟩
  | native {programs : List (List Stmt)} {session : Session} {native : Native} :
      native.Uniform → After programs session → After programs (session.addNative native)
  | run {programs : List (List Stmt)} {session : Session} {limit : Nat} {statements : List Stmt}
      {machine : Machine} (now : Float) :
      After programs session → session.Runs limit statements machine → machine.isFinal = true →
      After (statements :: programs) (unload ⟨session.natives, limit, now⟩ machine).2

variable {programs : List (List Stmt)} {session : Session}

theorem After.uniform (after : After programs session) :
    ∀ native ∈ session.natives, native.Uniform := by
  induction after with
  | new => exact fun native nothing => absurd nothing (Array.not_mem_empty native)
  | native uniform _ ih =>
      intro other member
      rcases Array.mem_push.mp member with member | rfl
      · exact ih other member
      · exact uniform
  | run _ _ _ _ ih => exact ih

theorem After.varies (after : After programs session)
    (plain : ∀ program ∈ programs, ∀ token ∈ tokensOfStmts program, r.plain token token) :
    ∃ outline, session.store.Varies r outline #[] session.store := by
  induction after with
  | new => exact ⟨_, .initial r⟩
  | native _ _ ih =>
      obtain ⟨outline, h⟩ := ih plain
      exact ⟨outline, varies_addNative h _⟩
  | run now after runs _ ih =>
      obtain ⟨outline, h⟩ := ih fun program member => plain program (List.mem_cons_of_mem _ member)
      obtain ⟨more, -, varies⟩ := runs.varies after.uniform h (plain _ List.mem_cons_self)
      exact ⟨more, varies.store.takePrinted⟩

/-- The clock tells nothing but the time. -/
theorem uniform_clock : clock.Uniform :=
  fun _ _ _ _ _ _ => .number

theorem After.natives {natives : List Native} (uniform : ∀ native ∈ natives, native.Uniform)
    (after : After programs session) : After programs (natives.foldl addNative session) := by
  induction natives generalizing session with
  | nil => exact after
  | cons native natives ih =>
      obtain ⟨first, rest⟩ := List.forall_mem_cons.mp uniform
      exact ih rest (.native first after)

/-- These are the sessions that come up, if the natives are such. -/
theorem Reached.after {natives : List Native} (reached : Reached natives programs session)
    (uniform : ∀ native ∈ natives, native.Uniform) : After programs session := by
  induction reached with
  | start => exact After.new.natives (List.forall_mem_cons.mpr ⟨uniform_clock, uniform⟩)
  | run now _ _ runs final ih => exact ih.run now runs final

end Session

/-! ## What is shown -/

namespace Session

/-- The globals have the same names in the same order, and their values the same texts. -/
def Alike (session other : Session) : Prop :=
  List.Forall₂ (fun entry entry' => entry'.1 = entry.1 ∧ entry'.2.toText = entry.2.toText)
    session.globals other.globals

/-- What a source shows whose statements ended at some machine. -/
def outcome (host : Host) (machine : Machine) : Report × Session :=
  let (run, session) := unload host machine
  (⟨run.printed, run.errors⟩, session)

theorem run?_of_prepare {limit : Nat} {source : String} {statements : List Stmt}
    (accepted : prepare limit source = .ok statements) (session : Session) (now : Float)
    (fuel : Nat) :
    session.run? ⟨limit, now, fuel⟩ source =
      (Machine.run? ⟨session.natives, limit, now⟩ fuel (.load statements session.store)).map
        (outcome ⟨session.natives, limit, now⟩) := by
  unfold run?
  dsimp only
  rw [accepted]
  exact Option.map_map _ _ _

end Session

/-- What is told of an interruption. -/
def Interruption.errors : Interruption → Except Fault (List Error)
  | .error found => .ok [.runtime found]
  | .fault found => .error found

namespace Machine.Varies

open Session

variable {tail : List Stmt} {machine other : Machine}

theorem alike (h : machine.Varies r outline before tail other) (host host' : Host) :
    (outcome host machine).2.Alike (outcome host' other).2 := by
  have bindings := h.store.bindings Forest.globals
  rw [h.store.level_globals] at bindings
  exact bindings.imp fun _ _ ⟨name, value⟩ => ⟨name, value.alike.toText⟩

/-- Machines that vary end with errors alike, if interruptions that vary are told alike. -/
theorem errors (h : machine.Varies r outline before tail other)
    (related : Except Fault (List Error) → Except Fault (List Error) → Prop) (none : related (.ok []) (.ok []))
    (some : ∀ interruption interruption' : Interruption, interruption.Varies r interruption' →
      related interruption.errors interruption'.errors) (host host' : Host) :
    related (outcome host machine).1.errors (outcome host' other).1.errors := by
  have interruptions : Option.Rel (Interruption.Varies r) machine.control.interruption?
      other.control.interruption? := by
    obtain ⟨levels, awaited, -, hcontrol, -⟩ := h.control
    generalize machine.control = control at hcontrol ⊢
    generalize other.control = control' at hcontrol ⊢
    cases hcontrol with
    | failed interruption => exact .some interruption
    | eval _ | exec _ | value _ | done _ => exact .none
  change related (LoxLang.Run.errors ⟨machine.store.printed, machine.control.interruption?⟩)
    (LoxLang.Run.errors ⟨other.store.printed, other.control.interruption?⟩)
  generalize machine.control.interruption? = interruption at interruptions ⊢
  generalize other.control.interruption? = interruption' at interruptions ⊢
  cases interruptions with
  | none => exact none
  | @some interruption interruption' varies =>
      have told := some _ _ varies
      cases interruption <;> cases interruption' <;> exact told

end Machine.Varies

end LoxLang
