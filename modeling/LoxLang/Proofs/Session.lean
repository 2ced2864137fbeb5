import LoxLang.Proofs.Machine.Preservation
import LoxLang.Proofs.Scoping.Lexical
import LoxLang.Session

/-!
Sessions. Whatever sources are run one after the other, the scopes of the running program agree with the
regions of its text at every moment, and no run ends at a fault.
-/

namespace LoxLang

open Scoping

/-! ## Accepted sources -/

theorem mark?_of_clean {limit : Nat} {final : Token} {statements : List Stmt}
    (clean : (mark limit final statements).errors = []) :
    mark? limit statements = some (mark limit final statements) := by
  unfold mark at clean ⊢
  cases hmark : mark? limit statements with
  | none =>
      rw [hmark] at clean
      cases clean
  | some marked => rfl

/-- A source is accepted if its tokens, its grammar and its scopes are without errors. -/
theorem prepare_eq_ok_iff {limit : Nat} {source : String} {statements : List Stmt} :
    prepare limit source = .ok statements ↔ (Tokens.ofText source).errors = [] ∧
      ∃ program, Program.ofTokens limit (Tokens.ofText source).tokens = ⟨program, []⟩ ∧
        mark? limit program = some ⟨statements, []⟩ := by
  generalize htokens : Tokens.ofText source = tokens
  generalize hread : Program.ofTokens limit tokens.tokens = read
  obtain ⟨program, errors⟩ := read
  constructor
  · intro h
    simp only [prepare, htokens, hread] at h
    split at h
    · next none =>
      obtain ⟨scanned, parsed⟩ := List.append_eq_nil_iff.mp none
      cases List.map_eq_nil_iff.mp parsed
      split at h
      · next clean =>
        cases h
        refine ⟨List.map_eq_nil_iff.mp scanned, program, rfl, ?_⟩
        rw [mark?_of_clean clean, ← clean]
      · cases h
    · cases h
  · rintro ⟨scanned, _, same, marked⟩
    cases same
    simp only [prepare, htokens, hread, scanned, mark, marked]
    rfl

theorem fits_of_prepare {limit : Nat} {source : String} {statements : List Stmt}
    (h : prepare limit source = .ok statements) {place : Place} (stands : Stands statements place) :
    Fits True place := by
  obtain ⟨-, program, read, marked⟩ := prepare_eq_ok_iff.mp h
  have wellFormed := Program.wellFormed_ofTokens limit (Tokens.spelled_ofText source)
  rw [read] at wellFormed
  obtain ⟨-, everywhere⟩ := markedStmts_of_mark? wellFormed marked
  obtain ⟨located, allowed, distinct⟩ := everywhere place stands
  exact ⟨located, fun _ => allowed rfl, fun _ => distinct rfl⟩

/-- Every place in the statements of a source without errors is as the static rules allow. -/
theorem allowed_of_prepare {limit : Nat} {source : String} {statements : List Stmt}
    (h : prepare limit source = .ok statements) :
    ∀ place, Stands statements place → place.Allowed :=
  fun _ stands => (fits_of_prepare h stands).2.1 trivial

/-- Every use of a name in a source without errors is marked as it should be. -/
theorem located_of_prepare {limit : Nat} {source : String} {statements : List Stmt}
    (h : prepare limit source = .ok statements) :
    ∀ place, Stands statements place → place.Located :=
  fun _ stands => (fits_of_prepare h stands).1

/-- What is declared in a source without errors is new where it is declared. -/
theorem distinct_of_prepare {limit : Nat} {source : String} {statements : List Stmt}
    (h : prepare limit source = .ok statements) :
    ∀ place, Stands statements place → place.Distinct :=
  fun _ stands => (fits_of_prepare h stands).2.2 trivial

theorem accepted_cons {limit : Nat} {source : String} {statements : List Stmt}
    {programs : List (List Stmt)} (h : prepare limit source = .ok statements)
    (others : Accepted programs) : Accepted (statements :: programs) := by
  intro place ⟨program, member, stands⟩
  rcases List.mem_cons.mp member with rfl | member
  · exact allowed_of_prepare h place stands
  · exact others place ⟨program, member, stands⟩

/-! ## Runs -/

/-- The node that is about to be evaluated or executed. -/
def Control.node? : Control → Option Node
  | .eval part => some (.expr part)
  | .exec part => some (.stmt part)
  | _ => none

namespace Session

/-- The machines that come up while statements are run in a session. Time may pass between any two steps. -/
inductive Runs (session : Session) (limit : Nat) (statements : List Stmt) : Machine → Prop
  | load : Runs session limit statements (.load statements session.store)
  | step {machine : Machine} (now : Float) :
      Runs session limit statements machine →
      Runs session limit statements (machine.step ⟨session.natives, limit, now⟩)

/-- The sessions that come up, each with the programs that were run in it, last one first. A source with
errors leaves a session as it was. -/
inductive Reached (natives : List Native) : List (List Stmt) → Session → Prop
  | start : Reached natives [] (start natives)
  | run {programs : List (List Stmt)} {session : Session} {limit : Nat} {source : String}
      {statements : List Stmt} {machine : Machine} (now : Float) :
      Reached natives programs session → prepare limit source = .ok statements →
      session.Runs limit statements machine → machine.isFinal = true →
      Reached natives (statements :: programs)
        (unload ⟨session.natives, limit, now⟩ machine).2

structure Sound (programs : List (List Stmt)) (session : Session) : Prop where
  store : session.store.Sound programs
  natives : ∀ native ∈ session.natives, native.Sound

/-- A session in which nothing has run binds natives only, whatever their names are. -/
structure Fresh (session : Session) : Prop where
  root : session.store.forest.enclosing? Forest.globals = none
  inside : Forest.globals < session.store.forest.next
  values : ∀ id name value, (session.store.forest.bindings id).get? name = some value →
    ∃ index, value = .native index
  fields : ∀ index name, session.store.field? index name = none

theorem Fresh.addNative {session : Session} (h : session.Fresh) (native : Native) :
    (session.addNative native).Fresh where
  root := by
    change (session.store.forest.define _ _ _).enclosing? Forest.globals = none
    rw [Forest.enclosing?_define, h.root]
  inside := by
    change Forest.globals < (session.store.forest.define _ _ _).next
    rw [Forest.next_define]
    exact h.inside
  values := by
    intro id name value found
    rcases Forest.get?_define found with same | old
    · exact ⟨_, same⟩
    · exact h.values id name value old
  fields := h.fields

theorem Fresh.foldl {session : Session} (h : session.Fresh) (natives : List Native) :
    (natives.foldl Session.addNative session).Fresh := by
  induction natives generalizing session with
  | nil => exact h
  | cons native natives ih => exact ih (h.addNative native)

theorem fresh_initial : (Session.mk #[] .initial).Fresh where
  root := rfl
  inside := Nat.zero_lt_one
  values := by
    intro id name value found
    cases id with
    | zero => cases found
    | succ id => cases found
  fields := fun _ _ => rfl

theorem Fresh.sound {session : Session} (h : session.Fresh) (programs : List (List Stmt)) :
    session.store.Sound programs where
  root := h.root
  inside := h.inside
  values := by
    intro id name value found
    obtain ⟨index, rfl⟩ := h.values id name value found
    trivial
  fields := by
    intro index name value found
    rw [h.fields] at found
    cases found

theorem mem_natives_foldl {session : Session} {natives : List Native} {native : Native}
    (h : native ∈ (natives.foldl addNative session).natives) :
    native ∈ session.natives ∨ native ∈ natives := by
  induction natives generalizing session with
  | nil => exact .inl h
  | cons first rest ih =>
      rcases ih h with member | member
      · rcases Array.mem_push.mp member with member | rfl
        · exact .inl member
        · exact .inr List.mem_cons_self
      · exact .inr (List.mem_cons_of_mem _ member)

theorem sound_start {natives : List Native} (honest : ∀ native ∈ natives, native.Sound) :
    (start natives).Sound [] where
  store := (fresh_initial.foldl _).sound []
  natives := by
    intro native member
    rcases mem_natives_foldl member with nothing | member
    · exact absurd nothing (Array.not_mem_empty native)
    · rcases List.mem_cons.mp member with rfl | member
      · exact fun _ _ _ _ _ => trivial
      · exact honest native member

theorem Runs.sound {session : Session} {programs : List (List Stmt)} {limit : Nat}
    {statements : List Stmt} {machine : Machine} (h : session.Sound programs)
    (accepted : Accepted (statements :: programs)) (runs : session.Runs limit statements machine) :
    machine.Sound (statements :: programs) := by
  induction runs with
  | load =>
      have hstore := h.store.mono (List.subset_cons_self statements programs)
      have stands : StandsIn (statements :: programs) ⟨.start, .statements statements⟩ :=
        ⟨statements, List.mem_cons_self, .refl⟩
      have agrees : session.store.forest.Agrees Forest.globals .start :=
        .global hstore.root hstore.inside fun _ absurd => nomatch absurd
      exact Machine.sound_done hstore .normal agrees (.cons (.program stands) .nil)
  | step now _ ih => exact Machine.sound_step accepted h.natives ih

theorem Reached.sound {natives : List Native} (honest : ∀ native ∈ natives, native.Sound)
    {programs : List (List Stmt)} {session : Session} (reached : Reached natives programs session) :
    session.Sound programs ∧ Accepted programs := by
  induction reached with
  | start =>
      refine ⟨sound_start honest, fun place stands => ?_⟩
      obtain ⟨program, absurd, -⟩ := stands
      cases absurd
  | @run programs session limit source statements machine now _ prepared runs _ ih =>
      obtain ⟨hsession, accepted⟩ := ih
      have all := accepted_cons prepared accepted
      have last := runs.sound hsession all
      exact ⟨⟨last.store.takePrinted, hsession.natives⟩, all⟩

theorem Runs.advance {session : Session} {limit : Nat} {statements : List Stmt}
    {machine : Machine} (now : Float) (fuel : Nat) (h : session.Runs limit statements machine) :
    session.Runs limit statements (machine.advance ⟨session.natives, limit, now⟩ fuel) := by
  induction fuel generalizing machine with
  | zero => exact h
  | succ fuel ih =>
      rw [Machine.advance]
      split
      · exact h
      · exact ih (.step now h)

theorem runs_of_execute? {setting : Setting} {session next : Session} {statements : List Stmt}
    {run : LoxLang.Run} (h : session.execute? setting statements = some (run, next)) :
    ∃ machine, session.Runs setting.depthLimit statements machine ∧ machine.isFinal = true ∧
      unload ⟨session.natives, setting.depthLimit, setting.now⟩ machine = (run, next) := by
  obtain ⟨machine, hrun, hunload⟩ := Option.map_eq_some_iff.mp h
  simp only [Machine.run?] at hrun
  split at hrun
  · next final =>
    cases hrun
    exact ⟨_, Runs.load.advance setting.now setting.fuel, final, hunload⟩
  · cases hrun

theorem errors_of_sound {programs : List (List Stmt)} {machine : Machine} (host : Host)
    (h : machine.Sound programs) : ∃ errors, (unload host machine).1.errors = .ok errors := by
  obtain ⟨control, frames, scope, height, store⟩ := machine
  obtain ⟨-, hcontrol⟩ := h
  cases control with
  | failed interruption =>
      obtain ⟨error, rfl⟩ := hcontrol
      exact ⟨_, rfl⟩
  | eval _ | exec _ | value _ | done _ => exact ⟨_, rfl⟩

theorem stands_of_sound {programs : List (List Stmt)} {machine : Machine}
    (h : machine.Sound programs) {node : Node} (hnode : machine.control.node? = some node) :
    ∃ regions, StandsIn programs ⟨regions, node⟩ ∧
      machine.store.forest.Agrees machine.scope regions := by
  obtain ⟨control, frames, scope, height, store⟩ := machine
  obtain ⟨-, hcontrol⟩ := h
  cases control with
  | eval expr =>
      cases hnode
      obtain ⟨regions, agrees, stands, -⟩ := hcontrol
      exact ⟨regions, stands, agrees⟩
  | exec stmt =>
      cases hnode
      obtain ⟨regions, agrees, stands, -⟩ := hcontrol
      exact ⟨regions, stands, agrees⟩
  | value _ | done _ | failed _ => cases hnode

theorem no_fault_of_sound {programs : List (List Stmt)} {machine : Machine}
    (h : machine.Sound programs) (fault : Fault) : machine.control ≠ .failed (.fault fault) := by
  intro hfault
  have hcontrol := h.control
  rw [hfault] at hcontrol
  obtain ⟨error, absurd⟩ := hcontrol
  cases absurd

/-- No source ends at a fault, and what is left is again a session that comes up. -/
theorem Reached.run? {natives : List Native} (honest : ∀ native ∈ natives, native.Sound)
    {programs : List (List Stmt)} {session : Session} (reached : Reached natives programs session)
    {setting : Setting} {source : String} {report : Report} {next : Session}
    (ran : session.run? setting source = some (report, next)) :
    (∃ errors, report.errors = .ok errors) ∧ ∃ later, Reached natives later next := by
  obtain ⟨hsession, accepted⟩ := reached.sound honest
  -- A source with errors is not run; any other one is run as an accepted one.
  unfold Session.run? at ran
  cases prepared : prepare setting.depthLimit source with
  | error errors =>
      rw [prepared] at ran
      cases ran
      exact ⟨⟨errors, rfl⟩, programs, reached⟩
  | ok statements =>
      rw [prepared] at ran
      obtain ⟨⟨run, last⟩, hexecute, same⟩ := Option.map_eq_some_iff.mp ran
      cases same
      obtain ⟨machine, runs, final, hunload⟩ := runs_of_execute? hexecute
      have sound := runs.sound hsession (accepted_cons prepared accepted)
      obtain ⟨errors, herrors⟩ :=
        errors_of_sound ⟨session.natives, setting.depthLimit, setting.now⟩ sound
      have later := Reached.run setting.now reached prepared runs final
      rw [hunload] at herrors later
      exact ⟨⟨errors, herrors⟩, _, later⟩

/-- While an accepted source runs, the node that is evaluated or executed stands in one of the accepted sources
of the session, and the chain of scopes from the current one agrees with the regions around the node: one
scope for each local region, in the same order, and then the globals, each holding the names that its
region holds there. So no source ends at a fault, whatever ran before it. -/
theorem scopes_agree {natives : List Native} (honest : ∀ native ∈ natives, native.Sound)
    {programs : List (List Stmt)} {session : Session}
    (reached : Reached natives programs session) :
    (∀ limit source statements, prepare limit source = .ok statements →
      ∀ machine, session.Runs limit statements machine →
        (∀ node, machine.control.node? = some node →
          ∃ program ∈ statements :: programs, ∃ regions, Stands program ⟨regions, node⟩ ∧
            machine.store.forest.Agrees machine.scope regions) ∧
        ∀ fault, machine.control ≠ .failed (.fault fault)) ∧
    ∀ setting source report next, session.run? setting source = some (report, next) →
      (∃ errors, report.errors = .ok errors) ∧ ∃ later, Reached natives later next := by
  obtain ⟨hsession, accepted⟩ := reached.sound honest
  refine ⟨fun limit source statements prepared machine runs => ?_,
    fun setting source report next ran => reached.run? honest ran⟩
  have sound := runs.sound hsession (accepted_cons prepared accepted)
  refine ⟨fun node hnode => ?_, no_fault_of_sound sound⟩
  obtain ⟨regions, ⟨program, member, stands⟩, agrees⟩ := stands_of_sound sound hnode
  exact ⟨program, member, regions, stands, agrees⟩

/-- A native that answers with its argument. -/
def same : Native :=
  ⟨"same", 1, fun _ arguments => arguments.headD .nil⟩

theorem sound_same : same.Sound := by
  intro programs forest now arguments h
  cases arguments with
  | nil => trivial
  | cons argument rest => exact h argument List.mem_cons_self

/-- A function that is called outside the function in which it was made. -/
def closureSource : String :=
  "fun f(x)\x7bfun g()\x7breturn x;\x7d return g;\x7d print f(same)();"

theorem scopes_agree_closure :
    ∃ statements, prepare 40 closureSource = .ok statements ∧
      ∀ machine, (start [same]).Runs 40 statements machine →
        ∀ node, machine.control.node? = some node →
          ∃ program ∈ [statements], ∃ regions, Stands program ⟨regions, node⟩ ∧
            machine.store.forest.Agrees machine.scope regions := by
  have honest : ∀ native ∈ [same], native.Sound := by
    intro native member
    rw [List.mem_singleton.mp member]
    exact sound_same
  have accepted : (prepare 40 closureSource).toBool = true := by decide +kernel
  cases prepared : prepare 40 closureSource with
  | error errors =>
      rw [prepared] at accepted
      cases accepted
  | ok statements =>
      refine ⟨statements, rfl, fun machine runs => ?_⟩
      exact ((scopes_agree honest .start).1 40 closureSource statements prepared machine runs).1

end Session

end LoxLang
