import LoxLang.Proofs.Machine.Changes
import LoxLang.Proofs.Machine.Handing
import LoxLang.Proofs.Program.Unmarked
import LoxLang.Proofs.Store.Globals

/-!
Names of the global scope while a program runs. Code that runs in the global scope itself is that of the program's own
statements, so no other names are declared there; and where nothing fails each of these names is declared.
-/

namespace LoxLang

open Scoping

/-! ## Code of the global scope -/

/-- A statement as it was read that declares nothing but some names where it stands. -/
structure Stmt.Tame (names : List String) (stmt : Stmt) : Prop where
  read : stmt.unmark.WellFormed
  declares : ∀ name, stmt.declared? = some name → name.lexeme ∈ names

/-- Nothing but some names is declared by what a node runs in its own scope. -/
def Scoping.Node.Tame (names : List String) : Node → Prop
  | .stmt part => part.Tame names
  | .statements parts => ∀ part ∈ parts, part.Tame names
  | _ => True

/-- The code of the global scope declares nothing but some names. -/
def TameGlobally (names : List String) (scope : ScopeId) (node : Node) : Prop :=
  scope = Forest.globals → node.Tame names

variable {names : List String}

theorem Stmt.Tame.branch {stmt branch : Stmt} (h : stmt.Tame names) (member : branch ∈ stmt.branches) :
    branch.Tame names := by
  obtain ⟨read, -⟩ := h
  have quiet (read : branch.unmark.WellFormed) (none : branch.unmark.declared? = none) :
      branch.Tame names := by
    refine ⟨read, fun name declared => ?_⟩
    rw [declared?_unmark, declared] at none
    cases none
  cases stmt with
  | «if» condition thenBranch elseBranch =>
      rw [unmark] at read
      cases read with
      | «if» _ thenNone thenRead elseNone elseRead =>
          rcases List.mem_cons.mp member with rfl | member
          · exact quiet thenRead thenNone
          · rw [Option.mem_toList.mp member] at elseNone elseRead
            exact quiet (elseRead _ rfl) (elseNone _ rfl)
  | «while» condition body increment =>
      rw [unmark] at read
      cases read with
      | «while» _ none read _ =>
          rw [List.mem_singleton.mp member] at quiet ⊢
          exact quiet read none
  | _ => cases member

theorem Scoping.Node.Tame.includes {whole part : Node} (h : whole.Tame names)
    (includes : whole.Includes part) : part.Tame names := by
  cases includes with
  | branch member => exact Stmt.Tame.branch h member
  | head => exact h _ List.mem_cons_self
  | tail => exact fun stmt member => h stmt (List.mem_cons_of_mem _ member)
  | expr | exprOf | function | initializer | superclass => trivial

theorem TameGlobally.closed (scope : ScopeId) (whole part : Node)
    (h : TameGlobally names scope whole) (includes : whole.Includes part) :
    TameGlobally names scope part :=
  fun same => (h same).includes includes

theorem mem_declaredNames {statements : List Stmt} {stmt : Stmt} {name : Token}
    (member : stmt ∈ statements) (declared : stmt.declared? = some name) :
    name.lexeme ∈ declaredNames statements :=
  List.mem_map.mpr ⟨name, List.mem_filterMap.mpr ⟨stmt, member, declared⟩, rfl⟩

/-- The statements of a program declare its own names. -/
theorem tame_statements {statements : List Stmt}
    (read : ∀ stmt ∈ unmarkStmts statements, stmt.WellFormed) :
    (Node.statements statements).Tame (declaredNames statements) := by
  intro stmt member
  rw [unmarkStmts_eq_map] at read
  exact ⟨read _ (List.mem_map_of_mem member), fun name => mem_declaredNames member⟩

namespace Machine

/-! ## Names that a step adds -/

/-- The global scope of a later store has some names more at the most. -/
abbrev Gains (new : String → Prop) (before after : Store) : Prop :=
  Forest.Gains new before.forest after.forest

/-- Code of the global scope declares only names of some sort there. -/
def DeclaresGlobally (q : ScopeId → Node → Prop) (new : String → Prop) : Prop :=
  ∀ stmt name, q Forest.globals (.stmt stmt) → stmt.declared? = some name → new name.lexeme

section

variable {machine : Machine} {q : ScopeId → Node → Prop} {new : String → Prop} {before after : Store}

theorem holds_target {store : Store} {scope : ScopeId} {use : NameUse} {id : ScopeId}
    (found : target store.forest scope use = .ok id) : store.forest.Holds id use.name.lexeme := by
  unfold target at found
  split at found
  · exact Forest.holds_findAt found
  · exact Forest.holds_find found

theorem Change.gains (allowed : DeclaresGlobally q new) (h : machine.Change q before after)
    (inside : Forest.globals < before.forest.next) : Gains new before after := by
  cases h with
  | @declare stmt name held declared =>
      exact Forest.gains_define _ fun same => .inl (allowed stmt name (same ▸ held) declared)
  | assign _ found => exact Forest.gains_define _ fun _ => .inr (holds_target found)
  | block | superclass | receiver | parameters => exact Forest.gains_add inside _ _
  | «instance» | field | print | stamps => exact .refl _ _

theorem Changes.gains (allowed : DeclaresGlobally q new) (h : machine.Changes q before after)
    (inside : Forest.globals < before.forest.next) : Gains new before after := by
  induction h with
  | refl => exact .refl _ _
  | tail _ change ih => exact ih.trans (change.gains allowed (ih.inside inside))

theorem gains_step (allowed : DeclaresGlobally q new) (host : Host)
    (inside : Forest.globals < machine.store.forest.next) (codes : machine.Codes q) :
    Gains new machine.store (step host machine).store :=
  (changes_step host codes).gains allowed inside

end

theorem keeps_true (frame : Frame) : frame.Keeps fun _ => True := by
  cases frame with
  | assign => exact ⟨.literal .nil, trivial⟩
  | var | ifCondition => exact ⟨.literal .nil, trivial⟩
  | superclass name token => exact ⟨.unmarked token, trivial⟩
  | callee | argument => exact fun _ _ => trivial
  | _ => trivial

theorem codes_true (machine : Machine) : machine.Codes fun _ _ => True := by
  have keep (frames : List Frame) (scope : ScopeId) : FramesKeep (fun _ _ => True) scope frames := by
    induction frames generalizing scope with
    | nil => trivial
    | cons frame frames ih => exact ⟨keeps_true frame, ih _⟩
  refine ⟨?_, keep _ _⟩
  cases machine.control <;> trivial

theorem inside_step (host : Host) {machine : Machine}
    (inside : Forest.globals < machine.store.forest.next) :
    Forest.globals < (step host machine).store.forest.next := by
  have gained : Gains (fun _ => True) machine.store (step host machine).store :=
    gains_step (fun _ _ _ _ => trivial) host inside (codes_true machine)
  exact gained.inside inside

end Machine

/-! ## Names that are owed -/

/-- The names that are yet to be declared when a frame is done. -/
def Frame.owes : Frame → List String
  | .var name | .superclass name _ _ => [name.lexeme]
  | .program rest => declaredNames rest
  | _ => []

def Control.owes : Control → List String
  | .exec stmt => declaredNames [stmt]
  | _ => []

/-- Some frame that goes on in the global scope is yet to declare the name. -/
def FramesOwe (name : String) : ScopeId → List Frame → Prop
  | _, [] => False
  | scope, frame :: frames =>
      scope = Forest.globals ∧ name ∈ frame.owes ∨
        FramesOwe name (Machine.Frame.outerScope frame scope) frames

namespace Machine

def Owes (machine : Machine) (name : String) : Prop :=
  machine.scope = Forest.globals ∧ name ∈ machine.control.owes ∨
    FramesOwe name machine.scope machine.frames

/-- Unless there is a failure, the name is in the global scope or is yet to be declared there. -/
def Accounts (machine : Machine) (name : String) : Prop :=
  machine.control.interruption? = none →
    machine.store.forest.Holds Forest.globals name ∨ machine.Owes name

variable {host : Host} {machine : Machine} {frames : List Frame} {scope : ScopeId} {height : Nat}
  {store : Store} {name : String}

/-- The frames that are left alone owe what they owed. -/
theorem Hands.owes {handed : Handed} (h : machine.Hands handed frames scope)
    (owed : FramesOwe name scope frames) : machine.Owes name := by
  induction h with
  | now _ => exact .inr owed
  | «from» _ _ same ih =>
      subst same
      exact ih (.inr owed)

theorem holds_declareClass (inside : Forest.globals < store.forest.next) (token : Token)
    (superclass : Option ClassValue) (methods : List FunctionDecl) :
    (declareClass store Forest.globals token superclass methods).forest.Holds Forest.globals
      token.lexeme := by
  rw [declareClass_eq]
  apply Forest.holds_define
  cases superclass with
  | none =>
      change _ < (store.forest.define _ _ _).next
      rwa [Forest.next_define]
  | some kind =>
      change _ < ((store.forest.define _ _ _).add _ _).next
      rw [Forest.next_add, Forest.next_define]
      exact Nat.lt_succ_of_lt inside

/-- A statement that is begun in the global scope declares its name there, or puts a frame on that will. -/
theorem accounts_exec (inside : Forest.globals < store.forest.next) {stmt : Stmt}
    (owed : name ∈ declaredNames [stmt]) :
    (exec stmt frames Forest.globals height store).Accounts name := by
  intro _
  have declared {token : Token} (h : stmt.declared? = some token) : token.lexeme = name := by
    simpa [declaredNames, h, eq_comm] using owed
  cases stmt with
  | function declaration =>
      rw [← declared rfl]
      exact .inl (Forest.holds_define inside _ _)
  | var token initializer =>
      rw [← declared rfl]
      cases initializer with
      | none => exact .inl (Forest.holds_define inside _ _)
      | some value => exact .inr (.inr (.inl ⟨rfl, List.mem_singleton.mpr rfl⟩))
  | «class» token superclass methods =>
      rw [← declared rfl]
      cases superclass with
      | none => exact .inl (holds_declareClass inside _ _ _)
      | some superclass => exact .inr (.inr (.inl ⟨rfl, List.mem_singleton.mpr rfl⟩))
  | _ => cases owed

/-- A frame that owes a name to the global scope declares it when it is handed a value. -/
theorem accounts_resumeValue (inside : Forest.globals < store.forest.next) {frame : Frame}
    (value : Value) (awaits : frame.awaits = .value) (owed : name ∈ frame.owes) :
    (resumeValue host frame value frames Forest.globals height store).Accounts name := by
  intro finished
  cases frame with
  | var token =>
      rw [List.mem_singleton.mp owed]
      exact .inl (Forest.holds_define inside _ _)
  | superclass token use methods =>
      rw [List.mem_singleton.mp owed]
      cases value with
      | «class» kind => exact .inl (holds_declareClass inside _ _ _)
      | _ => cases finished
  | program rest => cases awaits
  | _ => cases owed

theorem accounts_resumeDone {frame : Frame} (completion : Completion)
    (awaits : frame.awaits = .completion) (owed : name ∈ frame.owes) :
    (resumeDone frame completion frames Forest.globals height store).Accounts name := by
  intro _
  cases frame with
  | program rest =>
      cases rest with
      | nil => cases owed
      | cons stmt rest =>
          have owed : name ∈ declaredNames ([stmt] ++ rest) := owed
          have split : name ∈ declaredNames [stmt] ∨ name ∈ declaredNames rest := by
            rwa [declaredNames, List.filterMap_append, List.map_append, List.mem_append] at owed
          rcases split with here | later
          · exact .inr (.inl ⟨rfl, here⟩)
          · exact .inr (.inr (.inl ⟨rfl, later⟩))
  | var | superclass => cases awaits
  | _ => cases owed

/-- What is yet to be declared is declared or is left to be declared after the step. -/
theorem accounts_step (host : Host) (linked : machine.Linked)
    (inside : Forest.globals < machine.store.forest.next) (owed : machine.Owes name) :
    (step host machine).Accounts name := by
  obtain ⟨control, frames, scope, height, store⟩ := machine
  obtain ⟨handed, ends, links⟩ := linked
  have kept {machine : Machine} {frames : List Frame} {scope : ScopeId} {handed : Handed}
      (hands : machine.Hands handed frames scope) (owed : FramesOwe name scope frames) :
      machine.Accounts name := fun _ => .inr (hands.owes owed)
  cases control with
  | eval expr =>
      simp only [step]
      split
      · rintro ⟨⟩
      · rcases owed with ⟨-, nothing⟩ | owed
        · cases nothing
        · exact kept (hands_eval expr) owed
  | exec stmt =>
      simp only [step]
      split
      · rintro ⟨⟩
      · rcases owed with ⟨same, owed⟩ | owed
        · cases same
          exact accounts_exec inside owed
        · exact kept (hands_exec stmt) owed
  | value value =>
      cases ends
      generalize same : Handed.value = handed at links
      cases links with
      | nil => cases same
      | @cons frame frames links =>
          rcases owed with ⟨-, nothing⟩ | ⟨same', owed⟩ | owed
          · cases nothing
          · cases same'
            exact accounts_resumeValue inside value same.symm owed
          · have outer : Frame.outerScope frame scope = scope := by
              cases frame with
              | block => cases same
              | _ => rfl
            rw [outer] at owed
            exact kept (hands_resumeValue value same.symm) owed
  | done completion =>
      cases ends
      generalize same : Handed.completion = handed at links
      cases links with
      | nil =>
          rcases owed with ⟨-, nothing⟩ | nothing
          · cases nothing
          · cases nothing
      | @cons frame frames links =>
          rcases owed with ⟨-, nothing⟩ | ⟨same', owed⟩ | owed
          · cases nothing
          · cases same'
            exact accounts_resumeDone completion same.symm owed
          · exact kept (hands_resumeDone completion same.symm) owed
  | failed interruption => cases frames <;> rintro ⟨⟩

/-! ## Runs -/

/-- A machine that came up while statements that declare some names were run on a store. -/
structure Contained (names : List String) (before : Store) (machine : Machine) : Prop where
  inside : Forest.globals < machine.store.forest.next
  linked : machine.Linked
  tame : machine.Codes (TameGlobally names)
  gains : Gains (· ∈ names) before machine.store
  last : lastScope machine.scope machine.frames = Forest.globals
  accounts : ∀ name ∈ names, machine.Accounts name

namespace Contained

variable {before : Store}

theorem load {statements : List Stmt} (read : ∀ stmt ∈ unmarkStmts statements, stmt.WellFormed)
    (inside : Forest.globals < store.forest.next) :
    Contained (declaredNames statements) store (.load statements store) where
  inside := inside
  linked := linked_load statements store
  tame := ⟨trivial, fun _ => tame_statements read, trivial⟩
  gains := .refl _ _
  last := rfl
  accounts := fun _ declared _ => .inr (.inr (.inl ⟨rfl, declared⟩))

theorem ne_globals_of_enters {id : ScopeId} {node : Node}
    (inside : Forest.globals < machine.store.forest.next) (enters : machine.Enters host id node) :
    id ≠ Forest.globals := by
  cases enters with
  | block | function => exact Nat.ne_of_gt inside
  | initializer => exact Nat.succ_ne_zero _

theorem step (h : machine.Contained names before) (host : Host) :
    (Machine.step host machine).Contained names before := by
  have allowed : DeclaresGlobally (TameGlobally names) (· ∈ names) := fun _ name tame declared =>
    (tame rfl).declares name declared
  have gained := gains_step allowed host h.inside h.tame
  refine ⟨gained.inside h.inside, h.linked.step host, ?_, h.gains.trans gained, ?_, ?_⟩
  · refine codes_step TameGlobally.closed (fun id node enters same => ?_)
      (fun value rest outer frames => h.linked.not_block) h.tame
    exact absurd same (ne_globals_of_enters h.inside enters)
  · rw [h.linked.lastScope_step host, h.last]
  · intro name member finished
    by_cases failed : machine.control.interruption? = none
    · rcases h.accounts name member failed with held | owed
      · exact .inl (gained.keeps name held)
      · exact accounts_step host h.linked h.inside owed finished
    · -- A failure is never left again.
      obtain ⟨control, frames, scope, height, store⟩ := machine
      cases control with
      | failed interruption => cases frames <;> cases finished
      | eval _ | exec _ | value _ | done _ => exact absurd rfl failed

end Contained

end Machine

end LoxLang
