import LoxLang.Proofs.Expansion.Marking
import LoxLang.Proofs.Expansion.Runs
import LoxLang.Proofs.Session

/-!
Expansions in sessions. Every session that comes up is an expansion of itself, in which there are no braces, so a
program and an expansion of it can be run in it side by side.
-/

namespace LoxLang

open Scoping

variable {free : Prop} {layout : Layout}

/-! ## Stores of sessions -/

theorem Store.Expands.initial (free : Prop) :
    Store.initial.Expands free ⟨[(none, Forest.globals)], [none]⟩ .initial where
  root := .root rfl rfl
  next := rfl
  next' := rfl
  link id := by cases id <;> rfl
  link' id := by cases id <;> rfl
  inside scope place there := by
    obtain ⟨link, found⟩ := there
    cases scope <;> cases found
    exact Nat.zero_lt_one
  apart scope other place first second := by
    obtain ⟨link, found⟩ := first
    obtain ⟨link', found'⟩ := second
    cases scope <;> cases found
    cases other <;> cases found'
    rfl
  bindings scope place there := by
    obtain ⟨link, found⟩ := there
    cases scope <;> cases found
    exact .nil
  size := rfl
  fields _ := .none
  stamp := rfl
  printed := rfl

/-- The statements of a source without errors are an expansion of themselves. -/
theorem expands_of_prepare {limit : Nat} {source : String} {statements : List Stmt}
    (accepted : prepare limit source = .ok statements) :
    Node.Expands False [0] (.statements statements) (.statements statements) := by
  obtain ⟨-, program, read, marked⟩ := prepare_eq_ok_iff.mp accepted
  have wellFormed := Program.wellFormed_ofTokens limit (Tokens.spelled_ofText source)
  rw [read] at wellFormed
  exact (expands_of_mark? wellFormed (expands_self wellFormed []) marked marked).2

namespace Session

/-- Nothing can tell the session from itself when an expansion is run in it. -/
structure Expands (layout : Layout) (session : Session) : Prop where
  store : session.store.Expands False layout session.store
  natives : ∀ native ∈ session.natives, native.Indifferent

theorem Expands.addNative {session : Session} {native : Native} (h : session.Expands layout)
    (indifferent : native.Indifferent) : (session.addNative native).Expands layout where
  store := h.store.define h.store.root.places native.name .native
  natives := by
    intro other member
    rcases Array.mem_push.mp member with member | rfl
    · exact h.natives other member
    · exact indifferent

theorem expands_foldl {session : Session} (h : session.Expands layout) {natives : List Native}
    (indifferent : ∀ native ∈ natives, native.Indifferent) :
    (natives.foldl Session.addNative session).Expands layout := by
  induction natives generalizing session with
  | nil => exact h
  | cons native natives ih =>
      obtain ⟨first, rest⟩ := List.forall_mem_cons.mp indifferent
      exact ih (h.addNative first) rest

theorem indifferent_clock : clock.Indifferent :=
  fun _ _ _ _ _ _ => .number

theorem expands_load {store store' : Store} (h : store.Expands free layout store')
    {statements others : List Stmt}
    (expands : Node.Expands free [0] (.statements statements) (.statements others)) :
    (Machine.load statements store).Expands free layout (.load others store') :=
  .running (.done .normal) (.program expands) h

/-- Step by step a machine stays an expansion of itself; one that fails has changed nothing. -/
theorem Runs.expands {session : Session} {limit : Nat} {statements : List Stmt} {machine : Machine}
    (h : session.Expands layout)
    (expands : Node.Expands False [0] (.statements statements) (.statements statements))
    (runs : session.Runs limit statements machine) :
    ∃ more, machine.Expands False more machine := by
  induction runs with
  | load => exact ⟨layout, expands_load h.store expands⟩
  | @step machine now _ ih =>
      obtain ⟨more, before⟩ := ih
      let host : Host := ⟨session.natives, limit, now⟩
      have shares : host.Shares host := ⟨rfl, rfl⟩
      obtain ⟨count, none, abreast⟩ := Machine.meets_step shares h.natives before
      obtain rfl := none.resolve_left id
      have full (overflowed : (Machine.step host machine).Overflowed) :
          ∃ more, (Machine.step host machine).Expands False more (Machine.step host machine) := by
        have unchanged := Machine.failsAt_step host machine _ overflowed
        have store := before.store
        rw [← unchanged] at store
        generalize Machine.step host machine = next at overflowed store
        obtain ⟨control, frames, scope, height, last⟩ := next
        cases overflowed
        exact ⟨more, .failed .error store⟩
      cases abreast with
      | overflowed overflowed | overflowed' overflowed => exact full overflowed
      | expands _ expands => exact ⟨_, expands⟩

theorem Reached.expands {natives : List Native}
    (indifferent : ∀ native ∈ natives, native.Indifferent) {programs : List (List Stmt)}
    {session : Session} (reached : Reached natives programs session) :
    ∃ layout, session.Expands layout := by
  induction reached with
  | start =>
      have new : (Session.mk #[] .initial).Expands ⟨[(none, Forest.globals)], [none]⟩ :=
        ⟨.initial False, fun native nothing => absurd nothing (Array.not_mem_empty native)⟩
      exact ⟨_, expands_foldl new (List.forall_mem_cons.mpr ⟨indifferent_clock, indifferent⟩)⟩
  | run now _ prepared runs _ ih =>
      obtain ⟨layout, h⟩ := ih
      obtain ⟨more, last⟩ := runs.expands h (expands_of_prepare prepared)
      exact ⟨more, last.store.takePrinted, h.natives⟩

end Session

end LoxLang
