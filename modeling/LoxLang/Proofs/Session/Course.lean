import LoxLang.Proofs.Session.Completions

/-!
The course of a session: the machines that come up, each with all the steps that led to it since the session began.
-/

namespace LoxLang

open Scoping

/-- A step that was taken. -/
structure Moment where
  host : Host
  machine : Machine

namespace Session

/-- The programs that were run in a session and the steps that were taken, last ones first, and a machine that comes
up then. Limits and time may change. -/
inductive Course (natives : List Native) : List (List Stmt) → List Moment → Machine → Prop
  | first {limit : Nat} {source : String} {statements : List Stmt} :
      prepare limit source = .ok statements →
      Course natives [statements] [] (.load statements (start natives).store)
  | step {programs : List (List Stmt)} {past : List Moment} {machine : Machine} (limit : Nat)
      (now : Float) :
      Course natives programs past machine →
      Course natives programs (⟨⟨(start natives).natives, limit, now⟩, machine⟩ :: past)
        (machine.step ⟨(start natives).natives, limit, now⟩)
  | next {programs : List (List Stmt)} {past : List Moment} {machine : Machine} {limit : Nat}
      {source : String} {statements : List Stmt} :
      Course natives programs past machine → machine.isFinal = true →
      prepare limit source = .ok statements →
      Course natives (statements :: programs) past
        (.load statements machine.store.takePrinted.2)

/-- A session is new, or what the end of a course leaves. -/
inductive Left (natives : List Native) : List (List Stmt) → Session → Prop
  | new : Left natives [] (start natives)
  | run {programs : List (List Stmt)} {past : List Moment} {machine : Machine} :
      Course natives programs past machine → machine.isFinal = true →
      Left natives programs ⟨(start natives).natives, machine.store.takePrinted.2⟩

variable {natives : List Native} {programs : List (List Stmt)} {session : Session} {limit : Nat}
  {source : String} {statements : List Stmt} {machine : Machine}

theorem Left.natives_eq (h : Left natives programs session) :
    session.natives = (start natives).natives := by
  cases h <;> rfl

theorem Left.course (h : Left natives programs session)
    (prepared : prepare limit source = .ok statements)
    (runs : session.Runs limit statements machine) :
    ∃ past, Course natives (statements :: programs) past machine := by
  induction runs with
  | load =>
      cases h with
      | new => exact ⟨[], .first prepared⟩
      | run course final => exact ⟨_, .next course final prepared⟩
  | step now _ ih =>
      obtain ⟨past, course⟩ := ih
      rw [h.natives_eq]
      exact ⟨_, course.step limit now⟩

theorem Reached.left (reached : Reached natives programs session) :
    Left natives programs session := by
  induction reached with
  | start => exact .new
  | @run _ session _ _ _ machine now _ prepared runs final ih =>
      obtain ⟨past, course⟩ := ih.course prepared runs
      change Left natives _ ⟨session.natives, machine.store.takePrinted.2⟩
      rw [ih.natives_eq]
      exact .run course final

/-- Whatever comes up in a session comes up in some course of it. -/
theorem Reached.course (reached : Reached natives programs session)
    (prepared : prepare limit source = .ok statements)
    (runs : session.Runs limit statements machine) :
    ∃ past, Course natives (statements :: programs) past machine :=
  reached.left.course prepared runs

/-! ## Soundness -/

/-- What is known of the programs and of a machine that comes up. -/
structure Settled (programs : List (List Stmt)) (machine : Machine) : Prop where
  accepted : Accepted programs
  located : ∀ place, StandsIn programs place → place.Located
  suited : AllSuited programs
  sound : machine.Sound programs
  placed : machine.Placed

theorem settled_load {store : Store} (accepted : Accepted programs)
    (located : ∀ place, StandsIn programs place → place.Located) (suited : AllSuited programs)
    (prepared : prepare limit source = .ok statements) (h : store.Sound programs) :
    Settled (statements :: programs) (.load statements store) := by
  have all := accepted_cons prepared accepted
  have each := suited_of_prepare prepared
  let session : Session := ⟨#[], store⟩
  have hsession : session.Sound programs :=
    ⟨h, fun native member => absurd member (Array.not_mem_empty native)⟩
  have loaded : session.Runs limit statements (.load statements store) := .load
  refine ⟨all, ?_, allSuited_cons each suited, loaded.sound hsession all, .loaded each⟩
  intro place ⟨program, member, stands⟩
  rcases List.mem_cons.mp member with rfl | member
  · exact located_of_prepare prepared place stands
  · exact located place ⟨program, member, stands⟩

theorem Course.settled {past : List Moment} (honest : ∀ native ∈ natives, native.Sound)
    (course : Course natives programs past machine) : Settled programs machine := by
  have start := sound_start honest
  induction course with
  | first prepared =>
      have nothing (place : Place) : ¬ StandsIn [] place := fun ⟨_, absurd, _⟩ => nomatch absurd
      exact settled_load (fun place stands => (nothing place stands).elim)
        (fun place stands => (nothing place stands).elim)
        (fun place stands => (nothing place stands).elim) prepared start.store
  | step limit now _ ih =>
      obtain ⟨accepted, located, suited, sound, placed⟩ := ih
      exact ⟨accepted, located, suited, Machine.sound_step accepted start.natives sound,
        Machine.placed_step suited sound placed⟩
  | next _ _ prepared ih =>
      exact settled_load ih.accepted ih.located ih.suited prepared ih.sound.store.takePrinted

end Session

end LoxLang
