import LoxLang.Proofs.Machine.Jumps
import LoxLang.Proofs.Session.Suited

/-!
Completions in a session. A program that is accepted ends no statement of its top level and no function's
body with a jump: every `break` and `continue` goes to the loop that it stands in.
-/

namespace LoxLang

open Scoping

/-! ## Runs -/

namespace Session

/-- The machines that a run goes through from one on, until only the frames of that one are there. -/
inductive Goes (session : Session) (limit : Nat) (first : Machine) : Machine → Prop
  | start (now : Float) : Goes session limit first (first.step ⟨session.natives, limit, now⟩)
  | step {machine : Machine} (now : Float) : Goes session limit first machine →
      first.frames.length < machine.frames.length →
      Goes session limit first (machine.step ⟨session.natives, limit, now⟩)

variable {session : Session} {programs : List (List Stmt)} {limit : Nat}
  {statements : List Stmt} {machine : Machine}

theorem Runs.placed (hsession : session.Sound programs)
    (accepted : Accepted (statements :: programs)) (allSuited : AllSuited (statements :: programs))
    (suited : ∀ stmt ∈ statements, Suited .topLevel stmt)
    (runs : session.Runs limit statements machine) : machine.Placed := by
  induction runs with
  | load => exact .loaded suited
  | step now runs ih =>
      exact Machine.placed_step allSuited (runs.sound hsession accepted) ih

theorem Goes.runs {first : Machine} (h : session.Goes limit first machine)
    (runs : session.Runs limit statements first) : session.Runs limit statements machine := by
  induction h with
  | start now => exact runs.step now
  | step now _ _ ih => exact ih.step now

theorem Goes.loops {first : Machine} {condition : Expr} {body : Stmt} {increment : Option Expr}
    (h : session.Goes limit first machine)
    (placed : ∀ machine, session.Runs limit statements machine → machine.Placed)
    (runs : session.Runs limit statements first)
    (control : first.control = .exec (.while condition body increment)) :
    machine.Loops condition body increment first.frames := by
  induction h with
  | start now => exact Machine.loops_start _ control
  | step now goes more ih => exact Machine.loops_step _ (placed _ (goes.runs runs)) more ih

/-- While an accepted source runs, no statement of its top level ends with a jump or a return, no function's body
and no loop ends with a jump, and every `break` and `continue` is taken by the loop in whose body it
stands, without any call in between. -/
theorem completions_stay {natives : List Native} (honest : ∀ native ∈ natives, native.Sound)
    {programs : List (List Stmt)} {session : Session} (reached : Reached natives programs session)
    {limit : Nat} {source : String} {statements : List Stmt}
    (prepared : prepare limit source = .ok statements) {machine : Machine}
    (runs : session.Runs limit statements machine) :
    (∀ completion rest outer, machine.control = .done completion →
      machine.frames = .program rest :: outer → completion = .normal) ∧
    (∀ completion yield outer, machine.control = .done completion →
      machine.frames = .activation yield :: outer → completion.LeavesLoops) ∧
    (∀ condition body increment, machine.control = .exec (.while condition body increment) →
      ∀ last completion, session.Goes limit machine last → last.frames = machine.frames →
        last.control = .done completion → completion.LeavesLoops) ∧
    ∀ stmt jump, machine.control = .exec stmt → stmt.jump? = some jump →
      machine.JumpsToLoop stmt jump := by
  obtain ⟨hsession, accepted⟩ := reached.sound honest
  have suited := suited_of_prepare prepared
  have placed (machine : Machine) (runs : session.Runs limit statements machine) :
      machine.Placed :=
    runs.placed hsession (accepted_cons prepared accepted)
      (allSuited_cons suited reached.allSuited) suited
  have leaves (completion : Completion) (control : machine.control = .done completion) :
      Leaves completion machine.frames := by
    have here := placed machine runs
    rw [Machine.Placed, control] at here
    exact here
  refine ⟨fun completion rest outer control frames => ?_,
    fun completion yield outer control frames => ?_,
    fun condition body increment control last completion goes frames done => ?_,
    fun stmt jump control hjump => (placed machine runs).jumpsToLoop control hjump⟩
  · exact normal_of_leaves (frames ▸ leaves completion control)
  · exact leavesLoops_of_leaves (frames ▸ leaves completion control)
  · exact leavesLoops_of_loops (goes.loops placed runs control) frames done

/-- A loop that is left at once, from within a block and a branch. -/
def breakSource : String :=
  "while (true)\x7bif (true) break;\x7d"

theorem eq_ok_of_toOption {α β : Type} {result : Except α β} {value : β}
    (h : result.toOption = some value) : result = .ok value := by
  cases result with
  | error _ => cases h
  | ok _ =>
      cases h
      rfl

/-- The keyword of the jump that is next, if it is a `break`. -/
def breaks? (machine : Machine) : Option Token :=
  match machine.control with
  | .exec (.break keyword) => some keyword
  | _ => none

theorem control_of_breaks? {machine : Machine} {keyword : Token}
    (h : breaks? machine = some keyword) : machine.control = .exec (.break keyword) := by
  unfold breaks? at h
  split at h
  · next control =>
    cases h
    exact control
  · cases h

theorem completions_stay_break :
    ∃ statements machine keyword, prepare 40 breakSource = .ok statements ∧
      (start []).Runs 40 statements machine ∧ machine.control = .exec (.break keyword) ∧
      machine.JumpsToLoop (.break keyword) .break := by
  let host : Host := ⟨(start []).natives, 40, 0⟩
  let after (statements : List Stmt) : Machine :=
    .advance host 9 (.load statements (start []).store)
  have reaches : ((prepare 40 breakSource).toOption.bind (breaks? ∘ after)).isSome = true := by
    decide +kernel
  obtain ⟨keyword, atBreak⟩ := Option.isSome_iff_exists.mp reaches
  obtain ⟨statements, prepared, found⟩ := Option.bind_eq_some_iff.mp atBreak
  have accepted := eq_ok_of_toOption prepared
  have runs : (start []).Runs 40 statements (after statements) := Runs.load.advance 0 9
  have control := control_of_breaks? found
  have honest : ∀ native ∈ ([] : List Native), native.Sound := nofun
  obtain ⟨-, -, -, jumps⟩ := completions_stay honest .start accepted runs
  exact ⟨statements, after statements, keyword, accepted, runs, control, jumps _ _ control rfl⟩

end Session

end LoxLang
