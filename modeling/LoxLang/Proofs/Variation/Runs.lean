import Mathlib.Logic.Function.Iterate
import LoxLang.Proofs.Machine.Stack
import LoxLang.Proofs.Variation.Steps

/-!
Whole runs. Machines that vary from one another end after the same number of steps. If the other program has more
statements, it gets to these when the first program has ended.
-/

namespace LoxLang

open Scoping

variable {r : Respelling} {outline : Outline} {before : Array String} {tail : List Stmt}
  {host host' : Host} {machine other : Machine}

namespace Machine

/-! ## Steps in a row -/

theorem step_of_isFinal (host : Host) (final : machine.isFinal = true) :
    step host machine = machine := by
  obtain ⟨control, frames, scope, height, store⟩ := machine
  cases frames with
  | nil => cases control <;> first | rfl | cases final
  | cons => cases control <;> cases final

theorem iterate_of_isFinal (host : Host) (final : machine.isFinal = true) (steps : Nat) :
    (step host)^[steps] machine = machine :=
  Function.iterate_fixed (step_of_isFinal host final) steps

theorem advance_eq_iterate (host : Host) (fuel : Nat) (machine : Machine) :
    advance host fuel machine = (step host)^[fuel] machine := by
  induction fuel generalizing machine with
  | zero => rfl
  | succ fuel ih =>
      rw [advance, Function.iterate_succ_apply]
      split
      · next final => rw [step_of_isFinal host final, iterate_of_isFinal host final]
      · exact ih _

theorem run?_eq (host : Host) (fuel : Nat) (machine : Machine) :
    run? host fuel machine = if ((step host)^[fuel] machine).isFinal then
      some ((step host)^[fuel] machine) else none := by
  rw [run?, advance_eq_iterate]

/-- An interruption goes on until all frames are dropped. -/
theorem interruption?_iterate {interruption : Interruption}
    (failed : machine.control = .failed interruption) (host : Host) (steps : Nat) :
    ((step host)^[steps] machine).control = .failed interruption := by
  induction steps generalizing machine with
  | zero => exact failed
  | succ steps ih =>
      rw [Function.iterate_succ_apply]
      apply ih
      obtain ⟨control, frames, scope, height, store⟩ := machine
      cases failed
      cases frames <;> rfl

/-! ## Two runs -/

/-- While a machine is as `ready` says, natives answer both machines alike. -/
structure Echoed (ready : Machine → Prop) (host host' : Host) : Prop where
  agree : host.Agrees host'
  kept : ∀ machine, ready machine → ready (step host machine)
  answers : ∀ machine r outline index native arguments, ready machine →
    machine.call? = some (.native index, arguments) → host.natives[index]? = some native →
    native.AnswersVary r outline host.now host'.now

variable {ready : Machine → Prop}

theorem iterate_varies (echoed : Echoed ready host host') (hready : ready machine)
    (h : machine.Varies r outline before [] other) (steps : Nat) :
    Follow r outline before [] ((step host)^[steps] machine) ((step host')^[steps] other) := by
  induction steps generalizing outline machine other with
  | zero => exact h.follow
  | succ steps ih =>
      obtain ⟨more, subset, next⟩ := step_varies echoed.agree h
        (fun index native arguments called found =>
          echoed.answers machine r outline index native arguments hready called found)
        fun _ _ _ => rfl
      exact (ih (echoed.kept _ hready) next).earlier subset

theorem Varies.isFinal (h : machine.Varies r outline before [] other) :
    other.isFinal = machine.isFinal := by
  obtain ⟨control, frames, scope, height, store⟩ := machine
  obtain ⟨control', frames', scope', height', store'⟩ := other
  obtain ⟨⟨levels, awaited, -, hcontrol, hframes⟩, -, -, -⟩ := h
  cases hframes with
  | nil => cases hcontrol <;> rfl
  | program _ | cons _ _ _ => cases hcontrol <;> rfl

theorem run?_varies (echoed : Echoed ready host host') (hready : ready machine)
    (h : machine.Varies r outline before [] other) (fuel : Nat) :
    Option.Rel (Follow r outline before []) (run? host fuel machine) (run? host' fuel other) := by
  obtain ⟨more, subset, last⟩ := iterate_varies echoed hready h fuel
  rw [run?_eq, run?_eq, last.isFinal]
  split
  · exact .some ⟨more, subset, last⟩
  · exact .none

/-- The frame of the program is the lowest one. -/
def HasProgram (machine : Machine) : Prop :=
  ∃ rest, machine.frames.getLast? = some (.program rest)

theorem hasProgram_of_suffix {frames : List Frame} {next : Machine} {rest : List Stmt}
    (last : frames.getLast? = some (.program rest)) (suffix : frames <:+ next.frames) :
    next.HasProgram := by
  obtain ⟨more, same⟩ := suffix
  refine ⟨rest, ?_⟩
  rw [← same, List.getLast?_append, last]
  rfl

/-- Where the program's frame is the only one, it has been reached by a completion, or it is dropped. -/
theorem hasProgram_step (host : Host) (h : machine.Varies r outline before tail other)
    (program : machine.HasProgram)
    (inside : ∀ completion, machine.control = .done completion → machine.frames ≠ [.program []])
    (going : ∀ interruption, machine.control ≠ .failed interruption) :
    (step host machine).HasProgram := by
  obtain ⟨control, frames, scope, height, store⟩ := machine
  obtain ⟨control', frames', scope', height', store'⟩ := other
  obtain ⟨⟨levels, awaited, -, hcontrol, hframes⟩, -, -, -⟩ := h
  obtain ⟨rest, last⟩ := program
  dsimp only at hcontrol hframes last inside going
  cases hcontrol with
  | eval expr =>
      simp only [step]
      split
      · exact ⟨rest, last⟩
      · exact hasProgram_of_suffix last (above_eval _).suffix
  | exec stmt =>
      simp only [step]
      split
      · exact ⟨rest, last⟩
      · exact hasProgram_of_suffix last (above_exec _).suffix
  | failed interruption => exact absurd rfl (going _)
  | value value =>
      cases hframes with
      | nil => cases last
      | @cons _ _ _ _ _ frame _ frames _ _ hframe hframes =>
          cases frames with
          | nil =>
              cases Option.some.inj last
              cases hframe
          | cons next frames =>
              rw [List.getLast?_cons_cons] at last
              exact hasProgram_of_suffix last (above_resumeValue _ _).suffix
  | done completion =>
      cases hframes with
      | nil => cases last
      | @program rest _ _ =>
          cases rest with
          | nil => exact absurd rfl (inside _ rfl)
          | cons stmt rest => exact ⟨rest, rfl⟩
      | @cons _ _ _ _ _ frame _ frames _ _ hframe hframes =>
          cases frames with
          | nil =>
              cases Option.some.inj last
              cases hframe
          | cons next frames =>
              rw [List.getLast?_cons_cons] at last
              exact hasProgram_of_suffix last (above_resumeDone _ _).suffix

/-- A program that ends without an interruption comes to its end when only its frame is left. The other machine
is about to begin with what more there is in its program. -/
theorem reaches_end (echoed : Echoed ready host host') (hready : ready machine)
    (h : machine.Varies r outline before tail other) (program : machine.HasProgram) {fuel : Nat}
    (final : ((step host)^[fuel] machine).isFinal = true)
    (clean : ((step host)^[fuel] machine).control.interruption? = none) :
    ∃ steps completion, steps < fuel ∧
      ((step host)^[steps] machine).control = .done completion ∧
      ((step host)^[steps] machine).frames = [.program []] ∧
      Follow r outline before tail ((step host)^[steps] machine) ((step host')^[steps] other) := by
  induction fuel generalizing outline machine other with
  | zero =>
      obtain ⟨rest, last⟩ := program
      obtain ⟨control, frames, scope, height, store⟩ := machine
      cases frames with
      | nil => cases last
      | cons frame frames => cases control <;> cases final
  | succ fuel ih =>
      by_cases there : ∃ completion, machine.control = .done completion ∧
          machine.frames = [.program []]
      · obtain ⟨completion, control, frames⟩ := there
        exact ⟨0, completion, Nat.succ_pos fuel, control, frames, h.follow⟩
      · have going : ∀ interruption, machine.control ≠ .failed interruption := by
          intro interruption failed
          rw [interruption?_iterate failed host] at clean
          cases clean
        have inside (completion : Completion) (control : machine.control = .done completion) :
            machine.frames ≠ [.program []] :=
          fun frames => there ⟨completion, control, frames⟩
        obtain ⟨more, subset, next⟩ := step_varies echoed.agree h
          (fun index native arguments called found =>
            echoed.answers machine r outline index native arguments hready called found)
          fun completion control frames => absurd frames (inside completion control)
        rw [Function.iterate_succ_apply] at final clean
        obtain ⟨steps, completion, bound, control, frames, follow⟩ := ih (echoed.kept _ hready)
          next (hasProgram_step host h program inside going) final clean
        exact ⟨steps + 1, completion, Nat.succ_lt_succ bound, control, frames,
          follow.earlier subset⟩

end Machine

end LoxLang
