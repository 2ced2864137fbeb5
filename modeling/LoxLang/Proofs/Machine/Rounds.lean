import Mathlib.Data.List.Chain
import LoxLang.Proofs.Machine.Stack

/-!
Rounds of a loop. While a loop runs, its condition is tested and its body and increment are run in turns: the increment
comes after every round that ends normally or by `continue`, and before the next test; after any other round the loop
is over.
-/

namespace LoxLang

/-- A round after which the loop goes on. -/
inductive Completion.GoesOn : Completion → Prop
  | normal : GoesOn .normal
  | continue : GoesOn .continue

/-- What happens to a loop: the evaluation of its condition or of its increment begins, or a round ends. -/
inductive LoopEvent where
  | test (condition : Expr)
  | round (completion : Completion)
  /-- The round is ended by an error. -/
  | failure (interruption : Interruption)
  | increment (expr : Expr)

/-- What may happen next to a loop with this condition and increment. -/
inductive LoopEvent.Leads (condition increment : Expr) : LoopEvent → LoopEvent → Prop
  | round {completion : Completion} : Leads condition increment (.test condition) (.round completion)
  | failure {interruption : Interruption} :
      Leads condition increment (.test condition) (.failure interruption)
  | increment {completion : Completion} :
      completion.GoesOn → Leads condition increment (.round completion) (.increment increment)
  | test : Leads condition increment (.increment increment) (.test condition)

namespace Machine

/-- What happens to the loop whose frame lies on that many others. -/
def loopEvent? (base : Nat) : Machine → Option LoopEvent
  | ⟨control, frame :: outer, _, _, _⟩ =>
      if outer.length = base then
        match control, frame with
        | .eval expr, .whileCondition .. => some (.test expr)
        | .eval expr, .whileIncrement .. => some (.increment expr)
        | .done completion, .whileBody .. => some (.round completion)
        | .failed interruption, .whileBody .. => some (.failure interruption)
        | _, _ => none
      else none
  | _ => none

/-- What happens to the loop in so many steps, until it is over. -/
def loopEvents (host : Host) (base : Nat) : (fuel : Nat) → Machine → List LoopEvent
  | 0, _ => []
  | fuel + 1, machine =>
      if machine.frames.length ≤ base then []
      else (machine.loopEvent? base).toList ++ loopEvents host base fuel (step host machine)

/-! ## Steps -/

theorem Above.drop {more frames : List Frame} {machine : Machine} (h : Above (more ++ frames) machine) :
    Above frames machine := by
  obtain ⟨inner, same, begins⟩ := h
  refine ⟨inner ++ more, by rw [same, List.append_assoc], fun evaluates nothing => ?_⟩
  exact begins evaluates (List.append_eq_nil_iff.mp nothing).1

/-- Within the condition, the body or the increment nothing happens to the loop. -/
theorem loopEvent?_of_within {frame inner : Frame} {more outer : List Frame} {machine : Machine}
    (same : machine.frames = inner :: more ++ frame :: outer) (host : Host) :
    machine.loopEvent? outer.length = none ∧ Above (frame :: outer) (step host machine) := by
  have step := above_step host machine
  obtain ⟨control, frames, scope, height, store⟩ := machine
  cases same
  refine ⟨if_neg ?_, step.drop⟩
  change ¬ (more ++ frame :: outer).length = outer.length
  rw [List.length_append, List.length_cons]
  omega

/-- What a frame may be handed when all that was above it is done. -/
inductive HandsOn : Control → Prop
  | value (value : Value) : HandsOn (.value value)
  | done (completion : Completion) : HandsOn (.done completion)
  | failed (interruption : Interruption) : HandsOn (.failed interruption)

/-- Above a frame nothing happens to a loop that has it, until something is handed to the frame. -/
theorem Above.within_or_hands {frame : Frame} {outer : List Frame} {machine : Machine}
    (h : Above (frame :: outer) machine) (host : Host) :
    (machine.loopEvent? outer.length = none ∧ Above (frame :: outer) (step host machine)) ∨
      ∃ control scope height store, HandsOn control ∧
        machine = ⟨control, frame :: outer, scope, height, store⟩ := by
  obtain ⟨more, same, begins⟩ := h
  cases more with
  | cons inner more => exact .inl (loopEvent?_of_within same host)
  | nil =>
      obtain ⟨control, frames, scope, height, store⟩ := machine
      cases same
      cases control with
      | eval expr => exact absurd rfl (begins rfl)
      | exec stmt => exact .inl ⟨if_pos rfl, above_step_of_begins host (.inr ⟨stmt, rfl⟩)⟩
      | value value => exact .inr ⟨_, _, _, _, .value value, rfl⟩
      | done completion => exact .inr ⟨_, _, _, _, .done completion, rfl⟩
      | failed interruption => exact .inr ⟨_, _, _, _, .failed interruption, rfl⟩

section

variable (condition increment : Expr) (body : Stmt) (outer : List Frame)

/-- How far the loop has come since something happened to it. -/
inductive After : LoopEvent → Machine → Prop
  | testing {machine : Machine} :
      Above (.whileCondition condition body (some increment) :: outer) machine →
      After (.test condition) machine
  | inRound {machine : Machine} :
      Above (.whileBody condition body (some increment) :: outer) machine →
      After (.test condition) machine
  | roundDone {completion : Completion} {scope : ScopeId} {height : Nat} {store : Store} :
      completion.GoesOn →
      After (.round completion) ⟨.eval increment,
        .whileIncrement condition body (some increment) :: outer, scope, height, store⟩
  | incrementing {machine : Machine} :
      Above (.whileIncrement condition body (some increment) :: outer) machine →
      After (.increment increment) machine
  | incremented {scope : ScopeId} {height : Nat} {store : Store} :
      After (.increment increment) ⟨.eval condition,
        .whileCondition condition body (some increment) :: outer, scope, height, store⟩
  | ended {event : LoopEvent} {machine : Machine} :
      machine.frames.length ≤ outer.length →
      (∀ completion, event = .round completion → ¬ completion.GoesOn) → After event machine

end

variable {condition increment : Expr} {body : Stmt} {outer : List Frame} {event : LoopEvent}
  {machine : Machine}

/-- Either nothing happens to the loop in a step, or what may happen next. -/
theorem After.step (h : After condition increment body outer event machine)
    (running : ¬ machine.frames.length ≤ outer.length) (host : Host) :
    (machine.loopEvent? outer.length = none ∧
      After condition increment body outer event (step host machine)) ∨
    ∃ next, machine.loopEvent? outer.length = some next ∧ event.Leads condition increment next ∧
      After condition increment body outer next (step host machine) := by
  have left {event : LoopEvent} {control : Control} {scope : ScopeId} {height : Nat} {store : Store}
      (other : ∀ completion, event = .round completion → ¬ completion.GoesOn) :
      After condition increment body outer event ⟨control, outer, scope, height, store⟩ :=
    .ended (Nat.le_refl _) other
  have noRound {condition : Expr} (completion : Completion)
      (same : LoopEvent.test condition = .round completion) : ¬ completion.GoesOn := by cases same
  cases h with
  | ended ended _ => exact absurd ended running
  | roundDone goesOn =>
      exact .inr ⟨.increment increment, if_pos rfl, .increment goesOn,
        .incrementing (above_step_of_begins host (.inl ⟨increment, rfl⟩))⟩
  | incremented =>
      exact .inr ⟨.test condition, if_pos rfl, .test,
        .testing (above_step_of_begins host (.inl ⟨condition, rfl⟩))⟩
  | testing above =>
      rcases above.within_or_hands host with ⟨none, within⟩ | ⟨_, _, _, _, hands, rfl⟩
      · exact .inl ⟨none, .testing within⟩
      refine .inl ⟨by cases hands <;> exact if_pos rfl, ?_⟩
      cases hands with
      | value value =>
          simp only [Machine.step, resumeValue]
          split
          · exact .inRound (above_same rfl)
          · exact left noRound
      | done | failed => exact left noRound
  | inRound above =>
      rcases above.within_or_hands host with ⟨none, within⟩ | ⟨_, _, _, _, hands, rfl⟩
      · exact .inl ⟨none, .inRound within⟩
      cases hands with
      | value value => exact .inl ⟨if_pos rfl, left noRound⟩
      | done completion =>
          refine .inr ⟨.round completion, if_pos rfl, .round, ?_⟩
          cases completion with
          | normal => exact .roundDone .normal
          | «continue» => exact .roundDone .continue
          | «break» => exact left fun _ => by rintro ⟨⟩ ⟨⟩
          | «return» value => exact left fun _ => by rintro ⟨⟩ ⟨⟩
      | failed interruption =>
          exact .inr ⟨.failure interruption, if_pos rfl, .failure, left fun _ => by rintro ⟨⟩⟩
  | incrementing above =>
      have noRound (completion : Completion) (same : LoopEvent.increment increment = .round completion) :
          ¬ completion.GoesOn := by cases same
      rcases above.within_or_hands host with ⟨none, within⟩ | ⟨_, _, _, _, hands, rfl⟩
      · exact .inl ⟨none, .incrementing within⟩
      refine .inl ⟨by cases hands <;> exact if_pos rfl, ?_⟩
      cases hands with
      | value value => exact .incremented
      | done | failed => exact left noRound

/-! ## Runs -/

variable {host : Host} {fuel : Nat}

theorem loopEvents_succ (running : ¬ machine.frames.length ≤ outer.length) :
    loopEvents host outer.length (fuel + 1) machine =
      (machine.loopEvent? outer.length).toList ++ loopEvents host outer.length fuel (Machine.step host machine) :=
  if_neg running

theorem After.goesOn {completion : Completion}
    (h : After condition increment body outer (.round completion) machine) (goesOn : completion.GoesOn) :
    ¬ machine.frames.length ≤ outer.length ∧ machine.loopEvent? outer.length = some (.increment increment) := by
  cases h with
  | roundDone => exact ⟨Nat.not_succ_le_self _, if_pos rfl⟩
  | ended _ other => exact absurd goesOn (other completion rfl)

/-- A loop begins as it goes on after its increment. -/
theorem after_exec (host : Host) (condition increment : Expr) (body : Stmt) (outer : List Frame) (scope : ScopeId)
    (height : Nat) (store : Store) :
    After condition increment body outer (.increment increment) (Machine.step host
      ⟨.exec (.while condition body (some increment)), outer, scope, height, store⟩) := by
  simp only [Machine.step]
  split
  · exact .ended (Nat.le_refl _) fun _ => by rintro ⟨⟩
  · exact .incremented

theorem After.isChain_loopEvents (h : After condition increment body outer event machine) (host : Host)
    (fuel : Nat) :
    (event :: loopEvents host outer.length fuel machine).IsChain (LoopEvent.Leads condition increment) := by
  induction fuel generalizing event machine with
  | zero => exact .singleton event
  | succ fuel ih =>
      by_cases ended : machine.frames.length ≤ outer.length
      · rw [loopEvents, if_pos ended]
        exact .singleton event
      · rw [loopEvents_succ ended]
        rcases h.step ended host with ⟨same, after⟩ | ⟨next, same, leads, after⟩
        · rw [same]
          exact ih after
        · rw [same]
          exact .cons_cons leads (ih after)

/-- Once a round has ended with which the loop goes on, the increment is begun in the very next step. -/
theorem After.loopEvents_succ_of_goesOn (h : After condition increment body outer event machine)
    {completion : Completion} (goesOn : completion.GoesOn)
    (last : (event :: loopEvents host outer.length fuel machine).getLast? = some (.round completion)) :
    loopEvents host outer.length (fuel + 1) machine =
      loopEvents host outer.length fuel machine ++ [.increment increment] := by
  induction fuel generalizing event machine with
  | zero =>
      obtain rfl : event = .round completion := Option.some.inj last
      obtain ⟨running, next⟩ := h.goesOn goesOn
      rw [loopEvents_succ running, next]
      rfl
  | succ fuel ih =>
      by_cases ended : machine.frames.length ≤ outer.length
      · rw [loopEvents, if_pos ended] at last
        obtain rfl : event = .round completion := Option.some.inj last
        exact absurd ended (h.goesOn goesOn).1
      · rw [loopEvents_succ ended, loopEvents_succ ended, List.append_assoc]
        rw [loopEvents_succ ended] at last
        refine congrArg _ ?_
        rcases h.step ended host with ⟨same, after⟩ | ⟨next, same, -, after⟩
        · rw [same] at last
          exact ih after last
        · rw [same] at last
          exact ih after (List.getLast?_cons_cons.symm.trans last)

end Machine

end LoxLang
