import LoxLang.Proofs.Machine.Completions
import LoxLang.Proofs.Machine.Stack

/-!
Jumps and loops. A jump leaves the blocks and branches between it and the innermost loop around it, and that loop
takes it, so a loop itself never ends with one.
-/

namespace LoxLang

open Scoping

/-! ## Jumps -/

/-- A statement that lies in another one through blocks and branches only, which have these frames. -/
inductive Nested : List Frame → Stmt → Stmt → Prop
  | here {stmt : Stmt} : Nested [] stmt stmt
  | branch {condition : Expr} {thenBranch branch whole : Stmt} {elseBranch : Option Stmt}
      {inner : List Frame} :
      branch ∈ (Stmt.if condition thenBranch elseBranch).branches →
      Nested inner (.if condition thenBranch elseBranch) whole →
      Nested (.ifBranch :: inner) branch whole
  | member {before rest : List Stmt} {stmt whole : Stmt} {outer : ScopeId} {inner : List Frame} :
      Nested inner (.block (before ++ stmt :: rest)) whole →
      Nested (.block rest outer :: inner) stmt whole

/-- The statement that is running, or the block that is made up by the statements. -/
def Running.stmt? : Running → Option Stmt
  | .value => none
  | .stmt _ part => some part
  | .statements _ parts => some (.block parts)

def Running.inLoop : Running → Bool
  | .value => false
  | .stmt around _ | .statements around _ => around.inLoop

/-- What runs in a loop has the frame of the innermost one around it, and lies in the body of that. -/
theorem Within.innermost {running : Running} {frames : List Frame} (h : Within running frames)
    (inLoop : running.inLoop = true) :
    ∃ stmt inner condition body increment outer, running.stmt? = some stmt ∧
      frames = inner ++ .whileBody condition body increment :: outer ∧
      Nested inner stmt body := by
  induction h with
  | operand _ _ _ | part _ _ _ => cases inLoop
  | program _ => cases inLoop
  | body atBody _ _ _ => exact absurd (inLoop.symm.trans atBody.noLoop) nofun
  | block _ ih => exact ih inLoop
  | member _ ih =>
      obtain ⟨stmt, inner, condition, body, increment, outer, same, rfl, nested⟩ := ih inLoop
      cases same
      exact ⟨_, _ :: inner, condition, body, increment, outer, rfl, rfl, .member nested⟩
  | branch member _ ih =>
      obtain ⟨stmt, inner, condition, body, increment, outer, same, rfl, nested⟩ := ih inLoop
      cases same
      exact ⟨_, _ :: inner, condition, body, increment, outer, rfl, rfl, .branch member nested⟩
  | loop _ _ => exact ⟨_, [], _, _, _, _, rfl, rfl, .here⟩

/-- A completion that goes to the innermost loop. -/
inductive Completion.IsJump : Completion → Prop
  | break : IsJump .break
  | continue : IsJump .continue

namespace Machine

/-- The machine that one is after a step on each of the hosts. -/
def through (hosts : List Host) (machine : Machine) : Machine :=
  hosts.foldl (fun machine host => machine.step host) machine

/-- A jump leaves the blocks and branches around it, each with one step. -/
theorem through_nested {jump : Completion} (isJump : jump.IsJump) {inner outer : List Frame}
    {stmt body : Stmt} (nested : Nested inner stmt body) {hosts : List Host}
    (count : hosts.length = inner.length) {machine : Machine}
    (control : machine.control = .done jump) (frames : machine.frames = inner ++ outer) :
    (machine.through hosts).control = .done jump ∧ (machine.through hosts).frames = outer := by
  induction nested generalizing hosts machine with
  | here =>
      rw [List.length_eq_zero_iff.mp count]
      exact ⟨control, frames⟩
  | branch _ _ ih =>
      obtain ⟨host, hosts, rfl⟩ := List.exists_cons_of_length_eq_add_one count
      obtain ⟨_, _, scope, height, store⟩ := machine
      cases control
      cases frames
      exact ih (Nat.succ.inj count) rfl rfl
  | @member _ rest _ _ _ _ _ ih =>
      obtain ⟨host, hosts, rfl⟩ := List.exists_cons_of_length_eq_add_one count
      obtain ⟨_, _, scope, height, store⟩ := machine
      cases control
      cases frames
      cases rest <;> cases isJump <;> exact ih (Nat.succ.inj count) rfl rfl

end Machine

def Stmt.jump? : Stmt → Option Completion
  | .break _ => some .break
  | .continue _ => some .continue
  | _ => none

/-- What a loop does next, and in which frames, when its body has ended with a jump. -/
def afterJump (condition : Expr) (body : Stmt) (increment : Option Expr) (outer : List Frame) :
    Completion → Control × List Frame
  | .break => (.done .normal, outer)
  | _ =>
      match increment with
      | some next => (.eval next, .whileIncrement condition body increment :: outer)
      | none => (.eval condition, .whileCondition condition body increment :: outer)

namespace Machine

/-- A jump statement lies in the body of a running loop, with the frames of blocks and branches between, and
unless the stack is full the loop takes the jump once these are left. -/
def JumpsToLoop (machine : Machine) (stmt : Stmt) (jump : Completion) : Prop :=
  ∃ inner condition body increment outer,
    machine.frames = inner ++ .whileBody condition body increment :: outer ∧
    Nested inner stmt body ∧
    ∀ (host : Host) (hosts : List Host), machine.height < host.heightLimit →
      hosts.length = inner.length + 1 →
      ((machine.through (host :: hosts)).control, (machine.through (host :: hosts)).frames) =
        afterJump condition body increment outer jump

theorem taken_by_loop {jump : Completion} (isJump : jump.IsJump) {condition : Expr} {body : Stmt}
    {increment : Option Expr} {outer : List Frame} {machine : Machine} (host : Host)
    (control : machine.control = .done jump)
    (frames : machine.frames = .whileBody condition body increment :: outer) :
    ((step host machine).control, (step host machine).frames) =
      afterJump condition body increment outer jump := by
  obtain ⟨_, _, scope, height, store⟩ := machine
  cases control
  cases frames
  cases isJump with
  | «break» => rfl
  | «continue» => cases increment <;> rfl

/-- A jump statement that is begun ends at once, unless the stack is full. -/
theorem step_jump {machine : Machine} {stmt : Stmt} {jump : Completion}
    (hjump : stmt.jump? = some jump) (control : machine.control = .exec stmt) {host : Host}
    (room : machine.height < host.heightLimit) :
    jump.IsJump ∧ (step host machine).control = .done jump ∧
      (step host machine).frames = machine.frames := by
  obtain ⟨_, frames, scope, height, store⟩ := machine
  cases control
  simp only [step]
  rw [if_neg (Nat.not_le.mpr room)]
  cases stmt with
  | «break» keyword =>
      cases hjump
      exact ⟨.break, rfl, rfl⟩
  | «continue» keyword =>
      cases hjump
      exact ⟨.continue, rfl, rfl⟩
  | _ => cases hjump

theorem Placed.jumpsToLoop {machine : Machine} (placed : machine.Placed) {stmt : Stmt}
    {jump : Completion} (control : machine.control = .exec stmt)
    (hjump : stmt.jump? = some jump) : machine.JumpsToLoop stmt jump := by
  have found : ∃ around, Within (.stmt around stmt) machine.frames := by
    rw [Placed, control] at placed
    exact placed
  obtain ⟨around, within⟩ := found
  have inLoop : around.inLoop = true := by
    cases (within.suited : Suited around stmt) with
    | «break» inside | «continue» inside => exact inside
    | _ => cases hjump
  obtain ⟨_, inner, condition, body, increment, outer, same, frames, nested⟩ :=
    within.innermost inLoop
  cases same
  refine ⟨inner, condition, body, increment, outer, frames, nested, fun host hosts room count => ?_⟩
  obtain ⟨isJump, begun, kept⟩ := step_jump hjump control room
  have some : hosts ≠ [] := List.ne_nil_of_length_eq_add_one count
  have middle : hosts.dropLast.length = inner.length := by
    rw [List.length_dropLast, count, Nat.add_sub_cancel]
  obtain ⟨left, atLoop⟩ := through_nested isJump nested middle begun (kept.trans frames)
  have last := taken_by_loop isJump (hosts.getLast some) left atLoop
  have split : hosts = hosts.dropLast ++ [hosts.getLast some] :=
    (List.dropLast_concat_getLast some).symm
  have steps : machine.through (host :: hosts) =
      step (hosts.getLast some) ((step host machine).through hosts.dropLast) :=
    (congrArg (fun all => machine.through (host :: all)) split).trans List.foldl_append
  rw [steps]
  exact last

end Machine

/-! ## Loops -/

/-- The frames of a running loop. -/
inductive Frame.IsLoop (condition : Expr) (body : Stmt) (increment : Option Expr) : Frame → Prop
  | condition : IsLoop condition body increment (.whileCondition condition body increment)
  | body : IsLoop condition body increment (.whileBody condition body increment)
  | increment : IsLoop condition body increment (.whileIncrement condition body increment)

/-- A loop is still running in its frames, or it is over and how it ended is known, or it was interrupted. -/
inductive Machine.Loops (condition : Expr) (body : Stmt) (increment : Option Expr)
    (outer : List Frame) (machine : Machine) : Prop
  | running {inner : List Frame} {frame : Frame} : frame.IsLoop condition body increment →
      machine.frames = inner ++ frame :: outer → Loops condition body increment outer machine
  | ended {completion : Completion} : machine.frames = outer →
      machine.control = .done completion → completion.LeavesLoops →
      Loops condition body increment outer machine
  | interrupted {interruption : Interruption} : machine.control = .failed interruption →
      Loops condition body increment outer machine

namespace Machine

variable {condition : Expr} {body : Stmt} {increment : Option Expr} {outer : List Frame}

theorem step_failed (host : Host) {machine : Machine} {interruption : Interruption}
    (h : machine.control = .failed interruption) :
    (step host machine).control = .failed interruption := by
  obtain ⟨_, frames, scope, height, store⟩ := machine
  cases h
  cases frames <;> rfl

theorem Loops.of_suffix {frame : Frame} (isLoop : frame.IsLoop condition body increment)
    {machine : Machine} (suffix : frame :: outer <:+ machine.frames) :
    machine.Loops condition body increment outer := by
  obtain ⟨inner, same⟩ := suffix
  exact .running isLoop same.symm

/-- No completion is left to a loop while its condition or increment is evaluated. -/
theorem eq_body_of_leaves {completion : Completion} {frame : Frame}
    (isLoop : frame.IsLoop condition body increment) (h : Leaves completion (frame :: outer)) :
    frame = .whileBody condition body increment := by
  cases isLoop with
  | body => rfl
  | condition | increment =>
      cases h with
      | stmt h _ => cases h
      | statements h _ =>
          cases h with
          | block h => cases h

theorem loops_resumeDone {completion : Completion} {scope : ScopeId} {height : Nat}
    {store : Store} :
    (resumeDone (.whileBody condition body increment) completion outer scope height store).Loops
      condition body increment outer := by
  have again : (resumeDone (.whileBody condition body increment) .normal outer scope height
      store).Loops condition body increment outer := by
    cases increment with
    | none => exact .of_suffix .condition List.suffix_rfl
    | some increment => exact .of_suffix .increment List.suffix_rfl
  cases completion with
  | normal => exact again
  | «continue» => exact again
  | «break» => exact .ended rfl rfl (.inl rfl)
  | «return» value => exact .ended rfl rfl (.inr ⟨value, rfl⟩)

/-- With its own frame innermost a loop awaits the value of its condition or increment, or the completion of
its body. -/
theorem loops_innermost {host : Host} {control : Control} {frame : Frame} {scope : ScopeId}
    {height : Nat} {store : Store} (isLoop : frame.IsLoop condition body increment)
    (placed : control.Within (frame :: outer)) :
    (step host ⟨control, frame :: outer, scope, height, store⟩).Loops condition body increment
      outer := by
  cases control with
  | eval expr =>
      simp only [step]
      split
      · exact .interrupted rfl
      · exact .of_suffix isLoop (above_eval expr).suffix
  | exec stmt =>
      simp only [step]
      split
      · exact .interrupted rfl
      · exact .of_suffix isLoop (above_exec stmt).suffix
  | value value =>
      cases isLoop with
      | condition =>
          simp only [step, resumeValue]
          split
          · exact .of_suffix .body List.suffix_rfl
          · exact .ended rfl rfl (.inl rfl)
      | increment => exact .of_suffix .condition List.suffix_rfl
      | body =>
          cases placed with
          | operand operand _ => exact operand.elim
          | part part _ => cases part
  | done completion =>
      cases eq_body_of_leaves isLoop placed
      exact loops_resumeDone
  | failed interruption => exact .interrupted rfl

theorem loops_step (host : Host) {machine : Machine} (placed : machine.Placed)
    (more : outer.length < machine.frames.length)
    (h : machine.Loops condition body increment outer) :
    (step host machine).Loops condition body increment outer := by
  cases h with
  | @running inner frame isLoop frames =>
      cases inner with
      | nil =>
          obtain ⟨control, _, scope, height, store⟩ := machine
          cases frames
          exact loops_innermost isLoop placed
      | cons first inner =>
          have kept := (above_step host machine).suffix
          rw [frames] at kept
          exact .of_suffix isLoop ((List.suffix_append inner _).trans kept)
  | ended frames _ _ =>
      rw [frames] at more
      exact absurd more (Nat.lt_irrefl _)
  | interrupted failed => exact .interrupted (step_failed host failed)

theorem loops_start (host : Host) {machine : Machine}
    (h : machine.control = .exec (.while condition body increment)) :
    (step host machine).Loops condition body increment machine.frames := by
  obtain ⟨_, frames, scope, height, store⟩ := machine
  cases h
  simp only [step]
  split
  · exact .interrupted rfl
  · exact .of_suffix .condition List.suffix_rfl

end Machine

theorem leavesLoops_of_loops {condition : Expr} {body : Stmt} {increment : Option Expr}
    {machine : Machine} {completion : Completion} {outer : List Frame}
    (h : machine.Loops condition body increment outer) (frames : machine.frames = outer)
    (control : machine.control = .done completion) : completion.LeavesLoops := by
  cases h with
  | @running inner frame _ longer =>
      have lengths := congrArg List.length (longer.symm.trans frames)
      rw [List.length_append, List.length_cons] at lengths
      omega
  | ended _ done leaves =>
      cases control.symm.trans done
      exact leaves
  | interrupted failed => cases control.symm.trans failed

end LoxLang
