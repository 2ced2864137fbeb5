import LoxLang.Proofs.Machine.Calling

/-!
Frames. A step takes at most the innermost frame off, and what is being begun keeps all frames around it. Wherever the
evaluation of an expression begins, a frame is put around it.
-/

namespace LoxLang

def Control.isEval : Control → Bool
  | .eval _ => true
  | _ => false

namespace Machine

/-- The machine has these frames, and at least one more where an evaluation begins. -/
def Above (frames : List Frame) (machine : Machine) : Prop :=
  ∃ more, machine.frames = more ++ frames ∧ (machine.control.isEval = true → more ≠ [])

variable {host : Host} {store : Store} {scope : ScopeId} {frames : List Frame} {height : Nat}

theorem Above.suffix {machine : Machine} (h : Above frames machine) : frames <:+ machine.frames := by
  obtain ⟨more, same, -⟩ := h
  exact ⟨more, same.symm⟩

theorem above_same {control : Control} (idle : control.isEval = false) :
    Above frames ⟨control, frames, scope, height, store⟩ :=
  ⟨[], rfl, fun begins => absurd (begins.symm.trans idle) Bool.noConfusion⟩

theorem above_cons (control : Control) (frame : Frame) :
    Above frames ⟨control, frame :: frames, scope, height, store⟩ :=
  ⟨[frame], rfl, fun _ => List.cons_ne_nil _ _⟩

theorem above_ofResult (result : Except Interruption Value) :
    Above frames ⟨ofResult result, frames, scope, height, store⟩ := by
  cases result <;> exact above_same rfl

theorem above_bindMethod (room : Nat) (kind : ClassValue) (name : Token) (receiver : Value) :
    Above frames ⟨(bindMethod host room store kind name receiver).1, frames, scope, height,
      (bindMethod host room store kind name receiver).2⟩ := by
  refine above_same ?_
  unfold bindMethod
  split
  · rfl
  · split <;> rfl

theorem above_activate (closure : Closure) (arguments : List Value) (yield : Yield) :
    Above frames (activate closure arguments yield frames scope height store) :=
  ⟨[_, _], rfl, fun _ => List.cons_ne_nil _ _⟩

theorem above_call (callee : Value) (paren : Token) (arguments : List Value) :
    Above frames (call host callee paren arguments frames scope height store) := by
  have called := called_call host callee paren arguments frames scope height store
  generalize call host callee paren arguments frames scope height store = next at called ⊢
  cases called with
  | fails error => exact above_same rfl
  | function => exact above_activate _ _ _
  | «class» =>
      unfold construct
      split
      · exact above_same rfl
      · exact above_activate _ _ _
  | native => exact above_same rfl

theorem above_callWith (callee : Value) (paren : Token) (before : List Value) (after : List Expr) :
    Above frames (callWith host callee paren before after frames scope height store) := by
  cases after with
  | cons argument after => exact above_cons _ _
  | nil => exact above_call _ _ _

theorem above_eval (expr : Expr) : Above frames (eval host expr frames scope height store) := by
  cases expr with
  | assign | binary | call | get | grouping | logical | set | unary => exact above_cons _ _
  | literal => exact above_same rfl
  | this | «variable» => exact above_ofResult _
  | super keyword method =>
      simp only [eval]
      split
      · exact above_same rfl
      · exact above_bindMethod _ _ _ _

theorem above_exec (stmt : Stmt) : Above frames (exec stmt frames scope height store) := by
  cases stmt with
  | block | expression | «if» | print | «while» => exact above_cons _ _
  | «break» | «continue» | function => exact above_same rfl
  | «class» name superclass methods =>
      cases superclass with
      | none => exact above_same rfl
      | some superclass => exact above_cons _ _
  | «return» keyword value | var name value =>
      cases value with
      | none => exact above_same rfl
      | some value => exact above_cons _ _

theorem above_resumeValue (frame : Frame) (value : Value) :
    Above frames (resumeValue host frame value frames scope height store) := by
  cases frame with
  | binaryLeft | whileIncrement => exact above_cons _ _
  | callee | argument => exact above_callWith _ _ _ _
  | binaryRight | unary => exact above_ofResult _
  | setObject name part =>
      cases value with
      | «instance» object => exact above_cons _ _
      | _ => exact above_same rfl
  | assign use =>
      simp only [resumeValue]
      split <;> exact above_same rfl
  | get name =>
      cases value with
      | «instance» object =>
          simp only [resumeValue]
          split
          · exact above_same rfl
          · exact above_bindMethod _ _ _ _
      | _ => exact above_same rfl
  | logicalLeft operator right =>
      simp only [resumeValue]
      split
      · exact above_same rfl
      · exact above_cons _ _
  | ifCondition thenBranch elseBranch =>
      simp only [resumeValue]
      split
      · exact above_cons _ _
      · cases elseBranch with
        | none => exact above_same rfl
        | some elseBranch => exact above_cons _ _
  | whileCondition condition body increment =>
      simp only [resumeValue]
      split
      · exact above_cons _ _
      · exact above_same rfl
  | superclass name token methods => cases value <;> exact above_same rfl
  | _ => exact above_same rfl

theorem above_resumeDone (frame : Frame) (completion : Completion) :
    Above frames (resumeDone frame completion frames scope height store) := by
  cases frame with
  | activation yield => exact above_ofResult _
  | block rest outer =>
      cases rest with
      | nil => exact above_same rfl
      | cons stmt rest =>
          cases completion with
          | normal => exact above_cons _ _
          | _ => exact above_same rfl
  | program rest =>
      cases rest with
      | nil => exact above_same rfl
      | cons stmt rest => exact above_cons _ _
  | whileBody condition body increment =>
      cases completion with
      | normal | «continue» => cases increment <;> exact above_cons _ _
      | «break» | «return» => exact above_same rfl
  | _ => exact above_same rfl

/-- What is begun keeps all frames around it. -/
theorem above_step_of_begins (host : Host) {machine : Machine}
    (begins : (∃ expr, machine.control = .eval expr) ∨ ∃ stmt, machine.control = .exec stmt) :
    Above machine.frames (step host machine) := by
  obtain ⟨control, frames, scope, height, store⟩ := machine
  rcases begins with ⟨expr, rfl⟩ | ⟨stmt, rfl⟩
  · simp only [step]
    split
    · exact above_same rfl
    · exact above_eval expr
  · simp only [step]
    split
    · exact above_same rfl
    · exact above_exec stmt

theorem above_step (host : Host) (machine : Machine) : Above machine.frames.tail (step host machine) := by
  obtain ⟨control, frames, scope, height, store⟩ := machine
  cases frames with
  | nil =>
      cases control with
      | eval expr => exact above_step_of_begins host (.inl ⟨expr, rfl⟩)
      | exec stmt => exact above_step_of_begins host (.inr ⟨stmt, rfl⟩)
      | value | done | failed => exact above_same rfl
  | cons frame frames =>
      have further {next : Machine} (h : Above (frame :: frames) next) : Above frames next := by
        obtain ⟨more, same, -⟩ := h
        exact ⟨more ++ [frame], by rw [same, List.append_assoc]; rfl, fun _ => by simp⟩
      cases control with
      | eval expr => exact further (above_step_of_begins host (.inl ⟨expr, rfl⟩))
      | exec stmt => exact further (above_step_of_begins host (.inr ⟨stmt, rfl⟩))
      | value value => exact above_resumeValue frame value
      | done completion => exact above_resumeDone frame completion
      | failed interruption => exact above_same rfl

end Machine

end LoxLang
