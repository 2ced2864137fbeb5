import LoxLang.Proofs.Machine.Calling

/-!
What frames hand to one another. Each frame awaits a value or a completion, and in the end hands one or the other to
the frame around it. A step hands something on to the frames that it leaves alone, or puts frames on them
that will do so.
-/

namespace LoxLang

inductive Handed where
  | value | completion
  deriving DecidableEq

/-- What a frame awaits. -/
def Frame.awaits : Frame → Handed
  | .activation _ | .ifBranch | .whileBody .. | .block .. | .program _ => .completion
  | _ => .value

/-- What the frame around a frame is handed in the end. -/
def Frame.hands : Frame → Handed
  | .expression | .print | .return | .var _ | .ifCondition .. | .ifBranch | .whileCondition ..
  | .whileBody .. | .whileIncrement .. | .block .. | .superclass .. | .program _ => .completion
  | _ => .value

/-- Unless it fails, what is being done ends with something to be handed on. -/
def Control.Ends (handed : Handed) : Control → Prop
  | .eval _ | .value _ => handed = .value
  | .exec _ | .done _ => handed = .completion
  | .failed _ => True

/-- Each frame hands on what the next one awaits, and the last one hands on a completion. -/
inductive Linked : Handed → List Frame → Prop
  | nil : Linked .completion []
  | cons {frame : Frame} {frames : List Frame} :
      Linked frame.hands frames → Linked frame.awaits (frame :: frames)

namespace Machine

/-- The machine is about to hand something to frames that run in a scope: at once, or from a frame that it has put
on them. -/
inductive Hands : Handed → List Frame → ScopeId → Machine → Prop
  | now {handed : Handed} {frames : List Frame} {scope : ScopeId} {control : Control}
      {height : Nat} {store : Store} :
      control.Ends handed → Hands handed frames scope ⟨control, frames, scope, height, store⟩
  | from {frame : Frame} {handed : Handed} {frames : List Frame} {inner scope : ScopeId}
      {machine : Machine} :
      Hands frame.awaits (frame :: frames) inner machine → frame.hands = handed →
      Frame.outerScope frame inner = scope → Hands handed frames scope machine

/-- What is being done ends with what the frames await. -/
def Linked (machine : Machine) : Prop :=
  ∃ handed, machine.control.Ends handed ∧ LoxLang.Linked handed machine.frames

/-- The scope that is current once all frames are off. -/
def lastScope : ScopeId → List Frame → ScopeId
  | scope, [] => scope
  | scope, frame :: frames => lastScope (Frame.outerScope frame scope) frames

namespace Hands

variable {handed : Handed} {frames : List Frame} {scope : ScopeId} {machine : Machine}

theorem linked (h : machine.Hands handed frames scope) (links : LoxLang.Linked handed frames) :
    machine.Linked := by
  induction h with
  | now ends => exact ⟨_, ends, links⟩
  | «from» _ same _ ih =>
      subst same
      exact ih (.cons links)

theorem lastScope_eq (h : machine.Hands handed frames scope) :
    lastScope machine.scope machine.frames = lastScope scope frames := by
  induction h with
  | now _ => rfl
  | «from» _ _ same ih => rw [ih, ← same, lastScope]

end Hands

/-! ## Steps -/

section

variable {host : Host} {frames : List Frame} {scope : ScopeId} {height : Nat} {store : Store}

theorem hands_within {frame : Frame} {handed : Handed} {control : Control} {inner : ScopeId}
    (ends : control.Ends frame.awaits) (hands : frame.hands = handed)
    (outer : Frame.outerScope frame inner = scope) :
    Hands handed frames scope ⟨control, frame :: frames, inner, height, store⟩ :=
  .from (.now ends) hands outer

theorem hands_activate (closure : Closure) (arguments : List Value) (yield : Yield) :
    Hands .value frames scope (activate closure arguments yield frames scope height store) := by
  have inner : Hands (Frame.activation yield).awaits (.activation yield :: frames) scope
      (activate closure arguments yield frames scope height store) := hands_within rfl rfl rfl
  exact inner.from rfl rfl

theorem ends_ofResult (result : Except Interruption Value) : (ofResult result).Ends .value := by
  cases result with
  | error _ => trivial
  | ok _ => rfl

theorem ends_bindMethod (kind : ClassValue) (name : Token) (receiver : Value) :
    (bindMethod host height store kind name receiver).1.Ends .value := by
  unfold bindMethod
  split
  · trivial
  · split
    · trivial
    · rfl

theorem hands_call (callee : Value) (paren : Token) (arguments : List Value) :
    Hands .value frames scope (call host callee paren arguments frames scope height store) := by
  have called := called_call host callee paren arguments frames scope height store
  generalize call host callee paren arguments frames scope height store = next at called ⊢
  cases called with
  | fails error => exact .now trivial
  | function => exact hands_activate _ _ _
  | «class» =>
      unfold construct
      split
      · exact .now rfl
      · exact hands_activate _ _ _
  | native => exact .now rfl

theorem hands_callWith (callee : Value) (paren : Token) (before : List Value) (rest : List Expr) :
    Hands .value frames scope
      (callWith host callee paren before rest frames scope height store) := by
  cases rest with
  | nil => exact hands_call _ _ _
  | cons argument rest => exact hands_within rfl rfl rfl

theorem hands_eval (expr : Expr) :
    Hands .value frames scope (eval host expr frames scope height store) := by
  cases expr with
  | assign | binary | call | get | grouping | logical | set | unary => exact hands_within rfl rfl rfl
  | literal => exact .now rfl
  | this use | «variable» use => exact .now (ends_ofResult _)
  | super keyword name =>
      simp only [eval]
      split
      · exact .now trivial
      · exact .now (ends_bindMethod _ _ _)

theorem hands_exec (stmt : Stmt) :
    Hands .completion frames scope (exec stmt frames scope height store) := by
  cases stmt with
  | block statements =>
      exact hands_within rfl rfl rfl
  | «break» | «continue» | function => exact .now rfl
  | expression | print | «if» | «while» => exact hands_within rfl rfl rfl
  | «class» name superclass methods =>
      cases superclass with
      | none => exact .now rfl
      | some superclass => exact hands_within rfl rfl rfl
  | «return» keyword value | var name value =>
      cases value with
      | none => exact .now rfl
      | some value => exact hands_within rfl rfl rfl

theorem hands_resumeValue {frame : Frame} (value : Value) (awaits : frame.awaits = .value) :
    Hands frame.hands frames scope (resumeValue host frame value frames scope height store) := by
  cases frame with
  | assign use =>
      simp only [resumeValue]
      split
      · exact .now trivial
      · exact .now rfl
  | binaryLeft => exact hands_within rfl rfl rfl
  | whileIncrement condition body increment => exact hands_within rfl rfl rfl
  | binaryRight | unary => exact .now (ends_ofResult _)
  | callee | argument => exact hands_callWith _ _ _ _
  | get name =>
      cases value with
      | «instance» object =>
          simp only [resumeValue]
          split
          · exact .now rfl
          · exact .now (ends_bindMethod _ _ _)
      | _ => exact .now trivial
  | logicalLeft operator right =>
      simp only [resumeValue]
      split
      · exact .now rfl
      · exact hands_within rfl rfl rfl
  | setObject name part =>
      cases value with
      | «instance» object => exact hands_within rfl rfl rfl
      | _ => exact .now trivial
  | ifCondition thenBranch elseBranch =>
      simp only [resumeValue]
      split
      · exact hands_within rfl rfl rfl
      · cases elseBranch with
        | none => exact .now rfl
        | some elseBranch => exact hands_within rfl rfl rfl
  | whileCondition condition body increment =>
      simp only [resumeValue]
      split
      · exact hands_within rfl rfl rfl
      · exact .now rfl
  | superclass name token methods =>
      cases value with
      | «class» kind => exact .now rfl
      | _ => exact .now trivial
  | grouping | logicalRight | setValue | expression | print | «return» | var => exact .now rfl
  | activation | ifBranch | whileBody | block | program => cases awaits

theorem hands_resumeDone {frame : Frame} (completion : Completion)
    (awaits : frame.awaits = .completion) :
    Hands frame.hands frames (Frame.outerScope frame scope)
      (resumeDone frame completion frames scope height store) := by
  cases frame with
  | activation yield => exact .now (ends_ofResult _)
  | ifBranch => exact .now rfl
  | whileBody condition body increment =>
      cases completion with
      | normal | «continue» =>
          cases increment with
          | none => exact hands_within rfl rfl rfl
          | some next => exact hands_within rfl rfl rfl
      | «break» | «return» => exact .now rfl
  | block rest outer =>
      cases rest with
      | nil => exact .now rfl
      | cons stmt rest =>
          cases completion with
          | normal => exact hands_within rfl rfl rfl
          | «break» | «continue» | «return» => exact .now rfl
  | program rest =>
      cases rest with
      | nil => exact .now rfl
      | cons stmt rest => exact hands_within rfl rfl rfl
  | _ => cases awaits

/-- Whatever is handed on at a step is what the frames that are left alone await. -/
theorem hands_step (host : Host) {machine : Machine} (h : machine.Linked) :
    ∃ handed frames scope, (step host machine).Hands handed frames scope ∧
      LoxLang.Linked handed frames ∧
      lastScope scope frames = lastScope machine.scope machine.frames := by
  obtain ⟨control, frames, scope, height, store⟩ := machine
  obtain ⟨handed, ends, links⟩ := h
  cases control with
  | eval expr =>
      cases ends
      refine ⟨.value, frames, scope, ?_, links, rfl⟩
      simp only [step]
      split
      · exact .now trivial
      · exact hands_eval expr
  | exec stmt =>
      cases ends
      refine ⟨.completion, frames, scope, ?_, links, rfl⟩
      simp only [step]
      split
      · exact .now trivial
      · exact hands_exec stmt
  | value value =>
      cases ends
      generalize same : Handed.value = handed at links
      cases links with
      | nil => cases same
      | @cons frame frames links =>
          refine ⟨frame.hands, frames, scope, hands_resumeValue value same.symm, links, ?_⟩
          cases frame with
          | block => cases same
          | _ => rfl
  | done completion =>
      cases ends
      generalize same : Handed.completion = handed at links
      cases links with
      | nil => exact ⟨.completion, [], scope, .now rfl, .nil, rfl⟩
      | @cons frame frames links =>
          exact ⟨frame.hands, frames, _, hands_resumeDone completion same.symm, links, rfl⟩
  | failed interruption =>
      cases links with
      | nil => exact ⟨.completion, [], scope, .now trivial, .nil, rfl⟩
      | @cons frame frames links => exact ⟨frame.hands, frames, _, .now trivial, links, rfl⟩

/-- What is being done always ends with what the frames await. -/
theorem Linked.step {machine : Machine} (h : machine.Linked) (host : Host) :
    (Machine.step host machine).Linked := by
  obtain ⟨handed, frames, scope, hands, links, -⟩ := hands_step host h
  exact hands.linked links

/-- No step changes in which scope the machine will be at its end. -/
theorem Linked.lastScope_step {machine : Machine} (h : machine.Linked) (host : Host) :
    lastScope (Machine.step host machine).scope (Machine.step host machine).frames =
      lastScope machine.scope machine.frames := by
  obtain ⟨handed, frames, scope, hands, -, same⟩ := hands_step host h
  rw [hands.lastScope_eq, same]

theorem linked_load (statements : List Stmt) (store : Store) :
    (load statements store).Linked := by
  have links : LoxLang.Linked (Frame.program statements).awaits [.program statements] := .cons .nil
  exact ⟨_, rfl, links⟩

/-- Values are never handed to a block. -/
theorem Linked.not_block {machine : Machine} (h : machine.Linked) {value : Value} {rest : List Stmt}
    {outer : ScopeId} {frames : List Frame} (control : machine.control = .value value) :
    machine.frames ≠ .block rest outer :: frames := by
  intro same
  obtain ⟨handed, ends, links⟩ := h
  rw [control] at ends
  cases ends
  rw [same] at links
  generalize awaited : Handed.value = handed at links
  cases links
  cases awaited

end

end Machine

end LoxLang
