import LoxLang.Proofs.Machine.Preservation
import LoxLang.Proofs.Scoping.Suited

/-!
Completions. What is running lies in the text where the frames around it say, up to the function that was
called or the program, so a completion other than the normal one always finds what it belongs to.
-/

namespace LoxLang

open Scoping

/-! ## Running parts -/

/-- The frames of an expression whose operands are evaluated. -/
def Frame.IsOperand : Frame → Prop
  | .assign _ | .binaryLeft .. | .binaryRight .. | .callee .. | .argument .. | .get _ | .grouping
  | .logicalLeft .. | .logicalRight | .setObject .. | .setValue .. | .unary _ => True
  | _ => False

/-- The frames of a statement while a value for it is evaluated. -/
inductive Frame.IsPart : Frame → Stmt → Prop
  | expression {value : Expr} : IsPart .expression (.expression value)
  | ifCondition {condition : Expr} {thenBranch : Stmt} {elseBranch : Option Stmt} :
      IsPart (.ifCondition thenBranch elseBranch) (.if condition thenBranch elseBranch)
  | print {value : Expr} : IsPart .print (.print value)
  | return {keyword : Token} {value : Expr} : IsPart .return (.return keyword (some value))
  | superclass {name token : Token} {use : NameUse} {methods : List FunctionDecl} :
      IsPart (.superclass name token methods) (.class name (some use) methods)
  | var {name : Token} {initializer : Expr} : IsPart (.var name) (.var name (some initializer))
  | whileCondition {condition : Expr} {body : Stmt} {increment : Option Expr} :
      IsPart (.whileCondition condition body increment) (.while condition body increment)
  | whileIncrement {condition : Expr} {body : Stmt} {increment : Option Expr} :
      IsPart (.whileIncrement condition body increment) (.while condition body increment)

/-- Something that is running: what yields a value, or a statement or the statements of a block or of
a function's body, which have something around them in the text. -/
inductive Running where
  | value
  | stmt (around : Surroundings) (stmt : Stmt)
  | statements (around : Surroundings) (statements : List Stmt)

/-- The frames around something running are those of what it lies in. -/
inductive Within : Running → List Frame → Prop
  | operand {frame : Frame} {frames : List Frame} :
      frame.IsOperand → Within .value frames → Within .value (frame :: frames)
  | part {around : Surroundings} {stmt : Stmt} {frame : Frame} {frames : List Frame} :
      frame.IsPart stmt → Within (.stmt around stmt) frames → Within .value (frame :: frames)
  | program {rest : List Stmt} {stmt : Stmt} :
      (∀ other ∈ stmt :: rest, Suited .topLevel other) →
      Within (.stmt .topLevel stmt) [.program rest]
  | body {around : Surroundings} {body : List Stmt} {yield : Yield} {frames : List Frame} :
      around.AroundBody → (∀ stmt ∈ body, Suited around stmt) → Within .value frames →
      Within (.statements around body) (.activation yield :: frames)
  | block {around : Surroundings} {statements : List Stmt} {frames : List Frame} :
      Within (.stmt around (.block statements)) frames →
      Within (.statements around statements) frames
  | member {around : Surroundings} {before rest : List Stmt} {stmt : Stmt} {outer : ScopeId}
      {frames : List Frame} :
      Within (.statements around (before ++ stmt :: rest)) frames →
      Within (.stmt around stmt) (.block rest outer :: frames)
  | branch {around : Surroundings} {condition : Expr} {thenBranch branch : Stmt}
      {elseBranch : Option Stmt} {frames : List Frame} :
      branch ∈ (Stmt.if condition thenBranch elseBranch).branches →
      Within (.stmt around (.if condition thenBranch elseBranch)) frames →
      Within (.stmt around branch) (.ifBranch :: frames)
  | loop {around : Surroundings} {condition : Expr} {body : Stmt} {increment : Option Expr}
      {frames : List Frame} :
      Within (.stmt around (.while condition body increment)) frames →
      Within (.stmt around.enterLoop body) (.whileBody condition body increment :: frames)

def Running.Suited : Running → Prop
  | .value => True
  | .stmt around part => Scoping.Suited around part
  | .statements around parts => ∀ part ∈ parts, Scoping.Suited around part

theorem Within.suited {running : Running} {frames : List Frame} (h : Within running frames) :
    running.Suited := by
  induction h with
  | operand _ _ _ | part _ _ _ => trivial
  | program suited => exact suited _ List.mem_cons_self
  | body _ suited _ _ => exact suited
  | block _ ih =>
      cases ih with
      | block suited => exact suited
  | member _ ih => exact ih _ (List.mem_append_right _ List.mem_cons_self)
  | branch member _ ih => exact Scoping.Suited.branch ih member
  | loop _ ih =>
      cases ih with
      | «while» _ body _ => exact body

/-! ## Completions -/

/-- A completion that leaves a statement for something around it finds that there. -/
def Scoping.Surroundings.Takes (around : Surroundings) : Completion → Prop
  | .normal => True
  | .break | .continue => around.inLoop = true
  | .return _ => around.inFunction ≠ .none

/-- A completion that the frames are left with. -/
inductive Leaves : Completion → List Frame → Prop
  | stmt {around : Surroundings} {stmt : Stmt} {completion : Completion} {frames : List Frame} :
      Within (.stmt around stmt) frames → around.Takes completion → Leaves completion frames
  | statements {around : Surroundings} {statements : List Stmt} {completion : Completion}
      {frames : List Frame} :
      Within (.statements around statements) frames → around.Takes completion →
      Leaves completion frames
  | begun {around : Surroundings} {statements : List Stmt} {outer : ScopeId}
      {frames : List Frame} :
      Within (.statements around statements) frames →
      Leaves .normal (.block statements outer :: frames)
  | loaded {statements : List Stmt} :
      (∀ stmt ∈ statements, Suited .topLevel stmt) → Leaves .normal [.program statements]
  | ended : Leaves .normal []

/-- What is being done is done within its frames. -/
def Control.Within (frames : List Frame) : Control → Prop
  | .eval _ | .value _ => LoxLang.Within .value frames
  | .exec stmt => ∃ around, LoxLang.Within (.stmt around stmt) frames
  | .done completion => Leaves completion frames
  | .failed _ => True

def Machine.Placed (machine : Machine) : Prop :=
  machine.control.Within machine.frames

/-! ## Steps -/

def AllSuited (programs : List (List Stmt)) : Prop :=
  ∀ place, StandsIn programs place → ∃ around, place.Suited around

namespace Machine

variable {programs : List (List Stmt)} {host : Host} {store : Store} {scope : ScopeId}
  {frames : List Frame} {height : Nat}

theorem placed_ofResult (h : Within .value frames) (result : Except Interruption Value) :
    (ofResult result).Within frames := by
  cases result with
  | error interruption => trivial
  | ok value => exact h

theorem placed_bindMethod (h : Within .value frames) (kind : ClassValue) (name : Token)
    (receiver : Value) : (bindMethod host height store kind name receiver).1.Within frames := by
  unfold bindMethod
  split
  · trivial
  · split
    · trivial
    · exact h

/-! ### Calls -/

theorem placed_activate (allSuited : AllSuited programs) {closure : Closure} {regions : Regions}
    (stands : StandsIn programs ⟨regions, .function closure.declaration⟩)
    (arguments : List Value) (yield : Yield) (h : Within .value frames) :
    (activate closure arguments yield frames scope height store).Placed := by
  obtain ⟨around, suited⟩ := allSuited _ stands
  obtain ⟨atBody, function⟩ := suited.node
  exact .begun (.body atBody function.body h)

theorem placed_construct (allSuited : AllSuited programs) {kind : ClassValue}
    (hkind : kind.Sound programs store.forest) (arguments : List Value)
    (h : Within .value frames) :
    (construct kind arguments frames scope height store).Placed := by
  unfold construct
  split
  · exact h
  · next initializer found =>
    obtain ⟨regions, stands, -⟩ := hkind.method found
    let bound := (bind store.addInstance initializer (.instance ⟨store.fields.size, kind⟩)).1
    have same : StandsIn programs ⟨.inside .receiver regions, .function bound.declaration⟩ := stands
    exact placed_activate allSuited same arguments _ h

theorem placed_call (allSuited : AllSuited programs) {callee : Value}
    (hcallee : callee.Sound programs store.forest) (paren : Token) (arguments : List Value) (h : Within .value frames) :
    (call host callee paren arguments frames scope height store).Placed := by
  have called := called_call host callee paren arguments frames scope height store
  generalize call host callee paren arguments frames scope height store = next at called ⊢
  cases called with
  | fails error => trivial
  | function =>
      obtain ⟨regions, stands, -⟩ := hcallee
      exact placed_activate allSuited stands _ _ h
  | «class» => exact placed_construct allSuited hcallee _ h
  | native => exact h

theorem placed_callWith (allSuited : AllSuited programs) {callee : Value}
    (hcallee : callee.Sound programs store.forest) (paren : Token) (before : List Value)
    (after : List Expr) (h : Within .value frames) :
    (callWith host callee paren before after frames scope height store).Placed := by
  cases after with
  | cons argument after => exact .operand trivial h
  | nil => exact placed_call allSuited hcallee paren _ h

/-! ### Expressions and statements -/

theorem placed_eval (expr : Expr) (h : Within .value frames) :
    (eval host expr frames scope height store).Placed := by
  cases expr with
  | assign | binary | call | get | grouping | logical | set | unary => exact .operand trivial h
  | literal value => exact h
  | super keyword method =>
      simp only [eval]
      split
      · trivial
      · exact placed_bindMethod h _ _ _
  | this use | «variable» use => exact placed_ofResult h _

theorem placed_exec {around : Surroundings} {stmt : Stmt}
    (h : Within (.stmt around stmt) frames) :
    (exec stmt frames scope height store).Placed := by
  have suited := h.suited
  cases stmt with
  | block statements => exact .begun (.block h)
  | «break» keyword =>
      cases suited with
      | «break» inside => exact .stmt h inside
  | «continue» keyword =>
      cases suited with
      | «continue» inside => exact .stmt h inside
  | «class» name superclass methods =>
      cases superclass with
      | none => exact .stmt h trivial
      | some superclass => exact .part .superclass h
  | expression value => exact .part .expression h
  | function declaration => exact .stmt h trivial
  | «if» condition thenBranch elseBranch => exact .part .ifCondition h
  | print value => exact .part .print h
  | «return» keyword value =>
      cases value with
      | none =>
          cases suited with
          | «return» inside _ => exact .stmt h inside
      | some value => exact .part .return h
  | var name initializer =>
      cases initializer with
      | none => exact .stmt h trivial
      | some value => exact .part .var h
  | «while» condition body increment => exact .part .whileCondition h

/-! ### Going on -/

theorem placed_operand (allSuited : AllSuited programs) {frame : Frame} {value : Value}
    {point next : Point} (operand : frame.IsOperand)
    (leads : frame.Leads programs store.forest point next)
    (hvalue : value.Sound programs store.forest) (h : Within .value frames) :
    (resumeValue host frame value frames scope height store).Placed := by
  cases leads with
  | assign =>
      simp only [resumeValue]
      split
      · trivial
      · exact h
  | binaryLeft => exact .operand trivial h
  | binaryRight | unary => exact placed_ofResult h _
  | callee => exact placed_callWith allSuited hvalue _ _ _ h
  | argument hcallee => exact placed_callWith allSuited hcallee _ _ _ h
  | get =>
      cases value with
      | «instance» object =>
          simp only [resumeValue]
          split
          · exact h
          · exact placed_bindMethod h _ _ _
      | _ => trivial
  | grouping | logicalRight | setValue => exact h
  | logicalLeft =>
      simp only [resumeValue]
      split
      · exact h
      · exact .operand trivial h
  | setObject =>
      cases value with
      | «instance» object => exact .operand trivial h
      | _ => trivial
  | _ => exact operand.elim

theorem placed_part {around : Surroundings} {stmt : Stmt} {frame : Frame} (value : Value)
    (part : frame.IsPart stmt) (h : Within (.stmt around stmt) frames) :
    (resumeValue host frame value frames scope height store).Placed := by
  cases part with
  | expression | print | var => exact .stmt h trivial
  | @ifCondition _ thenBranch elseBranch =>
      simp only [resumeValue]
      split
      · exact ⟨around, .branch List.mem_cons_self h⟩
      · cases elseBranch with
        | none => exact .stmt h trivial
        | some elseBranch =>
            exact ⟨around, .branch (List.mem_cons_of_mem _ List.mem_cons_self) h⟩
  | «return» =>
      cases h.suited with
      | «return» inside _ => exact .stmt h inside
  | superclass =>
      cases value with
      | «class» kind => exact .stmt h trivial
      | _ => trivial
  | whileCondition =>
      simp only [resumeValue]
      split
      · exact ⟨around.enterLoop, .loop h⟩
      · exact .stmt h trivial
  | whileIncrement => exact .part .whileCondition h

/-- A statement is over: its completion leaves what it is a member of, or is taken there. -/
theorem placed_afterStmt {around : Surroundings} {stmt : Stmt} {completion : Completion}
    {frame : Frame} (h : Within (.stmt around stmt) (frame :: frames))
    (takes : around.Takes completion) :
    (resumeDone frame completion frames scope height store).Placed := by
  cases h with
  | @program rest _ suited =>
      have later : ∀ other ∈ rest, Suited .topLevel other := fun other member =>
        suited other (List.mem_cons_of_mem _ member)
      cases rest with
      | nil => exact .ended
      | cons next rest => exact ⟨.topLevel, .program later⟩
  | @member _ before rest _ outer _ h =>
      cases rest with
      | nil => exact .statements h takes
      | cons next rest =>
          cases completion with
          | normal =>
              rw [List.append_cons] at h
              exact ⟨around, .member h⟩
          | «break» | «continue» | «return» value => exact .statements h takes
  | branch member h => exact .stmt h takes
  | @loop around condition _ increment _ h =>
      have again : (resumeDone (.whileBody condition stmt increment) .normal frames scope height
          store).Placed := by
        cases increment with
        | none => exact .part .whileCondition h
        | some increment => exact .part .whileIncrement h
      cases completion with
      | normal => exact again
      | «continue» => exact again
      | «break» => exact .stmt h trivial
      | «return» value => exact .stmt h takes

theorem placed_resumeDone {completion : Completion} {frame : Frame}
    (h : Leaves completion (frame :: frames)) :
    (resumeDone frame completion frames scope height store).Placed := by
  cases h with
  | stmt h takes => exact placed_afterStmt h takes
  | statements h takes =>
      cases h with
      | body _ _ h => exact placed_ofResult h _
      | block h => exact placed_afterStmt h takes
  | @begun around statements outer _ h =>
      cases statements with
      | nil => exact .statements h trivial
      | cons stmt rest =>
          have first : Within (.statements around ([] ++ stmt :: rest)) frames := h
          exact ⟨around, .member first⟩
  | @loaded statements suited =>
      cases statements with
      | nil => exact .ended
      | cons stmt rest => exact ⟨.topLevel, .program suited⟩

theorem placed_step (allSuited : AllSuited programs) {machine : Machine} (sound : machine.Sound programs)
    (h : machine.Placed) : (step host machine).Placed := by
  obtain ⟨control, frames, scope, height, store⟩ := machine
  obtain ⟨hstore, hcontrol⟩ := sound
  cases control with
  | eval expr =>
      simp only [step]
      split
      · trivial
      · exact placed_eval expr h
  | exec stmt =>
      simp only [step]
      split
      · trivial
      · obtain ⟨around, h⟩ := h
        exact placed_exec h
  | value value =>
      obtain ⟨hvalue, regions, -, leads⟩ := hcontrol
      cases h with
      | operand operand h =>
          cases leads with
          | cons leads _ => exact placed_operand allSuited operand leads hvalue h
      | part part h => exact placed_part value part h
  | done completion =>
      cases frames with
      | nil => exact h
      | cons frame frames => exact placed_resumeDone h
  | failed interruption =>
      cases frames with
      | nil => trivial
      | cons frame frames => trivial

end Machine

/-! ## Ends of programs and bodies -/

/-- How a body or a loop may end. -/
def Completion.LeavesLoops (completion : Completion) : Prop :=
  completion = .normal ∨ ∃ value, completion = .return value

/-- The statements of a program's top level end normally. -/
theorem normal_of_leaves {completion : Completion} {rest : List Stmt} {frames : List Frame}
    (h : Leaves completion (.program rest :: frames)) : completion = .normal := by
  have topLevel {stmt : Stmt} {around : Surroundings}
      (within : Within (.stmt around stmt) (.program rest :: frames))
      (takes : around.Takes completion) : completion = .normal := by
    cases within with
    | program _ =>
        cases completion with
        | normal => rfl
        | «break» | «continue» => cases takes
        | «return» value => exact absurd rfl takes
  cases h with
  | stmt within takes => exact topLevel within takes
  | statements within takes =>
      cases within with
      | block within => exact topLevel within takes
  | loaded _ => rfl

/-- The body of a function ends normally or returns. -/
theorem leavesLoops_of_leaves {completion : Completion} {yield : Yield} {frames : List Frame}
    (h : Leaves completion (.activation yield :: frames)) : completion.LeavesLoops := by
  cases h with
  | stmt within _ => cases within
  | statements within takes =>
      cases within with
      | body atBody _ _ =>
          cases completion with
          | normal => exact .inl rfl
          | «break» | «continue» => exact absurd (takes.symm.trans atBody.noLoop) nofun
          | «return» value => exact .inr ⟨value, rfl⟩
      | block within => cases within

end LoxLang
