import LoxLang.Proofs.Machine.Events
import LoxLang.Proofs.Machine.Stack
import LoxLang.Proofs.Scoping.Regions

/-!
The code in a machine, each piece with the scope in which it is to run. A step goes on with parts of that code in
the same scope, or enters a block or a function's body, which gets a scope of its own.
-/

namespace LoxLang

open Scoping

/-- A part that runs in the same scope; the methods of a class do not. -/
inductive Scoping.Node.Includes : Node → Node → Prop
  | branch {stmt branch : Stmt} : branch ∈ stmt.branches → Includes (.stmt stmt) (.stmt branch)
  | expr {whole part : Expr} : part ∈ whole.parts → Includes (.expr whole) (.expr part)
  | exprOf {stmt : Stmt} {part : Expr} : part ∈ stmt.exprs → Includes (.stmt stmt) (.expr part)
  | function {declaration : FunctionDecl} :
      Includes (.stmt (.function declaration)) (.function declaration)
  | head {stmt : Stmt} {rest : List Stmt} : Includes (.statements (stmt :: rest)) (.stmt stmt)
  | initializer {name : Token} {value : Expr} :
      Includes (.stmt (.var name (some value))) (.expr value)
  | superclass {name : Token} {use : NameUse} {methods : List FunctionDecl} :
      Includes (.stmt (.class name (some use) methods)) (.expr (.variable use))
  | tail {stmt : Stmt} {rest : List Stmt} :
      Includes (.statements (stmt :: rest)) (.statements rest)

def Control.Keeps (q : Node → Prop) : Control → Prop
  | .eval expr => q (.expr expr)
  | .exec stmt => q (.stmt stmt)
  | _ => True

/-- The code of a frame, or that of which it is a part. -/
def Frame.Keeps (q : Node → Prop) : Frame → Prop
  | .assign target => ∃ value, q (.expr (.assign target value))
  | .binaryLeft _ right | .logicalLeft _ right => q (.expr right)
  | .callee _ arguments => ∀ part ∈ arguments, q (.expr part)
  | .argument _ _ _ after => ∀ part ∈ after, q (.expr part)
  | .setObject _ value => q (.expr value)
  | .var name => ∃ initializer, q (.stmt (.var name (some initializer)))
  | .ifCondition thenBranch elseBranch =>
      ∃ condition, q (.stmt (.if condition thenBranch elseBranch))
  | .whileCondition condition body increment | .whileBody condition body increment
  | .whileIncrement condition body increment => q (.stmt (.while condition body increment))
  | .block rest _ | .program rest => q (.statements rest)
  | .superclass name _ methods => ∃ use, q (.stmt (.class name (some use) methods))
  | _ => True

def FramesKeep (q : ScopeId → Node → Prop) : ScopeId → List Frame → Prop
  | _, [] => True
  | scope, frame :: frames =>
      frame.Keeps (q scope) ∧ FramesKeep q (Machine.Frame.outerScope frame scope) frames

namespace Machine

structure Codes (q : ScopeId → Node → Prop) (machine : Machine) : Prop where
  control : machine.control.Keeps (q machine.scope)
  frames : FramesKeep q machine.scope machine.frames

/-- The next step enters code in a scope that it makes. -/
inductive Enters (host : Host) (machine : Machine) : ScopeId → Node → Prop
  | block {statements : List Stmt} :
      machine.control = .exec (.block statements) →
      (step host machine).store.forest.enclosing? machine.store.forest.next =
        some machine.scope →
      Enters host machine machine.store.forest.next (.statements statements)
  | function {closure : Closure} {arguments : List Value} :
      machine.call? = some (.function closure, arguments) →
      (step host machine).store.forest.enclosing? machine.store.forest.next =
        some closure.scope →
      Enters host machine machine.store.forest.next (.statements closure.declaration.body)
  | initializer {method : Closure} {object : Instance} :
      machine.Binds host method (.instance object) →
      (step host machine).store.forest.enclosing? (machine.store.forest.next + 1) =
        some machine.store.forest.next →
      Enters host machine (machine.store.forest.next + 1) (.statements method.declaration.body)

end Machine

variable {p q : ScopeId → Node → Prop}

theorem Frame.Keeps.mono {means stronger : Node → Prop} {frame : Frame}
    (h : frame.Keeps stronger) (weaken : ∀ node, stronger node → means node) :
    frame.Keeps means := by
  cases frame with
  | assign target =>
      obtain ⟨value, held⟩ := h
      exact ⟨value, weaken _ held⟩
  | callee paren arguments => exact fun part member => weaken _ (h part member)
  | argument callee paren before after => exact fun part member => weaken _ (h part member)
  | var name =>
      obtain ⟨initializer, held⟩ := h
      exact ⟨initializer, weaken _ held⟩
  | ifCondition thenBranch elseBranch =>
      obtain ⟨condition, held⟩ := h
      exact ⟨condition, weaken _ held⟩
  | superclass name token methods =>
      obtain ⟨use, held⟩ := h
      exact ⟨use, weaken _ held⟩
  | binaryLeft | logicalLeft | setObject | whileCondition | whileBody | whileIncrement | block
  | program => exact weaken _ h
  | _ => trivial

theorem FramesKeep.mono {scope : ScopeId} {frames : List Frame} (h : FramesKeep p scope frames)
    (weaken : ∀ scope node, p scope node → q scope node) : FramesKeep q scope frames := by
  induction frames generalizing scope with
  | nil => trivial
  | cons frame frames ih => exact ⟨h.1.mono (weaken scope), ih h.2⟩

namespace Machine

variable {host : Host} {machine : Machine}

theorem Codes.mono (h : machine.Codes p) (weaken : ∀ scope node, p scope node → q scope node) :
    machine.Codes q where
  control := by
    have held := h.control
    cases hcontrol : machine.control with
    | eval _ | exec _ =>
        rw [hcontrol] at held
        exact weaken _ _ held
    | value _ | done _ | failed _ => trivial
  frames := h.frames.mono weaken

section

variable {frames : List Frame} {scope : ScopeId} {height : Nat} {store : Store}
  (closed : ∀ scope whole part, q scope whole → whole.Includes part → q scope part)

theorem codes_activate {closure : Closure} {arguments : List Value} {yield : Yield}
    (body : q store.forest.next (.statements closure.declaration.body))
    (h : FramesKeep q scope frames) :
    (activate closure arguments yield frames scope height store).Codes q :=
  ⟨trivial, body, trivial, h⟩

theorem enclosing?_activate (closure : Closure) (arguments : List Value) (yield : Yield)
    (frames : List Frame) (scope : ScopeId) (height : Nat) (store : Store) :
    (activate closure arguments yield frames scope height store).store.forest.enclosing?
      store.forest.next = some closure.scope := by
  change (store.forest.add (some closure.scope) _).enclosing? _ = _
  rw [Forest.enclosing?_add, if_pos rfl]

theorem next_activate (closure : Closure) (arguments : List Value) (yield : Yield)
    (frames : List Frame) (scope : ScopeId) (height : Nat) (store : Store) :
    (activate closure arguments yield frames scope height store).store.forest.next =
      store.forest.next + 1 :=
  Forest.next_add _ _ _

theorem codes_initializer {kind : ClassValue} {arguments others : List Value}
    {initializer bound : Closure} {yield : Yield} {after : Store}
    (calling : machine.call? = some (.class kind, others))
    (found : kind.method? "init" = some initializer)
    (hbound : bind machine.store.addInstance initializer
      (.instance ⟨machine.store.fields.size, kind⟩) = (bound, after))
    (same : step host machine =
      activate bound arguments yield frames machine.scope height after)
    (entered : ∀ scope node, machine.Enters host scope node → q scope node)
    (h : FramesKeep q machine.scope frames) : (step host machine).Codes q := by
  have next : after.forest.next = machine.store.forest.next + 1 := by
    cases hbound
    exact Forest.next_add _ _ _
  have hscope : bound.scope = machine.store.forest.next := by
    cases hbound
    rfl
  have hdeclaration : bound.declaration = initializer.declaration := by
    cases hbound
    rfl
  have made : machine.store.forest.next < (step host machine).store.forest.next := by
    rw [same, next_activate, next]
    exact Nat.lt_succ_of_lt (Nat.lt_succ_self _)
  have link : (step host machine).store.forest.enclosing? (machine.store.forest.next + 1) =
      some machine.store.forest.next := by
    rw [same, ← next, enclosing?_activate, hscope]
  have body := entered _ _ (.initializer ⟨.initializer calling found, made⟩ link)
  rw [← next, ← hdeclaration] at body
  rw [same]
  exact codes_activate body h

theorem codes_call {callee : Value} {paren : Token} {arguments : List Value}
    (calling : machine.call? = some (callee, arguments))
    (same : step host machine =
      call host callee paren arguments frames machine.scope height machine.store)
    (entered : ∀ scope node, machine.Enters host scope node → q scope node)
    (h : FramesKeep q machine.scope frames) : (step host machine).Codes q := by
  have called := called_call host callee paren arguments frames machine.scope height machine.store
  generalize call host callee paren arguments frames machine.scope height machine.store = next at called same
  cases called with
  | fails | native =>
      rw [same]
      exact ⟨trivial, h⟩
  | @function closure =>
      have link := enclosing?_activate closure arguments (functionYield closure) frames
        machine.scope height machine.store
      rw [same]
      refine codes_activate (entered _ _ (.function calling ?_)) h
      rw [same]
      exact link
  | @«class» kind =>
      cases hinit : kind.method? "init" with
      | none =>
          simp only [construct, hinit] at same
          rw [same]
          exact ⟨trivial, h⟩
      | some initializer =>
          rw [construct_of_init hinit] at same
          exact codes_initializer calling hinit rfl same entered h

include closed

theorem codes_eval {expr : Expr} (held : q scope (.expr expr)) (h : FramesKeep q scope frames) :
    (eval host expr frames scope height store).Codes q := by
  have part (inner : Expr) (member : inner ∈ expr.parts) : q scope (.expr inner) :=
    closed _ _ _ held (.expr member)
  cases expr with
  | assign target value => exact ⟨part value List.mem_cons_self, ⟨value, held⟩, h⟩
  | binary left operator right | logical left operator right =>
      have second := part right (List.mem_cons_of_mem _ List.mem_cons_self)
      exact ⟨part left List.mem_cons_self, second, h⟩
  | call callee paren arguments =>
      have rest : (Frame.callee paren arguments).Keeps (q scope) := fun inner member =>
        part inner (List.mem_cons_of_mem _ member)
      exact ⟨part callee List.mem_cons_self, rest, h⟩
  | get object name | grouping object | unary operator object =>
      exact ⟨part object List.mem_cons_self, trivial, h⟩
  | literal value => exact ⟨trivial, h⟩
  | set object name value =>
      have second := part value (List.mem_cons_of_mem _ List.mem_cons_self)
      exact ⟨part object List.mem_cons_self, second, h⟩
  | super keyword name =>
      simp only [eval]
      split
      · exact ⟨trivial, h⟩
      · next superclass receiver _ =>
        rcases bindMethod_cases host height store superclass name receiver with
          ⟨interruption, same⟩ | ⟨method, -, same⟩
        all_goals
          rw [same]
          exact ⟨trivial, h⟩
  | this use | «variable» use =>
      simp only [eval, ofResult]
      split <;> exact ⟨trivial, h⟩

theorem codes_exec {stmt : Stmt}
    (entered : ∀ statements, stmt = .block statements →
      q store.forest.next (.statements statements))
    (held : q scope (.stmt stmt)) (h : FramesKeep q scope frames) :
    (exec stmt frames scope height store).Codes q := by
  have part (inner : Expr) (member : inner ∈ stmt.exprs) : q scope (.expr inner) :=
    closed _ _ _ held (.exprOf member)
  cases stmt with
  | block statements => exact ⟨trivial, entered statements rfl, h⟩
  | «break» | «continue» | function => exact ⟨trivial, h⟩
  | «class» name superclass methods =>
      cases superclass with
      | none => exact ⟨trivial, h⟩
      | some superclass =>
          exact ⟨closed _ _ _ held .superclass, ⟨superclass, held⟩, h⟩
  | expression value | print value => exact ⟨part value List.mem_cons_self, trivial, h⟩
  | «if» condition thenBranch elseBranch =>
      exact ⟨part condition List.mem_cons_self, ⟨condition, held⟩, h⟩
  | «return» keyword value =>
      cases value with
      | none => exact ⟨trivial, h⟩
      | some value => exact ⟨part value List.mem_cons_self, trivial, h⟩
  | var name initializer =>
      cases initializer with
      | none => exact ⟨trivial, h⟩
      | some value => exact ⟨closed _ _ _ held .initializer, ⟨value, held⟩, h⟩
  | «while» condition body increment => exact ⟨part condition List.mem_cons_self, held, h⟩

theorem codes_step_value {frame : Frame} {value : Value}
    (entered : ∀ id node,
      (Machine.mk (.value value) (frame :: frames) scope height store).Enters host id node →
      q id node)
    (notBlock : ∀ rest outer, frame ≠ .block rest outer)
    (held : frame.Keeps (q scope))
    (h : FramesKeep q (Frame.outerScope frame scope) frames) :
    (step host ⟨.value value, frame :: frames, scope, height, store⟩).Codes q := by
  cases frame with
  | assign use =>
      simp only [step, resumeValue]
      split <;> exact ⟨trivial, h⟩
  | binaryLeft operator right => exact ⟨held, trivial, h⟩
  | binaryRight | unary =>
      simp only [step, resumeValue, ofResult]
      split <;> exact ⟨trivial, h⟩
  | callee paren arguments =>
      cases arguments with
      | nil => exact codes_call rfl rfl entered h
      | cons argument rest =>
          have others : (Frame.argument value paren [] rest).Keeps (q scope) :=
            fun part member => held part (List.mem_cons_of_mem _ member)
          exact ⟨held argument List.mem_cons_self, others, h⟩
  | argument callee paren before rest =>
      cases rest with
      | nil => exact codes_call rfl rfl entered h
      | cons argument rest =>
          have others : (Frame.argument callee paren (value :: before) rest).Keeps (q scope) :=
            fun part member => held part (List.mem_cons_of_mem _ member)
          exact ⟨held argument List.mem_cons_self, others, h⟩
  | get name =>
      cases value with
      | «instance» object =>
          simp only [step, resumeValue]
          split
          · exact ⟨trivial, h⟩
          · rcases bindMethod_cases host (height - (Frame.get name).height) store object.kind name
              (.instance object) with ⟨interruption, same⟩ | ⟨method, -, same⟩
            all_goals
              rw [same]
              exact ⟨trivial, h⟩
      | _ => exact ⟨trivial, h⟩
  | logicalLeft operator right =>
      simp only [step, resumeValue]
      split
      · exact ⟨trivial, h⟩
      · exact ⟨held, trivial, h⟩
  | setObject name part =>
      cases value with
      | «instance» object => exact ⟨held, trivial, h⟩
      | _ => exact ⟨trivial, h⟩
  | ifCondition thenBranch elseBranch =>
      obtain ⟨condition, held⟩ := held
      simp only [step, resumeValue]
      split
      · exact ⟨closed _ _ _ held (.branch List.mem_cons_self), trivial, h⟩
      · cases elseBranch with
        | none => exact ⟨trivial, h⟩
        | some elseBranch =>
            have member : elseBranch ∈ (Stmt.if condition thenBranch (some elseBranch)).branches :=
              List.mem_cons_of_mem _ List.mem_cons_self
            exact ⟨closed _ _ _ held (.branch member), trivial, h⟩
  | whileCondition condition body increment =>
      simp only [step, resumeValue]
      split
      · exact ⟨closed _ _ _ held (.branch List.mem_cons_self), held, h⟩
      · exact ⟨trivial, h⟩
  | whileIncrement condition body increment =>
      exact ⟨closed _ _ _ held (.exprOf List.mem_cons_self), held, h⟩
  | superclass name token methods => cases value <;> exact ⟨trivial, h⟩
  | block rest outer => exact absurd rfl (notBlock rest outer)
  | _ => exact ⟨trivial, h⟩

theorem codes_step_done {frame : Frame} {completion : Completion}
    (held : frame.Keeps (q scope))
    (h : FramesKeep q (Frame.outerScope frame scope) frames) :
    (step host ⟨.done completion, frame :: frames, scope, height, store⟩).Codes q := by
  cases frame with
  | activation yield =>
      simp only [step, resumeDone, ofResult]
      split <;> exact ⟨trivial, h⟩
  | block rest outer =>
      cases rest with
      | nil => exact ⟨trivial, h⟩
      | cons stmt rest =>
          cases completion with
          | normal => exact ⟨closed _ _ _ held .head, closed _ _ _ held .tail, h⟩
          | «break» | «continue» | «return» _ => exact ⟨trivial, h⟩
  | whileBody condition body increment =>
      have next : (step host ⟨.done .normal, .whileBody condition body increment :: frames, scope,
          height, store⟩).Codes q := by
        cases increment with
        | none => exact ⟨closed _ _ _ held (.exprOf List.mem_cons_self), held, h⟩
        | some increment =>
            have member : increment ∈ (Stmt.while condition body (some increment)).exprs :=
              List.mem_cons_of_mem _ List.mem_cons_self
            exact ⟨closed _ _ _ held (.exprOf member), held, h⟩
      cases completion with
      | normal => exact next
      | «continue» => exact next
      | «break» => exact ⟨trivial, h⟩
      | «return» value => exact ⟨trivial, h⟩
  | program rest =>
      cases rest with
      | nil => exact ⟨trivial, h⟩
      | cons stmt rest => exact ⟨closed _ _ _ held .head, closed _ _ _ held .tail, h⟩
  | _ => exact ⟨trivial, h⟩

/-- What holds of the code in a machine and of its parts, and of code that the next step enters, holds of all code
after that step. -/
theorem codes_step (entered : ∀ scope node, machine.Enters host scope node → q scope node)
    (notBlock : ∀ value rest outer frames, machine.control = .value value →
      machine.frames ≠ .block rest outer :: frames)
    (h : machine.Codes q) : (step host machine).Codes q := by
  obtain ⟨control, frames, scope, height, store⟩ := machine
  obtain ⟨held, hframes⟩ := h
  cases control with
  | eval expr =>
      simp only [step]
      split
      · exact ⟨trivial, hframes⟩
      · exact codes_eval closed held hframes
  | exec stmt =>
      by_cases room : host.heightLimit ≤ height
      · simp only [step, if_pos room]
        exact ⟨trivial, hframes⟩
      · have begun : step host ⟨.exec stmt, frames, scope, height, store⟩ =
            exec stmt frames scope height store := by
          simp only [step, if_neg room]
        rw [begun]
        refine codes_exec closed (fun statements same => ?_) held hframes
        cases same
        refine entered _ _ (.block rfl ?_)
        rw [begun]
        change (store.forest.add (some scope) _).enclosing? _ = _
        rw [Forest.enclosing?_add, if_pos rfl]
  | value value =>
      cases frames with
      | nil => exact ⟨trivial, trivial⟩
      | cons frame frames =>
          refine codes_step_value closed entered (fun rest outer same => ?_) hframes.1 hframes.2
          exact notBlock value rest outer frames rfl (by rw [same])
  | done completion =>
      cases frames with
      | nil => exact ⟨trivial, trivial⟩
      | cons frame frames => exact codes_step_done closed hframes.1 hframes.2
  | failed interruption =>
      cases frames with
      | nil => exact ⟨trivial, trivial⟩
      | cons frame frames => exact ⟨trivial, hframes.2⟩

end

end Machine

end LoxLang
