import LoxLang.Proofs.Machine.Calling
import LoxLang.Proofs.Machine.Events
import LoxLang.Proofs.Remarking.Stores
import Mathlib.Logic.Function.Iterate

/-!
Steps by a table. Where the nodes of a program carry numbers in the place of their marks, a step looks the number of
the node at hand up. Marking a machine anew commutes with such a step, as long as the node at hand is found to have the
same mark: no step looks at any other node.
-/

namespace LoxLang

variable (f g : Remarking)

def Completion.remark : Completion → Completion
  | .return value => .return (value.remark f)
  | .normal => .normal
  | .break => .break
  | .continue => .continue

def Yield.remark : Yield → Yield
  | .returned => .returned
  | .receiver scope => .receiver scope
  | .constructed object => .constructed (object.remark f)

def Frame.remark : Frame → Frame
  | .assign target => .assign (target.remark f)
  | .binaryLeft operator right => .binaryLeft operator (right.remark f)
  | .binaryRight left operator => .binaryRight (left.remark f) operator
  | .callee paren arguments => .callee paren (remarkExprs f arguments)
  | .argument called paren before after =>
      .argument (called.remark f) paren (before.map (Value.remark f)) (remarkExprs f after)
  | .get name => .get name
  | .grouping => .grouping
  | .logicalLeft operator right => .logicalLeft operator (right.remark f)
  | .logicalRight => .logicalRight
  | .setObject name value => .setObject name (value.remark f)
  | .setValue object name => .setValue (object.remark f) name
  | .unary operator => .unary operator
  | .activation yield => .activation (yield.remark f)
  | .expression => .expression
  | .print => .print
  | .return => .return
  | .var name => .var name
  | .ifCondition thenBranch elseBranch =>
      .ifCondition (thenBranch.remark f) (remarkStmt? f elseBranch)
  | .ifBranch => .ifBranch
  | .whileCondition condition body increment =>
      .whileCondition (condition.remark f) (body.remark f) (increment.map (Expr.remark f))
  | .whileBody condition body increment =>
      .whileBody (condition.remark f) (body.remark f) (increment.map (Expr.remark f))
  | .whileIncrement condition body increment =>
      .whileIncrement (condition.remark f) (body.remark f) (increment.map (Expr.remark f))
  | .block rest outer => .block (remarkStmts f rest) outer
  | .superclass name word methods => .superclass name word (remarkFunctions f methods)
  | .program rest => .program (remarkStmts f rest)

def Control.remark : Control → Control
  | .eval expr => .eval (expr.remark f)
  | .exec stmt => .exec (stmt.remark f)
  | .value result => .value (result.remark f)
  | .done completion => .done (completion.remark f)
  | .failed interruption => .failed interruption

def Machine.remark : Machine → Machine
  | ⟨control, frames, scope, height, store⟩ =>
      ⟨control.remark f, frames.map (Frame.remark f), scope, height, store.remark f⟩

/-- Whatever nodes its arguments hold, a native answers alike. -/
def Native.Blind (native : Native) : Prop :=
  ∀ f now arguments, native.answer now (arguments.map (Value.remark f)) =
    (native.answer now arguments).remark f

@[simp] theorem Frame.height_remark (frame : Frame) : (frame.remark f).height = frame.height := by
  cases frame with
  | activation yield => cases yield <;> rfl
  | _ => rfl

/-! ## The node at hand -/

def Expr.fetch : Expr → Expr
  | .super keyword method => .super (keyword.remark f) method
  | .this keyword => .this (keyword.remark f)
  | .variable use => .variable (use.remark f)
  | expr => expr

def Frame.fetch : Frame → Frame
  | .assign target => .assign (target.remark f)
  | frame => frame

namespace Machine

/-- The node that the next step looks at has the mark that is found under its number. -/
def fetch : Machine → Machine
  | ⟨.eval expr, frames, scope, height, store⟩ =>
      ⟨.eval (expr.fetch f), frames, scope, height, store⟩
  | ⟨.value value, frame :: frames, scope, height, store⟩ =>
      ⟨.value value, frame.fetch f :: frames, scope, height, store⟩
  | machine => machine

def stepBy (host : Host) (machine : Machine) : Machine :=
  step host (machine.fetch f)

/-! ## Parts of a step -/

section Parts

variable (host : Host) (frames : List Frame) (scope : ScopeId) (height : Nat) (store : Store)

theorem lookup_remark (use : NameUse) :
    lookup (store.forest.remark f) scope use = (lookup store.forest scope use).map (Value.remark f) := by
  rw [lookup, lookup]
  cases use.hops with
  | none => exact Forest.get_remark ..
  | some hops => exact Forest.getAt_remark ..

theorem target_remark (use : NameUse) :
    target (store.forest.remark f) scope use = target store.forest scope use := by
  rw [target, target]
  cases use.hops with
  | none => exact Forest.find_remark ..
  | some hops => exact Forest.findAt_remark ..

theorem superReceiver_remark (keyword : NameUse) :
    superReceiver (store.forest.remark f) scope keyword =
      (superReceiver store.forest scope keyword).map fun found =>
        (found.1.remark f, found.2.remark f) := by
  rw [superReceiver, superReceiver]
  cases keyword.hops with
  | none => rfl
  | some hops =>
      simp only [Forest.getAt_remark]
      cases store.forest.getAt scope hops "super" with
      | error interruption => rfl
      | ok superclass =>
          cases store.forest.getAt scope ((hops : Int) - 1) "this" with
          | error interruption => rfl
          | ok receiver => cases superclass <;> rfl

theorem remark_ofResult (result : Except Interruption Value) :
    (ofResult result).remark f = ofResult (result.map (Value.remark f)) := by
  cases result <;> rfl

theorem bind_remark (method : Closure) (receiver : Value) :
    bind (store.remark f) (method.remark f) (receiver.remark f) =
      ((bind store method receiver).1.remark f, (bind store method receiver).2.remark f) := by
  have added := store.remark_addScope f method.scope [("this", receiver)]
  refine congrArg₂ Prod.mk ?_ ?_
  · simp [bind, Closure.remark]
  · exact congrArg (Store.takeStamps · 1) added.symm

theorem bindMethod_remark (kind : ClassValue) (name : Token) (receiver : Value) :
    bindMethod host height (store.remark f) (kind.remark f) name (receiver.remark f) =
      ((bindMethod host height store kind name receiver).1.remark f,
        (bindMethod host height store kind name receiver).2.remark f) := by
  rw [bindMethod, bindMethod, ClassValue.searched_remark, ClassValue.method?_remark]
  split
  · rfl
  · cases kind.method? name.lexeme with
    | none => rfl
    | some method =>
        dsimp only [Option.map_some]
        rw [bind_remark]
        rfl

theorem methodTable_remark (stamp : Nat) (methods : List FunctionDecl) :
    methodTable stamp scope (remarkFunctions f methods) =
      (methodTable stamp scope methods).map (Closure.remark f) := by
  rw [methodTable, methodTable, Bindings.map_ofList, remarkFunctions_eq_map]
  refine congrArg Bindings.ofList (List.ext_getElem? fun index => ?_)
  simp only [List.getElem?_map, List.getElem?_mapIdx]
  cases methods[index]? with
  | none => rfl
  | some method => simp [Closure.remark]

theorem declareClass_remark (name : Token) (superclass : Option ClassValue)
    (methods : List FunctionDecl) :
    declareClass (store.remark f) scope name (superclass.map (ClassValue.remark f))
        (remarkFunctions f methods) =
      (declareClass store scope name superclass methods).remark f := by
  have count : (remarkFunctions f methods).length = methods.length := by
    rw [remarkFunctions_eq_map, List.length_map]
  have declared : (store.define scope name.lexeme .nil).remark f =
      (store.remark f).define scope name.lexeme .nil := store.remark_define f ..
  generalize hstore : store.define scope name.lexeme .nil = inner at declared
  cases superclass with
  | none =>
      simp only [declareClass, hstore, Store.remark_define, Store.remark_takeStamps, count, ← declared,
        Option.map_none, Store.stamp_remark, methodTable_remark]
      rfl
  | some superclass =>
      have added := inner.remark_addScope f scope [("super", .class superclass)]
      simp only [declareClass, hstore, Store.remark_define, Store.remark_takeStamps, count, ← declared,
        Option.map_some, methodTable_remark, Store.forest_remark, Forest.next_remark]
      rw [added]
      rfl

/-! ## Calls -/

theorem activate_remark (closure : Closure) (arguments : List Value) (yield : Yield) :
    activate (closure.remark f) (arguments.map (Value.remark f)) (yield.remark f)
        (frames.map (Frame.remark f)) scope height (store.remark f) =
      (activate closure arguments yield frames scope height store).remark f := by
  obtain ⟨stamp, ⟨name, params, body⟩, inner, isInitializer⟩ := closure
  have places := (Frame.activation yield).height_remark f
  have bound := store.remark_addScope f inner ((params.map Token.lexeme).zip arguments)
  have zipped : (params.map Token.lexeme).zip (arguments.map (Value.remark f)) =
      ((params.map Token.lexeme).zip arguments).map fun entry => (entry.1, entry.2.remark f) := by
    rw [List.zip_map_right]
    rfl
  simp only [activate, Closure.remark, FunctionDecl.remark, zipped, ← bound, Store.forest_remark,
    Forest.next_remark]
  rw [show (Frame.activation (yield.remark f)).height = _ from places]
  rfl

theorem functionYield_remark (closure : Closure) :
    functionYield (closure.remark f) = (functionYield closure).remark f := by
  rw [functionYield, functionYield, Closure.remark]
  dsimp only
  split <;> rfl

theorem construct_remark (kind : ClassValue) (arguments : List Value) :
    construct (kind.remark f) (arguments.map (Value.remark f)) (frames.map (Frame.remark f)) scope
        height (store.remark f) =
      (construct kind arguments frames scope height store).remark f := by
  rw [construct, construct, ClassValue.method?_remark, ← Store.remark_addInstance, Store.size_fields_remark]
  cases kind.method? "init" with
  | none => rfl
  | some initializer =>
      have made := bind_remark f store.addInstance initializer (.instance ⟨store.fields.size, kind⟩)
      dsimp only [Option.map_some]
      rw [show (Value.instance ⟨store.fields.size, kind.remark f⟩) =
        (Value.instance ⟨store.fields.size, kind⟩).remark f from rfl, made]
      exact activate_remark f frames scope height _
        (bind store.addInstance initializer (.instance ⟨store.fields.size, kind⟩)).1 arguments
        (.constructed ⟨store.fields.size, kind⟩)

end Parts

end Machine

def Machine.Callable.remark : Callable → Callable
  | .function closure => .function (closure.remark f)
  | .class kind => .class (kind.remark f)
  | .native known => .native known

namespace Machine

section Parts

variable (host : Host) (frames : List Frame) (scope : ScopeId) (height : Nat) (store : Store)

theorem ofValue?_remark (value : Value) :
    Callable.ofValue? host (value.remark f) = (Callable.ofValue? host value).map (Callable.remark f) := by
  cases value with
  | native index =>
      rw [Value.remark, Callable.ofValue?]
      cases host.natives[index]? <;> rfl
  | _ => rfl

theorem mem_of_ofValue? {host : Host} {value : Value} {known : Native}
    (found : Callable.ofValue? host value = some (.native known)) : known ∈ host.natives := by
  cases value with
  | native index =>
      obtain ⟨native, located, same⟩ := exists_of_ofValue?_native found
      cases same
      exact Array.mem_of_getElem? located
  | _ => cases found

theorem arity_remark (callable : Callable) : (callable.remark f).arity = callable.arity := by
  cases callable with
  | function closure => exact congrArg List.length (closure.declaration.params_remark f)
  | «class» kind => exact kind.arity_remark f
  | native known => rfl

theorem exceeds_remark (callable : Callable) :
    (callable.remark f).exceeds host height = callable.exceeds host height := by
  cases callable with
  | function | native => rfl
  | «class» kind => rw [Callable.remark, Callable.exceeds, Callable.exceeds, ClassValue.searched_remark]

theorem enter_remark (callable : Callable) (blind : ∀ known, callable = .native known → known.Blind)
    (arguments : List Value) :
    enter host (callable.remark f) (arguments.map (Value.remark f)) (frames.map (Frame.remark f))
        scope height (store.remark f) =
      (enter host callable arguments frames scope height store).remark f := by
  cases callable with
  | function closure =>
      rw [Callable.remark, enter, functionYield_remark, activate_remark, enter]
  | «class» kind => rw [Callable.remark, enter, enter, construct_remark]
  | native known =>
      rw [Callable.remark, enter, blind known rfl]
      rfl

variable {host}

theorem call_remark (blind : ∀ native ∈ host.natives, native.Blind) (called : Value) (paren : Token)
    (arguments : List Value) :
    call host (called.remark f) paren (arguments.map (Value.remark f)) (frames.map (Frame.remark f))
        scope height (store.remark f) =
      (call host called paren arguments frames scope height store).remark f := by
  rw [call, call, ofValue?_remark]
  cases found : Callable.ofValue? host called with
  | none => rfl
  | some callable =>
      dsimp only [Option.map_some]
      rw [exceeds_remark, arity_remark, List.length_map]
      split
      · rfl
      split
      · refine enter_remark f host frames scope height store callable ?_ arguments
        rintro known rfl
        exact blind known (mem_of_ofValue? found)
      · rfl

theorem callWith_remark (blind : ∀ native ∈ host.natives, native.Blind) (called : Value)
    (paren : Token) (before : List Value) (after : List Expr) :
    callWith host (called.remark f) paren (before.map (Value.remark f)) (remarkExprs f after)
        (frames.map (Frame.remark f)) scope height (store.remark f) =
      (callWith host called paren before after frames scope height store).remark f := by
  cases after with
  | nil => rw [remarkExprs, callWith, callWith, ← List.map_reverse, call_remark f _ _ _ _ blind]
  | cons argument rest => rfl

/-! ## Steps -/

theorem eval_remark {h : Remarking} (commutes : h ∘ g = f) (expr : Expr) :
    eval host ((expr.remark g).fetch h) (frames.map (Frame.remark g)) scope height (store.remark g) =
      (eval host (expr.fetch f) frames scope height store).remark g := by
  have looked (use : NameUse) : (use.remark g).remark h = use.remark f :=
    congrArg (NameUse.mk use.name) (congrFun commutes use.hops)
  have found (use : NameUse) :
      ofResult (lookup (store.forest.remark g) scope use) =
        (ofResult (lookup store.forest scope use)).remark g := by
    rw [lookup_remark g, remark_ofResult]
  cases expr with
  | literal value =>
      refine congrArg (Machine.mk · _ _ _ _) ?_
      exact congrArg Control.value (Value.ofConstant_remark g value).symm
  | super keyword method =>
      rw [Expr.remark, Expr.fetch, looked, eval, Store.forest_remark, superReceiver_remark, Expr.fetch, eval]
      cases superReceiver store.forest scope (keyword.remark f) with
      | error interruption => rfl
      | ok found =>
          obtain ⟨superclass, receiver⟩ := found
          dsimp only [Except.map]
          rw [bindMethod_remark]
          rfl
  | this keyword =>
      rw [Expr.remark, Expr.fetch, looked, eval, Store.forest_remark, found]
      rfl
  | «variable» use =>
      rw [Expr.remark, Expr.fetch, looked, eval, Store.forest_remark, found]
      rfl
  | _ => rfl

theorem exec_remark (stmt : Stmt) :
    exec (stmt.remark g) (frames.map (Frame.remark g)) scope height (store.remark g) =
      (exec stmt frames scope height store).remark g := by
  cases stmt with
  | block statements =>
      refine congrArg₂ (Machine.mk _ _ · _ ·) (store.forest.next_remark g) ?_
      exact (store.remark_addScope g scope []).symm
  | «class» name superclass methods =>
      cases superclass with
      | none =>
          exact congrArg (Machine.mk _ _ _ _) (declareClass_remark g scope store name none methods)
      | some superclass => rfl
  | function declaration =>
      have name := congrArg Token.lexeme (declaration.name_remark g)
      refine congrArg (Machine.mk _ _ _ _) ?_
      rw [Store.remark_define, Store.remark_takeStamps]
      exact congrArg (Store.define _ _ · _) name
  | var name initializer =>
      cases initializer with
      | none => exact congrArg (Machine.mk _ _ _ _) (store.remark_define g _ _ .nil).symm
      | some initializer => rfl
  | «return» keyword value => cases value <;> rfl
  | «if» condition thenBranch elseBranch => rfl
  | _ => rfl

theorem resumeDone_remark (frame : Frame) (completion : Completion) :
    resumeDone (frame.remark g) (completion.remark g) (frames.map (Frame.remark g)) scope height
        (store.remark g) =
      (resumeDone frame completion frames scope height store).remark g := by
  cases frame with
  | activation yield =>
      refine congrArg (Machine.mk · _ _ _ _) ?_
      rw [remark_ofResult]
      refine congrArg ofResult ?_
      cases yield with
      | receiver inner => exact Forest.getAt_remark ..
      | returned => cases completion <;> rfl
      | constructed object => rfl
  | block rest outer =>
      cases rest with
      | nil => rfl
      | cons stmt rest => cases completion <;> rfl
  | whileBody condition body increment =>
      cases completion <;> cases increment <;> rfl
  | program rest => cases rest <;> rfl
  | _ => rfl

theorem resumeValue_remark {h : Remarking} (commutes : h ∘ g = f)
    (blind : ∀ native ∈ host.natives, native.Blind) (frame : Frame) (value : Value) :
    resumeValue host ((frame.remark g).fetch h) (value.remark g) (frames.map (Frame.remark g)) scope
        height (store.remark g) =
      (resumeValue host (frame.fetch f) value frames scope height store).remark g := by
  cases frame with
  | assign use =>
      have looked : (use.remark g).remark h = use.remark f :=
        congrArg (NameUse.mk use.name) (congrFun commutes use.hops)
      rw [Frame.remark, Frame.fetch, looked, resumeValue, Store.forest_remark, target_remark g,
        Frame.fetch, resumeValue]
      cases target store.forest scope (use.remark f) with
      | error interruption => rfl
      | ok id => exact congrArg (Machine.mk _ _ _ _) (store.remark_define g _ _ value).symm
  | binaryRight left operator =>
      refine congrArg (Machine.mk · _ _ _ _) ?_
      rw [Value.applyBinary_remark, remark_ofResult]
  | callee paren arguments =>
      exact callWith_remark g frames scope height store blind value paren [] arguments
  | argument called paren before after =>
      exact callWith_remark g frames scope height store blind called paren (value :: before) after
  | get name =>
      cases value with
      | «instance» object =>
          have field := store.field?_remark g object.index name.lexeme
          change resumeValue host (.get name) (.instance (object.remark g)) _ scope height _ =
            (resumeValue host (.get name) (.instance object) frames scope height store).remark g
          unfold resumeValue
          dsimp only
          rw [show (object.remark g).index = object.index from rfl, field]
          cases store.field? object.index name.lexeme with
          | some value => rfl
          | none =>
              have bound := bindMethod_remark g host height store object.kind name (.instance object)
              exact congrArg (fun made => Machine.mk made.1 _ scope height made.2) bound
      | _ => rfl
  | logicalLeft operator right =>
      change resumeValue host (.logicalLeft operator (right.remark g)) (value.remark g) _ _ _ _ =
        (resumeValue host (.logicalLeft operator right) value frames scope height store).remark g
      unfold resumeValue
      dsimp only
      rw [Value.settles_remark]
      split <;> rfl
  | setObject name part => cases value <;> rfl
  | setValue object name =>
      exact congrArg (Machine.mk _ _ _ _) (store.remark_setField g object.index name.lexeme value).symm
  | unary operator =>
      refine congrArg (Machine.mk · _ _ _ _) ?_
      rw [Value.applyUnary_remark, remark_ofResult]
  | print =>
      refine congrArg (Machine.mk _ _ _ _) ?_
      rw [Value.toText_remark]
      rfl
  | var name => exact congrArg (Machine.mk _ _ _ _) (store.remark_define g scope name.lexeme value).symm
  | ifCondition thenBranch elseBranch =>
      change resumeValue host (.ifCondition (thenBranch.remark g) (remarkStmt? g elseBranch))
          (value.remark g) _ _ _ _ =
        (resumeValue host (.ifCondition thenBranch elseBranch) value frames scope height store).remark g
      unfold resumeValue
      dsimp only
      rw [Value.isTruthy_remark]
      split
      · rfl
      · cases elseBranch <;> rfl
  | whileCondition condition body increment =>
      change resumeValue host (.whileCondition (condition.remark g) (body.remark g)
          (increment.map (Expr.remark g))) (value.remark g) _ _ _ _ =
        (resumeValue host (.whileCondition condition body increment) value frames scope height
          store).remark g
      unfold resumeValue
      dsimp only
      rw [Value.isTruthy_remark]
      split <;> rfl
  | superclass name word methods =>
      cases value with
      | «class» kind =>
          exact congrArg (Machine.mk _ _ _ _)
            (declareClass_remark g scope store name (some kind) methods)
      | _ => rfl
  | _ => rfl

end Parts

/-- Steps by two tables go together, where one of them finds under the new marks what the other one finds under the
old ones. -/
theorem stepBy_remark {h : Remarking} (commutes : h ∘ g = f) {host : Host}
    (blind : ∀ native ∈ host.natives, native.Blind) (machine : Machine) :
    (machine.remark g).stepBy h host = (machine.stepBy f host).remark g := by
  obtain ⟨control, frames, scope, height, store⟩ := machine
  cases control with
  | eval expr =>
      change (if host.heightLimit ≤ height then _ else _) =
        Machine.remark g (if host.heightLimit ≤ height then _ else _)
      split
      · rfl
      · exact eval_remark f g frames scope height store commutes expr
  | exec stmt =>
      change (if host.heightLimit ≤ height then _ else _) =
        Machine.remark g (if host.heightLimit ≤ height then _ else _)
      split
      · rfl
      · exact exec_remark g frames scope height store stmt
  | value value =>
      cases frames with
      | nil => rfl
      | cons frame frames =>
          have places : ((frame.remark g).fetch h).height = (frame.fetch f).height := by
            cases frame with
            | activation yield => cases yield <;> rfl
            | _ => rfl
          change resumeValue host ((frame.remark g).fetch h) (value.remark g) _ scope
            (height - ((frame.remark g).fetch h).height) _ = _
          rw [places]
          exact resumeValue_remark f g frames scope _ store commutes blind frame value
  | done completion =>
      cases frames with
      | nil => rfl
      | cons frame frames =>
          change resumeDone (frame.remark g) (completion.remark g) _ scope
            (height - (frame.remark g).height) _ = _
          rw [frame.height_remark]
          exact resumeDone_remark g frames scope _ store frame completion
  | failed interruption =>
      cases frames with
      | nil => rfl
      | cons frame frames =>
          refine congrArg₂ (Machine.mk _ _ · · _) ?_ ?_
          · cases frame <;> rfl
          · exact congrArg (height - ·) (frame.height_remark g)

theorem iterate_stepBy_remark {h : Remarking} (commutes : h ∘ g = f) {host : Host}
    (blind : ∀ native ∈ host.natives, native.Blind) (machine : Machine) (steps : Nat) :
    (stepBy h host)^[steps] (machine.remark g) = ((stepBy f host)^[steps] machine).remark g :=
  (Function.Semiconj.iterate_right (f := Machine.remark g)
    (fun machine => (stepBy_remark f g commutes blind machine).symm) steps machine).symm

/-- Where nodes carry their marks themselves, nothing is looked up. -/
theorem stepBy_id (host : Host) : stepBy id host = step host := by
  funext machine
  obtain ⟨control, frames, scope, height, store⟩ := machine
  refine congrArg (step host) ?_
  cases control with
  | eval expr => cases expr <;> rfl
  | value value =>
      cases frames with
      | nil => rfl
      | cons frame frames => cases frame <;> rfl
  | _ => rfl

/-- A step finds the same under two tables that agree on the nodes of the machine. -/
theorem stepBy_congr {h : Remarking} (same : h ∘ g = f ∘ g) (host : Host) (machine : Machine) :
    (machine.remark g).stepBy h host = (machine.remark g).stepBy f host := by
  have found (use : NameUse) : (use.remark g).remark h = (use.remark g).remark f :=
    congrArg (NameUse.mk use.name) (congrFun same use.hops)
  obtain ⟨control, frames, scope, height, store⟩ := machine
  refine congrArg (step host) ?_
  cases control with
  | eval expr =>
      refine congrArg (fun expr => Machine.mk (.eval expr) _ _ _ _) ?_
      cases expr with
      | super keyword method => exact congrArg (Expr.super · method) (found keyword)
      | this keyword => exact congrArg Expr.this (found keyword)
      | «variable» use => exact congrArg Expr.variable (found use)
      | _ => rfl
  | value value =>
      cases frames with
      | nil => rfl
      | cons frame frames =>
          refine congrArg (fun frame => Machine.mk _ (frame :: _) _ _ _) ?_
          cases frame with
          | assign use => exact congrArg Frame.assign (found use)
          | _ => rfl
  | _ => rfl

/-! ## What is shown -/

@[simp] theorem isFinal_remark (machine : Machine) : (machine.remark g).isFinal = machine.isFinal := by
  obtain ⟨control, frames, scope, height, store⟩ := machine
  cases control <;> cases frames <;> rfl

end Machine

end LoxLang
