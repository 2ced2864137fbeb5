import LoxLang.Machine.Basic
import LoxLang.Value.Operation
import LoxLang.Value.Text

/-!
One step of a program. A step begins an expression or statement, or hands a value or completion to the
innermost frame, or drops that frame because of an interruption. Whatever ends a block or call, the
scope in which it was begun is the current one again.
-/

namespace LoxLang.Machine

/-! ## Lookup -/

/-- A marked name is looked up at its distance, another one among the globals. -/
def lookup (forest : Forest) (scope : ScopeId) (use : NameUse) : Except Interruption Value :=
  match use.hops with
  | some hops => forest.getAt scope hops use.name.lexeme
  | none => forest.get Forest.globals use.name

/-- The scope in which an assignment changes a name. -/
def target (forest : Forest) (scope : ScopeId) (use : NameUse) :
    Except Interruption ScopeId :=
  match use.hops with
  | some hops => forest.findAt scope hops use.name
  | none => forest.find Forest.globals use.name

/-- What `super` and `this` stand for at a place in one; `this` is bound in the scope just
inside that of `super`. -/
def superReceiver (forest : Forest) (scope : ScopeId) (keyword : NameUse) :
    Except Interruption (ClassValue × Value) := do
  match keyword.hops with
  | none => throw (.fault .superUnmarked)
  | some hops =>
      let superclass ← forest.getAt scope hops "super"
      let receiver ← forest.getAt scope ((hops : Int) - 1) "this"
      match superclass with
      | .class superclass => return (superclass, receiver)
      | _ => throw (.fault .superUnmarked)

/-! ## Values that are made -/

/-- A method of a receiver: its names are looked up in a new scope that binds `this`. -/
def bind (store : Store) (method : Closure) (receiver : Value) : Closure × Store :=
  let bound := ⟨store.stamp, method.declaration, store.forest.next, method.isInitializer⟩
  (bound, (store.addScope method.scope [("this", receiver)]).takeStamps 1)

/-- The method that a class gives to a receiver; the search for it takes one place for each layer. -/
def bindMethod (host : Host) (height : Nat) (store : Store) (kind : ClassValue) (name : Token)
    (receiver : Value) : Control × Store :=
  if host.heightLimit < height + kind.searched name.lexeme then
    (.failed .stackOverflow, store)
  else match kind.method? name.lexeme with
    | none => (.failed (.located name (.undefinedProperty name.lexeme)), store)
    | some method =>
        let (bound, store) := bind store method receiver
        (.value (.function bound), store)

/-- The closures of a class's methods; of two methods with one name the later one counts. -/
def methodTable (stamp : Nat) (scope : ScopeId) (methods : List FunctionDecl) :
    Bindings Closure :=
  .ofList (methods.mapIdx fun index method =>
    (method.name.lexeme,
      ⟨stamp + index, method, scope, method.name.lexeme = "init"⟩))

/-- Runs a class declaration once its superclass is known. The name is bound before and after, and the
methods see `super` in a scope of their own. -/
def declareClass (store : Store) (scope : ScopeId) (name : Token) (superclass : Option ClassValue)
    (methods : List FunctionDecl) : Store :=
  let store := store.define scope name.lexeme .nil
  let (methodScope, store) := match superclass with
    | none => (scope, store)
    | some superclass =>
        let inner := store.forest.next
        (inner, store.addScope scope [("super", .class superclass)])
  let stamp := store.stamp
  let layer := ⟨stamp, name.lexeme, methodTable (stamp + 1) methodScope methods⟩
  let above := match superclass with
    | none => []
    | some superclass => superclass.layers
  (store.takeStamps (methods.length + 1)).define scope name.lexeme (.class ⟨layer, above⟩)

/-! ## Calls -/

/-- Begins the body of a function in a new scope with its parameters bound. -/
def activate (closure : Closure) (arguments : List Value) (yield : Yield) (frames : List Frame)
    (scope : ScopeId) (height : Nat) (store : Store) : Machine :=
  let activation := Frame.activation yield
  let body := Frame.block closure.declaration.body scope
  let names := closure.declaration.params.map Token.lexeme
  ⟨.done .normal, body :: activation :: frames, store.forest.next,
    height + activation.height + body.height, store.addScope closure.scope (names.zip arguments)⟩

def functionYield (closure : Closure) : Yield :=
  if closure.isInitializer then .receiver closure.scope else .returned

/-- Makes an instance and runs the initializer on it, if there is one. -/
def construct (kind : ClassValue) (arguments : List Value) (frames : List Frame)
    (scope : ScopeId) (height : Nat) (store : Store) : Machine :=
  let object := ⟨store.fields.size, kind⟩
  let store := store.addInstance
  match kind.method? "init" with
  | none => ⟨.value (.instance object), frames, scope, height, store⟩
  | some initializer =>
      let (bound, store) := bind store initializer (.instance object)
      activate bound arguments (.constructed object) frames scope height store

inductive Callable where
  | function (closure : Closure)
  | class (kind : ClassValue)
  | native (native : Native)

namespace Callable

def ofValue? (host : Host) : Value → Option Callable
  | .function closure => some (.function closure)
  | .class kind => some (.class kind)
  | .native index => host.natives[index]?.map .native
  | _ => none

def arity : Callable → Nat
  | .function closure => closure.arity
  | .class kind => kind.arity
  | .native known => known.arity

/-- The number of arguments is known only once a class has been searched for its initializer, and there may be no places
left for the search. -/
def exceeds (host : Host) (height : Nat) : Callable → Bool
  | .class kind => host.heightLimit < height + kind.searched "init"
  | .function _ | .native _ => false

end Callable

/-- Calls with the right number of arguments. -/
def enter (host : Host) (callable : Callable) (arguments : List Value) (frames : List Frame)
    (scope : ScopeId) (height : Nat) (store : Store) : Machine :=
  match callable with
  | .function closure =>
      activate closure arguments (functionYield closure) frames scope height store
  | .class kind => construct kind arguments frames scope height store
  | .native known => ⟨.value (known.answer host.now arguments), frames, scope, height, store⟩

/-- A call whose callee and arguments have been evaluated. Only then is it known whether the callee can
be called, and with how many arguments. -/
def call (host : Host) (callee : Value) (paren : Token) (arguments : List Value)
    (frames : List Frame) (scope : ScopeId) (height : Nat) (store : Store) : Machine :=
  match Callable.ofValue? host callee with
  | none => ⟨.failed (.located paren .notCallable), frames, scope, height, store⟩
  | some callable =>
      if callable.exceeds host height then
        ⟨.failed .stackOverflow, frames, scope, height, store⟩
      else if arguments.length = callable.arity then
        enter host callable arguments frames scope height store
      else
        let cause := .wrongArity callable.arity arguments.length
        ⟨.failed (.located paren cause), frames, scope, height, store⟩

/-- Goes on to the next argument, or to the call when there is none. -/
def callWith (host : Host) (callee : Value) (paren : Token) (before : List Value)
    (after : List Expr) (frames : List Frame) (scope : ScopeId) (height : Nat) (store : Store) :
    Machine :=
  match after with
  | [] => call host callee paren before.reverse frames scope height store
  | argument :: after =>
      let frame := Frame.argument callee paren before after
      ⟨.eval argument, frame :: frames, scope, height + frame.height, store⟩

/-! ## Beginning -/

/-- Evaluates a part with a frame around it. -/
def evalWithin (frame : Frame) (part : Expr) (frames : List Frame) (scope : ScopeId)
    (height : Nat) (store : Store) : Machine :=
  ⟨.eval part, frame :: frames, scope, height + frame.height, store⟩

def execWithin (frame : Frame) (part : Stmt) (frames : List Frame) (scope : ScopeId)
    (height : Nat) (store : Store) : Machine :=
  ⟨.exec part, frame :: frames, scope, height + frame.height, store⟩

def ofResult : Except Interruption Value → Control
  | .ok value => .value value
  | .error interruption => .failed interruption

def eval (host : Host) (expr : Expr) (frames : List Frame) (scope : ScopeId) (height : Nat)
    (store : Store) : Machine :=
  match expr with
  | .assign target value => evalWithin (.assign target) value frames scope height store
  | .binary left operator right =>
      evalWithin (.binaryLeft operator right) left frames scope height store
  | .call callee paren arguments =>
      evalWithin (.callee paren arguments) callee frames scope height store
  | .get object name => evalWithin (.get name) object frames scope height store
  | .grouping expression => evalWithin .grouping expression frames scope height store
  | .literal value => ⟨.value (.ofConstant value), frames, scope, height, store⟩
  | .logical left operator right =>
      evalWithin (.logicalLeft operator right) left frames scope height store
  | .set object name value => evalWithin (.setObject name value) object frames scope height store
  | .super keyword method =>
      match superReceiver store.forest scope keyword with
      | .error interruption => ⟨.failed interruption, frames, scope, height, store⟩
      | .ok (superclass, receiver) =>
          let (control, store) := bindMethod host height store superclass method receiver
          ⟨control, frames, scope, height, store⟩
  | .this use | .variable use =>
      ⟨ofResult (lookup store.forest scope use), frames, scope, height, store⟩
  | .unary operator right => evalWithin (.unary operator) right frames scope height store

def exec (stmt : Stmt) (frames : List Frame) (scope : ScopeId) (height : Nat) (store : Store) :
    Machine :=
  match stmt with
  | .block statements =>
      let frame := Frame.block statements scope
      ⟨.done .normal, frame :: frames, store.forest.next, height + frame.height,
        store.addScope scope []⟩
  | .break _ => ⟨.done .break, frames, scope, height, store⟩
  | .continue _ => ⟨.done .continue, frames, scope, height, store⟩
  | .class name none methods =>
      ⟨.done .normal, frames, scope, height, declareClass store scope name none methods⟩
  | .class name (some superclass) methods =>
      evalWithin (.superclass name superclass.name methods) (.variable superclass) frames scope
        height store
  | .expression expression => evalWithin .expression expression frames scope height store
  | .function declaration =>
      let closure := ⟨store.stamp, declaration, scope, false⟩
      let store := store.takeStamps 1
      ⟨.done .normal, frames, scope, height,
        store.define scope declaration.name.lexeme (.function closure)⟩
  | .if condition thenBranch elseBranch =>
      evalWithin (.ifCondition thenBranch elseBranch) condition frames scope height store
  | .print expression => evalWithin .print expression frames scope height store
  | .return _ none => ⟨.done (.return .nil), frames, scope, height, store⟩
  | .return _ (some value) => evalWithin .return value frames scope height store
  | .var name none =>
      ⟨.done .normal, frames, scope, height, store.define scope name.lexeme .nil⟩
  | .var name (some initializer) => evalWithin (.var name) initializer frames scope height store
  | .while condition body increment =>
      evalWithin (.whileCondition condition body increment) condition frames scope height store

/-! ## Going on -/

/-- Hands a value to the frame that awaits it, which is off the stack already. -/
def resumeValue (host : Host) (frame : Frame) (value : Value) (frames : List Frame)
    (scope : ScopeId) (height : Nat) (store : Store) : Machine :=
  match frame with
  | .assign use =>
      match target store.forest scope use with
      | .error interruption => ⟨.failed interruption, frames, scope, height, store⟩
      | .ok id =>
          ⟨.value value, frames, scope, height, store.define id use.name.lexeme value⟩
  | .binaryLeft operator right =>
      evalWithin (.binaryRight value operator) right frames scope height store
  | .binaryRight left operator =>
      ⟨ofResult (left.applyBinary operator value), frames, scope, height, store⟩
  | .callee paren arguments => callWith host value paren [] arguments frames scope height store
  | .argument callee paren before after =>
      callWith host callee paren (value :: before) after frames scope height store
  | .get name =>
      match value with
      | .instance object =>
          match store.field? object.index name.lexeme with
          | some field => ⟨.value field, frames, scope, height, store⟩
          | none =>
              let (control, store) := bindMethod host height store object.kind name value
              ⟨control, frames, scope, height, store⟩
      | _ => ⟨.failed (.located name .propertyOfOther), frames, scope, height, store⟩
  | .grouping => ⟨.value value, frames, scope, height, store⟩
  | .logicalLeft operator right =>
      if value.settles operator then ⟨.value value, frames, scope, height, store⟩
      else evalWithin .logicalRight right frames scope height store
  | .logicalRight => ⟨.value value, frames, scope, height, store⟩
  | .setObject name part =>
      match value with
      | .instance object => evalWithin (.setValue object name) part frames scope height store
      | _ => ⟨.failed (.located name .fieldOfOther), frames, scope, height, store⟩
  | .setValue object name =>
      ⟨.value value, frames, scope, height, store.setField object.index name.lexeme value⟩
  | .unary operator => ⟨ofResult (value.applyUnary operator), frames, scope, height, store⟩
  | .expression => ⟨.done .normal, frames, scope, height, store⟩
  | .print => ⟨.done .normal, frames, scope, height, store.print value.toText⟩
  | .return => ⟨.done (.return value), frames, scope, height, store⟩
  | .var name => ⟨.done .normal, frames, scope, height, store.define scope name.lexeme value⟩
  | .ifCondition thenBranch elseBranch =>
      if value.isTruthy then execWithin .ifBranch thenBranch frames scope height store
      else match elseBranch with
        | some elseBranch => execWithin .ifBranch elseBranch frames scope height store
        | none => ⟨.done .normal, frames, scope, height, store⟩
  | .whileCondition condition body increment =>
      if value.isTruthy then
        execWithin (.whileBody condition body increment) body frames scope height store
      else
        ⟨.done .normal, frames, scope, height, store⟩
  | .whileIncrement condition body increment =>
      evalWithin (.whileCondition condition body increment) condition frames scope height store
  | .superclass name superclass methods =>
      match value with
      | .class kind =>
          ⟨.done .normal, frames, scope, height,
            declareClass store scope name (some kind) methods⟩
      | _ => ⟨.failed (.located superclass .superclassNotClass), frames, scope, height, store⟩
  | .activation _ | .ifBranch | .whileBody .. | .block .. | .program _ =>
      ⟨.value value, frames, scope, height, store⟩

/-- What a call whose body has ended yields. -/
def yieldOf (forest : Forest) (yield : Yield) (completion : Completion) :
    Except Interruption Value :=
  match yield, completion with
  | .constructed object, _ => .ok (.instance object)
  | .receiver scope, _ => forest.getAt scope 0 "this"
  | .returned, .return value => .ok value
  | .returned, _ => .ok .nil

/-- Hands a completion to the frame that awaits it, which is off the stack already. -/
def resumeDone (frame : Frame) (completion : Completion) (frames : List Frame) (scope : ScopeId)
    (height : Nat) (store : Store) : Machine :=
  match frame with
  | .activation yield =>
      ⟨ofResult (yieldOf store.forest yield completion), frames, scope, height, store⟩
  | .block [] outer => ⟨.done completion, frames, outer, height, store⟩
  | .block (stmt :: rest) outer =>
      match completion with
      | .normal => execWithin (.block rest outer) stmt frames scope height store
      | _ => ⟨.done completion, frames, outer, height, store⟩
  | .whileBody condition body increment =>
      match completion with
      | .normal | .continue =>
          match increment with
          | some next =>
              evalWithin (.whileIncrement condition body increment) next frames scope height
                store
          | none =>
              evalWithin (.whileCondition condition body none) condition frames scope height
                store
      | .break => ⟨.done .normal, frames, scope, height, store⟩
      | .return _ => ⟨.done completion, frames, scope, height, store⟩
  | .program [] => ⟨.done .normal, frames, scope, height, store⟩
  | .program (stmt :: rest) => execWithin (.program rest) stmt frames scope height store
  | _ => ⟨.done completion, frames, scope, height, store⟩

/-- The scope that is current once an interruption has dropped the frame. -/
def Frame.outerScope : Frame → ScopeId → ScopeId
  | .block _ outer, _ => outer
  | _, scope => scope

def step (host : Host) : Machine → Machine
  | ⟨control, frames, scope, height, store⟩ =>
      match control with
      | .eval expr =>
          if host.heightLimit ≤ height then ⟨.failed .stackOverflow, frames, scope, height, store⟩
          else eval host expr frames scope height store
      | .exec stmt =>
          if host.heightLimit ≤ height then ⟨.failed .stackOverflow, frames, scope, height, store⟩
          else exec stmt frames scope height store
      | .value value =>
          match frames with
          | [] => ⟨.value value, [], scope, height, store⟩
          | frame :: frames =>
              resumeValue host frame value frames scope (height - frame.height) store
      | .done completion =>
          match frames with
          | [] => ⟨.done completion, [], scope, height, store⟩
          | frame :: frames =>
              resumeDone frame completion frames scope (height - frame.height) store
      | .failed interruption =>
          match frames with
          | [] => ⟨.failed interruption, [], scope, height, store⟩
          | frame :: frames =>
              ⟨.failed interruption, frames, Frame.outerScope frame scope, height - frame.height,
                store⟩

/-- Takes up to `fuel` steps, fewer if the end is reached. -/
def advance (host : Host) : (fuel : Nat) → Machine → Machine
  | 0, machine => machine
  | fuel + 1, machine =>
      if machine.isFinal then machine else advance host fuel (step host machine)

/-- Runs to the end, if that takes at most `fuel` steps. -/
def run? (host : Host) (fuel : Nat) (machine : Machine) : Option Machine :=
  let machine := advance host fuel machine
  if machine.isFinal then some machine else none

end LoxLang.Machine
