import LoxLang.Proofs.Machine.Events
import LoxLang.Proofs.Machine.Memory
import LoxLang.Proofs.Store.Areas

/-!
What a call works on. While a call runs, its values and its frames and the scopes in which they go on lie within an area
that it does not leave, so it reads and changes nothing outside. Only the frames that were there before
the call go on elsewhere.
-/

namespace LoxLang

/-- A native that answers with what it was given, or with what leads nowhere. -/
def Native.Confined (native : Native) : Prop :=
  ∀ area now arguments, (∀ argument ∈ arguments, argument.LiesIn area) →
    (native.answer now arguments).LiesIn area

variable {area : Area}

/-! ## Within an area -/

def Completion.LiesIn (area : Area) : Completion → Prop
  | .return value => value.LiesIn area
  | _ => True

def Control.LiesIn (area : Area) : Control → Prop
  | .value result => result.LiesIn area
  | .done completion => completion.LiesIn area
  | _ => True

def Yield.LiesIn (area : Area) : Yield → Prop
  | .returned => True
  | .receiver scope => area.scopes scope
  | .constructed object => object.LiesIn area

def Frame.LiesIn (area : Area) : Frame → Prop
  | .activation yield => yield.LiesIn area
  | .argument called _ before _ => called.LiesIn area ∧ ∀ value ∈ before, value.LiesIn area
  | .binaryRight left _ => left.LiesIn area
  | .block _ outer => area.scopes outer
  | .setValue object _ => object.LiesIn area
  | _ => True

/-- The frames of a call, down to that of the call itself. Behind its body it goes on in the scope of the caller,
which may lie anywhere. -/
inductive CallFrames (area : Area) : List Frame → Prop
  | body {rest : List Stmt} {outer : ScopeId} {yield : Yield} :
      CallFrames area [.block rest outer, .activation yield]
  | inner {frame : Frame} {frames : List Frame} :
      frame.LiesIn area → CallFrames area frames → CallFrames area (frame :: frames)

/-- What a call is made in: outside the area, where nothing is known, or within a call that runs already. -/
inductive Calls (area : Area) : ScopeId → List Frame → Prop
  | outside {scope : ScopeId} : Calls area scope []
  | inside {scope : ScopeId} {frames : List Frame} :
      area.scopes scope → CallFrames area frames → Calls area scope frames

namespace Machine

/-- Nothing is being begun. -/
def Returns (machine : Machine) : Prop :=
  match machine.control with
  | .eval _ | .exec _ => False
  | _ => True

/-- A call that was begun with some frames around it, while it runs and when it is over. -/
inductive Confined (area : Area) (before : Store) (base : List Frame) : Machine → Prop
  | running {control : Control} {frames : List Frame} {scope : ScopeId} {height : Nat}
      {store : Store} :
      before.Confined area store → area.scopes scope → control.LiesIn area →
      CallFrames area frames → Confined area before base ⟨control, frames ++ base, scope, height, store⟩
  | leaving {control : Control} {yield : Yield} {scope : ScopeId} {height : Nat} {store : Store} :
      before.Confined area store →
      Returns ⟨control, .activation yield :: base, scope, height, store⟩ →
      Confined area before base ⟨control, .activation yield :: base, scope, height, store⟩
  | ended {control : Control} {scope : ScopeId} {height : Nat} {store : Store} :
      before.Confined area store → Confined area before base ⟨control, base, scope, height, store⟩

theorem Confined.store {before : Store} {base : List Frame} {machine : Machine}
    (h : machine.Confined area before base) : before.Confined area machine.store := by
  cases h with
  | running h | leaving h | ended h => exact h

/-! ## Parts of steps -/

section

variable {host : Host} {before store : Store} {base frames : List Frame} {scope : ScopeId}
  {height : Nat}

theorem liesIn_lookup (h : store.Closed area) (inside : area.scopes scope) {use : NameUse}
    {value : Value} (found : lookup store.forest scope use = .ok value) : value.LiesIn area := by
  unfold lookup at found
  split at found
  · exact h.getAt inside found
  · exact h.get h.globals found

theorem scopes_target (h : store.Closed area) (inside : area.scopes scope) {use : NameUse}
    {id : ScopeId} (found : target store.forest scope use = .ok id) : area.scopes id := by
  unfold target at found
  split at found
  · exact h.findAt inside found
  · exact h.find h.globals found

theorem liesIn_superReceiver (h : store.Closed area) (inside : area.scopes scope)
    {keyword : NameUse} {superclass : ClassValue} {receiver : Value}
    (found : superReceiver store.forest scope keyword = .ok (superclass, receiver)) :
    superclass.LiesIn area ∧ receiver.LiesIn area := by
  obtain ⟨hops, -, atSuper, atThis⟩ := of_superReceiver found
  exact ⟨h.getAt inside atSuper, h.getAt inside atThis⟩

theorem liesIn_ofResult {result : Except Interruption Value}
    (h : ∀ value, result = .ok value → value.LiesIn area) : (ofResult result).LiesIn area := by
  cases result with
  | error _ => trivial
  | ok value => exact h value rfl

theorem confined_bind (h : before.Confined area store) {method : Closure}
    (hmethod : method.LiesIn area) {receiver : Value} (hreceiver : receiver.LiesIn area) :
    before.Confined area (bind store method receiver).2 ∧
      (bind store method receiver).1.LiesIn area := by
  refine ⟨(h.addScope hmethod fun entry member => ?_).takeStamps 1,
    h.closed.newScopes _ (Nat.le_refl _)⟩
  rw [List.mem_singleton.mp member]
  exact hreceiver

theorem confined_bindMethod (h : before.Confined area store) {kind : ClassValue}
    (hkind : kind.LiesIn area) (name : Token) {receiver : Value}
    (hreceiver : receiver.LiesIn area) :
    before.Confined area (bindMethod host height store kind name receiver).2 ∧
      (bindMethod host height store kind name receiver).1.LiesIn area := by
  rcases bindMethod_cases host height store kind name receiver with
    ⟨interruption, same⟩ | ⟨method, found, same⟩
  · rw [same]
    exact ⟨h, trivial⟩
  · rw [same]
    exact confined_bind h (hkind.method found) hreceiver

theorem liesIn_methodTable {stamp : Nat} {methods : List FunctionDecl} {name : String}
    {method : Closure} (inside : area.scopes scope)
    (found : (methodTable stamp scope methods).get? name = some method) :
    method.LiesIn area := by
  obtain ⟨index, _, same⟩ := List.mem_mapIdx.mp (Bindings.mem_of_get?_ofList found)
  cases same
  exact inside

theorem confined_declareClass (h : before.Confined area store) (inside : area.scopes scope)
    (name : Token) {superclass : Option ClassValue}
    (hsuperclass : ∀ kind, superclass = some kind → kind.LiesIn area) (methods : List FunctionDecl) :
    before.Confined area (declareClass store scope name superclass methods) := by
  have methodScope : area.scopes (store.methodScope scope superclass) := by
    cases superclass with
    | none => exact inside
    | some kind => exact h.closed.newScopes _ (Nat.le_refl _)
  have made : (Value.class (store.classMade scope name superclass methods)).LiesIn area := by
    intro layer member found method held
    rcases List.mem_cons.mp member with rfl | above
    · exact liesIn_methodTable methodScope held
    · cases superclass with
      | none => cases above
      | some kind => exact hsuperclass kind rfl layer above found method held
  rw [declareClass_eq]
  have plain : Value.nil.LiesIn area := trivial
  have first := h.define inside plain name.lexeme
  cases superclass with
  | none => exact (first.takeStamps _).define inside made _
  | some kind =>
      have bound : ∀ entry ∈ [("super", Value.class kind)], entry.2.LiesIn area := by
        intro entry member
        rw [List.mem_singleton.mp member]
        exact hsuperclass kind rfl
      have second := first.addScope inside bound
      exact (second.takeStamps _).define inside made _

/-! ## Calls -/

theorem confined_result (h : before.Confined area store) (calls : Calls area scope frames)
    {control : Control} (hcontrol : control.LiesIn area) :
    Confined area before base ⟨control, frames ++ base, scope, height, store⟩ := by
  cases calls with
  | outside => exact .ended h
  | inside inside call => exact .running h inside hcontrol call

theorem confined_activate (h : before.Confined area store) (calls : Calls area scope frames)
    {closure : Closure} (hclosure : closure.LiesIn area) {arguments : List Value}
    (harguments : ∀ argument ∈ arguments, argument.LiesIn area) {yield : Yield}
    (hyield : yield.LiesIn area) :
    Confined area before base
      (activate closure arguments yield (frames ++ base) scope height store) := by
  have entered : before.Confined area (store.addScope closure.scope
      ((closure.declaration.params.map Token.lexeme).zip arguments)) :=
    h.addScope hclosure fun entry member => harguments _ (List.of_mem_zip member).2
  have call : CallFrames area
      (.block closure.declaration.body scope :: .activation yield :: frames) := by
    cases calls with
    | outside => exact .body
    | inside inside call => exact .inner inside (.inner hyield call)
  have control : (Control.done .normal).LiesIn area := trivial
  exact .running entered (h.closed.newScopes _ (Nat.le_refl _)) control call

theorem confined_construct (h : before.Confined area store) (calls : Calls area scope frames)
    {kind : ClassValue} (hkind : kind.LiesIn area) {arguments : List Value}
    (harguments : ∀ argument ∈ arguments, argument.LiesIn area) :
    Confined area before base
      (construct kind arguments (frames ++ base) scope height store) := by
  have object : Instance.LiesIn area ⟨store.fields.size, kind⟩ :=
    ⟨h.closed.newInstances _ (Nat.le_refl _), hkind⟩
  cases init : kind.method? "init" with
  | none =>
      simp only [construct, init]
      exact confined_result h.addInstance calls object
  | some initializer =>
      rw [construct_of_init init]
      have receiver : (Value.instance ⟨store.fields.size, kind⟩).LiesIn area := object
      obtain ⟨made, bound⟩ := confined_bind h.addInstance (hkind.method init) receiver
      exact confined_activate made calls bound harguments object

theorem confined_call (honest : ∀ native ∈ host.natives, native.Confined)
    (h : before.Confined area store) (calls : Calls area scope frames) {callee : Value}
    (hcallee : callee.LiesIn area) (paren : Token) {arguments : List Value}
    (harguments : ∀ argument ∈ arguments, argument.LiesIn area) :
    Confined area before base
      (call host callee paren arguments (frames ++ base) scope height store) := by
  have called := called_call host callee paren arguments (frames ++ base) scope height store
  generalize call host callee paren arguments (frames ++ base) scope height store = next at called ⊢
  cases called with
  | fails error => exact confined_result h calls trivial
  | function =>
      refine confined_activate h calls hcallee harguments ?_
      unfold functionYield
      split
      · exact hcallee
      · trivial
  | «class» => exact confined_construct h calls hcallee harguments
  | @native _ native known =>
      exact confined_result h calls
        (honest native (Array.mem_of_getElem? known) area host.now arguments harguments)

/-- An expression is begun with a frame around it. -/
theorem confined_evalWithin (h : before.Confined area store) (inside : area.scopes scope)
    (call : CallFrames area frames) {part : Expr} {frame : Frame} (hframe : frame.LiesIn area) :
    Confined area before base (evalWithin frame part (frames ++ base) scope height store) :=
  have control : (Control.eval part).LiesIn area := trivial
  .running h inside control (.inner hframe call)

theorem confined_execWithin (h : before.Confined area store) (inside : area.scopes scope)
    (call : CallFrames area frames) {part : Stmt} {frame : Frame} (hframe : frame.LiesIn area) :
    Confined area before base (execWithin frame part (frames ++ base) scope height store) :=
  have control : (Control.exec part).LiesIn area := trivial
  .running h inside control (.inner hframe call)

theorem confined_callWith (honest : ∀ native ∈ host.natives, native.Confined)
    (h : before.Confined area store) (inside : area.scopes scope) (call : CallFrames area frames)
    {callee : Value} (hcallee : callee.LiesIn area) (paren : Token) {values : List Value}
    (hvalues : ∀ value ∈ values, value.LiesIn area) (rest : List Expr) :
    Confined area before base
      (callWith host callee paren values rest (frames ++ base) scope height store) := by
  cases rest with
  | nil =>
      exact confined_call honest h (.inside inside call) hcallee paren fun argument member =>
        hvalues argument (List.mem_reverse.mp member)
  | cons argument rest =>
      have frame : (Frame.argument callee paren values rest).LiesIn area := ⟨hcallee, hvalues⟩
      exact confined_evalWithin h inside call frame

/-! ## Steps -/

theorem confined_eval (h : before.Confined area store) (inside : area.scopes scope)
    (call : CallFrames area frames) (expr : Expr) :
    Confined area before base (eval host expr (frames ++ base) scope height store) := by
  have result {control : Control} (hcontrol : control.LiesIn area) :
      Confined area before base ⟨control, frames ++ base, scope, height, store⟩ :=
    .running h inside hcontrol call
  cases expr with
  | assign | binary | call | get | grouping | logical | set | unary =>
      refine confined_evalWithin h inside call ?_
      trivial
  | literal value => exact result (Value.liesIn_ofConstant value)
  | this use | «variable» use =>
      exact result (liesIn_ofResult fun value found => liesIn_lookup h.closed inside found)
  | super keyword name =>
      simp only [eval]
      split
      · exact result trivial
      · next superclass receiver found =>
        obtain ⟨hsuperclass, hreceiver⟩ := liesIn_superReceiver h.closed inside found
        obtain ⟨made, control⟩ := confined_bindMethod h hsuperclass name hreceiver
        exact .running made inside control call

theorem confined_exec (h : before.Confined area store) (inside : area.scopes scope)
    (call : CallFrames area frames) (stmt : Stmt) :
    Confined area before base (exec stmt (frames ++ base) scope height store) := by
  have result {control : Control} (hcontrol : control.LiesIn area) :
      Confined area before base ⟨control, frames ++ base, scope, height, store⟩ :=
    .running h inside hcontrol call
  have begun {part : Expr} {frame : Frame} (hframe : frame.LiesIn area) :
      Confined area before base (evalWithin frame part (frames ++ base) scope height store) :=
    confined_evalWithin h inside call hframe
  have normal : (Control.done .normal).LiesIn area := trivial
  have plain : Value.nil.LiesIn area := trivial
  cases stmt with
  | block statements =>
      have frame : (Frame.block statements scope).LiesIn area := inside
      have empty : ∀ entry ∈ ([] : List (String × Value)), entry.2.LiesIn area :=
        fun entry member => nomatch member
      exact .running (h.addScope inside empty) (h.closed.newScopes _ (Nat.le_refl _)) normal
        (.inner frame call)
  | «break» | «continue» =>
      refine result ?_
      trivial
  | expression | print | «if» | «while» =>
      refine begun ?_
      trivial
  | «class» name superclass methods =>
      cases superclass with
      | none =>
          have none (kind : ClassValue) (same : none = some kind) : kind.LiesIn area := nomatch same
          exact .running (confined_declareClass h inside name none methods) inside normal call
      | some superclass =>
          refine begun ?_
          trivial
  | function declaration =>
      have closure : (Value.function ⟨store.stamp, declaration, scope, false⟩).LiesIn area := inside
      exact .running ((h.takeStamps 1).define inside closure _) inside normal call
  | «return» keyword value =>
      cases value with
      | none => exact result plain
      | some value =>
          refine begun ?_
          trivial
  | var name initializer =>
      cases initializer with
      | none => exact .running (h.define inside plain _) inside normal call
      | some value =>
          refine begun ?_
          trivial

theorem confined_resumeValue (honest : ∀ native ∈ host.natives, native.Confined)
    (h : before.Confined area store) (inside : area.scopes scope) (call : CallFrames area frames)
    {frame : Frame} (hframe : frame.LiesIn area) {value : Value} (hvalue : value.LiesIn area) :
    Confined area before base
      (resumeValue host frame value (frames ++ base) scope height store) := by
  have result {control : Control} (hcontrol : control.LiesIn area) :
      Confined area before base ⟨control, frames ++ base, scope, height, store⟩ :=
    .running h inside hcontrol call
  have normal : (Control.done .normal).LiesIn area := trivial
  have begun {part : Expr} {frame : Frame} (hframe : frame.LiesIn area) :
      Confined area before base (evalWithin frame part (frames ++ base) scope height store) :=
    confined_evalWithin h inside call hframe
  cases frame with
  | assign use =>
      simp only [resumeValue]
      split
      · exact result trivial
      · next id found =>
        exact .running (h.define (scopes_target h.closed inside found) hvalue _) inside hvalue call
  | binaryLeft operator right => exact begun hvalue
  | binaryRight left operator =>
      exact result (liesIn_ofResult fun value => Value.liesIn_applyBinary)
  | callee paren arguments =>
      have none : ∀ value ∈ ([] : List Value), value.LiesIn area := List.forall_mem_nil _
      exact confined_callWith honest h inside call hvalue paren none arguments
  | argument callee paren values rest =>
      exact confined_callWith honest h inside call hframe.1 paren
        (List.forall_mem_cons.mpr ⟨hvalue, hframe.2⟩) rest
  | get name =>
      cases value with
      | «instance» object =>
          simp only [resumeValue]
          split
          · next field found =>
            exact result (h.closed.fields object.index name.lexeme field hvalue.index found)
          · obtain ⟨made, control⟩ := confined_bindMethod h hvalue.kind name hvalue
            exact .running made inside control call
      | _ => exact result trivial
  | grouping | logicalRight => exact result hvalue
  | logicalLeft operator right =>
      simp only [resumeValue]
      split
      · exact result hvalue
      · exact begun trivial
  | setObject name part =>
      cases value with
      | «instance» object => exact begun hvalue
      | _ => exact result trivial
  | setValue object name =>
      exact .running (h.setField hframe.index hvalue _) inside hvalue call
  | unary operator => exact result (liesIn_ofResult fun value => Value.liesIn_applyUnary)
  | expression => exact result normal
  | print => exact .running (h.print _) inside normal call
  | «return» => exact result hvalue
  | var name => exact .running (h.define inside hvalue _) inside normal call
  | ifCondition thenBranch elseBranch =>
      simp only [resumeValue]
      split
      · refine confined_execWithin h inside call ?_
        trivial
      · cases elseBranch with
        | none => exact result normal
        | some elseBranch =>
            refine confined_execWithin h inside call ?_
            trivial
  | whileCondition condition body increment =>
      simp only [resumeValue]
      split
      · refine confined_execWithin h inside call ?_
        trivial
      · exact result normal
  | whileIncrement condition body increment => exact begun trivial
  | superclass name token methods =>
      cases value with
      | «class» kind =>
          have known : ∀ found, some kind = some found → found.LiesIn area := by
            intro found same
            cases same
            exact hvalue
          exact .running (confined_declareClass h inside name known methods) inside normal call
      | _ => exact result trivial
  | activation | ifBranch | whileBody | block | program => exact result hvalue

theorem liesIn_yieldOf (h : store.Closed area) {yield : Yield} (hyield : yield.LiesIn area)
    {completion : Completion} (hcompletion : completion.LiesIn area) {value : Value}
    (found : yieldOf store.forest yield completion = .ok value) : value.LiesIn area := by
  cases yield with
  | constructed object =>
      cases found
      exact hyield
  | receiver scope => exact h.getAt hyield found
  | returned =>
      cases completion with
      | «return» result =>
          cases found
          exact hcompletion
      | normal | «break» | «continue» =>
          cases found
          trivial

theorem confined_resumeDone (h : before.Confined area store) (inside : area.scopes scope)
    (call : CallFrames area frames) {frame : Frame} (hframe : frame.LiesIn area)
    {completion : Completion} (hcompletion : completion.LiesIn area) :
    Confined area before base
      (resumeDone frame completion (frames ++ base) scope height store) := by
  have result {control : Control} (hcontrol : control.LiesIn area) :
      Confined area before base ⟨control, frames ++ base, scope, height, store⟩ :=
    .running h inside hcontrol call
  cases frame with
  | activation yield =>
      exact result (liesIn_ofResult fun value => liesIn_yieldOf h.closed hframe hcompletion)
  | block rest outer =>
      cases rest with
      | nil => exact .running h hframe hcompletion call
      | cons stmt rest =>
          have frame : (Frame.block rest outer).LiesIn area := hframe
          cases completion with
          | normal => exact confined_execWithin h inside call frame
          | «break» | «continue» | «return» => exact .running h hframe hcompletion call
  | whileBody condition body increment =>
      cases completion with
      | normal | «continue» =>
          cases increment
          all_goals
            refine confined_evalWithin h inside call ?_
            trivial
      | «break» | «return» => exact result hcompletion
  | program rest =>
      cases rest with
      | nil =>
          refine result ?_
          trivial
      | cons stmt rest =>
          refine confined_execWithin h inside call ?_
          trivial
  | _ => exact result hcompletion

end

/-- A call that runs goes on within the area. -/
theorem confined_step {host : Host} (honest : ∀ native ∈ host.natives, native.Confined)
    {before : Store} {base : List Frame} {machine : Machine}
    (h : machine.Confined area before base) (runs : base.length < machine.frames.length) :
    (step host machine).Confined area before base := by
  cases h with
  | ended => exact absurd runs (Nat.lt_irrefl _)
  | @leaving control yield scope height store h returns =>
      cases control with
      | eval | exec => exact returns.elim
      | value | done | failed => exact .ended h
  | @running control frames scope height store h inside hcontrol call =>
      have failed {control : Control} (hcontrol : control.LiesIn area) :
          Confined area before base ⟨control, frames ++ base, scope, height, store⟩ :=
        .running h inside hcontrol call
      cases control with
      | eval expr =>
          simp only [step]
          split
          · exact failed trivial
          · exact confined_eval h inside call expr
      | exec stmt =>
          simp only [step]
          split
          · exact failed trivial
          · exact confined_exec h inside call stmt
      | value value =>
          cases call with
          | body => exact .leaving h trivial
          | inner frame call => exact confined_resumeValue honest h inside call frame hcontrol
      | done completion =>
          cases call with
          | inner frame call => exact confined_resumeDone h inside call frame hcontrol
          | @body rest outer yield =>
              have call : CallFrames area [.block rest.tail outer, .activation yield] := .body
              cases rest with
              | nil => exact .leaving h trivial
              | cons stmt rest =>
                  cases completion with
                  | normal =>
                      have control : (Control.exec stmt).LiesIn area := trivial
                      exact .running h inside control call
                  | «break» | «continue» | «return» => exact .leaving h trivial
      | failed interruption =>
          cases call with
          | body => exact .leaving h trivial
          | @inner frame frames hframe call =>
              have outer : area.scopes (Frame.outerScope frame scope) := by
                cases frame with
                | block => exact hframe
                | _ => exact inside
              exact .running h outer trivial call

end Machine

end LoxLang
