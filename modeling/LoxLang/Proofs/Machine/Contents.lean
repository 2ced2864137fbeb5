import LoxLang.Proofs.Machine.Events

/-!
The values in a machine. A step keeps the values that are there, and adds those that it makes.
-/

namespace LoxLang

/-- Values that a program can write down or compute without making anything. -/
def Value.IsPlain : Value → Prop
  | .nil | .bool _ | .number _ | .text _ => True
  | _ => False

def Control.values : Control → List Value
  | .value result | .done (.return result) => [result]
  | _ => []

def Frame.values : Frame → List Value
  | .binaryRight left _ => [left]
  | .argument called _ before _ => called :: before
  | .setValue object _ => [.instance object]
  | .activation (.constructed object) => [.instance object]
  | _ => []

structure Store.All (p : Value → Prop) (store : Store) : Prop where
  bindings : ∀ id name value, (store.forest.bindings id).get? name = some value → p value
  fields : ∀ index name value, store.field? index name = some value → p value

structure Machine.All (p : Value → Prop) (machine : Machine) : Prop where
  control : ∀ value ∈ machine.control.values, p value
  frames : ∀ frame ∈ machine.frames, ∀ value ∈ frame.values, p value
  store : machine.store.All p

variable {p q : Value → Prop}

/-! ## Stores -/

namespace Store.All

variable {store : Store}

theorem mono (h : store.All p) (weaken : ∀ value, p value → q value) : store.All q :=
  ⟨fun id name value found => weaken value (h.bindings id name value found),
    fun index name value found => weaken value (h.fields index name value found)⟩

theorem define {value : Value} (h : store.All p) (id : ScopeId) (name : String)
    (hvalue : p value) : (store.define id name value).All p := by
  refine ⟨fun scope other found hfound => ?_, h.fields⟩
  rcases Forest.get?_define hfound with same | old
  · rw [same]
    exact hvalue
  · exact h.bindings scope other found old

theorem addScope {bindings : List (String × Value)} (h : store.All p) (enclosing : ScopeId)
    (each : ∀ entry ∈ bindings, p entry.2) : (store.addScope enclosing bindings).All p := by
  refine ⟨fun id name value found => ?_, h.fields⟩
  change ((store.forest.add (some enclosing) (.ofList bindings)).bindings id).get? name =
    some value at found
  rw [Forest.bindings_add] at found
  split at found
  · exact each _ (Bindings.mem_of_get?_ofList found)
  · exact h.bindings id name value found

theorem setField {value : Value} (h : store.All p) (index : Nat) (name : String)
    (hvalue : p value) : (store.setField index name value).All p := by
  refine ⟨h.bindings, fun other otherName found hfound => ?_⟩
  rw [field?_setField] at hfound
  split at hfound
  · cases hfound
    exact hvalue
  · exact h.fields other otherName found hfound

theorem addInstance (h : store.All p) : store.addInstance.All p :=
  ⟨h.bindings, fun index name value found => h.fields index name value (by rwa [field?_addInstance] at found)⟩

theorem takeStamps (h : store.All p) (count : Nat) : (store.takeStamps count).All p :=
  ⟨h.bindings, h.fields⟩

theorem print (h : store.All p) (line : String) : (store.print line).All p :=
  ⟨h.bindings, h.fields⟩

theorem takePrinted (h : store.All p) : store.takePrinted.2.All p :=
  ⟨h.bindings, h.fields⟩

/-! ## Lookup -/

theorem get (h : store.All p) {id : ScopeId} {name : Token} {value : Value}
    (found : store.forest.get id name = .ok value) : p value := by
  unfold Forest.get at found
  cases holder : store.forest.find id name with
  | error interruption =>
      rw [holder] at found
      cases found
  | ok scope =>
      rw [holder] at found
      simp only [bind, Except.bind] at found
      split at found
      · next value bound =>
        cases found
        exact h.bindings scope name.lexeme value bound
      · cases found

theorem getAt (h : store.All p) {id : ScopeId} {distance : Int} {name : String} {value : Value}
    (found : store.forest.getAt id distance name = .ok value) : p value := by
  obtain ⟨scope, -, bound⟩ := Forest.exists_of_getAt found
  exact h.bindings scope name value bound

theorem lookup (h : store.All p) {scope : ScopeId} {use : NameUse} {value : Value}
    (found : Machine.lookup store.forest scope use = .ok value) : p value := by
  unfold Machine.lookup at found
  split at found
  · exact h.getAt found
  · exact h.get found

theorem superReceiver (h : store.All p) {scope : ScopeId} {keyword : NameUse}
    {superclass : ClassValue} {receiver : Value}
    (found : Machine.superReceiver store.forest scope keyword = .ok (superclass, receiver)) :
    p (.class superclass) ∧ p receiver := by
  obtain ⟨hops, -, atSuper, atThis⟩ := Machine.of_superReceiver found
  exact ⟨h.getAt atSuper, h.getAt atThis⟩

end Store.All

/-! ## Operators -/

namespace Value

theorem isPlain_of_applyUnary {operator : Token} {right value : Value}
    (h : right.applyUnary operator = .ok value) : value.IsPlain := by
  unfold applyUnary at h
  split at h
  · cases h
    trivial
  · split at h
    · cases h
      trivial
    · cases h
  · cases h

theorem isPlain_of_onNumbers {operator : Token} {left right value : Value}
    {apply : Float → Float → Value} (plain : ∀ x y, (apply x y).IsPlain)
    (h : onNumbers operator left right apply = .ok value) : value.IsPlain := by
  unfold onNumbers at h
  split at h
  · cases h
    exact plain _ _
  · cases h

theorem isPlain_of_plus {operator : Token} {left right value : Value}
    (h : plus operator left right = .ok value) : value.IsPlain := by
  unfold plus at h
  split at h
  · cases h
    trivial
  · cases h
    trivial
  · cases h

theorem isPlain_of_applyBinary {operator : Token} {left right value : Value}
    (h : left.applyBinary operator right = .ok value) : value.IsPlain := by
  unfold applyBinary at h
  split at h
  case h_1 | h_2 =>
    cases h
    trivial
  case h_8 => exact isPlain_of_plus h
  case h_11 => cases h
  all_goals
    apply isPlain_of_onNumbers _ h
    exact fun _ _ => trivial

end Value

/-! ## Steps -/

namespace Machine

variable {host : Host} {machine : Machine}

theorem All.mono (h : machine.All p) (weaken : ∀ value, p value → q value) : machine.All q :=
  ⟨fun value member => weaken value (h.control value member),
    fun frame member value inside => weaken value (h.frames frame member value inside),
    h.store.mono weaken⟩

/-- A value that the next step makes, or gets from a native. -/
inductive Makes (host : Host) (machine : Machine) : Value → Prop
  | answer {index : Nat} {native : Native} {arguments : List Value} :
      machine.call? = some (.native index, arguments) → host.natives[index]? = some native →
      Makes host machine (native.answer host.now arguments)
  | class {name : Token} {superclass : Option ClassValue} {methods : List FunctionDecl} :
      machine.Declares host name superclass methods →
      Makes host machine
        (.class (machine.store.classMade machine.scope name superclass methods))
  | function {declaration : FunctionDecl} :
      machine.control = .exec (.function declaration) →
      Makes host machine (.function ⟨machine.store.stamp, declaration, machine.scope, false⟩)
  | instance {kind : ClassValue} {arguments : List Value} :
      machine.call? = some (.class kind, arguments) →
      Makes host machine (.instance ⟨machine.store.fields.size, kind⟩)
  | method {method : Closure} {receiver : Value} :
      machine.Binds host method receiver →
      Makes host machine (.function (bind machine.store method receiver).1)
  | plain {value : Value} : value.IsPlain → Makes host machine value

theorem all_frames_cons {frame : Frame} {frames : List Frame}
    (first : ∀ value ∈ frame.values, p value)
    (rest : ∀ frame ∈ frames, ∀ value ∈ frame.values, p value) :
    ∀ other ∈ frame :: frames, ∀ value ∈ other.values, p value := by
  intro other member
  rcases List.mem_cons.mp member with rfl | member
  · exact first
  · exact rest other member

theorem all_bind {store : Store} (h : store.All p) (method : Closure) {receiver : Value}
    (hreceiver : p receiver) : (bind store method receiver).2.All p := by
  have bound : (store.addScope method.scope [("this", receiver)]).All p := by
    apply h.addScope
    intro entry member
    rw [List.mem_singleton.mp member]
    exact hreceiver
  exact bound.takeStamps 1

theorem next_bind (store : Store) (method : Closure) (receiver : Value) :
    store.forest.next < (bind store method receiver).2.forest.next :=
  Nat.lt_of_lt_of_eq (Nat.lt_succ_self _) (Forest.next_add _ _ _).symm

theorem all_ofResult {result : Except Interruption Value}
    (h : ∀ value, result = .ok value → p value) : ∀ value ∈ (ofResult result).values, p value := by
  intro value member
  cases result with
  | error interruption => cases member
  | ok found =>
      rw [List.mem_singleton.mp member]
      exact h found rfl

theorem all_activate {store : Store} {frames : List Frame} {closure : Closure}
    {arguments : List Value} {yield : Yield} (h : store.All p)
    (hframes : ∀ frame ∈ frames, ∀ value ∈ frame.values, p value)
    (harguments : ∀ argument ∈ arguments, p argument)
    (hyield : ∀ value ∈ (Frame.activation yield).values, p value) (scope : ScopeId)
    (height : Nat) : (activate closure arguments yield frames scope height store).All p where
  control := List.forall_mem_nil _
  frames := all_frames_cons (List.forall_mem_nil _) (all_frames_cons hyield hframes)
  store := h.addScope _ fun entry member => harguments entry.2 (List.of_mem_zip member).2

theorem all_evalWithin {frame : Frame} {part : Expr} {frames : List Frame} {scope : ScopeId}
    {height : Nat} {store : Store} (first : ∀ value ∈ frame.values, p value)
    (rest : ∀ frame ∈ frames, ∀ value ∈ frame.values, p value) (h : store.All p) :
    (evalWithin frame part frames scope height store).All p :=
  ⟨List.forall_mem_nil _, all_frames_cons first rest, h⟩

theorem all_execWithin {frame : Frame} {part : Stmt} {frames : List Frame} {scope : ScopeId}
    {height : Nat} {store : Store} (first : ∀ value ∈ frame.values, p value)
    (rest : ∀ frame ∈ frames, ∀ value ∈ frame.values, p value) (h : store.All p) :
    (execWithin frame part frames scope height store).All p :=
  ⟨List.forall_mem_nil _, all_frames_cons first rest, h⟩

theorem All.call {callee : Value} {arguments : List Value} (h : machine.All p)
    (calling : machine.call? = some (callee, arguments)) :
    p callee ∧ ∀ argument ∈ arguments, p argument := by
  obtain ⟨hcontrol, hframes, -⟩ := h
  unfold call? at calling
  split at calling
  · cases calling
    exact ⟨hcontrol _ List.mem_cons_self, List.forall_mem_nil _⟩
  · cases calling
    have inner := hframes _ List.mem_cons_self
    refine ⟨inner _ List.mem_cons_self, fun argument member => ?_⟩
    rcases List.mem_cons.mp (List.mem_reverse.mp member) with rfl | member
    · exact hcontrol _ List.mem_cons_self
    · exact inner argument (List.mem_cons_of_mem _ member)
  · cases calling

section

variable (h : machine.All p) (made : ∀ value, machine.Makes host value → p value)

include h made

theorem all_call {callee : Value} {paren : Token} {arguments : List Value}
    {frames : List Frame} {height : Nat} (calling : machine.call? = some (callee, arguments))
    (hframes : ∀ frame ∈ frames, ∀ value ∈ frame.values, p value)
    (harguments : ∀ argument ∈ arguments, p argument) :
    (call host callee paren arguments frames machine.scope height machine.store).All p := by
  have called := called_call host callee paren arguments frames machine.scope height machine.store
  generalize call host callee paren arguments frames machine.scope height machine.store = next at called ⊢
  cases called with
  | fails error => exact ⟨List.forall_mem_nil _, hframes, h.store⟩
  | function =>
      apply all_activate h.store hframes harguments
      unfold functionYield
      split <;> exact List.forall_mem_nil _
  | «class» =>
      have object := made _ (.instance calling)
      unfold construct
      split
      · exact ⟨fun value member => List.mem_singleton.mp member ▸ object, hframes, h.store.addInstance⟩
      · apply all_activate (all_bind h.store.addInstance _ object) hframes harguments
        exact fun value member => List.mem_singleton.mp member ▸ object
  | native known =>
      have answer := made _ (.answer calling known)
      exact ⟨fun value member => List.mem_singleton.mp member ▸ answer, hframes, h.store⟩

end

section

variable {frames : List Frame} {scope : ScopeId} {height : Nat} {store : Store}

/-- What is left of a machine when it goes on with a value that is there. -/
theorem all_value {control : Control} {value : Value} (hvalue : p value)
    (hframes : ∀ frame ∈ frames, ∀ value ∈ frame.values, p value) (h : store.All p)
    (same : control.values = [value]) : (Machine.mk control frames scope height store).All p := by
  refine ⟨fun other member => ?_, hframes, h⟩
  change other ∈ control.values at member
  rw [same] at member
  rw [List.mem_singleton.mp member]
  exact hvalue

theorem all_declareClass {name : Token} {superclass : Option ClassValue}
    {methods : List FunctionDecl} (h : store.All p)
    (nil : p .nil) (parent : ∀ kind, superclass = some kind → p (.class kind))
    (kind : p (.class (store.classMade scope name superclass methods))) :
    (declareClass store scope name superclass methods).All p := by
  rw [declareClass_eq]
  have first : (store.define scope name.lexeme .nil).All p := h.define _ _ nil
  cases superclass with
  | none => exact (first.takeStamps _).define _ _ kind
  | some superclass =>
      refine ((first.addScope scope ?_).takeStamps _).define _ _ kind
      intro entry member
      rw [List.mem_singleton.mp member]
      exact parent superclass rfl

theorem all_bindMethod {kind : ClassValue} {name : Token} {receiver : Value} {room : Nat}
    (h : store.All p) (hframes : ∀ frame ∈ frames, ∀ value ∈ frame.values, p value)
    (hreceiver : p receiver)
    (made : ∀ method, kind.method? name.lexeme = some method →
      store.forest.next < (bindMethod host room store kind name receiver).2.forest.next →
      p (.function (bind store method receiver).1)) :
    (Machine.mk (bindMethod host room store kind name receiver).1 frames scope height
      (bindMethod host room store kind name receiver).2).All p := by
  rcases bindMethod_cases host room store kind name receiver with
    ⟨interruption, same⟩ | ⟨method, found, same⟩
  · rw [same]
    exact ⟨List.forall_mem_nil _, hframes, h⟩
  · have closure := made method found (by rw [same]; exact next_bind _ _ _)
    rw [same]
    exact all_value closure hframes (all_bind h method hreceiver) rfl

theorem all_step_eval {expr : Expr} (h : (Machine.mk (.eval expr) frames scope height store).All p)
    (made : ∀ value, (Machine.mk (.eval expr) frames scope height store).Makes host value →
      p value) :
    (step host ⟨.eval expr, frames, scope, height, store⟩).All p := by
  obtain ⟨-, hframes, hstore⟩ := h
  by_cases room : height < host.heightLimit
  · have begun : step host ⟨.eval expr, frames, scope, height, store⟩ =
        eval host expr frames scope height store := by
      simp only [step, if_neg (Nat.not_le.mpr room)]
    cases expr with
    | assign | binary | call | get | grouping | logical | set | unary =>
        rw [begun]
        exact all_evalWithin (List.forall_mem_nil _) hframes hstore
    | literal value =>
        rw [begun]
        refine all_value (made _ (.plain ?_)) hframes hstore rfl
        cases value <;> trivial
    | this use | «variable» use =>
        rw [begun]
        exact ⟨all_ofResult fun value found => hstore.lookup found, hframes, hstore⟩
    | super keyword name =>
        cases holds : superReceiver store.forest scope keyword with
        | error interruption =>
            rw [begun]
            simp only [eval, holds]
            exact ⟨List.forall_mem_nil _, hframes, hstore⟩
        | ok found =>
            obtain ⟨superclass, receiver⟩ := found
            let machine : Machine := ⟨.eval (.super keyword name), frames, scope, height, store⟩
            have same := @step_super host machine keyword name superclass receiver rfl holds room
            rw [same]
            apply all_bindMethod hstore hframes (hstore.superReceiver holds).2
            intro method hmethod scopeMade
            exact made _ (.method ⟨.super rfl holds hmethod, by rw [same]; exact scopeMade⟩)
  · simp only [step, if_pos (Nat.not_lt.mp room)]
    exact ⟨List.forall_mem_nil _, hframes, hstore⟩

theorem all_step_exec {stmt : Stmt} (h : (Machine.mk (.exec stmt) frames scope height store).All p)
    (made : ∀ value, (Machine.mk (.exec stmt) frames scope height store).Makes host value →
      p value) :
    (step host ⟨.exec stmt, frames, scope, height, store⟩).All p := by
  obtain ⟨-, hframes, hstore⟩ := h
  have nil : p .nil := made _ (.plain trivial)
  by_cases room : height < host.heightLimit
  · simp only [step, if_neg (Nat.not_le.mpr room)]
    cases stmt with
    | block statements =>
        exact ⟨List.forall_mem_nil _, all_frames_cons (List.forall_mem_nil _) hframes,
          hstore.addScope _ (List.forall_mem_nil _)⟩
    | «break» | «continue» => exact ⟨List.forall_mem_nil _, hframes, hstore⟩
    | «class» name superclass methods =>
        cases superclass with
        | none =>
            have kind := made _ (.class (.base rfl room))
            have parentless : ∀ kind, (none : Option ClassValue) = some kind → p (.class kind) := by
              rintro kind ⟨⟩
            exact ⟨List.forall_mem_nil _, hframes, all_declareClass hstore nil parentless kind⟩
        | some superclass => exact all_evalWithin (List.forall_mem_nil _) hframes hstore
    | expression | «if» | print | «while» => exact all_evalWithin (List.forall_mem_nil _) hframes hstore
    | function declaration =>
        have closure := made _ (.function rfl)
        exact ⟨List.forall_mem_nil _, hframes, (hstore.takeStamps 1).define _ _ closure⟩
    | «return» keyword value =>
        cases value with
        | none => exact all_value nil hframes hstore rfl
        | some value => exact all_evalWithin (List.forall_mem_nil _) hframes hstore
    | var name initializer =>
        cases initializer with
        | none => exact ⟨List.forall_mem_nil _, hframes, hstore.define _ _ nil⟩
        | some value => exact all_evalWithin (List.forall_mem_nil _) hframes hstore
  · simp only [step, if_pos (Nat.not_lt.mp room)]
    exact ⟨List.forall_mem_nil _, hframes, hstore⟩

theorem all_step_value {frame : Frame} {value : Value}
    (h : (Machine.mk (.value value) (frame :: frames) scope height store).All p)
    (made : ∀ other, (Machine.mk (.value value) (frame :: frames) scope height store).Makes host
      other → p other) :
    (step host ⟨.value value, frame :: frames, scope, height, store⟩).All p := by
  have whole := h
  obtain ⟨hcontrol, all, hstore⟩ := h
  have hvalue : p value := hcontrol value List.mem_cons_self
  have first : ∀ value ∈ frame.values, p value := all frame List.mem_cons_self
  have hframes : ∀ frame ∈ frames, ∀ value ∈ frame.values, p value :=
    fun other member => all other (List.mem_cons_of_mem _ member)
  have nil : p .nil := made _ (.plain trivial)
  have failed (interruption : Interruption) (height : Nat) :
      (Machine.mk (.failed interruption) frames scope height store).All p :=
    ⟨List.forall_mem_nil _, hframes, hstore⟩
  cases frame with
  | assign use =>
      simp only [step, resumeValue]
      split
      · exact failed _ _
      · exact all_value hvalue hframes (hstore.define _ _ hvalue) rfl
  | binaryLeft operator right =>
      apply all_evalWithin _ hframes hstore
      exact fun other member => List.mem_singleton.mp member ▸ hvalue
  | binaryRight left operator =>
      refine ⟨all_ofResult fun other found => ?_, hframes, hstore⟩
      exact made _ (.plain (Value.isPlain_of_applyBinary found))
  | unary operator =>
      refine ⟨all_ofResult fun other found => ?_, hframes, hstore⟩
      exact made _ (.plain (Value.isPlain_of_applyUnary found))
  | callee paren arguments =>
      cases arguments with
      | nil => exact all_call whole made rfl hframes (List.forall_mem_nil _)
      | cons argument rest =>
          apply all_evalWithin _ hframes hstore
          exact fun other member => List.mem_singleton.mp member ▸ hvalue
  | argument callee paren before rest =>
      cases rest with
      | nil => exact all_call whole made rfl hframes (whole.call rfl).2
      | cons argument rest =>
          apply all_evalWithin _ hframes hstore
          intro other member
          rcases List.mem_cons.mp member with rfl | member
          · exact first _ List.mem_cons_self
          · rcases List.mem_cons.mp member with rfl | member
            · exact hvalue
            · exact first _ (List.mem_cons_of_mem _ member)
  | get name =>
      cases value with
      | «instance» object =>
          cases field : store.field? object.index name.lexeme with
          | some found =>
              simp only [step, resumeValue, field]
              exact all_value (hstore.fields _ _ _ field) hframes hstore rfl
          | none =>
              let machine : Machine :=
                ⟨.value (.instance object), .get name :: frames, scope, height, store⟩
              have same := @step_get machine host object name frames rfl rfl field
              rw [same]
              apply all_bindMethod hstore hframes hvalue
              intro method hmethod scopeMade
              exact made _ (.method ⟨.get rfl rfl field hmethod, by rw [same]; exact scopeMade⟩)
      | _ => exact failed _ _
  | grouping | logicalRight => exact all_value hvalue hframes hstore rfl
  | logicalLeft operator right =>
      simp only [step, resumeValue]
      split
      · exact all_value hvalue hframes hstore rfl
      · exact all_evalWithin (List.forall_mem_nil _) hframes hstore
  | setObject name part =>
      cases value with
      | «instance» object =>
          apply all_evalWithin _ hframes hstore
          exact fun other member => List.mem_singleton.mp member ▸ hvalue
      | _ => exact failed _ _
  | setValue object name => exact all_value hvalue hframes (hstore.setField _ _ hvalue) rfl
  | expression => exact ⟨List.forall_mem_nil _, hframes, hstore⟩
  | print => exact ⟨List.forall_mem_nil _, hframes, hstore.print _⟩
  | «return» => exact all_value hvalue hframes hstore rfl
  | var name => exact ⟨List.forall_mem_nil _, hframes, hstore.define _ _ hvalue⟩
  | ifCondition thenBranch elseBranch =>
      simp only [step, resumeValue]
      split
      · exact all_execWithin (List.forall_mem_nil _) hframes hstore
      · split
        · exact all_execWithin (List.forall_mem_nil _) hframes hstore
        · exact ⟨List.forall_mem_nil _, hframes, hstore⟩
  | whileCondition condition body increment =>
      simp only [step, resumeValue]
      split
      · exact all_execWithin (List.forall_mem_nil _) hframes hstore
      · exact ⟨List.forall_mem_nil _, hframes, hstore⟩
  | whileIncrement condition body increment => exact all_evalWithin (List.forall_mem_nil _) hframes hstore
  | superclass name token methods =>
      cases value with
      | «class» kind =>
          have class' := made _ (.class (.derived rfl rfl))
          refine ⟨List.forall_mem_nil _, hframes, all_declareClass hstore nil (fun other same => ?_) class'⟩
          cases same
          exact hvalue
      | _ => exact failed _ _
  | activation | ifBranch | whileBody | block | program => exact all_value hvalue hframes hstore rfl

theorem all_step_done {frame : Frame} {completion : Completion}
    (h : (Machine.mk (.done completion) (frame :: frames) scope height store).All p)
    (nil : p .nil) :
    (step host ⟨.done completion, frame :: frames, scope, height, store⟩).All p := by
  obtain ⟨hcontrol, all, hstore⟩ := h
  have hframes : ∀ frame ∈ frames, ∀ value ∈ frame.values, p value :=
    fun other member => all other (List.mem_cons_of_mem _ member)
  have again (scope : ScopeId) (height : Nat) :
      (Machine.mk (.done completion) frames scope height store).All p :=
    ⟨hcontrol, hframes, hstore⟩
  cases frame with
  | activation yield =>
      refine ⟨all_ofResult fun value found => ?_, hframes, hstore⟩
      cases yield with
      | constructed object =>
          cases found
          exact all _ List.mem_cons_self _ List.mem_cons_self
      | receiver scope => exact hstore.getAt found
      | returned =>
          cases completion with
          | «return» value =>
              cases found
              exact hcontrol _ List.mem_cons_self
          | normal | «break» | «continue» =>
              cases found
              exact nil
  | block rest outer =>
      cases rest with
      | nil => exact again _ _
      | cons stmt rest =>
          cases completion with
          | normal => exact all_execWithin (List.forall_mem_nil _) hframes hstore
          | «break» | «continue» | «return» _ => exact again _ _
  | whileBody condition body increment =>
      have next : (resumeDone (.whileBody condition body increment) .normal frames scope
          (height - 2) store).All p := by
        cases increment <;> exact all_evalWithin (List.forall_mem_nil _) hframes hstore
      cases completion with
      | normal => exact next
      | «continue» => exact next
      | «break» => exact ⟨List.forall_mem_nil _, hframes, hstore⟩
      | «return» value => exact again _ _
  | program rest =>
      cases rest with
      | nil => exact ⟨List.forall_mem_nil _, hframes, hstore⟩
      | cons stmt rest => exact all_execWithin (List.forall_mem_nil _) hframes hstore
  | _ => exact again _ _

end

/-- What holds of all values in a machine, and of those that its next step makes, holds of all values after
that step. -/
theorem all_step (h : machine.All p) (made : ∀ value, machine.Makes host value → p value) :
    (step host machine).All p := by
  obtain ⟨control, frames, scope, height, store⟩ := machine
  cases control with
  | eval expr => exact all_step_eval h made
  | exec stmt => exact all_step_exec h made
  | value value =>
      cases frames with
      | nil => exact h
      | cons frame frames => exact all_step_value h made
  | done completion =>
      cases frames with
      | nil => exact h
      | cons frame frames => exact all_step_done h (made _ (.plain trivial))
  | failed interruption =>
      cases frames with
      | nil => exact h
      | cons frame frames =>
          exact ⟨List.forall_mem_nil _, fun other member => h.frames other (List.mem_cons_of_mem _ member), h.store⟩

end Machine

end LoxLang
