import LoxLang.Proofs.Machine.Memory
import LoxLang.Proofs.Session.Receivers
import LoxLang.Proofs.Store.Unfolding

/-!
What a running program refers to is there. The scopes in which it goes on and those of its functions were made, and so
were the classes that it has; thus each step makes scopes and classes that are linked to earlier ones, whatever
the code is and however it is marked.
-/

namespace LoxLang

/-- A value leads to scopes and classes that were made. -/
def Value.Founded (kinds : List ClassValue) (next : ScopeId) : Value → Prop
  | .function closure => closure.scope < next
  | .class kind => kind ∈ kinds
  | .instance object => object.kind ∈ kinds
  | _ => True

theorem Value.Founded.later {kinds more : List ClassValue} {before next : ScopeId} {value : Value}
    (h : value.Founded kinds before) (subset : kinds ⊆ more) (le : before ≤ next) : value.Founded more next := by
  cases value with
  | function closure => exact Nat.lt_of_lt_of_le h le
  | «class» kind | «instance» object => exact subset h
  | _ => trivial

theorem Value.founded_of_isPlain {kinds : List ClassValue} {next : ScopeId} {value : Value} (h : value.IsPlain) :
    value.Founded kinds next := by
  cases value with
  | nil | bool _ | number _ | text _ => trivial
  | _ => exact h.elim

/-- A frame leads back to a scope that was made. -/
def Frame.Rests (next : ScopeId) : Frame → Prop
  | .block _ outer => outer < next
  | _ => True

theorem Frame.Rests.later {before next : ScopeId} {frame : Frame} (h : frame.Rests before) (le : before ≤ next) :
    frame.Rests next := by
  cases frame with
  | block rest outer => exact Nat.lt_of_lt_of_le h le
  | _ => trivial

theorem Store.Layered.method {kinds : List ClassValue} {store : Store} (h : store.Layered kinds) {kind : ClassValue}
    (member : kind ∈ kinds) {name : String} {method : Closure} (found : kind.method? name = some method) :
    method.scope < store.forest.next := by
  obtain ⟨layer, inside, there⟩ := List.exists_of_findSome?_eq_some found
  exact h.methods kind member layer inside name method there

namespace Machine

variable {host : Host} {machine : Machine} {frames : List Frame} {scope : ScopeId} {height : Nat}
  {before middle store : Store} {kinds : List ClassValue}

/-- A machine has a later store, and the scopes in which it goes on, now and once its blocks are left, are there. -/
structure Rests (before : Store) (machine : Machine) : Prop where
  unfolds : before.Unfolds machine.store
  scope : machine.scope < machine.store.forest.next
  frames : ∀ frame ∈ machine.frames, frame.Rests machine.store.forest.next

theorem Rests.trans (unfolds : before.Unfolds middle) (h : machine.Rests middle) : machine.Rests before :=
  ⟨unfolds.trans h.unfolds, h.scope, h.frames⟩

section

variable (inside : scope < store.forest.next) (rests : ∀ frame ∈ frames, frame.Rests store.forest.next)

include inside rests

theorem rests_of_unfolds {after : Store} (unfolds : store.Unfolds after) (control : Control) (room : Nat) :
    Rests store ⟨control, frames, scope, room, after⟩ :=
  ⟨unfolds, inside.trans_le unfolds.next, fun frame member => (rests frame member).later unfolds.next⟩

theorem rests_same (control : Control) (room : Nat) : Rests store ⟨control, frames, scope, room, store⟩ :=
  rests_of_unfolds inside rests .refl control room

theorem rests_within {control : Control} {frame : Frame} {room : Nat} (first : frame.Rests store.forest.next) :
    Rests store ⟨control, frame :: frames, scope, room, store⟩ :=
  ⟨.refl, inside, List.forall_mem_cons.mpr ⟨first, rests⟩⟩

theorem rests_activate {closure : Closure} (there : closure.scope < store.forest.next) (arguments : List Value)
    (yield : Yield) : Rests store (activate closure arguments yield frames scope height store) := by
  have unfolds : store.Unfolds (store.addScope closure.scope _) :=
    .addScope ((closure.declaration.params.map Token.lexeme).zip arguments) .refl there
  have new : store.forest.next < (store.addScope closure.scope
      ((closure.declaration.params.map Token.lexeme).zip arguments)).forest.next :=
    (Nat.lt_succ_self _).trans_eq (Forest.next_add _ _ _).symm
  have still := rests_of_unfolds inside rests unfolds (.done .normal) height
  exact ⟨unfolds, new, List.forall_mem_cons.mpr ⟨inside.trans_le unfolds.next,
    List.forall_mem_cons.mpr ⟨trivial, still.frames⟩⟩⟩

end

theorem unfolds_bind {method : Closure} (there : method.scope < store.forest.next) (receiver : Value) :
    store.Unfolds (bind store method receiver).2 :=
  (Store.Unfolds.addScope _ .refl there).takeStamps 1

theorem unfolds_bindMethod (layered : store.Layered kinds) {kind : ClassValue} (member : kind ∈ kinds) (room : Nat)
    (name : Token) (receiver : Value) : store.Unfolds (bindMethod host room store kind name receiver).2 := by
  rcases bindMethod_cases host room store kind name receiver with ⟨interruption, same⟩ | ⟨method, found, same⟩
  · rw [same]
    exact .refl
  · rw [same]
    exact unfolds_bind (layered.method member found) receiver

theorem unfolds_declareClass (inside : scope < store.forest.next) (name : Token) (superclass : Option ClassValue)
    (methods : List FunctionDecl) : store.Unfolds (declareClass store scope name superclass methods) := by
  rw [declareClass_eq]
  have first : store.Unfolds (store.define scope name.lexeme .nil) := .define _ _ _ .refl
  have still : scope < (store.define scope name.lexeme .nil).forest.next := inside.trans_le first.next
  cases superclass with
  | none => exact .define _ _ _ (first.takeStamps _)
  | some superclass => exact .define _ _ _ ((first.addScope _ still).takeStamps _)

theorem rests_call (layered : store.Layered kinds) (inside : scope < store.forest.next)
    (rests : ∀ frame ∈ frames, frame.Rests store.forest.next) {callee : Value}
    (founded : callee.Founded kinds store.forest.next) (paren : Token) (arguments : List Value) :
    Rests store (call host callee paren arguments frames scope height store) := by
  have called := called_call host callee paren arguments frames scope height store
  generalize call host callee paren arguments frames scope height store = next at called ⊢
  cases called with
  | fails | native => exact rests_same inside rests _ height
  | function => exact rests_activate inside rests founded arguments _
  | @«class» kind =>
      have made : store.Unfolds store.addInstance := Store.Unfolds.refl.keep rfl (Nat.le_refl _)
      cases init : kind.method? "init" with
      | none =>
          simp only [construct, init]
          exact rests_of_unfolds inside rests made _ _
      | some initializer =>
          rw [construct_of_init init]
          have there : initializer.scope < store.addInstance.forest.next := layered.method founded init
          let object : Instance := ⟨store.fields.size, kind⟩
          have bound := made.trans (unfolds_bind there (.instance object))
          have still := rests_of_unfolds inside rests bound (.done .normal) height
          exact .trans bound (rests_activate still.scope still.frames (next_bind _ _ _) _ _)

/-- All that a machine refers to was made. -/
structure Founded (kinds : List ClassValue) (machine : Machine) : Prop where
  layered : machine.store.Layered kinds
  scope : machine.scope < machine.store.forest.next
  frames : ∀ frame ∈ machine.frames, frame.Rests machine.store.forest.next
  values : machine.All (Value.Founded kinds machine.store.forest.next)

/-! ## Steps -/

theorem rests_eval {expr : Expr} (h : Founded kinds ⟨.eval expr, frames, scope, height, store⟩) :
    Rests store (eval host expr frames scope height store) := by
  have same (control : Control) : Rests store ⟨control, frames, scope, height, store⟩ :=
    rests_same h.scope h.frames control height
  cases expr with
  | super keyword name =>
      simp only [eval]
      split
      · exact same _
      next superclass receiver holds =>
      have member : superclass ∈ kinds := (h.values.store.superReceiver holds).1
      exact rests_of_unfolds h.scope h.frames (unfolds_bindMethod h.layered member _ _ _) _ _
  | literal | this | «variable» => exact same _
  | _ => exact rests_within h.scope h.frames trivial

theorem rests_exec {stmt : Stmt} (inside : scope < store.forest.next)
    (rests : ∀ frame ∈ frames, frame.Rests store.forest.next) :
    Rests store (exec stmt frames scope height store) := by
  have same (control : Control) : Rests store ⟨control, frames, scope, height, store⟩ :=
    rests_same inside rests control height
  cases stmt with
  | block statements =>
      have unfolds : store.Unfolds (store.addScope scope []) := .addScope [] .refl inside
      have new : store.forest.next < (store.addScope scope []).forest.next :=
        (Nat.lt_succ_self _).trans_eq (Forest.next_add _ _ _).symm
      have still := rests_of_unfolds inside rests unfolds (.done .normal) height
      exact ⟨unfolds, new, List.forall_mem_cons.mpr ⟨still.scope, still.frames⟩⟩
  | «class» name superclass methods =>
      cases superclass with
      | none => exact rests_of_unfolds inside rests (unfolds_declareClass inside name none methods) _ _
      | some superclass => exact rests_within inside rests trivial
  | function declaration =>
      have unfolds : store.Unfolds (store.takeStamps 1) := Store.Unfolds.refl.takeStamps 1
      exact rests_of_unfolds inside rests (unfolds.define _ _ _) _ _
  | var name initializer =>
      cases initializer with
      | none => exact rests_of_unfolds inside rests (.define _ _ _ .refl) _ _
      | some value => exact rests_within inside rests trivial
  | «return» keyword value =>
      cases value with
      | none => exact same _
      | some value => exact rests_within inside rests trivial
  | «break» | «continue» => exact same _
  | _ => exact rests_within inside rests trivial

theorem rests_resumeValue {frame : Frame} {value : Value}
    (h : Founded kinds ⟨.value value, frame :: frames, scope, height, store⟩) (room : Nat) :
    Rests store (resumeValue host frame value frames scope room store) := by
  obtain ⟨layered, inside, hframes, values⟩ := h
  have rests : ∀ frame ∈ frames, frame.Rests store.forest.next := fun frame member =>
    hframes frame (List.mem_cons_of_mem _ member)
  have same (control : Control) : Rests store ⟨control, frames, scope, room, store⟩ :=
    rests_same inside rests control room
  have later {after : Store} (unfolds : store.Unfolds after) (control : Control) :
      Rests store ⟨control, frames, scope, room, after⟩ := rests_of_unfolds inside rests unfolds control room
  have here : value.Founded kinds store.forest.next := values.control _ List.mem_cons_self
  have held := values.frames _ List.mem_cons_self
  cases frame with
  | assign use =>
      simp only [resumeValue]
      split
      · exact same _
      · exact later (.define _ _ _ .refl) _
  | callee paren arguments =>
      cases arguments with
      | nil => exact rests_call layered inside rests here paren []
      | cons argument rest => exact rests_within inside rests trivial
  | argument callee paren before after =>
      cases after with
      | nil => exact rests_call layered inside rests (held callee List.mem_cons_self) paren _
      | cons argument rest => exact rests_within inside rests trivial
  | get name =>
      cases value with
      | «instance» object =>
          simp only [resumeValue]
          split
          · exact same _
          · exact later (unfolds_bindMethod layered here _ _ _) _
      | _ => exact same _
  | var name => exact later (.define _ _ _ .refl) _
  | superclass name token methods =>
      cases value with
      | «class» kind => exact later (unfolds_declareClass inside name (some kind) methods) _
      | _ => exact same _
  | setObject name part =>
      cases value with
      | «instance» object => exact rests_within inside rests trivial
      | _ => exact same _
  | setValue object name =>
      have unfolds : store.Unfolds (store.setField object.index name.lexeme value) := .keep .refl rfl (Nat.le_refl _)
      exact later unfolds _
  | print =>
      have unfolds : store.Unfolds (store.print value.toText) := .keep .refl rfl (Nat.le_refl _)
      exact later unfolds _
  | logicalLeft operator right =>
      simp only [resumeValue]
      split
      · exact same _
      · exact rests_within inside rests trivial
  | whileCondition condition body increment =>
      simp only [resumeValue]
      split
      · exact rests_within inside rests trivial
      · exact same _
  | ifCondition thenBranch elseBranch =>
      simp only [resumeValue]
      split
      · exact rests_within inside rests trivial
      · cases elseBranch with
        | none => exact same _
        | some elseBranch => exact rests_within inside rests trivial
  | binaryLeft | whileIncrement => exact rests_within inside rests trivial
  | _ => exact same _

theorem rests_resumeDone {frame : Frame} (completion : Completion) (inside : scope < store.forest.next)
    (first : frame.Rests store.forest.next) (rests : ∀ frame ∈ frames, frame.Rests store.forest.next) :
    Rests store (resumeDone frame completion frames scope height store) := by
  have same (control : Control) : Rests store ⟨control, frames, scope, height, store⟩ :=
    rests_same inside rests control height
  cases frame with
  | block rest outer =>
      cases rest with
      | nil => exact rests_same first rests _ _
      | cons stmt rest =>
          cases completion with
          | normal => exact rests_within inside rests first
          | _ => exact rests_same first rests _ _
  | whileBody condition body increment =>
      cases completion with
      | normal | «continue» => cases increment <;> exact rests_within inside rests trivial
      | _ => exact same _
  | program rest =>
      cases rest with
      | nil => exact same _
      | cons stmt rest => exact rests_within inside rests trivial
  | _ => exact same _

theorem rests_step (host : Host) (h : machine.Founded kinds) : (step host machine).Rests machine.store := by
  obtain ⟨control, frames, scope, height, store⟩ := machine
  have same (control : Control) : Rests store ⟨control, frames, scope, height, store⟩ :=
    rests_same h.scope h.frames control height
  cases control with
  | eval expr =>
      simp only [step]
      split
      · exact same _
      · exact rests_eval h
  | exec stmt =>
      simp only [step]
      split
      · exact same _
      · exact rests_exec h.scope h.frames
  | value value =>
      cases frames with
      | nil => exact same _
      | cons frame frames => exact rests_resumeValue h _
  | done completion =>
      cases frames with
      | nil => exact same _
      | cons frame frames =>
          obtain ⟨first, rest⟩ := List.forall_mem_cons.mp h.frames
          exact rests_resumeDone completion h.scope first rest
  | failed interruption =>
      cases frames with
      | nil => exact same _
      | cons frame frames =>
          obtain ⟨first, rest⟩ := List.forall_mem_cons.mp h.frames
          cases frame with
          | block statements outer => exact rests_same first rest _ _
          | _ => exact rests_same h.scope rest _ _

/-! ## Classes -/

/-- A step makes one class at most. -/
theorem Declares.unique {name other : Token} {superclass another : Option ClassValue}
    {methods others : List FunctionDecl} (first : machine.Declares host name superclass methods)
    (second : machine.Declares host other another others) :
    name = other ∧ superclass = another ∧ methods = others := by
  cases first with
  | base control room =>
      cases second with
      | base same _ =>
          cases control.symm.trans same
          exact ⟨rfl, rfl, rfl⟩
      | derived same _ => cases control.symm.trans same
  | derived control frames =>
      cases second with
      | base same _ => cases control.symm.trans same
      | derived same others =>
          cases control.symm.trans same
          cases frames.symm.trans others
          exact ⟨rfl, rfl, rfl⟩

/-- The superclass is known before the class is made. -/
theorem Founded.superclass (h : machine.Founded kinds) {name : Token} {superclass : Option ClassValue}
    {methods : List FunctionDecl} (declares : machine.Declares host name superclass methods) {parent : ClassValue}
    (link : superclass = some parent) : parent ∈ kinds := by
  cases declares with
  | base => cases link
  | derived control =>
      cases link
      have here := h.values.control
      rw [control] at here
      exact here _ List.mem_cons_self

theorem Declares.stamp {name : Token} {superclass : Option ClassValue} {methods : List FunctionDecl}
    (declares : machine.Declares host name superclass methods) :
    machine.store.stamp < (step host machine).store.stamp := by
  have made (store : Store) (scope : ScopeId) :
      store.stamp < (declareClass store scope name superclass methods).stamp := by
    rw [declareClass_eq]
    cases superclass <;> exact Nat.lt_add_of_pos_right (Nat.succ_pos _)
  obtain ⟨control, frames, scope, height, store⟩ := machine
  cases declares with
  | base same room =>
      cases same
      rw [step, if_neg (Nat.not_le.mpr room)]
      exact made store scope
  | derived same others =>
      cases same
      cases others
      exact made store scope

/-- The scope for the methods of the class is there once the class is. -/
theorem Declares.methodScope {name : Token} {superclass : Option ClassValue} {methods : List FunctionDecl}
    (declares : machine.Declares host name superclass methods) (inside : machine.scope < machine.store.forest.next)
    (later : machine.store.forest.next ≤ (step host machine).store.forest.next) :
    machine.store.methodScope machine.scope superclass < (step host machine).store.forest.next := by
  obtain ⟨control, frames, scope, height, store⟩ := machine
  cases declares with
  | base => exact inside.trans_le later
  | derived same others =>
      cases same
      cases others
      change store.forest.next < (declareClass store scope name (some _) methods).forest.next
      rw [declareClass_eq]
      change store.forest.next <
        (((store.forest.define scope name.lexeme .nil).add (some scope) _).define scope name.lexeme _).next
      rw [Forest.next_define, Forest.next_add, Forest.next_define]
      exact Nat.lt_succ_self _

theorem Founded.declares (h : machine.Founded kinds) {name : Token} {superclass : Option ClassValue}
    {methods : List FunctionDecl} (declares : machine.Declares host name superclass methods) :
    (step host machine).store.Layered
      (machine.store.classMade machine.scope name superclass methods :: kinds) := by
  have rests := rests_step host h
  have still := h.layered.later rests.unfolds
  refine ⟨still.ordered, still.globals, .made h.layered.below (fun parent link => ?_) h.layered.pedigree,
    List.forall_mem_cons.mpr ⟨declares.stamp, still.below⟩, List.forall_mem_cons.mpr ⟨?_, still.methods⟩⟩
  · rw [Store.superclass?_classMade] at link
    exact h.superclass declares link
  · intro layer member other method found
    rcases List.mem_cons.mp member with rfl | above
    · obtain ⟨index, _, same⟩ := List.mem_mapIdx.mp (Bindings.mem_of_get?_ofList found)
      cases same
      exact declares.methodScope h.scope rests.unfolds.next
    · cases link : superclass with
      | none =>
          rw [link] at above
          cases above
      | some parent =>
          rw [link] at above
          exact still.methods parent (h.superclass declares link) layer above other method found

/-! ## Steps and classes -/

theorem Founded.makes (passive : ∀ native ∈ host.natives, native.Passive) (h : machine.Founded kinds)
    {more : List ClassValue} (subset : kinds ⊆ more)
    (classes : ∀ name superclass methods, machine.Declares host name superclass methods →
      machine.store.classMade machine.scope name superclass methods ∈ more) {value : Value}
    (makes : machine.Makes host value) : value.Founded more (step host machine).store.forest.next := by
  have le := (rests_step host h).unfolds.next
  cases makes with
  | @answer _ native arguments calling found =>
      rcases passive native (Array.mem_of_getElem? found) host.now arguments with plain | member
      · exact Value.founded_of_isPlain plain
      · exact ((h.values.call calling).2 _ member).later subset le
  | «class» declares => exact classes _ _ _ declares
  | function control => exact h.scope.trans_le le
  | «instance» calling => exact subset (h.values.call calling).1
  | method binds => exact binds.scope
  | plain plain => exact Value.founded_of_isPlain plain

/-- One step makes what it refers to, and the classes that there were are there still. -/
theorem Founded.step (passive : ∀ native ∈ host.natives, native.Passive) (h : machine.Founded kinds) :
    ∃ more, kinds <:+ more ∧ (step host machine).Founded more := by
  have rests := rests_step host h
  have founded {more : List ClassValue} (suffix : kinds <:+ more)
      (layered : (Machine.step host machine).store.Layered more)
      (classes : ∀ name superclass methods, machine.Declares host name superclass methods →
        machine.store.classMade machine.scope name superclass methods ∈ more) :
      (Machine.step host machine).Founded more := by
    have weakened := h.values.mono fun _ value => value.later suffix.subset rests.unfolds.next
    exact ⟨layered, rests.scope, rests.frames,
      all_step weakened fun _ makes => h.makes passive suffix.subset classes makes⟩
  by_cases declared : ∃ name superclass methods, machine.Declares host name superclass methods
  · obtain ⟨name, superclass, methods, declares⟩ := declared
    refine ⟨_, List.suffix_cons _ _, founded (List.suffix_cons _ _) (h.declares declares) ?_⟩
    intro other another others same
    obtain ⟨rfl, rfl, rfl⟩ := declares.unique same
    exact List.mem_cons_self
  · refine ⟨kinds, List.suffix_refl _, founded (List.suffix_refl _) (h.layered.later rests.unfolds) ?_⟩
    exact fun name superclass methods declares => (declared ⟨name, superclass, methods, declares⟩).elim

theorem founded_load {store : Store} (layered : store.Layered kinds)
    (values : store.All (Value.Founded kinds store.forest.next)) (statements : List Stmt) :
    (load statements store).Founded kinds where
  layered := layered
  scope := layered.globals
  frames := List.forall_mem_singleton.mpr trivial
  values := ⟨nofun, List.forall_mem_singleton.mpr nofun, values⟩

end Machine

end LoxLang
