import LoxLang.Proofs.Machine.Contents
import LoxLang.Proofs.Machine.Entries
import LoxLang.Proofs.Machine.Memory

/-!
The fields of instances. A step sets one field of one instance, or makes an instance that has none, or leaves all
fields as they are; so a field holds the value that was stored in it last.
-/

namespace LoxLang

namespace Machine

variable {host : Host} {machine : Machine} {frames : List Frame} {scope : ScopeId} {height : Nat} {store : Store}
  {index : Nat} {name : String}

/-- The value that the next step stores under the name in the instance of that index. -/
def stores? (machine : Machine) (index : Nat) (name : String) : Option Value :=
  match machine.control, machine.frames with
  | .value value, .setValue object token :: _ =>
      if object.index = index ∧ token.lexeme = name then some value else none
  | _, _ => none

/-- The next step makes the instance. -/
structure Creates (host : Host) (machine : Machine) (object : Instance) : Prop where
  call : ∃ arguments, machine.call? = some (.class object.kind, arguments)
  index : object.index = machine.store.fields.size
  fields : (step host machine).store.fields = machine.store.addInstance.fields

/-- What may become of the fields in the next step. -/
inductive Alters (machine : Machine) : Array (Bindings Value) → Prop
  | nothing : (∀ index name, machine.stores? index name = none) → Alters machine machine.store.fields
  | sets {object : Instance} {token : Token} {value : Value} {frames : List Frame} :
      machine.control = .value value → machine.frames = .setValue object token :: frames →
      Alters machine (machine.store.setField object.index token.lexeme value).fields
  | adds {kind : ClassValue} {arguments : List Value} :
      machine.call? = some (.class kind, arguments) → Alters machine machine.store.addInstance.fields

/-! ## Steps -/

theorem stores?_of_call? {callee : Value} {arguments : List Value}
    (calling : machine.call? = some (callee, arguments)) : machine.stores? index name = none := by
  unfold call? at calling
  split at calling
  · rfl
  · rfl
  · cases calling

theorem alters_call {callee : Value} {arguments : List Value}
    (calling : machine.call? = some (callee, arguments)) (host : Host) :
    machine.Alters (step host machine).store.fields := by
  have answers := answers_step calling host
  have nothing : machine.Alters machine.store.fields := .nothing fun _ _ => stores?_of_call? calling
  generalize step host machine = next at answers ⊢
  cases answers with
  | fails => exact nothing
  | begins performs begins =>
      rw [begins.store]
      cases performs with
      | function => exact nothing
      | initializer => exact .adds calling
  | native => exact nothing
  | makes same =>
      cases same
      exact .adds calling

theorem fields_bindMethod (host : Host) (height : Nat) (store : Store) (kind : ClassValue) (name : Token)
    (receiver : Value) : (bindMethod host height store kind name receiver).2.fields = store.fields := by
  rcases bindMethod_cases host height store kind name receiver with
    ⟨interruption, same⟩ | ⟨method, -, same⟩
  · rw [same]
  · rw [same]
    rfl

theorem fields_declareClass (store : Store) (scope : ScopeId) (name : Token) (superclass : Option ClassValue)
    (methods : List FunctionDecl) : (declareClass store scope name superclass methods).fields = store.fields := by
  rw [declareClass_eq]
  cases superclass <;> rfl

theorem fields_eval (expr : Expr) : (eval host expr frames scope height store).store.fields = store.fields := by
  cases expr with
  | super keyword name =>
      simp only [eval]
      split
      · rfl
      · exact fields_bindMethod _ _ _ _ _ _
  | _ => rfl

theorem fields_exec (stmt : Stmt) : (exec stmt frames scope height store).store.fields = store.fields := by
  cases stmt with
  | «class» name superclass methods =>
      cases superclass with
      | none => exact fields_declareClass _ _ _ _ _
      | some superclass => rfl
  | var name initializer => cases initializer <;> rfl
  | «return» keyword value => cases value <;> rfl
  | _ => rfl

theorem alters_resumeValue {frame : Frame} {value : Value} {room : Nat}
    (idle : call? ⟨.value value, frame :: frames, scope, height, store⟩ = none) :
    Alters ⟨.value value, frame :: frames, scope, height, store⟩
      (resumeValue host frame value frames scope room store).store.fields := by
  cases frame with
  | setValue object token => exact .sets rfl rfl
  | callee paren arguments =>
      cases arguments with
      | nil => cases idle
      | cons argument rest => exact .nothing fun _ _ => rfl
  | argument callee paren before after =>
      cases after with
      | nil => cases idle
      | cons argument rest => exact .nothing fun _ _ => rfl
  | get name =>
      cases value with
      | «instance» object =>
          simp only [resumeValue]
          split
          · exact .nothing fun _ _ => rfl
          · rw [fields_bindMethod]
            exact .nothing fun _ _ => rfl
      | _ => exact .nothing fun _ _ => rfl
  | superclass name token methods =>
      cases value with
      | «class» kind =>
          change Alters _ (declareClass store scope name (some kind) methods).fields
          rw [fields_declareClass]
          exact .nothing fun _ _ => rfl
      | _ => exact .nothing fun _ _ => rfl
  | assign | logicalLeft | whileCondition =>
      simp only [resumeValue]
      split <;> exact .nothing fun _ _ => rfl
  | ifCondition thenBranch elseBranch =>
      simp only [resumeValue]
      split
      · exact .nothing fun _ _ => rfl
      · cases elseBranch <;> exact .nothing fun _ _ => rfl
  | setObject name part => cases value <;> exact .nothing fun _ _ => rfl
  | _ => exact .nothing fun _ _ => rfl

theorem alters_step (host : Host) (machine : Machine) : machine.Alters (step host machine).store.fields := by
  cases calling : machine.call? with
  | some call => exact alters_call calling host
  | none =>
      obtain ⟨control, frames, scope, height, store⟩ := machine
      cases control with
      | eval expr =>
          simp only [step]
          split
          · exact .nothing fun _ _ => rfl
          · rw [fields_eval]
            exact .nothing fun _ _ => rfl
      | exec stmt =>
          simp only [step]
          split
          · exact .nothing fun _ _ => rfl
          · rw [fields_exec]
            exact .nothing fun _ _ => rfl
      | value value =>
          cases frames with
          | nil => exact .nothing fun _ _ => rfl
          | cons frame frames => exact alters_resumeValue calling
      | done completion =>
          cases frames with
          | nil => exact .nothing fun _ _ => rfl
          | cons frame frames =>
              simp only [step]
              rw [store_resumeDone]
              exact .nothing fun _ _ => rfl
      | failed interruption => cases frames <;> exact .nothing fun _ _ => rfl

/-! ## What fields hold -/

theorem size_fields_step (host : Host) (machine : Machine) :
    machine.store.fields.size ≤ (step host machine).store.fields.size := by
  have alters := alters_step host machine
  generalize (step host machine).store.fields = fields at alters ⊢
  cases alters with
  | nothing => exact Nat.le_refl _
  | sets => simp [Store.setField]
  | adds => simp [Store.addInstance]

theorem stores?_of_setValue {object : Instance} {token : Token} {value : Value}
    (control : machine.control = .value value) (hframes : machine.frames = .setValue object token :: frames) :
    machine.stores? index name = if object.index = index ∧ token.lexeme = name then some value else none := by
  rw [stores?, control, hframes]

/-- A field of an instance that is there holds what is stored in it, or else what it held. -/
theorem field?_step (host : Host) (inside : index < machine.store.fields.size) (name : String) :
    (step host machine).store.field? index name =
      (machine.stores? index name).or (machine.store.field? index name) := by
  have alters := alters_step host machine
  generalize step host machine = next at alters ⊢
  generalize same : next.store.fields = fields at alters
  cases alters with
  | nothing idle => rw [Store.field?_congr same, idle, Option.none_or]
  | @sets object token value frames control hframes =>
      rw [Store.field?_congr same, Store.field?_setField, stores?_of_setValue control hframes]
      by_cases here : object.index = index ∧ token.lexeme = name
      · obtain ⟨rfl, rfl⟩ := here
        simp [inside]
      · rw [if_neg here, if_neg fun both => here ⟨both.1.symm, both.2.2.symm⟩, Option.none_or]
  | adds calling =>
      rw [Store.field?_congr same, Store.field?_addInstance, stores?_of_call? calling, Option.none_or]

/-- No field changes but the one in which a value is stored. -/
theorem field?_step_of_stores?_eq_none (host : Host) (idle : machine.stores? index name = none) :
    (step host machine).store.field? index name = machine.store.field? index name := by
  have alters := alters_step host machine
  generalize step host machine = next at alters ⊢
  generalize same : next.store.fields = fields at alters
  cases alters with
  | nothing => exact Store.field?_congr same index name
  | @sets object token value frames control hframes =>
      rw [stores?_of_setValue control hframes, ite_eq_right_iff] at idle
      rw [Store.field?_congr same, Store.field?_setField, if_neg]
      exact fun both => nomatch idle ⟨both.1.symm, both.2.2.symm⟩
  | adds => rw [Store.field?_congr same, Store.field?_addInstance]

theorem creates_of_size_lt {kind : ClassValue} {arguments : List Value}
    (calling : machine.call? = some (.class kind, arguments))
    (more : machine.store.fields.size < (step host machine).store.fields.size) :
    machine.Creates host ⟨machine.store.fields.size, kind⟩ := by
  refine ⟨⟨arguments, calling⟩, rfl, ?_⟩
  have alters := alters_step host machine
  generalize (step host machine).store.fields = fields at alters more ⊢
  cases alters with
  | nothing => exact absurd more (Nat.lt_irrefl _)
  | sets => simp [Store.setField] at more
  | adds => rfl

/-- An instance that is made has no fields. -/
theorem Creates.field? {object : Instance} (h : machine.Creates host object) (name : String) :
    object.index < (step host machine).store.fields.size ∧
      (step host machine).store.field? object.index name = none := by
  have empty : machine.store.fields[machine.store.fields.size]? = none :=
    Array.getElem?_eq_none (Nat.le_refl _)
  rw [Store.field?_congr h.fields, Store.field?_addInstance, h.index, h.fields]
  exact ⟨by simp [Store.addInstance], by rw [Store.field?, empty]; rfl⟩

end Machine

end LoxLang
