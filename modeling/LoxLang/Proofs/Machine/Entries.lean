import LoxLang.Proofs.Bindings
import LoxLang.Proofs.Machine.Contents
import LoxLang.Proofs.Machine.Handing
import LoxLang.Proofs.Machine.Rounds

/-!
Entering what is called. The body of a function begins at a call only, after the arguments were counted, so that each
parameter is bound; a native is asked with as many arguments as it takes.
-/

namespace LoxLang

def Frame.isActivation : Frame → Bool
  | .activation _ => true
  | _ => false

namespace Machine

variable {host : Host} {machine : Machine} {frames : List Frame} {scope : ScopeId} {height : Nat}
  {store : Store}

/-- The number of calls that are running. -/
def running (machine : Machine) : Nat :=
  machine.frames.countP Frame.isActivation

/-! ## Calls -/

/-- The function whose body a call of a value runs, what is yielded then, and the store in which the body begins. -/
inductive Performs (store : Store) : Value → Closure → Yield → Store → Prop
  | function (closure : Closure) : Performs store (.function closure) closure (functionYield closure) store
  | initializer {kind : ClassValue} {method : Closure} :
      kind.method? "init" = some method →
      Performs store (.class kind) (bind store.addInstance method (.instance ⟨store.fields.size, kind⟩)).1
        (.constructed ⟨store.fields.size, kind⟩)
        (bind store.addInstance method (.instance ⟨store.fields.size, kind⟩)).2

/-- The machine begins the body of a function in a new scope, with as many arguments as there are parameters. -/
structure Begins (closure : Closure) (arguments : List Value) (yield : Yield) (frames : List Frame) (store : Store)
    (machine : Machine) : Prop where
  count : arguments.length = closure.declaration.params.length
  control : machine.control = .done .normal
  frames : ∃ outer, machine.frames = .block closure.declaration.body outer :: .activation yield :: frames
  scope : machine.scope = store.forest.next
  store : machine.store = store.addScope closure.scope ((closure.declaration.params.map Token.lexeme).zip arguments)

/-- The names that the current scope binds are the parameters of the function, all of them, and all arguments are used. -/
structure Supplies (closure : Closure) (arguments : List Value) (machine : Machine) : Prop where
  count : arguments.length = closure.declaration.params.length
  bindings : machine.store.forest.bindings machine.scope =
    .ofList ((closure.declaration.params.map Token.lexeme).zip arguments)
  names : ((closure.declaration.params.map Token.lexeme).zip arguments).map Prod.fst =
    closure.declaration.params.map Token.lexeme
  values : ((closure.declaration.params.map Token.lexeme).zip arguments).map Prod.snd = arguments
  bound : ∀ param ∈ closure.declaration.params, ∃ argument ∈ arguments,
    (machine.store.forest.bindings machine.scope).get? param.lexeme = some argument

/-- What a call may lead to: an error at once, the body of a function, the answer of a native, or a new instance of a
class without initializer. -/
inductive Answers (host : Host) (machine : Machine) (callee : Value) (arguments : List Value) : Machine → Prop
  | fails {height : Nat} (interruption : Interruption) :
      Answers host machine callee arguments
        ⟨.failed interruption, machine.frames.tail, machine.scope, height, machine.store⟩
  | begins {closure : Closure} {yield : Yield} {store : Store} {next : Machine} :
      Performs machine.store callee closure yield store →
      next.Begins closure arguments yield machine.frames.tail store → Answers host machine callee arguments next
  | native {index height : Nat} {native : Native} :
      callee = .native index → host.natives[index]? = some native → arguments.length = native.arity →
      Answers host machine callee arguments ⟨.value (native.answer host.now arguments), machine.frames.tail,
        machine.scope, height, machine.store⟩
  | makes {kind : ClassValue} {height : Nat} :
      callee = .class kind → kind.method? "init" = none → arguments = [] →
      Answers host machine callee arguments ⟨.value (.instance ⟨machine.store.fields.size, kind⟩),
        machine.frames.tail, machine.scope, height, machine.store.addInstance⟩

section

variable {closure : Closure} {arguments : List Value} {yield : Yield}

theorem begins_activate (count : arguments.length = closure.declaration.params.length) (yield : Yield) :
    (activate closure arguments yield frames scope height store).Begins closure arguments yield frames store where
  count := count
  control := rfl
  frames := ⟨scope, rfl⟩
  scope := rfl
  store := rfl

theorem Begins.supplies (h : machine.Begins closure arguments yield frames store) :
    machine.Supplies closure arguments := by
  have names : ((closure.declaration.params.map Token.lexeme).zip arguments).map Prod.fst =
      closure.declaration.params.map Token.lexeme := List.map_fst_zip (by rw [h.count, List.length_map])
  have bindings : machine.store.forest.bindings machine.scope =
      .ofList ((closure.declaration.params.map Token.lexeme).zip arguments) := by
    rw [h.store, h.scope]
    change (store.forest.add (some closure.scope) _).bindings store.forest.next = _
    rw [Forest.bindings_add, if_pos rfl]
  refine ⟨h.count, bindings, names, List.map_snd_zip (by rw [h.count, List.length_map]), fun param member => ?_⟩
  have named : param.lexeme ∈ ((closure.declaration.params.map Token.lexeme).zip arguments).map Prod.fst := by
    rw [names]
    exact List.mem_map_of_mem member
  obtain ⟨argument, found⟩ := Bindings.contains_iff.mp (Bindings.contains_ofList named)
  rw [bindings]
  exact ⟨argument, (List.of_mem_zip (Bindings.mem_of_get?_ofList found)).2, found⟩

end

theorem answers_call {callee : Value} {arguments : List Value} (paren : Token) :
    Answers host machine callee arguments
      (call host callee paren arguments machine.frames.tail machine.scope height machine.store) := by
  have called := called_call host callee paren arguments machine.frames.tail machine.scope height machine.store
  generalize call host callee paren arguments machine.frames.tail machine.scope height machine.store = next
    at called ⊢
  cases called with
  | fails error => exact .fails _
  | @function closure count => exact .begins (.function closure) (begins_activate count _)
  | @«class» kind count =>
      rw [ClassValue.arity] at count
      cases init : kind.method? "init" with
      | none =>
          simp only [construct, init]
          rw [init] at count
          exact .makes rfl init (List.eq_nil_of_length_eq_zero count)
      | some initializer =>
          rw [construct_of_init init]
          refine .begins (.initializer init) (begins_activate ?_ _)
          rw [init] at count
          exact count
  | native known count => exact .native rfl known count

theorem answers_step {callee : Value} {arguments : List Value}
    (calling : machine.call? = some (callee, arguments)) (host : Host) :
    Answers host machine callee arguments (step host machine) := by
  obtain ⟨paren, height, same⟩ := step_of_call? calling host
  rw [same]
  exact answers_call paren

/-- Unless a call of a class fails at once, there is an instance more. -/
theorem fails_or_adds_instance {kind : ClassValue} {arguments : List Value}
    (calling : machine.call? = some (.class kind, arguments)) (host : Host) :
    (∃ interruption height, step host machine =
      ⟨.failed interruption, machine.frames.tail, machine.scope, height, machine.store⟩) ∨
    machine.store.fields.size < (step host machine).store.fields.size := by
  have more (store : Store) : store.fields.size < store.addInstance.fields.size := by
    simp [Store.addInstance]
  have answers := answers_step calling host
  generalize step host machine = next at answers ⊢
  cases answers with
  | fails interruption => exact .inl ⟨interruption, _, rfl⟩
  | begins performs begins =>
      refine .inr ?_
      rw [begins.store]
      cases performs with
      | initializer => exact more machine.store
  | native same => cases same
  | makes => exact .inr (more machine.store)

/-- What holds of all values in a machine holds of all values after its next step if it holds of those that the step
makes. A call of a class that makes no instance need not be thought of. -/
theorem all_step_of_adds {p : Value → Prop} (h : machine.All p)
    (made : (∀ kind arguments, machine.call? = some (.class kind, arguments) →
      machine.store.fields.size < (step host machine).store.fields.size) →
      ∀ value, machine.Makes host value → p value) : (step host machine).All p := by
  by_cases adds : ∀ kind arguments, machine.call? = some (.class kind, arguments) →
      machine.store.fields.size < (step host machine).store.fields.size
  · exact all_step h (made adds)
  · -- The call fails, so the instance that it was to make is nowhere.
    push Not at adds
    obtain ⟨kind, arguments, calling, stays⟩ := adds
    rcases fails_or_adds_instance calling host with ⟨interruption, height, same⟩ | more
    · rw [same]
      exact ⟨List.forall_mem_nil _, fun frame member => h.frames frame (List.mem_of_mem_tail member), h.store⟩
    · exact absurd more (Nat.not_lt.mpr stays)

/-- A native is asked with as many arguments as it takes. -/
theorem fails_or_asks {index : Nat} {arguments : List Value}
    (calling : machine.call? = some (.native index, arguments)) (host : Host) :
    (∃ interruption, (step host machine).control = .failed interruption) ∨
    ∃ native, host.natives[index]? = some native ∧ arguments.length = native.arity ∧
      (step host machine).control = .value (native.answer host.now arguments) := by
  have answers := answers_step calling host
  generalize step host machine = next at answers ⊢
  cases answers with
  | fails interruption => exact .inl ⟨interruption, rfl⟩
  | begins performs => cases performs
  | @native _ _ native same known count =>
      cases same
      exact .inr ⟨native, known, count, rfl⟩
  | makes same => cases same

theorem length_of_call? {callee : Value} {arguments : List Value}
    (calling : machine.call? = some (callee, arguments)) :
    machine.frames.length = machine.frames.tail.length + 1 := by
  obtain ⟨control, frames, scope, height, store⟩ := machine
  cases frames with
  | nil => cases control <;> cases calling
  | cons frame frames => rfl

/-! ## Other steps -/

theorem running_eval (expr : Expr) :
    (eval host expr frames scope height store).running = frames.countP Frame.isActivation := by
  cases expr with
  | super keyword name =>
      simp only [eval]
      split <;> rfl
  | _ => rfl

theorem running_exec (stmt : Stmt) :
    (exec stmt frames scope height store).running = frames.countP Frame.isActivation := by
  cases stmt with
  | «class» name superclass methods => cases superclass <;> rfl
  | «return» keyword value | var name value => cases value <;> rfl
  | _ => rfl

theorem running_resumeDone (frame : Frame) (completion : Completion) :
    (resumeDone frame completion frames scope height store).running = frames.countP Frame.isActivation := by
  cases frame with
  | block rest outer => cases rest <;> cases completion <;> rfl
  | whileBody condition body increment => cases completion <;> cases increment <;> rfl
  | program rest => cases rest <;> rfl
  | _ => rfl

theorem running_resumeValue {frame : Frame} {value : Value} {room : Nat}
    (idle : call? ⟨.value value, frame :: frames, scope, height, store⟩ = none) :
    (resumeValue host frame value frames scope room store).running = frames.countP Frame.isActivation := by
  cases frame with
  | callee paren arguments =>
      cases arguments with
      | nil => cases idle
      | cons argument rest => rfl
  | argument callee paren before after =>
      cases after with
      | nil => cases idle
      | cons argument rest => rfl
  | assign | logicalLeft | whileCondition =>
      simp only [resumeValue]
      split <;> rfl
  | get name =>
      cases value with
      | «instance» object =>
          simp only [resumeValue]
          split <;> rfl
      | _ => rfl
  | ifCondition thenBranch elseBranch =>
      simp only [resumeValue]
      split
      · rfl
      · cases elseBranch <;> rfl
  | setObject | superclass => cases value <;> rfl
  | _ => rfl

/-- Nothing but a call puts the body of a function on the stack. -/
theorem call?_of_running_lt (more : machine.running < (step host machine).running) :
    ∃ callee arguments, machine.call? = some (callee, arguments) := by
  cases idle : machine.call? with
  | some call => exact ⟨call.1, call.2, rfl⟩
  | none =>
      refine absurd more (Nat.not_lt.mpr ?_)
      obtain ⟨control, frames, scope, height, store⟩ := machine
      have dropped (frame : Frame) (rest : List Frame) :
          rest.countP Frame.isActivation ≤ (frame :: rest).countP Frame.isActivation :=
        (List.sublist_cons_self _ _).countP_le
      cases control with
      | eval expr =>
          simp only [step]
          split
          · exact Nat.le_refl _
          · exact Nat.le_of_eq (running_eval expr)
      | exec stmt =>
          simp only [step]
          split
          · exact Nat.le_refl _
          · exact Nat.le_of_eq (running_exec stmt)
      | value value =>
          cases frames with
          | nil => exact Nat.le_refl _
          | cons frame frames => exact Nat.le_trans (Nat.le_of_eq (running_resumeValue idle)) (dropped frame frames)
      | done completion =>
          cases frames with
          | nil => exact Nat.le_refl _
          | cons frame frames =>
              exact Nat.le_trans (Nat.le_of_eq (running_resumeDone frame completion)) (dropped frame frames)
      | failed interruption =>
          cases frames with
          | nil => exact Nat.le_refl _
          | cons frame frames => exact dropped frame frames

/-- The body of a function begins with as many arguments as it has parameters. -/
theorem begins_of_running_lt (more : machine.running < (step host machine).running) :
    ∃ callee arguments closure yield store, machine.call? = some (callee, arguments) ∧
      Performs machine.store callee closure yield store ∧
      (step host machine).Begins closure arguments yield machine.frames.tail store := by
  obtain ⟨callee, arguments, calling⟩ := call?_of_running_lt more
  have dropped : machine.frames.tail.countP Frame.isActivation ≤ machine.running :=
    (List.tail_sublist _).countP_le
  have answers := answers_step calling host
  generalize step host machine = next at answers more ⊢
  cases answers with
  | fails | native | makes => exact absurd more (Nat.not_lt.mpr dropped)
  | begins performs begins => exact ⟨_, _, _, _, _, calling, performs, begins⟩

/-! ## The end of a call -/

/-- The step at which a call ends: with an error, or with what it yields once its body has ended. -/
inductive Leaves (yield : Yield) (outer : List Frame) (machine : Machine) : Machine → Prop
  | fails {height : Nat} (interruption : Interruption) :
      Leaves yield outer machine ⟨.failed interruption, outer, machine.scope, height, machine.store⟩
  | yields {completion : Completion} {height : Nat} :
      machine.control = .done completion →
      Leaves yield outer machine ⟨ofResult (yieldOf machine.store.forest yield completion), outer, machine.scope,
        height, machine.store⟩

/-- A call goes on, or it ends. -/
theorem step_within_call (host : Host) (linked : machine.Linked) {yield : Yield} {outer : List Frame}
    (h : Above (.activation yield :: outer) machine) :
    Above (.activation yield :: outer) (step host machine) ∨ Leaves yield outer machine (step host machine) := by
  rcases h.within_or_hands host with ⟨-, within⟩ | ⟨_, scope, height, store, hands, rfl⟩
  · exact .inl within
  cases hands with
  | value value =>
      -- The frame of a call awaits a completion and is handed no value.
      obtain ⟨handed, ends, links⟩ := linked
      cases ends
      generalize awaited : Handed.value = handed at links
      cases links
      cases awaited
  | done completion => exact .inr (.yields rfl)
  | failed interruption => exact .inr (.fails interruption)

end Machine

end LoxLang
