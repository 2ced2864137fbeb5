import Mathlib.Logic.Relation
import LoxLang.Proofs.Machine.Confinement

/-!
A call touches only what it can reach. Reachable are the global scope, the callee and the arguments, and what these
lead to; whatever else there was before the call is the same while it runs and when it is over.
-/

namespace LoxLang

open Relation

/-! ## Reachability -/

/-- What one thing in a store can lead to. -/
inductive Item where
  | scope (id : ScopeId)
  | value (value : Value)

/-- The functions that a value holds: itself, or the methods of a class and of the classes above it. -/
inductive Value.Includes : Value → Closure → Prop
  | function {closure : Closure} : Includes (.function closure) closure
  | method {kind : ClassValue} {layer : Layer} {name : String} {method : Closure} :
      layer ∈ kind.layers → layer.methods.get? name = some method → Includes (.class kind) method

namespace Store

/-- A scope leads to the one around it and to the values in it; a value to the scopes of its functions, and an instance to
its class and to the values of its fields. -/
inductive Leads (store : Store) : Item → Item → Prop
  | enclosing {id outer : ScopeId} :
      store.forest.enclosing? id = some outer → Leads store (.scope id) (.scope outer)
  | held {id : ScopeId} {name : String} {value : Value} :
      (store.forest.bindings id).get? name = some value → Leads store (.scope id) (.value value)
  | closure {value : Value} {closure : Closure} :
      value.Includes closure → Leads store (.value value) (.scope closure.scope)
  | kind {object : Instance} :
      Leads store (.value (.instance object)) (.value (.class object.kind))
  | field {object : Instance} {name : String} {value : Value} :
      store.field? object.index name = some value →
      Leads store (.value (.instance object)) (.value value)

/-- Where a call with some values begins. -/
inductive Root (values : List Value) : Item → Prop
  | globals : Root values (.scope Forest.globals)
  | value {value : Value} : value ∈ values → Root values (.value value)

def Reaches (store : Store) (values : List Value) (item : Item) : Prop :=
  ∃ root, Root values root ∧ ReflTransGen store.Leads root item

/-- A scope lies around another one, or is the same. -/
def Surrounds (store : Store) (outer id : ScopeId) : Prop :=
  ReflTransGen (fun id outer => store.forest.enclosing? id = some outer) id outer

variable {store : Store} {values : List Value} {item next : Item} {id : ScopeId}

theorem Reaches.leads (h : store.Reaches values item) (leads : store.Leads item next) :
    store.Reaches values next := by
  obtain ⟨root, begins, path⟩ := h
  exact ⟨root, begins, path.tail leads⟩

/-- A scope that is reached lies around the global one or around a function that is reached. -/
theorem Reaches.captured (h : store.Reaches values (.scope id)) :
    store.Surrounds id Forest.globals ∨
      ∃ value closure, store.Reaches values (.value value) ∧ value.Includes closure ∧
        store.Surrounds id closure.scope := by
  obtain ⟨root, begins, path⟩ := h
  have all : ∀ item, ReflTransGen store.Leads root item → ∀ id, item = .scope id →
      store.Surrounds id Forest.globals ∨
        ∃ value closure, store.Reaches values (.value value) ∧ value.Includes closure ∧
          store.Surrounds id closure.scope := by
    intro item path
    induction path with
    | refl =>
        rintro id rfl
        cases begins with
        | globals => exact .inl .refl
    | @tail before item path leads ih =>
        rintro id rfl
        cases leads with
        | enclosing link =>
            rcases ih _ rfl with outside | ⟨value, closure, reached, includes, around⟩
            · exact .inl (outside.tail link)
            · exact .inr ⟨value, closure, reached, includes, around.tail link⟩
        | closure includes => exact .inr ⟨_, _, ⟨root, begins, path⟩, includes, .refl⟩
  exact all _ path id rfl

/-- What holds of the roots and is handed on holds of all that is reached. -/
theorem Reaches.keeps {p : Item → Prop} (roots : ∀ item, Root values item → p item)
    (closed : ∀ item next, p item → store.Leads item next → p next)
    (h : store.Reaches values item) : p item := by
  obtain ⟨root, begins, path⟩ := h
  induction path with
  | refl => exact roots root begins
  | tail _ leads ih => exact closed _ _ ih leads

/-! ## The area of a call -/

/-- What a call with some values can reach, and what is made later. -/
def areaOf (store : Store) (values : List Value) : Area where
  scopes id := store.Reaches values (.scope id) ∨ store.forest.next ≤ id
  instances index :=
    (∃ object, object.index = index ∧ store.Reaches values (.value (.instance object))) ∨
      store.fields.size ≤ index

theorem liesIn_areaOf {value : Value} (h : store.Reaches values (.value value)) :
    value.LiesIn (store.areaOf values) := by
  have kindLiesIn {kind : ClassValue} (h : store.Reaches values (.value (.class kind))) :
      kind.LiesIn (store.areaOf values) :=
    fun layer member name method found => .inl (h.leads (.closure (.method member found)))
  cases value with
  | function closure => exact .inl (h.leads (.closure .function))
  | «class» kind => exact kindLiesIn h
  | «instance» object => exact ⟨.inl ⟨object, rfl, h⟩, kindLiesIn (h.leads .kind)⟩
  | nil | bool _ | number _ | text _ | native _ => trivial

theorem closed_areaOf (store : Store) (values : List Value) :
    store.Closed (store.areaOf values) where
  globals := .inl ⟨_, .globals, .refl⟩
  newScopes := fun _ => .inr
  newInstances := fun _ => .inr
  enclosing := by
    intro id outer member link
    rcases member with reached | new
    · exact .inl (reached.leads (.enclosing link))
    · exact absurd (Forest.lt_next_of_enclosing? link) (Nat.not_lt.mpr new)
  values := by
    intro id name value member held
    rcases member with reached | new
    · exact liesIn_areaOf (reached.leads (.held held))
    · exact absurd (Forest.lt_next_of_get? held) (Nat.not_lt.mpr new)
  fields := by
    intro index name value member held
    rcases member with ⟨object, rfl, reached⟩ | new
    · exact liesIn_areaOf (reached.leads (.field held))
    · rw [field?, Array.getElem?_eq_none new] at held
      cases held

end Store

namespace Machine

/-- The machines that come up while a call that is next runs, and the one at its end. Time may pass between any two
steps. -/
inductive Calling (natives : Array Native) (limit : Nat) (machine : Machine) : Machine → Prop
  | enter (now : Float) : Calling natives limit machine (machine.step ⟨natives, limit, now⟩)
  | step {later : Machine} (now : Float) :
      Calling natives limit machine later → machine.frames.tail.length < later.frames.length →
      Calling natives limit machine (later.step ⟨natives, limit, now⟩)

variable {natives : Array Native} {limit : Nat} {machine later : Machine} {callee : Value}
  {arguments : List Value}

theorem confined_enter {host : Host} (honest : ∀ native ∈ host.natives, native.Confined)
    (calls : machine.call? = some (callee, arguments)) :
    (machine.step host).Confined (machine.store.areaOf (callee :: arguments)) machine.store
      machine.frames.tail := by
  obtain ⟨control, frames, scope, height, store⟩ := machine
  let area := store.areaOf (callee :: arguments)
  have unchanged : store.Confined area store := ⟨store.closed_areaOf _, .refl _ _⟩
  have given (value : Value) (member : value ∈ callee :: arguments) : value.LiesIn area :=
    Store.liesIn_areaOf ⟨_, .value member, .refl⟩
  have entered (paren : Token) (frames : List Frame) (height : Nat) :
      (call host callee paren arguments ([] ++ frames) scope height store).Confined area store
        frames :=
    confined_call honest unchanged .outside (given callee List.mem_cons_self) paren
      fun argument member => given argument (List.mem_cons_of_mem _ member)
  unfold call? at calls
  split at calls
  · next same =>
    cases same
    cases calls
    exact entered _ _ _
  · next same =>
    cases same
    cases calls
    exact entered _ _ _
  · cases calls

theorem Calling.confined (honest : ∀ native ∈ natives, native.Confined)
    (calls : machine.call? = some (callee, arguments)) (during : machine.Calling natives limit later) :
    later.Confined (machine.store.areaOf (callee :: arguments)) machine.store
      machine.frames.tail := by
  induction during with
  | enter now => exact confined_enter honest calls
  | step now _ runs ih => exact confined_step honest ih runs

/-- While a call runs, and when it has returned or has failed, the scopes and the instances that were there before
and that it cannot reach are as they were. So is every scope that was not captured: one that lies neither
around the global scope nor around the scope of a function that the call can reach. -/
theorem call_separates (honest : ∀ native ∈ natives, native.Confined)
    (calls : machine.call? = some (callee, arguments))
    (during : machine.Calling natives limit later) :
    (∀ id < machine.store.forest.next,
      ¬ machine.store.Reaches (callee :: arguments) (.scope id) →
      later.store.forest.bindings id = machine.store.forest.bindings id) ∧
    (∀ index < machine.store.fields.size,
      (∀ object, object.index = index →
        ¬ machine.store.Reaches (callee :: arguments) (.value (.instance object))) →
      later.store.fields[index]? = machine.store.fields[index]?) ∧
    ∀ id < machine.store.forest.next, ¬ machine.store.Surrounds id Forest.globals →
      (∀ value closure, machine.store.Reaches (callee :: arguments) (.value value) →
        value.Includes closure → ¬ machine.store.Surrounds id closure.scope) →
      later.store.forest.bindings id = machine.store.forest.bindings id := by
  have spares := (during.confined honest calls).store.spares
  have apart (id : ScopeId) (old : id < machine.store.forest.next)
      (unreached : ¬ machine.store.Reaches (callee :: arguments) (.scope id)) :
      later.store.forest.bindings id = machine.store.forest.bindings id :=
    spares.bindings id fun inside => inside.elim unreached (Nat.not_le.mpr old)
  refine ⟨apart, fun index old unreached => ?_, fun id old outside free => apart id old ?_⟩
  · refine spares.fields index fun inside => ?_
    rcases inside with ⟨object, same, reached⟩ | new
    · exact unreached object same reached
    · exact Nat.not_le.mpr old new
  · intro reached
    rcases reached.captured with around | ⟨value, closure, reached, includes, around⟩
    · exact outside around
    · exact free value closure reached includes around

/-- A global function that declares the name of a local of its caller. -/
def shadowing : Closure :=
  ⟨0, ⟨⟨.identifier, "f", .none, 1⟩, [],
    [.var ⟨.identifier, "a", .none, 1⟩ (some (.literal (.text "inside")))]⟩, Forest.globals, false⟩

/-- That function is about to be called from a scope with a local name. -/
def shadowingCall : Machine where
  control := .value (.function shadowing)
  frames := [.callee ⟨.rightParen, ")", .none, 1⟩ [], .block [] Forest.globals]
  scope := 1
  height := 4
  store :=
    ⟨⟨#[⟨.ofList [("f", .function shadowing)], none⟩,
      ⟨.ofList [("a", .text "outside")], some Forest.globals⟩]⟩, #[], 1, #[]⟩

/-- The machine once the function has returned. -/
def shadowingEnd : Machine :=
  .advance ⟨#[], 40, 0⟩ 7 shadowingCall

theorem call_separates_shadowing :
    shadowingEnd.frames.length = 1 ∧ shadowingEnd.store.forest.next = 3 ∧
      (shadowingEnd.store.forest.bindings 1).get? "a" =
        (shadowingCall.store.forest.bindings 1).get? "a" := by
  have during : shadowingCall.Calling #[] 40 shadowingEnd :=
    .step 0 (.step 0 (.step 0 (.step 0 (.step 0 (.step 0 (.enter 0) (by decide)) (by decide))
      (by decide)) (by decide)) (by decide)) (by decide)
  have honest : ∀ native ∈ (#[] : Array Native), native.Confined := by simp
  obtain ⟨apart, -, -⟩ := call_separates honest rfl during
  -- Only the global scope and the function are reached.
  have unreached : ¬ shadowingCall.store.Reaches [.function shadowing] (.scope 1) := by
    intro reached
    have known : Item.scope 1 = .scope Forest.globals ∨
        Item.scope 1 = .value (.function shadowing) := by
      refine reached.keeps
        (p := fun item => item = .scope Forest.globals ∨ item = .value (.function shadowing)) ?_ ?_
      · rintro item (_ | member)
        · exact .inl rfl
        · exact .inr (congrArg _ (List.mem_singleton.mp member))
      · rintro item next (rfl | rfl) leads
        · cases leads with
          | enclosing link => cases link
          | @held _ name _ found =>
              by_cases same : name = "f"
              · subst same
                cases found
                exact .inr rfl
              · rw [shadowingCall, Forest.globals] at found
                simp [Forest.bindings, Bindings.ofList, same] at found
        · cases leads with
          | closure includes =>
              cases includes
              exact .inl rfl
    rcases known with same | same <;> cases same
  rw [apart 1 (by decide) unreached]
  exact ⟨by decide, by decide, rfl⟩

end Machine

end LoxLang
