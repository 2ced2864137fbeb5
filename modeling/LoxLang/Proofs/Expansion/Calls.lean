import LoxLang.Proofs.Expansion.Machines
import LoxLang.Proofs.Limit.Running

/-!
Expansions go on as expansions. Whatever a machine makes, methods that are bound, classes and the scopes of calls, the
other machine makes in the same order; either of them may run out of places.
-/

namespace LoxLang

open Scoping

variable {free : Prop} {layout more : Layout} {gaps : Gaps} {due next : Due}

/-! ## Later stages -/

theorem Yield.Expands.later {yield yield' : Yield} (h : yield.Expands free layout yield')
    (grows : layout.Grows more) : yield.Expands free more yield' := by
  cases h with
  | returned => exact .returned
  | receiver leads => exact .receiver (leads.later grows)
  | constructed object => exact .constructed (object.later grows)

theorem Frame.Expands.later {frame frame' : Frame}
    (h : frame.Expands free layout gaps due next frame') (grows : layout.Grows more) :
    frame.Expands free more gaps due next frame' := by
  cases h with
  | assign target => exact .assign target
  | binaryLeft right => exact .binaryLeft right
  | binaryRight left => exact .binaryRight (left.later grows)
  | callee arguments => exact .callee arguments
  | argument callee done ahead =>
      exact .argument (callee.later grows) (done.imp fun _ _ value => value.later grows) ahead
  | get => exact .get
  | grouping => exact .grouping
  | logicalLeft right => exact .logicalLeft right
  | logicalRight => exact .logicalRight
  | setObject value => exact .setObject value
  | setValue object => exact .setValue (object.later grows)
  | unary => exact .unary
  | activation yield => exact .activation (yield.later grows)
  | expression => exact .expression
  | print => exact .print
  | «return» => exact .return
  | ifCondition thenBranch calm elseBranch => exact .ifCondition thenBranch calm elseBranch
  | ifBranch => exact .ifBranch
  | whileCondition loop => exact .whileCondition loop
  | whileBody loop => exact .whileBody loop
  | whileIncrement loop => exact .whileIncrement loop
  | block rest calm => exact .block rest calm
  | var there => exact .var there
  | superclass there methods => exact .superclass there methods

theorem FramesExpand.later {scope scope' : ScopeId} {frames frames' : List Frame}
    (h : FramesExpand free layout scope scope' due frames frames') (grows : layout.Grows more) :
    FramesExpand free more scope scope' due frames frames' := by
  induction h with
  | program rest => exact .program rest
  | cons leads frame _ ih => exact .cons (leads.later grows) (frame.later grows) ih
  | brace allowed _ ih => exact .brace allowed ih
  | unrolledCondition leads loop _ ih => exact .unrolledCondition (leads.later grows) loop ih
  | unrolledBody outside inside loop _ ih =>
      exact .unrolledBody (outside.later grows) (inside.later grows) loop ih
  | unrolledIncrement outside loop _ ih => exact .unrolledIncrement (outside.later grows) loop ih

/-- The same natives and the same time; the limits may be others. -/
structure Host.Shares (host other : Host) : Prop where
  natives : other.natives = host.natives
  now : other.now = host.now

/-- An expansion does not matter to the native: it gives related answers to related arguments. -/
def Native.Indifferent (native : Native) : Prop :=
  ∀ free layout now arguments arguments', List.Forall₂ (Value.Expands free layout) arguments arguments' →
    (native.answer now arguments).Expands free layout (native.answer now arguments')

namespace Machine

/-- The other machine is an expansion, some scopes having been made meanwhile, or one of them has run out of places. -/
inductive Abreast (free : Prop) (layout : Layout) (machine other : Machine) : Prop
  | overflowed : machine.Overflowed → Abreast free layout machine other
  | overflowed' : other.Overflowed → Abreast free layout machine other
  | expands {more : Layout} : layout.Grows more → machine.Expands free more other →
      Abreast free layout machine other

theorem Expands.abreast {machine other : Machine} (h : machine.Expands free layout other) :
    Abreast free layout machine other :=
  .expands (.refl layout) h

theorem Abreast.earlier {machine other : Machine} (h : Abreast free more machine other)
    (grows : layout.Grows more) : Abreast free layout machine other := by
  cases h with
  | overflowed full => exact .overflowed full
  | overflowed' full => exact .overflowed' full
  | expands further expands => exact .expands (grows.trans further) expands

variable {scope scope' : ScopeId} {height height' : Nat} {frames frames' : List Frame}
  {store store' : Store}

theorem abreast_failed (hstore : store.Expands free layout store')
    {interruption interruption' : Interruption} (h : interruption.Expands interruption') :
    Abreast free layout ⟨.failed interruption, frames, scope, height, store⟩
      ⟨.failed interruption', frames', scope', height', store'⟩ :=
  (Expands.failed h hstore).abreast

theorem abreast_located (hstore : store.Expands free layout store') (token : Token)
    (cause : RuntimeError.Cause) :
    Abreast free layout ⟨.failed (.located token cause), frames, scope, height, store⟩
      ⟨.failed (.located token cause), frames', scope', height', store'⟩ :=
  abreast_failed hstore .error

theorem abreast_value (hframes : FramesExpand free layout scope scope' .value frames frames')
    (hstore : store.Expands free layout store') {value value' : Value}
    (h : value.Expands free layout value') :
    Abreast free layout ⟨.value value, frames, scope, height, store⟩
      ⟨.value value', frames', scope', height', store'⟩ :=
  (Expands.running (.value h) hframes hstore).abreast

theorem abreast_done {mayContinue : Bool}
    (hframes : FramesExpand free layout scope scope' (.completion mayContinue) frames frames')
    (hstore : store.Expands free layout store') {completion completion' : Completion}
    (h : completion.Expands free layout mayContinue completion') :
    Abreast free layout ⟨.done completion, frames, scope, height, store⟩
      ⟨.done completion', frames', scope', height', store'⟩ :=
  (Expands.running (.done h) hframes hstore).abreast

theorem abreast_ofResult (hframes : FramesExpand free layout scope scope' .value frames frames')
    (hstore : store.Expands free layout store') {result result' : Except Interruption Value}
    (h : ResultsExpand (Value.Expands free layout) result result') :
    Abreast free layout ⟨ofResult result, frames, scope, height, store⟩
      ⟨ofResult result', frames', scope', height', store'⟩ := by
  cases h with
  | ok value => exact abreast_value hframes hstore value
  | error interruption => exact abreast_failed hstore interruption

/-- What is computed from values alone is the same. -/
theorem abreast_plain (hframes : FramesExpand free layout scope scope' .value frames frames')
    (hstore : store.Expands free layout store') {result : Except Interruption Value}
    (plain : ∀ value, result = .ok value → value.IsPlain) :
    Abreast free layout ⟨ofResult result, frames, scope, height, store⟩
      ⟨ofResult result, frames', scope', height', store'⟩ := by
  cases result with
  | ok value => exact abreast_value hframes hstore (plain value rfl).expands
  | error interruption => exact abreast_failed hstore interruption.expands_self

section

variable (leads : layout.Leads gaps scope scope') {frame frame' : Frame}
  (hframes : FramesExpand free layout (Frame.outerScope frame scope)
    (Frame.outerScope frame' scope') next frames frames')
  (hstore : store.Expands free layout store')

include leads hframes hstore

theorem abreast_evalWithin {part part' : Expr}
    (hframe : frame.Expands free layout gaps .value next frame') (hpart : part.Expands gaps part') :
    Abreast free layout (evalWithin frame part frames scope height store)
      (evalWithin frame' part' frames' scope' height' store') :=
  (Expands.running (.eval leads hpart) (.cons leads hframe hframes) hstore).abreast

theorem abreast_execWithin {mayContinue : Bool} {part part' : Stmt}
    (hframe : frame.Expands free layout gaps (.completion mayContinue) next frame')
    (hpart : Node.Expands free gaps (.stmt part) (.stmt part')) (calm : part.continues → mayContinue) :
    Abreast free layout (execWithin frame part frames scope height store)
      (execWithin frame' part' frames' scope' height' store') :=
  (Expands.running (.exec leads hpart calm) (.cons leads hframe hframes) hstore).abreast

end

/-! ## Methods -/

theorem bind_expands (hstore : store.Expands free layout store') {method method' : Closure}
    (hmethod : method.Expands free layout [0] method') {receiver receiver' : Value}
    (hreceiver : receiver.Expands free layout receiver') :
    (bind store method receiver).1.Expands free (layout.add method.scope method'.scope) []
        (bind store' method' receiver').1 ∧
      (bind store method receiver).2.Expands free (layout.add method.scope method'.scope)
        (bind store' method' receiver').2 := by
  obtain ⟨gaps, leads, code⟩ := hmethod.code
  constructor
  · refine ⟨hstore.stamp, hmethod.isInitializer, 0 :: gaps, ?_, code⟩
    change Layout.Leads _ _ store.forest.next store'.forest.next
    rw [hstore.next, hstore.next']
    exact leads.add
  · have entries : List.Forall₂ (fun entry entry' : String × Value =>
        entry'.1 = entry.1 ∧ entry.2.Expands free layout entry'.2)
        [("this", receiver)] [("this", receiver')] := .cons ⟨rfl, hreceiver⟩ .nil
    exact (hstore.addScope method.scope method'.scope entries).takeStamps 1

theorem abreast_bindMethod (hframes : FramesExpand free layout scope scope' .value frames frames')
    (hstore : store.Expands free layout store') {kind kind' : ClassValue}
    (hkind : kind.Expands free layout kind') (name : Token) {receiver receiver' : Value}
    (hreceiver : receiver.Expands free layout receiver') (host host' : Host) (room room' : Nat) :
    Abreast free layout
      ⟨(bindMethod host room store kind name receiver).1, frames, scope, height,
        (bindMethod host room store kind name receiver).2⟩
      ⟨(bindMethod host' room' store' kind' name receiver').1, frames', scope', height',
        (bindMethod host' room' store' kind' name receiver').2⟩ := by
  have found := hkind.method? name.lexeme
  unfold bindMethod
  by_cases full : host.heightLimit < room + kind.searched name.lexeme
  · rw [if_pos full]
    exact .overflowed rfl
  by_cases full' : host'.heightLimit < room' + kind'.searched name.lexeme
  · rw [if_pos full']
    exact .overflowed' rfl
  rw [if_neg full, if_neg full']
  generalize kind.method? name.lexeme = method at found ⊢
  generalize kind'.method? name.lexeme = method' at found ⊢
  cases found with
  | none => exact abreast_located hstore name _
  | @some method method' hmethod =>
      have grows := layout.grows_add method.scope method'.scope
      obtain ⟨bound, bindStore⟩ := bind_expands hstore hmethod hreceiver
      exact (abreast_value (hframes.later grows) bindStore (.function bound)).earlier grows

/-! ## Classes -/

theorem methodTable_expands (leads : layout.Leads (0 :: gaps) scope scope')
    {methods methods' : List FunctionDecl}
    (h : List.Forall₂ (fun method method' => Node.Expands free (0 :: 0 :: gaps)
      (.function method) (.function method')) methods methods') (stamp : Nat) :
    (methodTable stamp scope methods).Varies id (Closure.Expands free layout [0])
      (methodTable stamp scope' methods') := by
  refine .ofList Function.injective_id (forall₂_mapIdx h fun index method method' code => ?_)
  have same : method'.name.lexeme = method.name.lexeme := by cases code; rfl
  refine ⟨same, rfl, ?_, gaps, leads, code⟩
  change decide (_ = _) = decide (_ = _)
  rw [same]

theorem classMade_expands (stamp : Nat) (name : Token) (leads : layout.Leads (0 :: gaps) scope scope')
    {above above' : List Layer} (habove : List.Forall₂ (Layer.Expands free layout) above above')
    {methods methods' : List FunctionDecl}
    (h : List.Forall₂ (fun method method' => Node.Expands free (0 :: 0 :: gaps)
      (.function method) (.function method')) methods methods') :
    Value.Expands free layout
      (.class ⟨⟨stamp, name.lexeme, methodTable (stamp + 1) scope methods⟩, above⟩)
      (.class ⟨⟨stamp, name.lexeme, methodTable (stamp + 1) scope' methods'⟩, above'⟩) :=
  .class ⟨.cons ⟨rfl, rfl, methodTable_expands leads h (stamp + 1)⟩ habove⟩

section

variable {mayContinue : Bool} (leads : layout.Leads (0 :: gaps) scope scope')
  (hframes : FramesExpand free layout scope scope' (.completion mayContinue) frames frames')
  (hstore : store.Expands free layout store')

include leads hframes hstore

theorem abreast_base (name : Token) {methods methods' : List FunctionDecl}
    (h : List.Forall₂ (fun method method' => Node.Expands free (0 :: 0 :: gaps)
      (.function method) (.function method')) methods methods') :
    Abreast free layout
      ⟨.done .normal, frames, scope, height, declareClass store scope name none methods⟩
      ⟨.done .normal, frames', scope', height', declareClass store' scope' name none methods'⟩ := by
  have begun := hstore.define leads.places name.lexeme .nil
  have done := (begun.takeStamps (methods.length + 1)).define leads.places name.lexeme
    (classMade_expands store.stamp name leads .nil h)
  refine abreast_done hframes ?_ .normal
  rw [declareClass_eq, declareClass_eq, ← h.length_eq]
  unfold Store.classMade Store.methodScope
  rw [hstore.stamp]
  exact done

theorem abreast_derived (name : Token) {kind kind' : ClassValue}
    (hkind : kind.Expands free layout kind') {methods methods' : List FunctionDecl}
    (h : List.Forall₂ (fun method method' => Node.Expands free (0 :: 0 :: 0 :: gaps)
      (.function method) (.function method')) methods methods') :
    Abreast free layout
      ⟨.done .normal, frames, scope, height, declareClass store scope name (some kind) methods⟩
      ⟨.done .normal, frames', scope', height',
        declareClass store' scope' name (some kind') methods'⟩ := by
  have entries : List.Forall₂ (fun entry entry' : String × Value =>
      entry'.1 = entry.1 ∧ entry.2.Expands free layout entry'.2)
      [("super", .class kind)] [("super", .class kind')] := .cons ⟨rfl, .class hkind⟩ .nil
  have grows := layout.grows_add scope scope'
  have begun := (hstore.define leads.places name.lexeme .nil).addScope scope scope' entries
  have made := classMade_expands store.stamp name leads.add (hkind.later grows).layers h
  have done := (begun.takeStamps (methods.length + 1)).define (leads.later grows).places name.lexeme made
  refine (abreast_done (hframes.later grows) ?_ .normal).earlier grows
  rw [declareClass_eq, declareClass_eq, ← h.length_eq]
  unfold Store.classMade Store.methodScope
  change Store.Expands free _ (Store.define _ scope name.lexeme
      (.class ⟨⟨store.stamp, name.lexeme, methodTable (store.stamp + 1) store.forest.next methods⟩, _⟩))
    (Store.define _ scope' name.lexeme
      (.class ⟨⟨store'.stamp, name.lexeme, methodTable (store'.stamp + 1) store'.forest.next methods'⟩, _⟩))
  rw [hstore.stamp, hstore.next, hstore.next']
  exact done

end

/-! ## Calls -/

theorem entries_expand (params : List Token) {arguments arguments' : List Value}
    (harguments : List.Forall₂ (Value.Expands free layout) arguments arguments') :
    List.Forall₂ (fun entry entry' => entry'.1 = entry.1 ∧ entry.2.Expands free layout entry'.2)
      ((params.map Token.lexeme).zip arguments) ((params.map Token.lexeme).zip arguments') := by
  induction params generalizing arguments arguments' with
  | nil => exact .nil
  | cons param params ih =>
      cases harguments with
      | nil => exact .nil
      | cons argument rest => exact .cons ⟨rfl, argument⟩ (ih rest)

theorem abreast_counted {host host' : Host} (hstore : store.Expands free layout store')
    {callee callee' : Value} {callable callable' : Callable}
    (found : Callable.ofValue? host callee = some callable)
    (found' : Callable.ofValue? host' callee' = some callable')
    (arity : callable'.arity = callable.arity) (paren : Token) {arguments arguments' : List Value}
    (count : arguments.length = arguments'.length)
    (entered : Abreast free layout (enter host callable arguments frames scope height store)
      (enter host' callable' arguments' frames' scope' height' store')) :
    Abreast free layout (call host callee paren arguments frames scope height store)
      (call host' callee' paren arguments' frames' scope' height' store') := by
  unfold call
  rw [found, found']
  dsimp only
  by_cases full : callable.exceeds host height = true
  · rw [if_pos full]
    exact .overflowed rfl
  by_cases full' : callable'.exceeds host' height' = true
  · rw [if_pos full']
    exact .overflowed' rfl
  rw [if_neg full, if_neg full', arity, count]
  split
  · exact entered
  · exact abreast_located hstore paren _

section

variable (leads : layout.Leads gaps scope scope')
  (hframes : FramesExpand free layout scope scope' .value frames frames')

include leads hframes

theorem abreast_activate (hstore : store.Expands free layout store') {closure closure' : Closure}
    (hclosure : closure.Expands free layout [] closure') {arguments arguments' : List Value}
    (harguments : List.Forall₂ (Value.Expands free layout) arguments arguments')
    {yield yield' : Yield} (hyield : yield.Expands free layout yield') :
    Abreast free layout (activate closure arguments yield frames scope height store)
      (activate closure' arguments' yield' frames' scope' height' store') := by
  obtain ⟨around, start, code⟩ := hclosure.code
  obtain ⟨stamp, declaration, home, isInitializer⟩ := closure
  obtain ⟨stamp', declaration', home', isInitializer'⟩ := closure'
  dsimp only at start code
  cases code with
  | @declaration _ name params body body' hbody =>
      have grows := layout.grows_add home home'
      have made := hstore.addScope home home' (entries_expand params harguments)
      have inner : FramesExpand free (layout.add home home') layout.kept.length layout.links.length
          (.completion true) (.block body scope :: .activation yield :: frames)
          (.block body' scope' :: .activation yield' :: frames') := .cons start.add (.block hbody fun _ => rfl)
        (.cons (leads.later grows) (.activation (hyield.later grows)) (hframes.later grows))
      rw [← hstore.next, ← hstore.next'] at inner
      exact .expands grows (.running (.done .normal) inner made)

theorem abreast_construct (hstore : store.Expands free layout store') {kind kind' : ClassValue}
    (hkind : kind.Expands free layout kind') {arguments arguments' : List Value}
    (harguments : List.Forall₂ (Value.Expands free layout) arguments arguments') :
    Abreast free layout (construct kind arguments frames scope height store)
      (construct kind' arguments' frames' scope' height' store') := by
  have object : Instance.Expands free layout ⟨store.fields.size, kind⟩ ⟨store'.fields.size, kind'⟩ :=
    ⟨hstore.size, hkind⟩
  have added := hstore.addInstance
  have found := hkind.method? "init"
  unfold construct
  generalize kind.method? "init" = method at found ⊢
  generalize kind'.method? "init" = method' at found ⊢
  cases found with
  | none => exact abreast_value hframes added (.instance object)
  | @some initializer initializer' hmethod =>
      have grows := layout.grows_add initializer.scope initializer'.scope
      obtain ⟨bound, bindStore⟩ := bind_expands added hmethod (.instance object)
      exact (abreast_activate (leads.later grows) (hframes.later grows) bindStore bound
        (harguments.imp fun _ _ value => value.later grows)
        (.constructed (object.later grows))).earlier grows

variable {host host' : Host} (hstore : store.Expands free layout store')
  (shares : host.Shares host') (indifferent : ∀ native ∈ host.natives, native.Indifferent)

include hstore shares indifferent

theorem abreast_call {callee callee' : Value} (hcallee : callee.Expands free layout callee')
    (paren : Token) {arguments arguments' : List Value}
    (harguments : List.Forall₂ (Value.Expands free layout) arguments arguments') :
    Abreast free layout (call host callee paren arguments frames scope height store)
      (call host' callee' paren arguments' frames' scope' height' store') := by
  have count := harguments.length_eq
  have failed : Abreast free layout
      ⟨.failed (.located paren .notCallable), frames, scope, height, store⟩
      ⟨.failed (.located paren .notCallable), frames', scope', height', store'⟩ :=
    abreast_located hstore paren _
  cases hcallee with
  | nil | bool | number | text | «instance» _ => exact failed
  | @function closure closure' hclosure =>
      have arity : (Callable.function closure').arity = (Callable.function closure).arity :=
        hclosure.arity
      refine abreast_counted hstore rfl rfl arity paren count
        (abreast_activate leads hframes hstore hclosure harguments ?_)
      unfold functionYield
      rw [hclosure.isInitializer]
      obtain ⟨around, start, -⟩ := hclosure.code
      split
      · exact .receiver start
      · exact .returned
  | @«class» kind kind' hkind =>
      have arity : (Callable.class kind').arity = (Callable.class kind).arity := hkind.arity
      exact abreast_counted hstore rfl rfl arity paren count
        (abreast_construct leads hframes hstore hkind harguments)
  | @native index =>
      have same := ofValue?_congr shares.natives (.native index)
      cases known : Callable.ofValue? host (.native index) with
      | none =>
          unfold call
          rw [same, known]
          exact failed
      | some callable =>
          obtain ⟨native, found, rfl⟩ := exists_of_ofValue?_native known
          refine abreast_counted hstore known (same.trans known) rfl paren count ?_
          rw [enter, enter, shares.now]
          exact abreast_value hframes hstore
            (indifferent native (Array.mem_of_getElem? found) free layout host.now arguments
              arguments' harguments)

theorem abreast_callWith {callee callee' : Value} (hcallee : callee.Expands free layout callee')
    (paren : Token) {done done' : List Value}
    (hdone : List.Forall₂ (Value.Expands free layout) done done') {ahead ahead' : List Expr}
    (hahead : List.Forall₂ (Expr.Expands gaps) ahead ahead') :
    Abreast free layout (callWith host callee paren done ahead frames scope height store)
      (callWith host' callee' paren done' ahead' frames' scope' height' store') := by
  cases hahead with
  | nil =>
      exact abreast_call leads hframes hstore shares indifferent hcallee paren (List.rel_reverse hdone)
  | cons first rest => exact abreast_evalWithin leads hframes hstore (.argument hcallee hdone rest) first

end

end Machine

end LoxLang
