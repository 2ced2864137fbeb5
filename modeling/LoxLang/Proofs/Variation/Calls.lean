import LoxLang.Proofs.Machine.Events
import LoxLang.Proofs.Variation.Machines

/-!
Variations go on as variations. Whatever a machine makes, methods that are bound, classes and the scopes of calls, the
other machine makes in the same order.
-/

namespace LoxLang

open Scoping

variable {r : Respelling} {outline more : Outline} {before : Array String} {tail : List Stmt}
  {levels : Levels} {awaited next : Awaited}

theorem Outline.Leads.spelling {scope : ScopeId} (leads : outline.Leads scope levels)
    {name name' : Token} (named : r.named (levels.headD false) name name') :
    name'.lexeme = r.spell (outline.level scope) name.lexeme := by
  rw [leads.level_eq]
  exact Respelling.lexeme_of_named named

/-! ## Later stages -/

theorem Yield.Varies.later {yield yield' : Yield} (h : yield.Varies r outline yield')
    (subset : outline <+: more) : yield.Varies r more yield' := by
  cases h with
  | returned => exact .returned
  | receiver leads => exact .receiver (leads.later subset)
  | constructed object => exact .constructed (object.later subset)

theorem Frame.Varies.later {frame frame' : Frame}
    (h : frame.Varies r outline levels awaited next frame') (subset : outline <+: more) :
    frame.Varies r more levels awaited next frame' := by
  cases h with
  | assign target => exact .assign target
  | binaryLeft operator right => exact .binaryLeft operator right
  | binaryRight left operator => exact .binaryRight (left.later subset) operator
  | callee paren arguments => exact .callee paren arguments
  | argument callee paren done ahead =>
      exact .argument (callee.later subset) paren (done.imp fun _ _ value => value.later subset)
        ahead
  | get name => exact .get name
  | grouping => exact .grouping
  | logicalLeft operator right => exact .logicalLeft operator right
  | logicalRight => exact .logicalRight
  | setObject name value => exact .setObject name value
  | setValue object name => exact .setValue (object.later subset) name
  | unary operator => exact .unary operator
  | activation yield => exact .activation (yield.later subset)
  | expression => exact .expression
  | print => exact .print
  | «return» => exact .return
  | var name => exact .var name
  | ifCondition thenBranch elseBranch => exact .ifCondition thenBranch elseBranch
  | ifBranch => exact .ifBranch
  | whileCondition loop => exact .whileCondition loop
  | whileBody loop => exact .whileBody loop
  | whileIncrement loop => exact .whileIncrement loop
  | block rest => exact .block rest
  | superclass name token methods => exact .superclass name token methods

theorem FramesVary.later {scope : ScopeId} {height : Nat} {frames frames' : List Frame}
    (h : FramesVary r outline tail scope awaited height frames frames')
    (subset : outline <+: more) : FramesVary r more tail scope awaited height frames frames' := by
  induction h with
  | nil => exact .nil
  | program rest => exact .program rest
  | cons leads frame _ ih => exact .cons (leads.later subset) (frame.later subset) ih

theorem FramesVary.leads {scope : ScopeId} {height : Nat} {frames frames' : List Frame}
    (h : FramesVary r outline tail scope awaited height frames frames')
    (root : outline[Forest.globals]? = some (none, false)) :
    ∃ levels, outline.Leads scope levels := by
  cases h with
  | nil | program _ => exact ⟨[false], .root root⟩
  | cons leads _ _ => exact ⟨_, leads⟩

theorem Frame.Varies.height {frame frame' : Frame}
    (h : frame.Varies r outline levels awaited next frame') : frame'.height = frame.height := by
  cases h with
  | activation yield => cases yield <;> rfl
  | _ => rfl

theorem Frame.Varies.outerScope {frame frame' : Frame}
    (h : frame.Varies r outline levels awaited next frame') (scope : ScopeId) :
    Machine.Frame.outerScope frame' scope = Machine.Frame.outerScope frame scope := by
  cases h <;> rfl

/-- The same natives and the same limit; only the time may be another. -/
structure Host.Agrees (host other : Host) : Prop where
  natives : other.natives = host.natives
  heightLimit : other.heightLimit = host.heightLimit

/-- At both times the native gives related answers to related arguments. -/
def Native.AnswersVary (native : Native) (r : Respelling) (outline : Outline) (now now' : Float) :
    Prop :=
  ∀ arguments arguments', List.Forall₂ (Value.Varies r outline) arguments arguments' →
    (native.answer now arguments).Varies r outline (native.answer now' arguments')

namespace Machine

/-- The machines vary, some scopes having been made since the outline was. -/
def Follow (r : Respelling) (outline : Outline) (before : Array String) (tail : List Stmt)
    (machine other : Machine) : Prop :=
  ∃ more, outline <+: more ∧ machine.Varies r more before tail other

variable {scope : ScopeId} {height : Nat} {frames frames' : List Frame} {store store' : Store}

theorem Varies.follow {machine other : Machine} (h : machine.Varies r outline before tail other) :
    Follow r outline before tail machine other :=
  ⟨outline, List.prefix_rfl, h⟩

theorem Follow.earlier {machine other : Machine} (h : Follow r more before tail machine other)
    (subset : outline <+: more) : Follow r outline before tail machine other := by
  obtain ⟨most, further, varies⟩ := h
  exact ⟨most, subset.trans further, varies⟩

section

variable (leads : outline.Leads scope levels)

include leads

theorem follow_control
    (hframes : FramesVary r outline tail scope awaited height frames frames')
    (hstore : store.Varies r outline before store') {control control' : Control}
    (h : control.Varies r outline levels awaited control') :
    Follow r outline before tail ⟨control, frames, scope, height, store⟩
      ⟨control', frames', scope, height, store'⟩ :=
  Varies.follow ⟨⟨levels, awaited, leads, h, hframes⟩, rfl, rfl, hstore⟩

theorem follow_within {frame frame' : Frame}
    (hframes : FramesVary r outline tail (Frame.outerScope frame scope) next height frames frames')
    (hstore : store.Varies r outline before store') {control control' : Control}
    (hframe : frame.Varies r outline levels awaited next frame')
    (h : control.Varies r outline levels awaited control') :
    Follow r outline before tail
      ⟨control, frame :: frames, scope, height + frame.height, store⟩
      ⟨control', frame' :: frames', scope, height + frame'.height, store'⟩ := by
  refine Varies.follow ⟨⟨levels, awaited, leads, h, .cons leads hframe hframes⟩, rfl, ?_, hstore⟩
  change height + frame'.height = height + frame.height
  rw [hframe.height]

theorem follow_evalWithin {frame frame' : Frame}
    (hframes : FramesVary r outline tail (Frame.outerScope frame scope) next height frames frames')
    (hstore : store.Varies r outline before store') {part part' : Expr}
    (hframe : frame.Varies r outline levels .value next frame')
    (hpart : part.Varies r.variation levels part') :
    Follow r outline before tail (evalWithin frame part frames scope height store)
      (evalWithin frame' part' frames' scope height store') :=
  follow_within leads hframes hstore hframe (.eval hpart)

theorem follow_execWithin {frame frame' : Frame}
    (hframes : FramesVary r outline tail (Frame.outerScope frame scope) next height frames frames')
    (hstore : store.Varies r outline before store') {part part' : Stmt}
    (hframe : frame.Varies r outline levels .completion next frame')
    (hpart : Node.Varies r.variation levels (.stmt part) (.stmt part')) :
    Follow r outline before tail (execWithin frame part frames scope height store)
      (execWithin frame' part' frames' scope height store') :=
  follow_within leads hframes hstore hframe (.exec hpart)

theorem follow_failed (hframes : FramesVary r outline tail scope awaited height frames frames')
    (hstore : store.Varies r outline before store')
    {interruption interruption' : Interruption} (h : interruption.Varies r interruption') :
    Follow r outline before tail ⟨.failed interruption, frames, scope, height, store⟩
      ⟨.failed interruption', frames', scope, height, store'⟩ :=
  follow_control leads hframes hstore (.failed h)

theorem follow_value (hframes : FramesVary r outline tail scope .value height frames frames')
    (hstore : store.Varies r outline before store') {value value' : Value}
    (h : value.Varies r outline value') :
    Follow r outline before tail ⟨.value value, frames, scope, height, store⟩
      ⟨.value value', frames', scope, height, store'⟩ :=
  follow_control leads hframes hstore (.value h)

theorem follow_normal (hframes : FramesVary r outline tail scope .completion height frames frames')
    (hstore : store.Varies r outline before store') :
    Follow r outline before tail ⟨.done .normal, frames, scope, height, store⟩
      ⟨.done .normal, frames', scope, height, store'⟩ :=
  follow_control leads hframes hstore (.done .normal)

theorem follow_ofResult (hframes : FramesVary r outline tail scope .value height frames frames')
    (hstore : store.Varies r outline before store') {result result' : Except Interruption Value}
    (h : ResultsVary r (Value.Varies r outline) result result') :
    Follow r outline before tail ⟨ofResult result, frames, scope, height, store⟩
      ⟨ofResult result', frames', scope, height, store'⟩ := by
  cases h with
  | ok value => exact follow_value leads hframes hstore value
  | error interruption => exact follow_failed leads hframes hstore interruption

end

/-! ## Methods -/

theorem bind_varies (hstore : store.Varies r outline before store') {method method' : Closure}
    (hmethod : method.Varies r outline [false] method') {receiver receiver' : Value}
    (hreceiver : receiver.Varies r outline receiver') :
    (bind store method receiver).1.Varies r (outline ++ [(some method.scope, false)]) []
        (bind store' method' receiver').1 ∧
      (bind store method receiver).2.Varies r (outline ++ [(some method.scope, false)]) before
        (bind store' method' receiver').2 := by
  obtain ⟨levels, leads, code⟩ := hmethod.code
  constructor
  · refine ⟨hstore.stamp, hstore.next'.trans hstore.next.symm, hmethod.isInitializer,
      false :: levels, ?_, code⟩
    change Outline.Leads _ store.forest.next _
    rw [hstore.next]
    exact Outline.leads_push leads false
  · change Store.Varies r _ before _ ((store'.addScope method'.scope _).takeStamps 1)
    rw [hmethod.scope]
    have entries : List.Forall₂ (fun entry entry' : String × Value =>
        entry'.1 = r.spell false entry.1 ∧ entry.2.Varies r outline entry'.2)
        [("this", receiver)] [("this", receiver')] := .cons ⟨rfl, hreceiver⟩ .nil
    exact (hstore.addScope method.scope false entries).takeStamps 1

theorem bindMethod_follow (leads : outline.Leads scope levels)
    (hframes : FramesVary r outline tail scope .value height frames frames')
    (hstore : store.Varies r outline before store') {kind kind' : ClassValue}
    (hkind : kind.Varies r outline kind') {name name' : Token} (hname : r.plain name name')
    {receiver receiver' : Value} (hreceiver : receiver.Varies r outline receiver')
    {host host' : Host} (agree : host.Agrees host') (room : Nat) :
    Follow r outline before tail
      ⟨(bindMethod host room store kind name receiver).1, frames, scope, height,
        (bindMethod host room store kind name receiver).2⟩
      ⟨(bindMethod host' room store' kind' name' receiver').1, frames', scope, height,
        (bindMethod host' room store' kind' name' receiver').2⟩ := by
  have found := hkind.method? name.lexeme
  unfold bindMethod
  rw [hkind.searched, r.lexeme hname, agree.heightLimit]
  split
  · exact follow_failed leads hframes hstore .stackOverflow
  · generalize kind.method? name.lexeme = method at found ⊢
    generalize kind'.method? name.lexeme = method' at found ⊢
    cases found with
    | none =>
        exact follow_failed leads hframes hstore (.located (Respelling.named_of_plain hname))
    | @some method method' hmethod =>
        have subset : outline <+: outline ++ [(some method.scope, false)] :=
          List.prefix_append _ _
        obtain ⟨bound, bindStore⟩ := bind_varies hstore hmethod hreceiver
        exact (follow_value (leads.later subset) (hframes.later subset) bindStore
          (.function bound)).earlier subset

/-! ## Classes -/

theorem forall₂_mapIdx {α β γ δ : Type} {p : α → β → Prop} {q : γ → δ → Prop} {items : List α}
    {items' : List β} (h : List.Forall₂ p items items') {f : Nat → α → γ} {g : Nat → β → δ}
    (each : ∀ index item item', p item item' → q (f index item) (g index item')) :
    List.Forall₂ q (items.mapIdx f) (items'.mapIdx g) := by
  induction h generalizing f g with
  | nil => exact .nil
  | cons head _ ih =>
      rw [List.mapIdx_cons, List.mapIdx_cons]
      exact .cons (each 0 _ _ head) (ih fun index => each (index + 1))

theorem methodTable_varies (leads : outline.Leads scope levels) {methods methods' : List FunctionDecl}
    (h : List.Forall₂ (fun method method' => Node.Varies r.variation (false :: levels)
      (.function method) (.function method')) methods methods') (stamp : Nat) :
    (methodTable stamp scope methods).Varies id (Closure.Varies r outline [false])
      (methodTable stamp scope methods') := by
  have entry (method method' : FunctionDecl) (index : Nat)
      (code : Node.Varies r.variation (false :: levels) (.function method) (.function method')) :
      method'.name.lexeme = method.name.lexeme ∧ Closure.Varies r outline [false]
        ⟨stamp + index, method, scope, method.name.lexeme = "init"⟩
        ⟨stamp + index, method', scope, method'.name.lexeme = "init"⟩ := by
    have same : method'.name.lexeme = method.name.lexeme := by
      cases code with
      | declaration name _ _ => exact r.lexeme name
    refine ⟨same, rfl, rfl, ?_, levels, leads, code⟩
    change decide (_ = _) = decide (_ = _)
    rw [same]
  exact .ofList Function.injective_id (forall₂_mapIdx h fun index method method' code =>
    entry method method' index code)

theorem classMade_varies (stamp : Nat) (leads : outline.Leads scope levels) {name name' : Token}
    (hname : r.plain name name') {above above' : List Layer}
    (habove : List.Forall₂ (Layer.Varies r outline) above above')
    {methods methods' : List FunctionDecl}
    (h : List.Forall₂ (fun method method' => Node.Varies r.variation (false :: levels)
      (.function method) (.function method')) methods methods') :
    Value.Varies r outline
      (.class ⟨⟨stamp, name.lexeme, methodTable (stamp + 1) scope methods⟩, above⟩)
      (.class ⟨⟨stamp, name'.lexeme, methodTable (stamp + 1) scope methods'⟩, above'⟩) :=
  .class ⟨.cons ⟨rfl, r.lexeme hname, methodTable_varies leads h (stamp + 1)⟩ habove⟩

theorem follow_base (leads : outline.Leads scope levels)
    (hframes : FramesVary r outline tail scope .completion height frames frames')
    (hstore : store.Varies r outline before store') {name name' : Token}
    (hname : name.Kept r.variation levels name') {methods methods' : List FunctionDecl}
    (h : List.Forall₂ (fun method method' => Node.Varies r.variation (false :: levels)
      (.function method) (.function method')) methods methods') :
    Follow r outline before tail
      ⟨.done .normal, frames, scope, height, declareClass store scope name none methods⟩
      ⟨.done .normal, frames', scope, height, declareClass store' scope name' none methods'⟩ := by
  have spelling := leads.spelling hname.named
  have begun := hstore.define scope spelling .nil
  have done := (begun.takeStamps (methods.length + 1)).define scope spelling
    (classMade_varies store.stamp leads hname.plain .nil h)
  refine follow_normal leads hframes ?_
  rw [declareClass_eq, declareClass_eq, ← h.length_eq]
  unfold Store.classMade Store.methodScope
  rw [hstore.stamp]
  exact done

theorem follow_derived (leads : outline.Leads scope levels)
    (hframes : FramesVary r outline tail scope .completion height frames frames')
    (hstore : store.Varies r outline before store') {name name' : Token}
    (hname : name.Kept r.variation levels name') {kind kind' : ClassValue}
    (hkind : kind.Varies r outline kind') {methods methods' : List FunctionDecl}
    (h : List.Forall₂ (fun method method' => Node.Varies r.variation (false :: false :: levels)
      (.function method) (.function method')) methods methods') :
    Follow r outline before tail
      ⟨.done .normal, frames, scope, height, declareClass store scope name (some kind) methods⟩
      ⟨.done .normal, frames', scope, height,
        declareClass store' scope name' (some kind') methods'⟩ := by
  have entries : List.Forall₂ (fun entry entry' : String × Value =>
      entry'.1 = r.spell false entry.1 ∧ entry.2.Varies r outline entry'.2)
      [("super", .class kind)] [("super", .class kind')] := .cons ⟨rfl, .class hkind⟩ .nil
  have subset : outline <+: outline ++ [(some scope, false)] := List.prefix_append _ _
  have begun := (hstore.define scope (leads.spelling hname.named) .nil).addScope scope false entries
  have inner := Outline.leads_push leads false
  have made := classMade_varies store.stamp inner hname.plain
    (hkind.later subset).layers h
  have done := (begun.takeStamps (methods.length + 1)).define scope
    ((leads.later subset).spelling hname.named) made
  refine (follow_normal (leads.later subset) (hframes.later subset) ?_).earlier subset
  rw [declareClass_eq, declareClass_eq, ← h.length_eq]
  unfold Store.classMade Store.methodScope
  change Store.Varies r _ before _ (Store.define _ scope name'.lexeme
    (.class ⟨⟨store'.stamp, name'.lexeme, methodTable (store'.stamp + 1) store'.forest.next methods'⟩, _⟩))
  rw [hstore.stamp, hstore.next, hstore.next']
  exact done

/-! ## Calls -/

theorem entries_varies {level : Bool} {params params' : List Token}
    (hparams : List.Forall₂ (r.named level) params params') {arguments arguments' : List Value}
    (harguments : List.Forall₂ (Value.Varies r outline) arguments arguments') :
    List.Forall₂ (fun entry entry' => entry'.1 = r.spell level entry.1 ∧
        entry.2.Varies r outline entry'.2)
      ((params.map Token.lexeme).zip arguments) ((params'.map Token.lexeme).zip arguments') := by
  induction hparams generalizing arguments arguments' with
  | nil => exact .nil
  | cons param _ ih =>
      cases harguments with
      | nil => exact .nil
      | cons argument rest => exact .cons ⟨Respelling.lexeme_of_named param, argument⟩ (ih rest)

theorem follow_activate (leads : outline.Leads scope levels)
    (hframes : FramesVary r outline tail scope .value height frames frames')
    (hstore : store.Varies r outline before store') {closure closure' : Closure}
    (hclosure : closure.Varies r outline [] closure') {arguments arguments' : List Value}
    (harguments : List.Forall₂ (Value.Varies r outline) arguments arguments')
    {yield yield' : Yield} (hyield : yield.Varies r outline yield') :
    Follow r outline before tail (activate closure arguments yield frames scope height store)
      (activate closure' arguments' yield' frames' scope height store') := by
  obtain ⟨stamp, declaration, start, isInitializer⟩ := closure
  obtain ⟨stamp', declaration', start', isInitializer'⟩ := closure'
  obtain ⟨-, sameScope, -, around, hstart, code⟩ := hclosure
  change start' = start at sameScope
  subst sameScope
  cases code with
  | @declaration _ level _ _ _ _ _ _ _ hparams hbody =>
      have subset : outline <+: outline ++ [(some start', level)] := List.prefix_append _ _
      have inner := Outline.leads_push hstart level
      have hactivation : Frame.Varies r outline levels .completion .value (.activation yield)
          (.activation yield') := .activation hyield
      have sameHeight := hactivation.height
      have made := hstore.addScope start' level (entries_varies hparams harguments)
      refine ⟨_, subset, ⟨level :: around, .completion, ?_, .done .normal, ?_⟩, ?_, ?_, made⟩
      · change Outline.Leads _ store.forest.next _
        rw [hstore.next]
        exact inner
      · change FramesVary r _ tail store.forest.next _ _ _ _
        rw [hstore.next]
        exact .cons inner (.block hbody)
          (.cons (leads.later subset) (hactivation.later subset) (hframes.later subset))
      · change store'.forest.next = store.forest.next
        rw [hstore.next, hstore.next']
      · change height + Frame.height (.activation yield') + _ =
          height + Frame.height (.activation yield) + _
        rw [sameHeight]
        rfl

theorem follow_construct (leads : outline.Leads scope levels)
    (hframes : FramesVary r outline tail scope .value height frames frames')
    (hstore : store.Varies r outline before store') {kind kind' : ClassValue}
    (hkind : kind.Varies r outline kind') {arguments arguments' : List Value}
    (harguments : List.Forall₂ (Value.Varies r outline) arguments arguments') :
    Follow r outline before tail (construct kind arguments frames scope height store)
      (construct kind' arguments' frames' scope height store') := by
  have object : Instance.Varies r outline ⟨store.fields.size, kind⟩ ⟨store'.fields.size, kind'⟩ :=
    ⟨hstore.size, hkind⟩
  have added := hstore.addInstance
  have found := hkind.method? "init"
  unfold construct
  generalize kind.method? "init" = method at found ⊢
  generalize kind'.method? "init" = method' at found ⊢
  cases found with
  | none => exact follow_value leads hframes added (.instance object)
  | @some initializer initializer' hmethod =>
      have subset : outline <+: outline ++ [(some initializer.scope, false)] :=
        List.prefix_append _ _
      obtain ⟨bound, bindStore⟩ := bind_varies added hmethod (.instance object)
      exact (follow_activate (leads.later subset) (hframes.later subset) bindStore bound
        (harguments.imp fun _ _ value => value.later subset)
        (.constructed (object.later subset))).earlier subset

section

variable {host host' : Host} (agree : host.Agrees host') (leads : outline.Leads scope levels)
  (hframes : FramesVary r outline tail scope .value height frames frames')
  (hstore : store.Varies r outline before store')

include leads hframes hstore

theorem follow_counted {callee callee' : Value} {callable callable' : Callable}
    (found : Callable.ofValue? host callee = some callable)
    (found' : Callable.ofValue? host' callee' = some callable')
    (exceeds : callable'.exceeds host' height = callable.exceeds host height)
    (arity : callable'.arity = callable.arity) {paren paren' : Token}
    (hparen : r.plain paren paren') {arguments arguments' : List Value}
    (count : arguments.length = arguments'.length)
    (entered : Follow r outline before tail
      (enter host callable arguments frames scope height store)
      (enter host' callable' arguments' frames' scope height store')) :
    Follow r outline before tail (call host callee paren arguments frames scope height store)
      (call host' callee' paren' arguments' frames' scope height store') := by
  unfold call
  rw [found, found']
  dsimp only
  rw [exceeds, arity, count]
  split
  · exact follow_failed leads hframes hstore .stackOverflow
  split
  · exact entered
  · exact follow_failed leads hframes hstore (.located (Respelling.named_of_plain hparen))

include agree

theorem follow_call {callee callee' : Value} (hcallee : callee.Varies r outline callee')
    {paren paren' : Token} (hparen : r.plain paren paren') {arguments arguments' : List Value}
    (harguments : List.Forall₂ (Value.Varies r outline) arguments arguments')
    (answers : ∀ index native, callee = .native index → host.natives[index]? = some native →
      native.AnswersVary r outline host.now host'.now) :
    Follow r outline before tail (call host callee paren arguments frames scope height store)
      (call host' callee' paren' arguments' frames' scope height store') := by
  have count := harguments.length_eq
  have failed : Follow r outline before tail
      ⟨.failed (.located paren .notCallable), frames, scope, height, store⟩
      ⟨.failed (.located paren' .notCallable), frames', scope, height, store'⟩ :=
    follow_failed leads hframes hstore (.located (Respelling.named_of_plain hparen))
  cases hcallee with
  | nil | bool | number | text | «instance» _ => exact failed
  | @function closure closure' hclosure =>
      have arity : (Callable.function closure').arity = (Callable.function closure).arity :=
        hclosure.arity
      have exceeds : (Callable.function closure').exceeds host' height =
          (Callable.function closure).exceeds host height := rfl
      refine follow_counted leads hframes hstore rfl rfl exceeds arity hparen count
        (follow_activate leads hframes hstore hclosure harguments ?_)
      unfold functionYield
      rw [hclosure.isInitializer, hclosure.scope]
      obtain ⟨around, start, -⟩ := hclosure.code
      split
      · exact .receiver start
      · exact .returned
  | @«class» kind kind' hkind =>
      have arity : (Callable.class kind').arity = (Callable.class kind).arity := hkind.arity
      have exceeds : (Callable.class kind').exceeds host' height = (Callable.class kind).exceeds host height := by
        rw [Callable.exceeds, Callable.exceeds, hkind.searched, agree.heightLimit]
      exact follow_counted leads hframes hstore rfl rfl exceeds arity hparen count
        (follow_construct leads hframes hstore hkind harguments)
  | @native index =>
      have same := ofValue?_congr agree.natives (.native index)
      cases known : Callable.ofValue? host (.native index) with
      | none =>
          unfold call
          rw [same, known]
          exact failed
      | some callable =>
          obtain ⟨native, found, rfl⟩ := exists_of_ofValue?_native known
          have exceeds : (Callable.native native).exceeds host' height =
              (Callable.native native).exceeds host height := rfl
          exact follow_counted leads hframes hstore known (same.trans known) exceeds rfl hparen count
            (follow_value leads hframes hstore
              (answers index native rfl found arguments arguments' harguments))

theorem follow_callWith {callee callee' : Value} (hcallee : callee.Varies r outline callee')
    {paren paren' : Token} (hparen : r.plain paren paren') {done done' : List Value}
    (hdone : List.Forall₂ (Value.Varies r outline) done done') {ahead ahead' : List Expr}
    (hahead : List.Forall₂ (Expr.Varies r.variation levels) ahead ahead')
    (answers : ahead = [] → ∀ index native, callee = .native index →
      host.natives[index]? = some native → native.AnswersVary r outline host.now host'.now) :
    Follow r outline before tail
      (callWith host callee paren done ahead frames scope height store)
      (callWith host' callee' paren' done' ahead' frames' scope height store') := by
  cases hahead with
  | nil =>
      exact follow_call agree leads hframes hstore hcallee hparen (List.rel_reverse hdone)
        (answers rfl)
  | cons first rest =>
      exact follow_evalWithin leads hframes hstore (.argument hcallee hparen hdone rest) first

end

end Machine

end LoxLang
