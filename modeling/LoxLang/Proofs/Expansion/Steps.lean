import LoxLang.Proofs.Expansion.Calls

/-!
A step of a machine and the steps of its expansion. The expansion takes one step for each step of the machine, and some
more to enter and leave its braces and to get to an increment and from there to the condition.
-/

namespace LoxLang

open Scoping

variable {free : Prop} {layout : Layout} {gaps : Gaps} {next : Due}

namespace Machine

variable {scope scope' : ScopeId} {height height' : Nat} {frames frames' : List Frame}
  {store store' : Store} {host host' : Host}

/-! ## Steps of both machines -/

section

variable (shares : host.Shares host') (indifferent : ∀ native ∈ host.natives, native.Indifferent)
  (leads : layout.Leads gaps scope scope') (hstore : store.Expands free layout store')

include leads hstore

theorem abreast_eval (hframes : FramesExpand free layout scope scope' .value frames frames')
    {expr expr' : Expr} (h : expr.Expands gaps expr') :
    Abreast free layout (eval host expr frames scope height store)
      (eval host' expr' frames' scope' height' store') := by
  cases h with
  | assign target value => exact abreast_evalWithin leads hframes hstore (.assign target) value
  | binary left right => exact abreast_evalWithin leads hframes hstore (.binaryLeft right) left
  | call callee count arguments =>
      exact abreast_evalWithin leads hframes hstore
        (.callee (List.forall₂_iff_zip.mpr ⟨count, fun member => arguments _ _ member⟩)) callee
  | get object => exact abreast_evalWithin leads hframes hstore .get object
  | grouping inner => exact abreast_evalWithin leads hframes hstore .grouping inner
  | @literal value => exact abreast_value hframes hstore (Value.expands_ofConstant value)
  | logical left right => exact abreast_evalWithin leads hframes hstore (.logicalLeft right) left
  | set object value => exact abreast_evalWithin leads hframes hstore (.setObject value) object
  | @super keyword keyword' method use tight =>
      have found := hstore.superReceiver leads use tight
      simp only [eval]
      generalize superReceiver store.forest scope keyword = result at found ⊢
      generalize superReceiver store'.forest scope' keyword' = result' at found ⊢
      cases found with
      | error interruption => exact abreast_failed hstore interruption
      | ok found => exact abreast_bindMethod hframes hstore found.1 method found.2 host host' _ _
  | this use => exact abreast_ofResult hframes hstore (hstore.lookup leads use)
  | unary right => exact abreast_evalWithin leads hframes hstore .unary right
  | «variable» use => exact abreast_ofResult hframes hstore (hstore.lookup leads use)

include shares indifferent

theorem abreast_resumeValue {frame frame' : Frame}
    (hframe : frame.Expands free layout gaps .value next frame')
    (hframes : FramesExpand free layout scope scope' next frames frames') {value value' : Value}
    (hvalue : value.Expands free layout value') :
    Abreast free layout (resumeValue host frame value frames scope height store)
      (resumeValue host' frame' value' frames' scope' height' store') := by
  cases hframe with
  | @assign use use' uses =>
      have found := hstore.target leads uses
      simp only [resumeValue, uses.name]
      generalize target store.forest scope use = result at found ⊢
      generalize target store'.forest scope' use' = result' at found ⊢
      cases found with
      | error interruption => exact abreast_failed hstore interruption
      | ok place => exact abreast_value hframes (hstore.define place _ hvalue) hvalue
  | binaryLeft right => exact abreast_evalWithin leads hframes hstore (.binaryRight hvalue) right
  | @binaryRight left left' operator hleft =>
      simp only [resumeValue, hleft.alike.applyBinary hvalue.alike operator]
      exact abreast_plain hframes hstore fun _ => Value.isPlain_of_applyBinary
  | @callee paren _ _ arguments =>
      exact abreast_callWith leads hframes hstore shares indifferent hvalue paren .nil arguments
  | @argument _ _ paren _ _ _ _ callee done ahead =>
      exact abreast_callWith leads hframes hstore shares indifferent callee paren (.cons hvalue done)
        ahead
  | @get name =>
      cases hvalue with
      | @«instance» object object' hobject =>
          have found := hstore.field? object.index name.lexeme
          simp only [resumeValue]
          simp only [hobject.index]
          generalize store.field? object.index name.lexeme = field at found ⊢
          generalize store'.field? object.index name.lexeme = field' at found ⊢
          cases found with
          | some field => exact abreast_value hframes hstore field
          | none =>
              exact abreast_bindMethod hframes hstore hobject.kind name (.instance hobject) host host' _ _
      | _ => exact abreast_located hstore name _
  | grouping => exact abreast_value hframes hstore hvalue
  | @logicalLeft operator _ _ right =>
      simp only [resumeValue, hvalue.alike.settles (Eq.refl operator.kind)]
      split
      · exact abreast_value hframes hstore hvalue
      · exact abreast_evalWithin leads hframes hstore .logicalRight right
  | logicalRight => exact abreast_value hframes hstore hvalue
  | @setObject name _ _ value =>
      cases hvalue with
      | «instance» object => exact abreast_evalWithin leads hframes hstore (.setValue object) value
      | _ => exact abreast_located hstore name _
  | @setValue object object' name hobject =>
      simp only [resumeValue, hobject.index]
      exact abreast_value hframes (hstore.setField _ _ hvalue) hvalue
  | @unary operator =>
      simp only [resumeValue, hvalue.alike.applyUnary operator]
      exact abreast_plain hframes hstore fun _ => Value.isPlain_of_applyUnary
  | expression => exact abreast_done hframes hstore .normal
  | print =>
      simp only [resumeValue, hvalue.alike.toText]
      exact abreast_done hframes (hstore.print _) .normal
  | «return» => exact abreast_done hframes hstore (.return hvalue)
  | @var _ _ name there =>
      subst there
      exact abreast_done hframes (hstore.define leads.places name.lexeme hvalue) .normal
  | ifCondition thenBranch calm elseBranch =>
      simp only [resumeValue, hvalue.alike.isTruthy]
      split
      · exact abreast_execWithin leads hframes hstore .ifBranch thenBranch calm
      · cases elseBranch with
        | none => exact abreast_done hframes hstore .normal
        | some elseBranch =>
            exact abreast_execWithin leads hframes hstore .ifBranch elseBranch.1 elseBranch.2
  | whileCondition loop =>
      simp only [resumeValue, hvalue.alike.isTruthy]
      split
      · exact abreast_execWithin leads hframes hstore (.whileBody loop) loop.body fun _ => rfl
      · exact abreast_done hframes hstore .normal
  | whileIncrement loop =>
      exact abreast_evalWithin leads hframes hstore (.whileCondition loop) loop.condition
  | @superclass _ _ name token _ _ there methods =>
      subst there
      cases hvalue with
      | «class» kind => exact abreast_derived leads hframes hstore name kind methods
      | _ => exact abreast_located hstore token _

end

theorem yieldOf_expands (hstore : store.Expands free layout store') {mayContinue : Bool}
    {yield yield' : Yield} (hyield : yield.Expands free layout yield')
    {completion completion' : Completion}
    (hcompletion : completion.Expands free layout mayContinue completion') :
    ResultsExpand (Value.Expands free layout) (yieldOf store.forest yield completion)
      (yieldOf store'.forest yield' completion') := by
  cases hyield with
  | returned =>
      cases hcompletion with
      | «return» value => exact .ok value
      | normal | «break» | «continue» => exact .ok .nil
  | receiver leads => exact hstore.getAt leads rfl "this"
  | constructed object => exact .ok (.instance object)

theorem abreast_resumeDone (leads : layout.Leads gaps scope scope')
    (hstore : store.Expands free layout store') {mayContinue : Bool} {frame frame' : Frame}
    (hframe : frame.Expands free layout gaps (.completion mayContinue) next frame')
    (hframes : FramesExpand free layout (Frame.outerScope frame scope)
      (Frame.outerScope frame' scope') next frames frames') {completion completion' : Completion}
    (hcompletion : completion.Expands free layout mayContinue completion') :
    Abreast free layout (resumeDone frame completion frames scope height store)
      (resumeDone frame' completion' frames' scope' height' store') := by
  cases hframe with
  | activation yield =>
      exact abreast_ofResult hframes hstore (yieldOf_expands hstore yield hcompletion)
  | ifBranch => exact abreast_done hframes hstore hcompletion
  | @whileBody mayContinue _ _ _ _ _ _ loop =>
      obtain ⟨condition, body, increment⟩ := loop
      change FramesExpand free layout scope scope' (.completion mayContinue) frames frames' at hframes
      cases hcompletion with
      | normal | «continue» =>
          cases increment with
          | none =>
              exact abreast_evalWithin leads hframes hstore
                (.whileCondition ⟨condition, body, .none⟩) condition
          | some increment =>
              exact abreast_evalWithin leads hframes hstore
                (.whileIncrement ⟨condition, body, .some increment⟩) increment
      | «break» => exact abreast_done hframes hstore .normal
      | «return» value => exact abreast_done hframes hstore (.return value)
  | @block _ _ _ outer outer' rest calm =>
      change FramesExpand free layout outer outer' (.completion mayContinue) frames frames' at hframes
      cases rest with
      | nil => exact abreast_done hframes hstore hcompletion
      | cons stmt rest =>
          cases hcompletion with
          | normal =>
              refine abreast_execWithin leads hframes hstore (.block rest fun inside => calm ?_) stmt
                fun inside => calm ?_
              · rw [continuesAny, inside, Bool.or_true]
              · rw [continuesAny, inside, Bool.true_or]
          | «break» => exact abreast_done hframes hstore .break
          | «continue» => exact abreast_done hframes hstore .continue
          | «return» value => exact abreast_done hframes hstore (.return value)

/-! ## More steps of the expansion -/

/-- The other machine gets abreast of one that has gone on. It takes one step for that, unless there are braces. -/
def Meets (free : Prop) (layout : Layout) (host' : Host) (machine other : Machine) : Prop :=
  ∃ more, (free ∨ more = 0) ∧ Abreast free layout machine ((step host')^[more + 1] other)

variable {machine other : Machine}

theorem Abreast.meets (h : Abreast free layout machine (step host' other)) :
    Meets free layout host' machine other :=
  ⟨0, .inr rfl, h⟩

theorem Meets.before (h : Meets free layout host' machine (step host' other)) (allowed : free) :
    Meets free layout host' machine other := by
  obtain ⟨more, -, abreast⟩ := h
  exact ⟨more + 1, .inl allowed, abreast⟩

theorem Meets.earlier {more : Layout} (h : Meets free more host' machine other)
    (grows : layout.Grows more) : Meets free layout host' machine other := by
  obtain ⟨count, bound, abreast⟩ := h
  exact ⟨count, bound, abreast.earlier grows⟩

theorem step_exec_cases (host : Host) (stmt : Stmt) (frames : List Frame) (scope : ScopeId)
    (height : Nat) (store : Store) :
    (step host ⟨.exec stmt, frames, scope, height, store⟩).Overflowed ∨
      step host ⟨.exec stmt, frames, scope, height, store⟩ = exec stmt frames scope height store := by
  rw [step]
  split
  · exact .inl rfl
  · exact .inr rfl

/-- Where the expansion runs out of places at a statement, nothing more is to be shown. -/
theorem meets_of_exec {stmt' : Stmt}
    (h : Abreast free layout machine (exec stmt' frames' scope' height' store')) :
    Meets free layout host' machine ⟨.exec stmt', frames', scope', height', store'⟩ := by
  rcases step_exec_cases host' stmt' frames' scope' height' store' with full | same
  · exact (Abreast.overflowed' full).meets
  · rw [← same] at h
    exact h.meets

theorem Meets.before_exec {stmt' : Stmt} (allowed : free)
    (h : Meets free layout host' machine (exec stmt' frames' scope' height' store')) :
    Meets free layout host' machine ⟨.exec stmt', frames', scope', height', store'⟩ := by
  rcases step_exec_cases host' stmt' frames' scope' height' store' with full | same
  · exact (Abreast.overflowed' full).meets
  · rw [← same] at h
    exact h.before allowed

/-! ## Statements -/

section

variable (leads : layout.Leads gaps scope scope') {mayContinue : Bool}
  (hframes : FramesExpand free layout scope scope' (.completion mayContinue) frames frames')
  (hstore : store.Expands free layout store')

include leads hframes hstore

theorem abreast_block {statements statements' : List Stmt}
    (h : Node.Expands free (0 :: gaps) (.statements statements) (.statements statements'))
    (calm : continuesAny statements → mayContinue) :
    Abreast free layout (exec (.block statements) frames scope height store)
      (exec (.block statements') frames' scope' height' store') := by
  have grows := layout.grows_add scope scope'
  have inner : FramesExpand free (layout.add scope scope') layout.kept.length layout.links.length
      (.completion mayContinue) (.block statements scope :: frames)
      (.block statements' scope' :: frames') :=
    .cons leads.add (.block h calm) (hframes.later grows)
  rw [← hstore.next, ← hstore.next'] at inner
  exact .expands grows (.running (.done .normal) inner (hstore.addScope scope scope' .nil))

theorem abreast_function {declaration declaration' : FunctionDecl} {outer : Gaps}
    (there : gaps = 0 :: outer)
    (h : Node.Expands free gaps (.function declaration) (.function declaration')) :
    Abreast free layout (exec (.function declaration) frames scope height store)
      (exec (.function declaration') frames' scope' height' store') := by
  subst there
  have name : declaration'.name = declaration.name := by cases h; rfl
  have closure : Closure.Expands free layout [] ⟨store.stamp, declaration, scope, false⟩
      ⟨store'.stamp, declaration', scope', false⟩ := ⟨hstore.stamp, rfl, outer, leads, h⟩
  have stores := (hstore.takeStamps 1).define leads.places declaration.name.lexeme (.function closure)
  rw [← name] at stores
  refine abreast_done hframes ?_ .normal
  rw [← name]
  exact stores

end

/-- Where there are braces, they are entered first. -/
theorem meets_exec (host : Host) {layout : Layout} {gaps : Gaps} {mayContinue : Bool}
    {stmt stmt' : Stmt} {frames frames' : List Frame} {scope scope' : ScopeId} {height height' : Nat}
    {store store' : Store} (leads : layout.Leads gaps scope scope')
    (hframes : FramesExpand free layout scope scope' (.completion mayContinue) frames frames')
    (hstore : store.Expands free layout store')
    (h : Node.Expands free gaps (.stmt stmt) (.stmt stmt')) (calm : stmt.continues → mayContinue) :
    Meets free layout host' (step host ⟨.exec stmt, frames, scope, height, store⟩)
      ⟨.exec stmt', frames', scope', height', store'⟩ := by
  have both (h : Abreast free layout (exec stmt frames scope height store)
      (exec stmt' frames' scope' height' store')) :
      Meets free layout host' (step host ⟨.exec stmt, frames, scope, height, store⟩)
        ⟨.exec stmt', frames', scope', height', store'⟩ := by
    rcases step_exec_cases host stmt frames scope height store with full | same
    · exact (Abreast.overflowed full).meets
    · rw [same]
      exact meets_of_exec h
  cases h with
  | @brace gap outer _ inside allowed inner =>
      -- The expansion makes a scope and comes to the statement within.
      have grows := layout.grows_addEmpty scope'
      have within : FramesExpand free (layout.addEmpty scope') scope store'.forest.next
          (.completion mayContinue) frames (.block [] scope' :: frames') :=
        .brace allowed (hframes.later grows)
      have start := leads.addEmpty
      rw [← hstore.next'] at start
      refine Meets.before_exec allowed (Meets.before ?_ allowed)
      exact (meets_exec host start within (hstore.addEmpty scope') inner calm).earlier grows
  | block statements => exact both (abreast_block leads hframes hstore statements calm)
  | «break» => exact both (abreast_done hframes hstore .break)
  | @«class» _ name _ _ count methods =>
      exact both (abreast_base leads hframes hstore name
        (List.forall₂_iff_zip.mpr ⟨count, fun member => methods _ _ member⟩))
  | @subclass _ name superclass superclass' _ _ use count methods =>
      refine both ?_
      rw [exec, exec, use.name]
      exact abreast_evalWithin leads hframes hstore (.superclass rfl
        (List.forall₂_iff_zip.mpr ⟨count, fun member => methods _ _ member⟩)) (.variable use)
  | «continue» =>
      cases calm rfl
      exact both (abreast_done hframes hstore .continue)
  | expression value => exact both (abreast_evalWithin leads hframes hstore .expression value)
  | function code => exact both (abreast_function leads hframes hstore rfl code)
  | «if» condition thenBranch =>
      refine both (abreast_evalWithin leads hframes hstore
        (.ifCondition thenBranch (fun inside => calm ?_) .none) condition)
      rw [Stmt.continues, inside, Bool.true_or]
  | ifElse condition thenBranch elseBranch =>
      refine both (abreast_evalWithin leads hframes hstore
        (.ifCondition thenBranch (fun inside => calm ?_) (.some ⟨elseBranch, fun inside => calm ?_⟩))
        condition)
      · rw [Stmt.continues, inside, Bool.true_or]
      · rw [Stmt.continues, continues?, inside, Bool.or_true]
  | print value => exact both (abreast_evalWithin leads hframes hstore .print value)
  | «return» value =>
      cases value with
      | none => exact both (abreast_done hframes hstore (.return .nil))
      | some value => exact both (abreast_evalWithin leads hframes hstore .return value)
  | var value =>
      cases value with
      | none => exact both (abreast_done hframes (hstore.define leads.places _ .nil) .normal)
      | some value => exact both (abreast_evalWithin leads hframes hstore (.var rfl) value)
  | «while» condition body increment =>
      exact both (abreast_evalWithin leads hframes hstore
        (.whileCondition ⟨condition, body, increment⟩) condition)
  | unroll allowed quiet condition body increment =>
      refine both (Expands.abreast (.running (.eval leads condition) ?_ hstore))
      exact .unrolledCondition leads ⟨allowed, quiet, condition, body, increment⟩ hframes
termination_by sizeOf stmt'

/-! ## Values and completions -/

/-- Where the increment of an unrolled loop is done, the expansion leaves the braces and comes to the condition. -/
theorem meets_value (shares : host.Shares host')
    (indifferent : ∀ native ∈ host.natives, native.Indifferent) (hstore : store.Expands free layout store')
    (hframes : FramesExpand free layout scope scope' .value frames frames') {value value' : Value}
    (h : value.Expands free layout value') :
    Meets free layout host' (step host ⟨.value value, frames, scope, height, store⟩)
      ⟨.value value', frames', scope', height', store'⟩ := by
  cases hframes with
  | @cons _ _ _ _ _ frame frame' _ _ leads hframe hframes =>
      have here : Frame.outerScope frame scope = scope := by cases hframe <;> rfl
      have here' : Frame.outerScope frame' scope' = scope' := by cases hframe <;> rfl
      rw [here, here'] at hframes
      exact (abreast_resumeValue shares indifferent leads hstore hframe hframes h).meets
  | unrolledCondition leads loop hframes =>
      by_cases truthy : value.isTruthy = true
      · have truthy' : value'.isTruthy = true := h.alike.isTruthy.trans truthy
        have grows := layout.grows_addEmpty scope'
        have start := leads.addEmpty
        rw [← hstore.next'] at start
        have within := FramesExpand.unrolledBody (leads.later grows) start loop (hframes.later grows)
        simp only [step, resumeValue, if_pos truthy]
        refine Meets.before ?_ loop.allowed
        simp only [step, resumeValue, if_pos truthy']
        refine Meets.before_exec loop.allowed (Abreast.meets (.expands grows ?_))
        refine .running (.exec start loop.body fun inside => ?_) within (hstore.addEmpty scope')
        rw [loop.calm] at inside
        cases inside
      · have falsy' : ¬ value'.isTruthy = true := fun truthy' => truthy (h.alike.isTruthy.symm.trans truthy')
        simp only [step, resumeValue, if_neg truthy]
        refine Abreast.meets ?_
        simp only [step, resumeValue, if_neg falsy']
        exact abreast_done hframes hstore .normal
  | unrolledIncrement leads loop hframes =>
      refine Meets.before (Meets.before (Abreast.meets (Expands.abreast ?_)) loop.allowed) loop.allowed
      exact .running (.eval leads loop.condition) (.unrolledCondition leads loop hframes) hstore

/-- Where there are braces, they are left first. At the end of the body of an unrolled loop the increment is the next
statement. -/
theorem meets_done {due : Due} {scope scope' : ScopeId} {height height' : Nat}
    {frames frames' : List Frame} {store store' : Store} (host : Host)
    (hstore : store.Expands free layout store')
    (hframes : FramesExpand free layout scope scope' due frames frames') {mayContinue : Bool}
    (awaited : due = .completion mayContinue) {completion completion' : Completion}
    (h : completion.Expands free layout mayContinue completion') :
    Meets free layout host' (step host ⟨.done completion, frames, scope, height, store⟩)
      ⟨.done completion', frames', scope', height', store'⟩ := by
  induction hframes generalizing height height' mayContinue with
  | @program rest rest' code =>
      refine Abreast.meets ?_
      cases code with
      | nil => exact (Expands.ended hstore).abreast
      | cons stmt rest =>
          exact (Expands.running (.exec hstore.root stmt fun _ => rfl) (.program rest) hstore).abreast
  | cons leads hframe hframes =>
      subst awaited
      exact (abreast_resumeDone leads hstore hframe hframes h).meets
  | @brace scope scope' outer' mayContinue frames frames' allowed _ ih =>
      cases awaited
      exact Meets.before (ih rfl h) allowed
  | unrolledBody outside inside loop hframes =>
      cases awaited
      cases h with
      | normal =>
          refine Meets.before (meets_of_exec (Expands.abreast ?_)) loop.allowed
          exact .running (.eval inside loop.increment) (.unrolledIncrement outside loop hframes) hstore
      | «break» =>
          exact Meets.before (Abreast.meets (abreast_done hframes hstore .normal)) loop.allowed
      | «return» value =>
          exact Meets.before (Abreast.meets (abreast_done hframes hstore (.return value))) loop.allowed
  | unrolledCondition _ _ _ | unrolledIncrement _ _ _ => cases awaited

/-- Whatever step a machine takes, its expansion gets abreast of it. -/
theorem meets_step (shares : host.Shares host')
    (indifferent : ∀ native ∈ host.natives, native.Indifferent) {machine other : Machine}
    (h : machine.Expands free layout other) : Meets free layout host' (step host machine) other := by
  cases h with
  | @running due control control' frames frames' scope scope' height height' store store' hcontrol hframes
      hstore =>
      cases hcontrol with
      | eval leads expr =>
          refine Abreast.meets ?_
          simp only [step]
          split
          · exact .overflowed rfl
          split
          · exact .overflowed' rfl
          exact abreast_eval leads hstore hframes expr
      | exec leads stmt calm => exact meets_exec host leads hframes hstore stmt calm
      | value value => exact meets_value shares indifferent hstore hframes value
      | done completion => exact meets_done host hstore hframes rfl completion
  | ended hstore => exact (Expands.ended hstore).abreast.meets
  | @failed _ _ frames frames' _ _ _ _ _ _ interruption hstore =>
      refine Abreast.meets ?_
      cases frames with
      | nil => cases frames' <;> exact abreast_failed hstore interruption
      | cons => cases frames' <;> exact abreast_failed hstore interruption

end Machine

end LoxLang
