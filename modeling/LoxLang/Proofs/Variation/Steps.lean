import LoxLang.Proofs.Value.Alike
import LoxLang.Proofs.Variation.Calls

/-!
A step of one machine and a step of another that varies from it lead to machines that vary again.
-/

namespace LoxLang

open Scoping

variable {r : Respelling} {outline : Outline} {before : Array String} {tail : List Stmt}
  {levels : Levels} {next : Awaited}

/-! ## Operations -/

namespace Value.Varies

variable {value value' left left' right right' : Value} {operator operator' : Token}

theorem alike (h : value.Varies r outline value') : value.Alike value' := by
  cases h with
  | nil => exact .nil
  | bool => exact .bool
  | number => exact .number
  | text => exact .text
  | @function closure closure' same =>
      obtain ⟨levels, -, code⟩ := same.code
      refine .function same.stamp ?_
      generalize closure.declaration = declaration at code ⊢
      generalize closure'.declaration = declaration' at code ⊢
      cases code with
      | declaration name _ _ => exact r.lexeme name
  | «class» kind =>
      cases kind.layers with
      | cons own _ => exact .class own.stamp own.name
  | «instance» object =>
      cases object.kind.layers with
      | cons own _ => exact .instance object.index own.name
  | native => exact .native

theorem applyUnary (h : value.Varies r outline value') (hoperator : r.plain operator operator') :
    ResultsVary r (Varies r outline) (value.applyUnary operator) (value'.applyUnary operator') := by
  unfold Value.applyUnary
  rw [r.kind hoperator, r.lexeme hoperator]
  split
  · rw [h.alike.isTruthy]
    exact .ok .bool
  · cases h with
    | number => exact .ok .number
    | _ => exact .error (.located (Respelling.named_of_plain hoperator))
  · exact .error (.fault .same)

theorem onNumbers (hleft : left.Varies r outline left') (hright : right.Varies r outline right')
    (hoperator : r.plain operator operator') {apply : Float → Float → Value}
    (plain : ∀ first second, (apply first second).Varies r outline (apply first second)) :
    ResultsVary r (Varies r outline) (Value.onNumbers operator left right apply)
      (Value.onNumbers operator' left' right' apply) := by
  have failed : ResultsVary r (Varies r outline)
      (.error (.located operator .operandsNotNumbers))
      (.error (.located operator' .operandsNotNumbers)) :=
    .error (.located (Respelling.named_of_plain hoperator))
  cases hleft with
  | number =>
      cases hright with
      | number => exact .ok (plain _ _)
      | _ => exact failed
  | _ => exact failed

theorem plus (hleft : left.Varies r outline left') (hright : right.Varies r outline right')
    (hoperator : r.plain operator operator') :
    ResultsVary r (Varies r outline) (Value.plus operator left right)
      (Value.plus operator' left' right') := by
  have failed : ResultsVary r (Varies r outline)
      (.error (.located operator .operandsNotAddable))
      (.error (.located operator' .operandsNotAddable)) :=
    .error (.located (Respelling.named_of_plain hoperator))
  cases hleft with
  | number =>
      cases hright with
      | number => exact .ok .number
      | _ => exact failed
  | text =>
      cases hright with
      | text => exact .ok .text
      | _ => exact failed
  | _ => exact failed

theorem applyBinary (hleft : left.Varies r outline left') (hright : right.Varies r outline right')
    (hoperator : r.plain operator operator') :
    ResultsVary r (Varies r outline) (left.applyBinary operator right)
      (left'.applyBinary operator' right') := by
  have same := hleft.alike.isEqual hright.alike
  unfold Value.applyBinary
  rw [r.kind hoperator, r.lexeme hoperator, same]
  split
  · exact .ok .bool
  · exact .ok .bool
  · exact hleft.onNumbers hright hoperator fun _ _ => .bool
  · exact hleft.onNumbers hright hoperator fun _ _ => .bool
  · exact hleft.onNumbers hright hoperator fun _ _ => .bool
  · exact hleft.onNumbers hright hoperator fun _ _ => .bool
  · exact hleft.onNumbers hright hoperator fun _ _ => .number
  · exact hleft.plus hright hoperator
  · exact hleft.onNumbers hright hoperator fun _ _ => .number
  · exact hleft.onNumbers hright hoperator fun _ _ => .number
  · exact .error (.fault .same)

end Value.Varies

namespace Machine

variable {scope : ScopeId} {height : Nat} {frames frames' : List Frame} {store store' : Store}
  {host host' : Host}

/-! ## Beginning -/

theorem follow_eval (agree : host.Agrees host') (leads : outline.Leads scope levels)
    (hframes : FramesVary r outline tail scope .value height frames frames')
    (hstore : store.Varies r outline before store') {expr expr' : Expr}
    (h : expr.Varies r.variation levels expr') :
    Follow r outline before tail (eval host expr frames scope height store)
      (eval host' expr' frames' scope height store') := by
  cases h with
  | assign target value =>
      exact follow_evalWithin leads hframes hstore (.assign target) value
  | binary left operator right =>
      exact follow_evalWithin leads hframes hstore (.binaryLeft operator right) left
  | call callee paren count arguments =>
      exact follow_evalWithin leads hframes hstore
        (.callee paren (List.forall₂_iff_zip.mpr ⟨count, fun member => arguments _ _ member⟩)) callee
  | get object name =>
      exact follow_evalWithin leads hframes hstore (.get name) object
  | grouping inner => exact follow_evalWithin leads hframes hstore .grouping inner
  | @literal value =>
      refine follow_value leads hframes hstore ?_
      cases value with
      | nil => exact .nil
      | bool => exact .bool
      | number => exact .number
      | text => exact .text
  | logical left operator right =>
      exact follow_evalWithin leads hframes hstore (.logicalLeft operator right) left
  | set object name value =>
      exact follow_evalWithin leads hframes hstore (.setObject name value) object
  | @super keyword keyword' method method' use name =>
      have found := hstore.superReceiver leads use
      simp only [eval]
      generalize superReceiver store.forest scope keyword = result at found ⊢
      generalize superReceiver store'.forest scope keyword' = result' at found ⊢
      cases found with
      | error interruption => exact follow_failed leads hframes hstore interruption
      | ok found =>
          exact bindMethod_follow leads hframes hstore found.1 name found.2 agree height
  | this use => exact follow_ofResult leads hframes hstore (hstore.lookup leads use)
  | unary operator right =>
      exact follow_evalWithin leads hframes hstore (.unary operator) right
  | «variable» use => exact follow_ofResult leads hframes hstore (hstore.lookup leads use)

theorem follow_exec (leads : outline.Leads scope levels)
    (hframes : FramesVary r outline tail scope .completion height frames frames')
    (hstore : store.Varies r outline before store') {stmt stmt' : Stmt}
    (h : Node.Varies r.variation levels (.stmt stmt) (.stmt stmt')) :
    Follow r outline before tail (exec stmt frames scope height store)
      (exec stmt' frames' scope height store') := by
  cases h with
  | @block _ level _ _ statements =>
      have subset : outline <+: outline ++ [(some scope, level)] := List.prefix_append _ _
      have inner := Outline.leads_push leads level
      refine ⟨_, subset, ⟨level :: levels, .completion, ?_, .done .normal, ?_⟩, ?_, rfl,
        hstore.addScope scope level .nil⟩
      · change Outline.Leads _ store.forest.next _
        rw [hstore.next]
        exact inner
      · change FramesVary r _ tail store.forest.next _ _ _ _
        rw [hstore.next]
        exact .cons inner (.block statements) (hframes.later subset)
      · change store'.forest.next = store.forest.next
        rw [hstore.next, hstore.next']
  | «break» => exact follow_control leads hframes hstore (.done .break)
  | «class» name count methods =>
      exact follow_base leads hframes hstore name
        (List.forall₂_iff_zip.mpr ⟨count, fun member => methods _ _ member⟩)
  | subclass name superclass count methods =>
      exact follow_evalWithin leads hframes hstore
        (.superclass name superclass.name
          (List.forall₂_iff_zip.mpr ⟨count, fun member => methods _ _ member⟩)) (.variable superclass)
  | «continue» => exact follow_control leads hframes hstore (.done .continue)
  | expression value =>
      exact follow_evalWithin leads hframes hstore .expression value
  | @function _ declaration declaration' name code =>
      have closure : Closure.Varies r outline [] ⟨store.stamp, declaration, scope, false⟩
          ⟨store'.stamp, declaration', scope, false⟩ :=
        ⟨hstore.stamp, rfl, rfl, levels, leads, code⟩
      exact follow_normal leads hframes
        ((hstore.takeStamps 1).define scope (leads.spelling name.named) (.function closure))
  | «if» condition thenBranch =>
      exact follow_evalWithin leads hframes hstore (.ifCondition thenBranch .none)
        condition
  | ifElse condition thenBranch elseBranch =>
      exact follow_evalWithin leads hframes hstore (.ifCondition thenBranch (.some elseBranch)) condition
  | print value => exact follow_evalWithin leads hframes hstore .print value
  | «return» _ value =>
      cases value with
      | none => exact follow_control leads hframes hstore (.done (.return .nil))
      | some value => exact follow_evalWithin leads hframes hstore .return value
  | var name value =>
      cases value with
      | none =>
          exact follow_normal leads hframes (hstore.define scope (leads.spelling name) .nil)
      | some value => exact follow_evalWithin leads hframes hstore (.var name) value
  | «while» condition body increment =>
      exact follow_evalWithin leads hframes hstore
        (.whileCondition ⟨condition, body, increment⟩) condition

/-! ## Going on -/

theorem follow_resumeValue (agree : host.Agrees host') (leads : outline.Leads scope levels)
    {frame frame' : Frame} (hframe : frame.Varies r outline levels .value next frame')
    (hframes : FramesVary r outline tail scope next height frames frames')
    (hstore : store.Varies r outline before store') {value value' : Value}
    (hvalue : value.Varies r outline value') {places : Nat}
    (answers : ∀ index native arguments,
      (Machine.mk (.value value) (frame :: frames) scope places store).call? =
        some (.native index, arguments) →
      host.natives[index]? = some native → native.AnswersVary r outline host.now host'.now) :
    Follow r outline before tail (resumeValue host frame value frames scope height store)
      (resumeValue host' frame' value' frames' scope height store') := by
  cases hframe with
  | @assign use use' uses =>
      have found := hstore.target leads uses
      simp only [resumeValue]
      generalize target store.forest scope use = result at found ⊢
      generalize target store'.forest scope use' = result' at found ⊢
      cases found with
      | error interruption => exact follow_failed leads hframes hstore interruption
      | @ok id id' found =>
          obtain ⟨same, spelling⟩ := found
          subst same
          exact follow_value leads hframes (hstore.define id' spelling hvalue) hvalue
  | binaryLeft operator right =>
      exact follow_evalWithin leads hframes hstore (.binaryRight hvalue operator)
        right
  | binaryRight left operator =>
      exact follow_ofResult leads hframes hstore (left.applyBinary hvalue operator)
  | callee paren arguments =>
      refine follow_callWith agree leads hframes hstore hvalue paren .nil arguments ?_
      rintro rfl index native rfl found
      exact answers index native [] rfl found
  | argument callee paren done ahead =>
      refine follow_callWith agree leads hframes hstore callee paren (.cons hvalue done) ahead ?_
      rintro rfl index native rfl found
      exact answers index native _ rfl found
  | @get name name' hname =>
      cases hvalue with
      | @«instance» object object' hobject =>
          have found := hstore.field? object.index name.lexeme
          simp only [resumeValue]
          simp only [hobject.index, r.lexeme hname]
          generalize store.field? object.index name.lexeme = field at found ⊢
          generalize store'.field? object.index name.lexeme = field' at found ⊢
          cases found with
          | some field => exact follow_value leads hframes hstore field
          | none =>
              exact bindMethod_follow leads hframes hstore hobject.kind hname
                (.instance hobject) agree height
      | _ =>
          exact follow_failed leads hframes hstore (.located (Respelling.named_of_plain hname))
  | grouping => exact follow_value leads hframes hstore hvalue
  | logicalLeft operator right =>
      simp only [resumeValue]
      simp only [hvalue.alike.settles (r.kind operator)]
      split
      · exact follow_value leads hframes hstore hvalue
      · exact follow_evalWithin leads hframes hstore .logicalRight right
  | logicalRight => exact follow_value leads hframes hstore hvalue
  | setObject name value =>
      cases hvalue with
      | «instance» object =>
          exact follow_evalWithin leads hframes hstore (.setValue object name) value
      | _ =>
          exact follow_failed leads hframes hstore (.located (Respelling.named_of_plain name))
  | @setValue object object' name name' hobject hname =>
      simp only [resumeValue]
      rw [hobject.index, r.lexeme hname]
      exact follow_value leads hframes (hstore.setField _ _ hvalue) hvalue
  | unary operator => exact follow_ofResult leads hframes hstore (hvalue.applyUnary operator)
  | expression => exact follow_normal leads hframes hstore
  | print =>
      simp only [resumeValue]
      rw [hvalue.alike.toText]
      exact follow_normal leads hframes (hstore.print _)
  | «return» => exact follow_control leads hframes hstore (.done (.return hvalue))
  | var name =>
      exact follow_normal leads hframes (hstore.define scope (leads.spelling name) hvalue)
  | ifCondition thenBranch elseBranch =>
      simp only [resumeValue]
      rw [hvalue.alike.isTruthy]
      split
      · exact follow_execWithin leads hframes hstore .ifBranch thenBranch
      · cases elseBranch with
        | none => exact follow_normal leads hframes hstore
        | some elseBranch =>
            exact follow_execWithin leads hframes hstore .ifBranch elseBranch
  | whileCondition loop =>
      simp only [resumeValue]
      rw [hvalue.alike.isTruthy]
      split
      · exact follow_execWithin leads hframes hstore (.whileBody loop) loop.body
      · exact follow_normal leads hframes hstore
  | whileIncrement loop =>
      exact follow_evalWithin leads hframes hstore (.whileCondition loop)
        loop.condition
  | @superclass name name' token token' _ _ _ hname htoken methods =>
      cases hvalue with
      | «class» kind => exact follow_derived leads hframes hstore hname kind methods
      | _ => exact follow_failed leads hframes hstore (.located htoken)

theorem yieldOf_varies (hstore : store.Varies r outline before store') {yield yield' : Yield}
    (hyield : yield.Varies r outline yield') {completion completion' : Completion}
    (hcompletion : completion.Varies r outline completion') :
    ResultsVary r (Value.Varies r outline) (yieldOf store.forest yield completion)
      (yieldOf store'.forest yield' completion') := by
  cases hyield with
  | returned =>
      cases hcompletion with
      | «return» value => exact .ok value
      | normal | «break» | «continue» => exact .ok .nil
  | receiver leads =>
      have found := hstore.getAt leads 0 fun _ => r.new_ne_this.symm
      rw [Respelling.spell_this] at found
      exact found
  | constructed object => exact .ok (.instance object)

theorem follow_resumeDone (leads : outline.Leads scope levels) {frame frame' : Frame}
    (hframe : frame.Varies r outline levels .completion next frame')
    (hframes : FramesVary r outline tail (Frame.outerScope frame scope) next height frames frames')
    (hstore : store.Varies r outline before store') {completion completion' : Completion}
    (hcompletion : completion.Varies r outline completion') :
    Follow r outline before tail (resumeDone frame completion frames scope height store)
      (resumeDone frame' completion' frames' scope height store') := by
  cases hframe with
  | activation yield =>
      exact follow_ofResult leads hframes hstore (yieldOf_varies hstore yield hcompletion)
  | ifBranch => exact follow_control leads hframes hstore (.done hcompletion)
  | whileBody loop =>
      obtain ⟨condition, body, increment⟩ := loop
      change FramesVary r outline tail scope .completion height frames frames' at hframes
      cases hcompletion with
      | normal | «continue» =>
          cases increment with
          | none =>
              exact follow_evalWithin leads hframes hstore (.whileCondition ⟨condition, body, .none⟩)
                condition
          | some increment =>
              exact follow_evalWithin leads hframes hstore
                (.whileIncrement ⟨condition, body, .some increment⟩) increment
      | «break» => exact follow_normal leads hframes hstore
      | «return» value => exact follow_control leads hframes hstore (.done (.return value))
  | @block _ _ outer rest =>
      change FramesVary r outline tail outer .completion height frames frames' at hframes
      obtain ⟨around, start⟩ := hframes.leads hstore.root
      cases rest with
      | nil => exact follow_control start hframes hstore (.done hcompletion)
      | cons stmt rest =>
          cases hcompletion with
          | normal => exact follow_execWithin leads hframes hstore (.block rest) stmt
          | «break» => exact follow_control start hframes hstore (.done .break)
          | «continue» => exact follow_control start hframes hstore (.done .continue)
          | «return» value => exact follow_control start hframes hstore (.done (.return value))

/-- Until one program has ended and the other has more statements, both machines take the same steps. -/
theorem step_varies (agree : host.Agrees host') {machine other : Machine}
    (h : machine.Varies r outline before tail other)
    (answers : ∀ index native arguments, machine.call? = some (.native index, arguments) →
      host.natives[index]? = some native → native.AnswersVary r outline host.now host'.now)
    (more : ∀ completion, machine.control = .done completion → machine.frames = [.program []] →
      tail = []) :
    Follow r outline before tail (step host machine) (step host' other) := by
  obtain ⟨control, frames, scope, height, store⟩ := machine
  obtain ⟨control', frames', scope', height', store'⟩ := other
  obtain ⟨⟨levels, awaited, leads, hcontrol, hframes⟩, sameScope, sameHeight, hstore⟩ := h
  dsimp only at leads hcontrol hframes sameScope sameHeight hstore
  subst sameScope sameHeight
  cases hcontrol with
  | eval expr =>
      simp only [step, agree.heightLimit]
      split
      · exact follow_failed leads hframes hstore .stackOverflow
      · exact follow_eval agree leads hframes hstore expr
  | exec stmt =>
      simp only [step, agree.heightLimit]
      split
      · exact follow_failed leads hframes hstore .stackOverflow
      · exact follow_exec leads hframes hstore stmt
  | value value =>
      cases hframes with
      | nil => exact follow_value leads .nil hstore value
      | @cons _ levels _ _ height frame _ _ _ leads hframe hframes =>
          have within : Frame.outerScope frame scope' = scope' := by cases hframe <;> rfl
          rw [within] at hframes
          simp only [step, hframe.height, Nat.add_sub_cancel]
          exact follow_resumeValue agree leads hframe hframes hstore value answers
  | done completion =>
      cases hframes with
      | nil => exact follow_control leads .nil hstore (.done completion)
      | program rest =>
          cases rest with
          | nil =>
              obtain rfl := more _ rfl rfl
              exact follow_normal leads .nil hstore
          | cons stmt rest =>
              have start := hstore.leads_globals
              refine Varies.follow ⟨⟨[false], _, start, .exec stmt, .program rest⟩, rfl, rfl, hstore⟩
      | cons leads hframe hframes =>
          simp only [step, hframe.height, Nat.add_sub_cancel]
          exact follow_resumeDone leads hframe hframes hstore completion
  | failed interruption =>
      have none : FramesVary r outline tail Forest.globals .value 0 [] [] := .nil
      cases hframes with
      | nil | program _ => exact follow_failed leads none hstore interruption
      | cons leads hframe hframes =>
          obtain ⟨outer, start⟩ := hframes.leads hstore.root
          simp only [step, hframe.height, Nat.add_sub_cancel, hframe.outerScope]
          exact follow_failed start hframes hstore interruption

end Machine

end LoxLang
