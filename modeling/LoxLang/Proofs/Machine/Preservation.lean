import LoxLang.Proofs.Machine.Calls

/-!
Steps keep machines sound, provided that every place in the programs is as the static rules allow.
-/

namespace LoxLang

open Scoping

def Accepted (programs : List (List Stmt)) : Prop :=
  ∀ place, StandsIn programs place → place.Allowed

namespace Machine

variable {programs : List (List Stmt)} {host : Host} {store : Store} {scope : ScopeId}
  {regions : Regions} {frames : List Frame} {height : Nat}

theorem sound_evalWithin {frame : Frame} {part : Expr} {next : Point} (h : store.Sound programs)
    (agrees : store.forest.Agrees scope regions)
    (stands : StandsIn programs ⟨regions, .expr part⟩)
    (leads : frame.Leads programs store.forest ⟨scope, regions, .value⟩ next)
    (rest : Frames programs store.forest frames next) :
    (evalWithin frame part frames scope height store).Sound programs :=
  ⟨h, regions, agrees, stands, .cons leads rest⟩

theorem sound_execWithin {frame : Frame} {part : Stmt} {next : Point} (h : store.Sound programs)
    (agrees : store.forest.Agrees scope regions)
    (stands : StandsIn programs ⟨regions, .stmt part⟩)
    (leads : frame.Leads programs store.forest ⟨scope, regions.after part, .completion⟩ next)
    (rest : Frames programs store.forest frames next) :
    (execWithin frame part frames scope height store).Sound programs :=
  ⟨h, regions, agrees, stands, .cons leads rest⟩

theorem sound_ofResult {result : Except Interruption Value} (h : store.Sound programs)
    (settles : Settles result (·.Sound programs store.forest))
    (agrees : store.forest.Agrees scope regions)
    (rest : Frames programs store.forest frames ⟨scope, regions, .value⟩) :
    (Machine.mk (ofResult result) frames scope height store).Sound programs :=
  sound_yields (.refl h) (yields_ofResult settles) agrees rest

theorem sound_bindMethod {kind : ClassValue} {name : Token} {receiver : Value}
    (h : store.Sound programs) (hkind : kind.Sound programs store.forest)
    (hreceiver : receiver.Sound programs store.forest) (agrees : store.forest.Agrees scope regions)
    (rest : Frames programs store.forest frames ⟨scope, regions, .value⟩) :
    (Machine.mk (bindMethod host height store kind name receiver).1 frames scope height
      (bindMethod host height store kind name receiver).2).Sound programs := by
  obtain ⟨follows, yields⟩ := bindMethod_sound h host height hkind name hreceiver
  exact sound_yields follows yields agrees rest

/-! ## Expressions -/

theorem sound_eval (accepted : Accepted programs) {expr : Expr} (h : store.Sound programs)
    (agrees : store.forest.Agrees scope regions)
    (stands : StandsIn programs ⟨regions, .expr expr⟩)
    (rest : Frames programs store.forest frames ⟨scope, regions, .value⟩) :
    (eval host expr frames scope height store).Sound programs := by
  have part (inner : Expr) (member : inner ∈ expr.parts) :
      StandsIn programs ⟨regions, .expr inner⟩ := stands.part (.expr member)
  have allowed : regions.AllowsExpr expr := accepted _ stands
  cases expr with
  | assign target value =>
      exact sound_evalWithin h agrees (part value List.mem_cons_self) (.assign stands) rest
  | binary left operator right =>
      exact sound_evalWithin h agrees (part left List.mem_cons_self) (.binaryLeft stands) rest
  | call callee paren arguments =>
      refine sound_evalWithin h agrees (part callee List.mem_cons_self) (.callee ?_) rest
      exact fun inner member => part inner (List.mem_cons_of_mem _ member)
  | get object name => exact sound_evalWithin h agrees (part object List.mem_cons_self) .get rest
  | grouping expression =>
      exact sound_evalWithin h agrees (part expression List.mem_cons_self) .grouping rest
  | literal value =>
      refine sound_value h ?_ agrees rest
      cases value <;> trivial
  | logical left operator right =>
      have second := part right (List.mem_cons_of_mem _ List.mem_cons_self)
      exact sound_evalWithin h agrees (part left List.mem_cons_self) (.logicalLeft second) rest
  | set object name value =>
      have second := part value (List.mem_cons_of_mem _ List.mem_cons_self)
      exact sound_evalWithin h agrees (part object List.mem_cons_self) (.setObject second) rest
  | super keyword method =>
      obtain ⟨hops, marked, inner, outer⟩ := allowed
      have settles := settles_superReceiver h agrees marked inner outer
      simp only [eval]
      cases hfound : superReceiver store.forest scope keyword with
      | error interruption =>
          rw [hfound] at settles
          exact sound_failed h settles
      | ok found =>
          rw [hfound] at settles
          obtain ⟨superclass, receiver⟩ := found
          exact sound_bindMethod h settles.1 settles.2 agrees rest
  | this use => exact sound_ofResult h (settles_lookup h agrees allowed) agrees rest
  | unary operator right =>
      exact sound_evalWithin h agrees (part right List.mem_cons_self) (.unary stands) rest
  | «variable» use => exact sound_ofResult h (settles_lookup h agrees allowed) agrees rest

/-! ## Statements -/

theorem sound_exec (accepted : Accepted programs) {stmt : Stmt} (h : store.Sound programs)
    (agrees : store.forest.Agrees scope regions)
    (stands : StandsIn programs ⟨regions, .stmt stmt⟩)
    (rest : Frames programs store.forest frames ⟨scope, regions.after stmt, .completion⟩) :
    (exec stmt frames scope height store).Sound programs := by
  have part (inner : Expr) (member : inner ∈ stmt.exprs) :
      StandsIn programs ⟨regions, .expr inner⟩ := stands.part (.exprOf member)
  obtain ⟨declares, branches⟩ := accepted _ stands
  cases stmt with
  | block statements =>
      have grows := Forest.grows_add store.forest (some scope) (.ofList [])
      have inner : (store.forest.add (some scope) (.ofList [])).Agrees store.forest.next
          (.inside (.block (.ofList [])) regions) := agrees.add nofun
      have leads : (Frame.block statements scope).Leads programs
          (store.forest.add (some scope) (.ofList []))
          ⟨store.forest.next, .inside (.block (.ofList [])) regions, .completion⟩
          ⟨scope, regions, .completion⟩ :=
        .block (stands.part .block) (agrees.grow grows)
      exact sound_done (h.addScope nofun) .normal inner (.cons leads (rest.grow grows))
  | «break» keyword => exact sound_done h nofun agrees rest
  | «continue» keyword => exact sound_done h nofun agrees rest
  | «class» name superclass methods =>
      have names := declares name rfl
      cases superclass with
      | none =>
          have parentless : ∀ kind, (none : Option ClassValue) = some kind →
              kind.Sound programs store.forest := nofun
          obtain ⟨follows, held⟩ := follows_declareClass h names rfl parentless stands agrees
          exact sound_done follows.sound .normal held (rest.grow follows.grows)
      | some superclass =>
          exact sound_evalWithin h (Forest.agrees_begin.mpr agrees) (stands.part .superclass)
            (.superclass stands) rest
  | expression value =>
      exact sound_evalWithin h agrees (part value List.mem_cons_self) .expression rest
  | function declaration =>
      have notSuper := (declares declaration.name rfl).ne_super
      let closure : Closure := ⟨store.stamp, declaration, scope, false⟩
      -- The function is sound only in the scope that binds its own name.
      have held := agrees.define notSuper (.function closure)
      have grows := Forest.grows_define store.forest scope notSuper (.function closure)
      have sound : closure.Sound programs
          (store.forest.define scope declaration.name.lexeme (.function closure)) :=
        ⟨_, stands.part .function, held, nofun⟩
      exact sound_done (h.takeStamps.define notSuper sound) .normal held (rest.grow grows)
  | «if» condition thenBranch elseBranch =>
      exact sound_evalWithin h agrees (part condition List.mem_cons_self) (.ifCondition stands) rest
  | print value => exact sound_evalWithin h agrees (part value List.mem_cons_self) .print rest
  | «return» keyword value =>
      cases value with
      | none =>
          refine sound_done h ?_ agrees rest
          intro value same
          cases same
          trivial
      | some value => exact sound_evalWithin h agrees (part value List.mem_cons_self) .return rest
  | var name initializer =>
      have notSuper := (declares name rfl).ne_super
      cases initializer with
      | none =>
          have follows : Follows programs store (store.define scope name.lexeme .nil) :=
            follows_define h notSuper trivial
          exact sound_done follows.sound .normal (agrees.define notSuper .nil)
            (rest.grow follows.grows)
      | some value =>
          exact sound_evalWithin h (Forest.agrees_begin.mpr agrees) (stands.part .initializer)
            (.var stands) rest
  | «while» condition body increment =>
      exact sound_evalWithin h agrees (part condition List.mem_cons_self) (.whileCondition stands)
        rest

/-! ## Going on with a value -/

/-- A branch declares nothing, so what follows it goes on in the same regions. -/
theorem sound_branch (accepted : Accepted programs) {stmt branch : Stmt} {frame : Frame}
    {next : Point} (h : store.Sound programs) (agrees : store.forest.Agrees scope regions)
    (stands : StandsIn programs ⟨regions, .stmt stmt⟩) (member : branch ∈ stmt.branches)
    (leads : frame.Leads programs store.forest ⟨scope, regions, .completion⟩ next)
    (rest : Frames programs store.forest frames next) :
    (execWithin frame branch frames scope height store).Sound programs := by
  have plain : branch.declared? = none := (accepted _ stands).2 branch member
  rw [← regions.after_of_none plain] at leads
  exact sound_execWithin h agrees (stands.part (.branch member)) leads rest

theorem sound_resumeValue (accepted : Accepted programs)
    (natives : ∀ native ∈ host.natives, native.Sound) {frame : Frame} {value : Value}
    {next : Point} (h : store.Sound programs) (hvalue : value.Sound programs store.forest)
    (agrees : store.forest.Agrees scope regions)
    (leads : frame.Leads programs store.forest ⟨scope, regions, .value⟩ next)
    (rest : Frames programs store.forest frames next) :
    (resumeValue host frame value frames scope height store).Sound programs := by
  cases leads with
  | @assign _ _ use _ stands =>
      obtain ⟨names, inside⟩ := accepted _ stands
      have settles := settles_target agrees inside
      simp only [resumeValue]
      cases htarget : target store.forest scope use with
      | error interruption =>
          rw [htarget] at settles
          exact sound_failed h settles
      | ok id =>
          have follows : Follows programs store (store.define id use.name.lexeme value) :=
            follows_define h names.ne_super hvalue
          exact sound_value follows.sound (hvalue.grow follows.grows) (agrees.grow follows.grows)
            (rest.grow follows.grows)
  | binaryLeft stands =>
      have second := stands.part (.expr (List.mem_cons_of_mem _ List.mem_cons_self))
      exact sound_evalWithin h agrees second (.binaryRight stands) rest
  | binaryRight stands =>
      exact sound_ofResult h (Value.settles_applyBinary (accepted _ stands) _ _) agrees rest
  | callee parts => exact sound_callWith natives h hvalue nofun parts agrees rest
  | argument hcallee values parts =>
      refine sound_callWith natives h hcallee (fun other member => ?_) parts agrees rest
      rcases List.mem_cons.mp member with rfl | member
      · exact hvalue
      · exact values other member
  | get =>
      cases value with
      | «instance» object =>
          simp only [resumeValue]
          split
          · next field found => exact sound_value h (h.fields _ _ _ found) agrees rest
          · exact sound_bindMethod h hvalue hvalue agrees rest
      | _ => exact sound_failed h (Interruption.located_isError _ _)
  | grouping => exact sound_value h hvalue agrees rest
  | logicalLeft stands =>
      simp only [resumeValue]
      split
      · exact sound_value h hvalue agrees rest
      · exact sound_evalWithin h agrees stands .logicalRight rest
  | logicalRight => exact sound_value h hvalue agrees rest
  | setObject stands =>
      cases value with
      | «instance» object => exact sound_evalWithin h agrees stands .setValue rest
      | _ => exact sound_failed h (Interruption.located_isError _ _)
  | setValue => exact sound_value (h.setField hvalue) hvalue agrees rest
  | unary stands =>
      exact sound_ofResult h (Value.settles_applyUnary (accepted _ stands) _) agrees rest
  | expression => exact sound_done h .normal agrees rest
  | print => exact sound_done h.print .normal agrees rest
  | «return» =>
      refine sound_done h ?_ agrees rest
      intro returned same
      cases same
      exact hvalue
  | @var _ regions name _ stands =>
      have notSuper := ((accepted _ stands).1 name rfl).ne_super
      have follows : Follows programs store (store.define scope name.lexeme value) :=
        follows_define h notSuper hvalue
      exact sound_done follows.sound .normal
        ((Forest.agrees_begin.mp agrees).define notSuper value) (rest.grow follows.grows)
  | @ifCondition _ _ _ thenBranch elseBranch stands =>
      simp only [resumeValue]
      split
      · exact sound_branch accepted h agrees stands List.mem_cons_self .ifBranch rest
      · cases elseBranch with
        | none => exact sound_done h .normal agrees rest
        | some elseBranch =>
            exact sound_branch accepted h agrees stands
              (List.mem_cons_of_mem _ List.mem_cons_self) .ifBranch rest
  | whileCondition stands =>
      simp only [resumeValue]
      split
      · exact sound_branch accepted h agrees stands List.mem_cons_self (.whileBody stands) rest
      · exact sound_done h .normal agrees rest
  | whileIncrement stands =>
      have condition := stands.part (.exprOf List.mem_cons_self)
      exact sound_evalWithin h agrees condition (.whileCondition stands) rest
  | @superclass _ regions name token use methods stands =>
      have names := (accepted _ stands).1 name rfl
      cases value with
      | «class» kind =>
          have parent : ∀ found, some kind = some found → found.Sound programs store.forest := by
            intro found same
            cases same
            exact hvalue
          obtain ⟨follows, held⟩ := follows_declareClass h names rfl parent stands
            (Forest.agrees_begin.mp agrees)
          exact sound_done follows.sound .normal held (rest.grow follows.grows)
      | _ => exact sound_failed h (Interruption.located_isError _ _)

/-! ## Going on with a completion -/

theorem settles_yieldOf {yield : Yield} {completion : Completion} (h : store.Sound programs)
    (hcompletion : completion.Sound programs store.forest)
    (receiver : ∀ scope, yield = .receiver scope → store.forest.Holds scope "this")
    (constructed : ∀ object, yield = .constructed object →
      object.kind.Sound programs store.forest) :
    Settles (yieldOf store.forest yield completion) (·.Sound programs store.forest) := by
  cases yield with
  | constructed object => exact constructed object rfl
  | receiver scope =>
      obtain ⟨value, found⟩ := Bindings.contains_iff.mp (receiver scope rfl)
      have walk : store.forest.ancestor scope 0 = .ok scope := rfl
      change Settles (store.forest.getAt scope 0 "this") _
      rw [Forest.getAt_of_get? walk found]
      exact h.values scope "this" value found
  | returned =>
      cases completion with
      | «return» value => exact hcompletion value rfl
      | normal | «break» | «continue» => trivial

theorem sound_resumeDone {frame : Frame} {completion : Completion} {next : Point}
    (h : store.Sound programs)
    (hcompletion : completion.Sound programs store.forest)
    (agrees : store.forest.Agrees scope regions)
    (leads : frame.Leads programs store.forest ⟨scope, regions, .completion⟩ next)
    (rest : Frames programs store.forest frames next) :
    (resumeDone frame completion frames scope height store).Sound programs := by
  cases leads with
  | activation receiver constructed =>
      exact sound_ofResult h (settles_yieldOf h hcompletion receiver constructed) agrees rest
  | ifBranch => exact sound_done h hcompletion agrees rest
  | @whileBody _ _ condition body increment stands =>
      have first := stands.part (.exprOf List.mem_cons_self)
      -- A body that is cut short by `continue` is followed by what follows any round.
      have again : (resumeDone (.whileBody condition body increment) .normal frames scope height
          store).Sound programs := by
        cases increment with
        | none => exact sound_evalWithin h agrees first (.whileCondition stands) rest
        | some increment =>
            have part := stands.part (.exprOf (List.mem_cons_of_mem _ List.mem_cons_self))
            exact sound_evalWithin h agrees part (.whileIncrement stands) rest
      cases completion with
      | normal => exact again
      | «continue» => exact again
      | «break» => exact sound_done h .normal agrees rest
      | «return» value => exact sound_done h hcompletion agrees rest
  | @block _ _ _ _ statements stands outer =>
      cases statements with
      | nil => exact sound_done h hcompletion outer rest
      | cons stmt statements =>
          cases completion with
          | normal =>
              exact sound_execWithin h agrees (stands.part .head)
                (.block (stands.part .tail) outer) rest
          | «break» | «continue» | «return» _ => exact sound_done h hcompletion outer rest
  | @program _ _ statements stands =>
      cases statements with
      | nil => exact sound_done h .normal agrees rest
      | cons stmt statements =>
          exact sound_execWithin h agrees (stands.part .head) (.program (stands.part .tail)) rest

/-! ## Steps -/

theorem sound_step (accepted : Accepted programs) (natives : ∀ native ∈ host.natives, native.Sound)
    {machine : Machine} (h : machine.Sound programs) : (step host machine).Sound programs := by
  obtain ⟨control, frames, scope, height, store⟩ := machine
  obtain ⟨hstore, hcontrol⟩ := h
  cases control with
  | eval expr =>
      obtain ⟨regions, agrees, stands, rest⟩ := hcontrol
      simp only [step]
      split
      · exact sound_failed hstore Interruption.stackOverflow_isError
      · exact sound_eval accepted hstore agrees stands rest
  | exec stmt =>
      obtain ⟨regions, agrees, stands, rest⟩ := hcontrol
      simp only [step]
      split
      · exact sound_failed hstore Interruption.stackOverflow_isError
      · exact sound_exec accepted hstore agrees stands rest
  | value value =>
      obtain ⟨hvalue, regions, agrees, rest⟩ := hcontrol
      cases rest with
      | nil => exact sound_value hstore hvalue agrees .nil
      | cons leads rest => exact sound_resumeValue accepted natives hstore hvalue agrees leads rest
  | done completion =>
      obtain ⟨hcompletion, regions, agrees, rest⟩ := hcontrol
      cases rest with
      | nil => exact sound_done hstore hcompletion agrees .nil
      | cons leads rest => exact sound_resumeDone hstore hcompletion agrees leads rest
  | failed interruption =>
      cases frames with
      | nil => exact sound_failed hstore hcontrol
      | cons frame frames => exact sound_failed hstore hcontrol

end Machine

end LoxLang
