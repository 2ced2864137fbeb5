import LoxLang.Proofs.Scoping.Breaches
import LoxLang.Proofs.Scoping.Lexical

/-!
What markers tell. `Tells` says what the errors are that a marker adds where the scopes are those of some regions;
for an expression or a declaration they are the breaches of the static rules that there are in it.
-/

namespace LoxLang.Scoping

variable {α β : Type}

/-! ## Reporting -/

/-- The errors that a marker adds. -/
def Tells (marker : Marker α) (before : Regions) (means : List ResolutionError → Prop) : Prop :=
  ∀ scopes errors value state, Tracks before scopes → marker ⟨scopes, errors⟩ = .ok value state →
    ∃ found, state.errors.toList = errors.toList ++ found ∧ means found

/-- The marker reports nothing. -/
abbrev Silent (marker : Marker α) (before : Regions) : Prop :=
  Tells marker before (· = [])

namespace Tells

variable {marker : Marker α} {next : α → Marker β} {before middle after : Regions}
  {result : α → Prop} {means first second : List ResolutionError → Prop}

theorem mono (tells : Tells marker before first) (weaken : ∀ found, first found → means found) :
    Tells marker before means := by
  intro scopes errors value state tracks h
  obtain ⟨found, herrors, hfound⟩ := tells scopes errors value state tracks h
  exact ⟨found, herrors, weaken found hfound⟩

theorem bind (keeps : Marks True marker before middle result) (tells : Tells marker before first)
    (rest : ∀ value, Tells (next value) middle second)
    (join : ∀ found more, first found → second more → means (found ++ more)) :
    Tells (marker >>= next) before means := by
  intro scopes errors result last tracks h
  obtain ⟨value, state, begins, ends⟩ := exists_of_bind_ok h
  obtain ⟨tracked, -⟩ := keeps _ _ _ _ tracks begins
  obtain ⟨found, herrors, hfound⟩ := tells _ _ _ _ tracks begins
  obtain ⟨more, hmore, hlater⟩ := rest value _ _ _ _ tracked ends
  exact ⟨found ++ more, by rw [hmore, herrors, List.append_assoc],
    join found more hfound hlater⟩

theorem silent_bind (keeps : Marks True marker before middle result)
    (silent : Silent marker before) (rest : ∀ value, Tells (next value) middle means) :
    Tells (marker >>= next) before means :=
  bind keeps silent rest fun found more nothing later => by rwa [nothing]

theorem bind_silent (keeps : Marks True marker before middle result)
    (tells : Tells marker before means) (rest : ∀ value, Silent (next value) middle) :
    Tells (marker >>= next) before means :=
  bind keeps tells rest fun found more here nothing => by rwa [nothing, List.append_nil]

theorem pure (value : α) : Silent (Pure.pure value : Marker α) before := by
  intro scopes errors result state tracks h
  cases h
  exact ⟨[], (List.append_nil _).symm, rfl⟩

theorem map {make : α → β} (tells : Tells marker before means) :
    Tells (do return make (← marker)) before means := by
  intro scopes errors result last tracks h
  obtain ⟨value, state, begins, ends⟩ := exists_of_bind_ok h
  cases ends
  exact tells _ _ _ _ tracks begins

theorem tooDeep : Tells (Scoping.tooDeep : Marker α) before means := by
  intro scopes errors value state tracks h
  cases h

theorem get_bind {next : State → Marker α}
    (rest : ∀ state, Tracks before state.scopes → Tells (next state) before means) :
    Tells (get >>= next) before means :=
  fun scopes errors value state tracks h =>
    rest ⟨scopes, errors⟩ tracks scopes errors value state tracks h

theorem updateScopes (update : Scopes → Scopes) : Silent (Scoping.updateScopes update) before := by
  intro scopes errors value state tracks h
  cases h
  exact ⟨[], (List.append_nil _).symm, rfl⟩

theorem report (token : Token) (cause : ResolutionError.Cause) :
    Tells (Scoping.report token cause) before (· = [⟨cause, token⟩]) := by
  intro scopes errors value state tracks h
  cases h
  exact ⟨_, Array.toList_push, rfl⟩

theorem reportIf {condition : Bool} {broken : Prop} [Decidable broken]
    (same : condition = true ↔ broken) (token : Token) (cause : ResolutionError.Cause) :
    Tells (Scoping.reportIf condition token cause) before (· = breachIf broken cause token) := by
  cases condition with
  | false =>
      rw [breachIf, if_neg fun holds => Bool.false_ne_true (same.mpr holds)]
      exact pure ()
  | true =>
      rw [breachIf, if_pos (same.mp rfl)]
      exact report token cause

theorem locate (name : Token) : Silent (Scoping.locate name) before :=
  get_bind fun _ _ => pure _

/-- What is marked in a scope of its own says what it says. -/
theorem withScope {names : List String} {region : Region} {body : Marker α}
    (hregion : ∀ name, region.state? name = if name ∈ names then some true else none)
    (tells : Tells body (.inside region before) means) :
    Tells (Scoping.withScope names body) before means := by
  intro scopes errors value last tracks h
  have entered : Tracks (.inside region before) (scopes.enter names) :=
    .inside (fun name => by rw [Marks.get?_enter, hregion]) tracks
  obtain ⟨_, inside, enters, h⟩ := exists_of_bind_ok h
  cases enters
  obtain ⟨_, state, begins, leaves⟩ := exists_of_bind_ok h
  cases leaves
  exact tells _ _ value state entered begins

end Tells

/-! ## Places -/

/-- Surroundings are what lies around a place. -/
structure Surrounds (path : List Enclosure) (around : Surroundings) : Prop where
  outside : around.inFunction = .none ↔ path.find? Enclosure.isFunction = none
  initializer : around.inFunction = .initializer ↔
    path.find? Enclosure.isFunction = some (.method "init")
  noClass : around.inClass = .none ↔ path.find? Enclosure.isClass = none
  base : around.inClass = .base ↔ path.find? Enclosure.isClass = some (.class false)
  inLoop : around.inLoop = true ↔
    .loopBody ∈ path.takeWhile fun enclosure => !enclosure.isFunction

namespace Surrounds

variable {path : List Enclosure} {around : Surroundings}

theorem topLevel : Surrounds [] .topLevel := by
  constructor <;> decide

theorem function (h : Surrounds path around) :
    Surrounds (.function :: path) (around.enterFunction .function) := by
  refine ⟨?_, ?_, h.noClass, h.base, ?_⟩ <;>
    simp [Surroundings.enterFunction, Enclosure.isFunction]

theorem method (h : Surrounds path around) (method : FunctionDecl) :
    Surrounds (.method method.name.lexeme :: path)
      (around.enterFunction (methodContext method)) := by
  have context : methodContext method ≠ .none ∧
      (methodContext method = .initializer ↔ method.name.lexeme = "init") := by
    unfold methodContext
    split <;> simp_all
  refine ⟨?_, ?_, h.noClass, h.base, ?_⟩
  · simpa [Surroundings.enterFunction, Enclosure.isFunction] using context.1
  · simpa [Surroundings.enterFunction, Enclosure.isFunction] using context.2
  · simp [Surroundings.enterFunction, Enclosure.isFunction]

theorem loopBody (h : Surrounds path around) :
    Surrounds (.loopBody :: path) around.enterLoop := by
  refine ⟨h.outside, h.initializer, h.noClass, h.base, ?_⟩
  simp [Surroundings.enterLoop, Enclosure.isFunction]

theorem «class» (h : Surrounds path around) (superclass : Option NameUse) :
    Surrounds (.class superclass.isSome :: path)
      (around.enterClass (if superclass.isSome then .derived else .base)) := by
  refine ⟨h.outside, h.initializer, ?_, ?_, ?_⟩
  · cases superclass <;> simp [Surroundings.enterClass, Enclosure.isClass]
  · cases superclass <;> simp [Surroundings.enterClass, Enclosure.isClass]
  · simpa [Surroundings.enterClass, Enclosure.isFunction] using h.inLoop

theorem initializer_cons (h : Surrounds path around) (name : String) :
    Surrounds (.initializer name :: path) around := by
  refine ⟨h.outside, h.initializer, h.noClass, h.base, ?_⟩
  simpa [Enclosure.isFunction] using h.inLoop

end Surrounds

/-- A place is in the initializer of a declaration just when the regions say that this is begun. -/
def Initializes (path : List Enclosure) (regions : Regions) : Prop :=
  ∀ name, .initializer name ∈ path ↔ regions.begun? = some name

variable {path : List Enclosure} {earlier : Option (List String)} {regions : Regions}
  {around : Surroundings}

/-! ## Expressions -/

theorem tells_variable (initializes : Initializes path regions) (name : Token) :
    Tells (markVariable name) regions
      (· = breachIf (.initializer name.lexeme ∈ path) .ownInitializer name) := by
  apply Tells.get_bind
  intro state tracks
  have same := (tracks.isDeclaring_iff name.lexeme).trans (initializes name.lexeme).symm
  exact .bind_silent (.reportIf _ _ _) (.reportIf same _ _) fun _ => .locate name

theorem tells_this (surrounds : Surrounds path around) (keyword : NameUse) :
    Tells (markThis around keyword) regions
      (· = breachIf (path.find? Enclosure.isClass = none) .thisOutsideClass keyword.name) := by
  unfold markThis
  by_cases outside : around.inClass = .none
  · rw [if_pos outside, breachIf, if_pos (surrounds.noClass.mp outside)]
    exact .bind_silent (.report _ _) (.report _ _) fun _ => .pure _
  · rw [if_neg outside, breachIf, if_neg fun absent => outside (surrounds.noClass.mpr absent)]
    exact .locate _

theorem tells_super (surrounds : Surrounds path around) (keyword : Token) :
    Tells (markSuper around keyword) regions
      (· = breachIf (path.find? Enclosure.isClass = none) .superOutsideClass keyword ++
        breachIf (path.find? Enclosure.isClass = some (.class false)) .superWithoutSuperclass
          keyword) := by
  have noClass := surrounds.noClass
  have base := surrounds.base
  unfold markSuper
  cases hclass : around.inClass with
  | none =>
      have outside := noClass.mp hclass
      simp only [breachIf, outside, reduceCtorEq, if_true, if_false, List.append_nil]
      exact .bind_silent (.report _ _) (.report _ _) fun _ => .locate _
  | base =>
      have plain := base.mp hclass
      simp only [breachIf, plain, reduceCtorEq, if_true, if_false, List.nil_append]
      exact .bind_silent (.report _ _) (.report _ _) fun _ => .locate _
  | derived =>
      have inside : path.find? Enclosure.isClass ≠ none := fun absent => by
        cases hclass.symm.trans (noClass.mpr absent)
      have subclass : path.find? Enclosure.isClass ≠ some (.class false) := fun plain => by
        cases hclass.symm.trans (base.mpr plain)
      simp only [breachIf, inside, subclass, if_false, List.append_nil]
      exact .locate _

namespace Tells

variable {marker : Marker α} {visit : Visit} {visits : List Visit}

theorem through (tells : Tells marker regions (Reports visits)) (quiet : visit.breaches = [])
    (same : visit.parts = visits) : Tells marker regions (Reports [visit]) :=
  tells.mono fun _ => Reports.through quiet same

theorem leaf (tells : Tells marker regions (· = visit.breaches)) (empty : visit.parts = []) :
    Tells marker regions (Reports [visit]) :=
  tells.mono fun _ same => same ▸ .leaf empty

theorem nothing (silent : Silent marker regions) : Tells marker regions (Reports []) :=
  silent.mono fun _ empty => empty ▸ .nil

end Tells

/-- Some breaches, and behind them those of some nodes. -/
def Adds (own : List ResolutionError) (visits : List Visit) (found : List ResolutionError) : Prop :=
  ∃ inner, found = own ++ inner ∧ Reports visits inner

namespace Tells

variable {marker : Marker α} {next : α → Marker β} {middle : Regions}
  {result : α → Prop} {visit : Visit} {visits : List Visit} {own more : List ResolutionError}

theorem adds (keeps : Marks True marker regions middle result)
    (tells : Tells marker regions (· = own))
    (rest : ∀ value, Tells (next value) middle (Reports visits)) :
    Tells (marker >>= next) regions (Adds own visits) :=
  .bind keeps tells rest fun _ _ same inner => ⟨_, by rw [same], inner⟩

theorem adds_adds (keeps : Marks True marker regions middle result)
    (tells : Tells marker regions (· = own))
    (rest : ∀ value, Tells (next value) middle (Adds more visits)) :
    Tells (marker >>= next) regions (Adds (own ++ more) visits) :=
  .bind keeps tells rest fun _ _ same ⟨inner, split, reports⟩ =>
    ⟨inner, by rw [same, split, List.append_assoc], reports⟩

theorem node (tells : Tells marker regions (Adds visit.breaches visits))
    (same : visit.parts = visits) : Tells marker regions (Reports [visit]) := by
  refine tells.mono fun found ⟨inner, split, reports⟩ => ?_
  rw [split]
  exact .one same reports

end Tells

/-- Marking items one by one reports what there is in each. -/
theorem tells_mapM {mark : α → Marker β} {means : α → β → Prop} {items : List α}
    {visit : α → Visit}
    (keeps : ∀ item ∈ items, Marks True (mark item) regions regions (means item))
    (each : ∀ item ∈ items, Tells (mark item) regions (Reports [visit item])) :
    Tells (items.mapM mark) regions (Reports (items.map visit)) := by
  induction items with
  | nil => exact (Tells.pure _).nothing
  | cons item items ih =>
      rw [List.mapM_cons]
      have rest := ih (fun other member => keeps other (List.mem_cons_of_mem _ member))
        fun other member => each other (List.mem_cons_of_mem _ member)
      refine .bind (keeps item List.mem_cons_self) (each item List.mem_cons_self) (fun _ => ?_)
        fun _ _ => Reports.append
      exact rest.map

theorem tells_option {mark : α → Marker α} {item : Option α} {visit : α → Visit}
    (present : ∀ inner, item = some inner → Tells (mark inner) regions (Reports [visit inner])) :
    Tells (markOption mark item) regions (Reports (item.toList.map visit)) := by
  cases item with
  | none => exact (Tells.pure _).nothing
  | some inner => exact (present inner rfl).map

theorem tells_expr (suits : regions.Suits around) (surrounds : Surrounds path around)
    (initializes : Initializes path regions) (earlier : Option (List String)) (depth : Nat)
    {expr : Expr} (wellFormed : expr.WellFormed) :
    Tells (markExpr around depth expr) regions (Reports [⟨path, earlier, .expr expr⟩]) := by
  induction depth generalizing expr with
  | zero => exact .tooDeep
  | succ depth ih =>
      -- The parts of an expression are marked in the order in which they are come to.
      have keeps {part : Expr} (inner : part.WellFormed) :
          Marks True (markExpr around depth part) regions regions (MarkedExpr True regions part) :=
        marks_expr suits depth inner
      have two {first second : Expr} {make : Expr → Expr → Expr} (hfirst : first.WellFormed)
          (hsecond : second.WellFormed) :
          Tells (do
            let first ← markExpr around depth first
            return make first (← markExpr around depth second)) regions
            (Reports [⟨path, earlier, .expr first⟩, ⟨path, earlier, .expr second⟩]) :=
        .bind (keeps hfirst) (ih hfirst) (fun _ => (ih hsecond).map) fun _ _ => Reports.append
      cases wellFormed with
      | assign _ hvalue =>
          refine (Tells.bind_silent (keeps hvalue) (ih hvalue) fun _ => ?_).through rfl rfl
          exact (Tells.locate _).map
      | binary _ hleft hright | logical hleft hright =>
          exact (two hleft hright).through rfl rfl
      | call hcallee harguments =>
          have arguments := tells_mapM (fun item member => keeps (harguments item member))
            fun item member => ih (harguments item member)
          refine Tells.through ?_ rfl rfl
          exact .bind (keeps hcallee) (ih hcallee) (fun _ => arguments.map) fun _ _ => Reports.append
      | get hinner | grouping hinner | unary _ hinner =>
          exact (ih hinner).map.through rfl rfl
      | literal => exact (Tells.pure _).leaf rfl
      | set hobject hvalue =>
          exact (two hvalue hobject).through rfl rfl
      | super _ _ => exact (tells_super surrounds _).map.leaf rfl
      | this _ _ => exact (tells_this surrounds _).map.leaf rfl
      | «variable» _ =>
          exact (tells_variable initializes _).map.leaf rfl

/-! ## Declarations -/

/-- The names that the innermost region holds, unless it is the global one. -/
def Regions.earlier? : Regions → Option (List String)
  | .global _ => none
  | .inside (.block names) _ => some names.held
  | .inside _ _ => none

theorem Regions.earlier?_hold (settled : regions.Settled) (name : String) :
    (regions.hold name).earlier? = regions.earlier?.map (name :: ·) := by
  match regions, settled with
  | .global _, _ => rfl
  | .inside (.block _) _, _ => rfl

theorem Tracks.redeclares_iff {scopes : Scopes} (tracks : Tracks regions scopes)
    (settled : regions.Settled) (name : String) :
    scopes.redeclares name = true ↔ name ∈ regions.earlier?.getD [] := by
  cases tracks with
  | global _ => simp [Scopes.redeclares, Regions.earlier?]
  | @inside region outer scope scopes states outside =>
      cases region with
      | receiver | superclass => exact settled.elim
      | block names =>
          have inner : Scopes.redeclares (scope :: scopes) name = scope.contains name := by
            cases scopes with
            | nil => exact absurd rfl outside.nonempty
            | cons => rfl
          have begun : names.begun = none := settled
          rw [inner, Bindings.contains, states, Region.isSome_state?]
          simp [Region.Declares, Regions.earlier?, begun]

theorem tells_declare (settled : regions.Settled) (name : Token) :
    Tells (declare name) regions
      (· = breachIf (name.lexeme ∈ regions.earlier?.getD []) .redeclaration name) := by
  apply Tells.get_bind
  intro state tracks
  exact .bind_silent (.reportIf _ _ _)
    (.reportIf (tracks.redeclares_iff settled name.lexeme) _ _) fun _ => .updateScopes _

theorem tells_declareFully (settled : regions.Settled) (name : Token) :
    Tells (declareFully name) regions
      (· = breachIf (name.lexeme ∈ regions.earlier?.getD []) .redeclaration name) :=
  .bind_silent (.declare settled) (tells_declare settled name)
    fun _ => .updateScopes _

theorem tells_params (outer : Regions) (params : List Token) (held : List String) :
    Tells (params.forM declareFully) (.inside (.block (.ofList held)) outer)
      (· = repeatedParams held params) := by
  induction params generalizing held with
  | nil => exact .pure _
  | cons param params ih =>
      have settled : (Regions.inside (.block (.ofList held)) outer).Settled := rfl
      refine .bind (.declareFully settled) (tells_declareFully settled param)
        (fun _ => ih (param.lexeme :: held)) fun _ _ first rest => ?_
      rw [first, rest]
      rfl

end LoxLang.Scoping
