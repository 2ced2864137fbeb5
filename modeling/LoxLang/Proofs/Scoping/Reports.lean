import LoxLang.Proofs.Scoping.Telling

/-!
What marking reports. Its errors are the breaches of the program, and afterwards it is where it began: in the global
scope, with nothing around it and no declaration begun.
-/

namespace LoxLang.Scoping

variable {path : List Enclosure} {regions : Regions} {around : Surroundings}

/-! ## Statements -/

theorem initializes_of_settled (plain : ∀ name, .initializer name ∉ path)
    (closed : regions.begun? = none) : Initializes path regions := by
  intro name
  rw [closed]
  exact ⟨fun member => absurd member (plain name), nofun⟩

theorem initializes_begin (plain : ∀ name, .initializer name ∉ path) (settled : regions.Settled)
    (name : String) : Initializes (.initializer name :: path) (regions.begin name) := by
  intro other
  have begun : (regions.begin name).begun? = some name := by
    match regions, settled with
    | .global _, _ => rfl
    | .inside (.block _) _, _ => rfl
  rw [begun, List.mem_cons, or_iff_left (plain other), Enclosure.initializer.injEq,
    Option.some.injEq, eq_comm]

/-- What marking the statements of one depth reports. -/
structure StatementTells (depth : Nat) : Prop where
  stmt : ∀ {around : Surroundings} {regions : Regions} {path : List Enclosure} {stmt : Stmt},
    regions.Suits around → Surrounds path around → (∀ name, .initializer name ∉ path) →
    regions.Settled → stmt.WellFormed →
    Tells (markStmt around depth stmt) regions (Reports [⟨path, regions.earlier?, .stmt stmt⟩])
  stmts : ∀ {around : Surroundings} {regions : Regions} {path : List Enclosure}
    {statements : List Stmt},
    regions.Suits around → Surrounds path around → (∀ name, .initializer name ∉ path) →
    regions.Settled → (∀ stmt ∈ statements, stmt.WellFormed) →
    Tells (markStmts around depth statements) regions
      (Reports [⟨path, regions.earlier?, .statements statements⟩])
  function : ∀ {around : Surroundings} {regions : Regions} {path : List Enclosure}
    {declaration : FunctionDecl} (earlier : Option (List String)),
    regions.Suits around → Surrounds path around → (∀ name, .initializer name ∉ path) →
    regions.begun? = none → declaration.WellFormed →
    Tells (markFunction around depth declaration) regions
      (Reports [⟨path, earlier, .function declaration⟩])
  «class» : ∀ {around : Surroundings} {regions : Regions} {path : List Enclosure} {name : Token}
    {superclass : Option NameUse} {methods : List FunctionDecl},
    regions.Suits around → Surrounds path around → (∀ name, .initializer name ∉ path) →
    regions.Settled → (Stmt.class name superclass methods).WellFormed →
    Tells (markClass around depth name superclass methods) regions
      (Reports [⟨path, regions.earlier?, .stmt (.class name superclass methods)⟩])

theorem tells_stmts {depth : Nat} (tells : StatementTells depth) (suits : regions.Suits around)
    (surrounds : Surrounds path around) (plain : ∀ name, .initializer name ∉ path)
    (settled : regions.Settled) {statements : List Stmt}
    (wellFormed : ∀ stmt ∈ statements, stmt.WellFormed) :
    Tells (statements.mapM (markStmt around depth)) regions
      (Reports [⟨path, regions.earlier?, .statements statements⟩]) := by
  induction statements generalizing regions with
  | nil => exact (Tells.pure _).leaf rfl
  | cons stmt rest ih =>
      have hstmt : stmt.WellFormed := wellFormed stmt List.mem_cons_self
      have hrest : ∀ other ∈ rest, other.WellFormed :=
        fun other member => wellFormed other (List.mem_cons_of_mem _ member)
      have behind : Visit.behind ⟨path, regions.earlier?, .statements (stmt :: rest)⟩ stmt
          (.statements rest) = ⟨path, (regions.after stmt).earlier?, .statements rest⟩ := by
        cases declared : stmt.declared? with
        | none =>
            simp only [Visit.behind, Regions.after, declared]
            rfl
        | some name => simp only [Visit.behind, Regions.after, declared, Regions.earlier?_hold settled]
      rw [List.mapM_cons]
      have marks := (statementMarks True depth).stmt suits settled hstmt
      have head := tells.stmt suits surrounds plain settled hstmt
      have tail := ih (suits.after hstmt) (settled.after stmt) hrest
      refine (Tells.bind marks head (fun _ => tail.map) fun _ _ => Reports.append).through rfl ?_
      exact congrArg (fun visit => [_, visit]) behind

theorem tells_function {depth : Nat} (tells : StatementTells depth)
    (earlier : Option (List String)) (suits : regions.Suits around)
    (surrounds : Surrounds path around) (plain : ∀ name, .initializer name ∉ path)
    (closed : regions.begun? = none) {declaration : FunctionDecl}
    (wellFormed : declaration.WellFormed) :
    Tells (markFunction around (depth + 1) declaration) regions
      (Reports [⟨path, earlier, .function declaration⟩]) := by
  obtain ⟨name, params, body⟩ := declaration
  obtain ⟨hparams, hbody⟩ := wellFormed
  have declared : Marks True (params.forM declareFully) _ _ _ := Marks.declareParams regions params
  have inner := tells.stmts (suits.params closed hparams) surrounds plain rfl hbody
  have empty (name : String) : (Region.block (.ofList [])).state? name =
      if name ∈ [] then some true else none := rfl
  refine .withScope empty ?_
  exact (Tells.adds declared (tells_params regions params []) fun _ => inner.map).node rfl

theorem tells_methods {depth : Nat} (tells : StatementTells depth)
    (earlier : Option (List String)) (suits : (Regions.inside .receiver regions).Suits around)
    (surrounds : Surrounds path around) (plain : ∀ name, .initializer name ∉ path)
    {methods : List FunctionDecl} (wellFormed : ∀ method ∈ methods, method.WellFormed) :
    Tells
      (withScope ["this"] (methods.mapM fun method =>
        markFunction (around.enterFunction (methodContext method)) depth method))
      regions
      (Reports (methods.map fun method =>
        ⟨.method method.name.lexeme :: path, earlier, .function method⟩)) := by
  have within (method : FunctionDecl) (name : String) :
      .initializer name ∉ Enclosure.method method.name.lexeme :: path :=
    fun member => plain name (by simpa using member)
  apply Tells.withScope Region.state?_receiver
  apply tells_mapM
  · intro method member
    exact (statementMarks True depth).function (suits.method method) rfl (wellFormed method member)
  · intro method member
    exact tells.function earlier (suits.method method) (surrounds.method method) (within method) rfl
      (wellFormed method member)

theorem tells_class {depth : Nat} (tells : StatementTells depth) (suits : regions.Suits around)
    (surrounds : Surrounds path around) (plain : ∀ name, .initializer name ∉ path)
    (settled : regions.Settled) {name : Token} {superclass : Option NameUse}
    {methods : List FunctionDecl} (wellFormed : (Stmt.class name superclass methods).WellFormed) :
    Tells (markClass around (depth + 1) name superclass methods) regions
      (Reports [⟨path, regions.earlier?, .stmt (.class name superclass methods)⟩]) := by
  cases wellFormed with
  | «class» names hsuperclass hparams hbodies =>
      have hmethods : ∀ method ∈ methods, method.WellFormed :=
        fun method member => ⟨hparams method member, hbodies method member⟩
      have closed := Regions.begun?_hold settled name.lexeme
      have within (other : String) :
          .initializer other ∉ Enclosure.class superclass.isSome :: path :=
        fun member => plain other (by simpa using member)
      have first := tells_declareFully settled name
      have marks : Marks True (declareFully name) regions (regions.hold name.lexeme) _ :=
        Marks.declareFully settled
      cases superclass with
      | none =>
          have rest := tells_methods tells regions.earlier? (suits.base settled names) (surrounds.class none)
            within hmethods
          exact (Tells.adds marks first fun _ => rest.map).node rfl
      | some superclass =>
          have rest := tells_methods tells regions.earlier? (suits.derived settled names)
            (surrounds.class (some superclass)) within hmethods
          have parent : Tells (markVariable superclass.name) (regions.hold name.lexeme)
              (Reports [⟨path, regions.earlier?, .expr (.variable superclass)⟩]) :=
            (tells_variable (initializes_of_settled plain closed) _).leaf rfl
          have parts (use : NameUse) :
              Tells (do
                let methods ← withScope ["super"] (withScope ["this"] (methods.mapM fun method =>
                  markFunction ((around.enterClass .derived).enterFunction (methodContext method))
                    depth method))
                return Stmt.class name (some use) methods) (regions.hold name.lexeme) _ :=
            (rest.withScope Region.state?_superclass).map
          have compared : Tells (reportIf (name.lexeme = superclass.name.lexeme) superclass.name
              .selfInheritance) (regions.hold name.lexeme) _ :=
            .reportIf decide_eq_true_iff _ _
          refine Tells.node (Tells.adds_adds marks first fun _ => ?_) rfl
          refine .adds (.reportIf _ _ _) compared fun _ => ?_
          exact .bind (.markVariable (suits.hold names).regular _) parent parts
            fun _ _ => Reports.append

theorem tells_var (suits : regions.Suits around) (surrounds : Surrounds path around)
    (plain : ∀ name, .initializer name ∉ path) (settled : regions.Settled) (depth : Nat)
    {name : Token} {initializer : Option Expr}
    (wellFormed : (Stmt.var name initializer).WellFormed) :
    Tells (markStmt around (depth + 1) (.var name initializer)) regions
      (Reports [⟨path, regions.earlier?, .stmt (.var name initializer)⟩]) := by
  cases wellFormed with
  | var names hinitializer =>
      have within := suits.begin names
      have value : Tells (markOption (markExpr around depth) initializer)
          (regions.begin name.lexeme) (Reports _) :=
        tells_option fun inner present =>
          tells_expr within (surrounds.initializer_cons name.lexeme)
            (initializes_begin plain settled name.lexeme) regions.earlier? depth
            (hinitializer inner present)
      refine Tells.node (Tells.adds (.declare settled)
        (tells_declare settled name) fun _ => ?_) rfl
      refine .bind_silent (marks_expr? within depth hinitializer) value fun _ => ?_
      exact .silent_bind (.complete settled) (.updateScopes _) fun _ => .pure _

theorem tells_stmt {depth : Nat} (tells : StatementTells depth) (suits : regions.Suits around)
    (surrounds : Surrounds path around) (plain : ∀ name, .initializer name ∉ path)
    (settled : regions.Settled) {stmt : Stmt} (wellFormed : stmt.WellFormed) :
    Tells (markStmt around (depth + 1) stmt) regions
      (Reports [⟨path, regions.earlier?, .stmt stmt⟩]) := by
  have initializes := initializes_of_settled plain settled.begun?
  have expr {part : Expr} (inner : part.WellFormed) :
      Tells (markExpr around depth part) regions
        (Reports [⟨path, regions.earlier?, .expr part⟩]) :=
    tells_expr suits surrounds initializes _ depth inner
  have expr? {part : Option Expr} (inner : WellFormedExpr? part) :
      Tells (markOption (markExpr around depth) part) regions
        (Reports (part.toList.map fun part => ⟨path, regions.earlier?, .expr part⟩)) :=
    tells_option fun found present => expr (inner found present)
  have marksExpr {part : Expr} (inner : part.WellFormed) :
      Marks True (markExpr around depth part) regions regions (MarkedExpr True regions part) :=
    marks_expr suits depth inner
  have marksStmt {stmt : Stmt} (inner : stmt.WellFormed) (quiet : stmt.declared? = none) :
      Marks True (markStmt around depth stmt) regions regions (MarkedStmt True regions stmt) := by
    have marks := (statementMarks True depth).stmt suits settled inner
    rwa [Regions.after_of_none quiet] at marks
  cases wellFormed with
  | @block statements inner =>
      have blockSuits : (Regions.inside (.block (.ofList [])) regions).Suits around :=
        ⟨⟨Regions.regular_ofList nofun, settled.begun?, suits.regular⟩, suits.inClass⟩
      have body := tells.stmts blockSuits surrounds plain rfl inner
      exact (body.withScope fun _ => rfl).map.through rfl rfl
  | «break» | «continue» =>
      refine Tells.leaf (.bind_silent (.reportIf _ _ _)
        (.reportIf ?_ _ _) fun _ => .pure _) rfl
      rw [Bool.not_eq_true', ← Bool.not_eq_true]
      exact not_congr surrounds.inLoop
  | «class» names parent params bodies =>
      exact tells.class suits surrounds plain settled (.class names parent params bodies)
  | expression inner | print inner => exact (expr inner).map.through rfl rfl
  | @function declaration names hparams hbody =>
      have held := suits.hold names
      have inner : (regions.hold declaration.name.lexeme).Suits (around.enterFunction .function) :=
        ⟨held.regular, held.inClass⟩
      have within (name : String) : .initializer name ∉ Enclosure.function :: path :=
        fun member => plain name (by simpa using member)
      have body := tells.function regions.earlier? inner surrounds.function within
        (Regions.begun?_hold settled _) ⟨hparams, hbody⟩
      exact (Tells.adds (.declareFully settled) (tells_declareFully settled _)
        fun _ => body.map).node rfl
  | @«if» condition thenBranch elseBranch hcondition thenQuiet hthen elseQuiet helse =>
      have thenTells := tells.stmt suits surrounds plain settled hthen
      have elseTells : Tells (markOption (markStmt around depth) elseBranch) regions (Reports _) :=
        tells_option fun found present =>
          tells.stmt suits surrounds plain settled (helse found present)
      refine Tells.through ?_ rfl rfl
      refine .bind (marksExpr hcondition) (expr hcondition) (fun _ => ?_) fun _ _ => Reports.append
      exact .bind (marksStmt hthen thenQuiet) thenTells (fun _ => elseTells.map)
        fun _ _ => Reports.append
  | @«return» keyword value hvalue =>
      refine Tells.node (Tells.adds_adds (.reportIf _ _ _)
        (.reportIf (decide_eq_true_iff.trans surrounds.outside) _ _) fun _ => ?_) rfl
      refine .adds (.reportIf _ _ _) (.reportIf ?_ _ _) fun _ => (expr? hvalue).map
      rw [Bool.and_eq_true, decide_eq_true_iff]
      exact and_congr_right fun _ => surrounds.initializer
  | var names hinitializer => exact tells_var suits surrounds plain settled depth (.var names hinitializer)
  | @«while» condition body increment hcondition quiet hbody hincrement =>
      have loopSuits : regions.Suits around.enterLoop := ⟨suits.regular, suits.inClass⟩
      have within (name : String) : .initializer name ∉ Enclosure.loopBody :: path :=
        fun member => plain name (by simpa using member)
      have bodyTells := tells.stmt loopSuits surrounds.loopBody within settled hbody
      have bodyMarks := (statementMarks True depth).stmt loopSuits settled hbody
      rw [Regions.after_of_none quiet] at bodyMarks
      refine Tells.through ?_ rfl rfl
      refine .bind (marksExpr hcondition) (expr hcondition) (fun _ => ?_) fun _ _ => Reports.append
      exact .bind bodyMarks bodyTells (fun _ => (expr? hincrement).map) fun _ _ => Reports.append

theorem statementTells (depth : Nat) : StatementTells depth := by
  induction depth with
  | zero =>
      exact ⟨fun _ _ _ _ _ => .tooDeep, fun _ _ _ _ _ => .tooDeep, fun _ _ _ _ _ _ => .tooDeep,
        fun _ _ _ _ _ => .tooDeep⟩
  | succ depth ih =>
      exact {
        stmt := fun suits surrounds plain settled wellFormed =>
          tells_stmt ih suits surrounds plain settled wellFormed
        stmts := fun suits surrounds plain settled wellFormed =>
          tells_stmts ih suits surrounds plain settled wellFormed
        function := fun earlier suits surrounds plain closed wellFormed =>
          tells_function ih earlier suits surrounds plain closed wellFormed
        «class» := fun suits surrounds plain settled wellFormed =>
          tells_class ih suits surrounds plain settled wellFormed }

/-! ## Programs -/

/-- What is marked in the global scope is reported as it is in a program by itself, whatever names are there. -/
theorem reports_of_markStmts {limit : Nat} {names : Names} {scopes : Scopes}
    {errors : Array ResolutionError} {statements marked : List Stmt} {state : State}
    (wellFormed : ∀ stmt ∈ statements, stmt.WellFormed) (settled : names.begun = none)
    (tracks : Tracks (.global names) scopes)
    (h : markStmts .topLevel limit statements ⟨scopes, errors⟩ = .ok marked state) :
    Tracks ((Regions.global names).afterAll statements) state.scopes ∧
      ∃ found, Reports [.program statements] found ∧
        state.errors.toList = errors.toList ++ found := by
  have suits : (Regions.global names).Suits .topLevel := ⟨trivial, rfl⟩
  have marks := (statementMarks True limit).stmts suits settled wellFormed
  have tells := (statementTells limit).stmts suits .topLevel nofun settled wellFormed
  obtain ⟨tracked, -⟩ := marks _ _ _ _ tracks h
  obtain ⟨found, herrors, reports⟩ := tells _ _ _ _ tracks h
  exact ⟨tracked, found, reports, herrors⟩

/-- The errors of marking are the breaches of the static rules, one for each token that breaks a rule and in the
order in which the nodes are come to. Afterwards there is only the global scope, whose declarations are
complete, and nothing lies around the place: what is marked from there is reported as by itself. -/
theorem marking_reports (depth limit : Nat) {tokens : List Token}
    (spelled : ∀ token ∈ tokens, token.Spelled) {marked : Marked}
    (shallow : mark? limit (Program.ofTokens depth tokens).statements = some marked) :
    (∀ found, Reports [.program (Program.ofTokens depth tokens).statements] found ↔
        found = marked.errors) ∧
      ∃ scope, markStmts .topLevel limit (Program.ofTokens depth tokens).statements
          ⟨.global, #[]⟩ = .ok marked.statements ⟨[scope], marked.errors.toArray⟩ ∧
        (∀ name, scope.get? name =
          if name ∈ declaredNames (Program.ofTokens depth tokens).statements then some true
          else none) ∧
        ∀ depth limit : Nat, ∀ more : List Token, (∀ token ∈ more, token.Spelled) →
          ∀ others last, markStmts .topLevel limit (Program.ofTokens depth more).statements
            ⟨[scope], #[]⟩ = .ok others last →
          ∀ found, Reports [.program (Program.ofTokens depth more).statements] found ↔
            found = last.errors.toList := by
  have wellFormed := Program.wellFormed_ofTokens depth spelled
  have exactly {visits : List Visit} {errors : List ResolutionError}
      (reports : Reports visits errors) (found : List ResolutionError) :
      Reports visits found ↔ found = errors :=
    ⟨fun other => other.unique reports, fun same => same ▸ reports⟩
  unfold mark? at shallow
  cases hrun : markStmts .topLevel limit (Program.ofTokens depth tokens).statements
      ⟨.global, #[]⟩ with
  | error _ _ =>
      rw [hrun] at shallow
      cases shallow
  | ok result state =>
      rw [hrun] at shallow
      cases shallow
      obtain ⟨tracked, found, reports, herrors⟩ :=
        reports_of_markStmts wellFormed rfl tracks_global hrun
      obtain ⟨names, behind, closed, held⟩ :=
        afterAll_global (.ofList []) rfl (Program.ofTokens depth tokens).statements
      have tracked : Tracks (.global names) state.scopes := by
        rw [← behind]
        exact tracked
      have same : state.errors.toList = found := herrors
      refine ⟨exactly (same ▸ reports), ?_⟩
      obtain ⟨scopes, errors⟩ := state
      cases tracked with
      | @global _ scope states =>
          refine ⟨scope, rfl, fun name => ?_, ?_⟩
          · rw [states, Names.state?, closed, if_neg (by rintro ⟨⟩)]
            simp only [held, Names.ofList, List.not_mem_nil, or_false]
          · intro depth limit more spelled others last hmore
            obtain ⟨-, found, reports, herrors⟩ := reports_of_markStmts
              (Program.wellFormed_ofTokens depth spelled) closed (.global states) hmore
            have same : last.errors.toList = found := herrors
            exact exactly (same ▸ reports)

/-- A name that is declared twice, the second time from itself, and a loop that is left from outside. -/
def breachingText : List Token :=
  [⟨.leftBrace, "\x7b", .none, 1⟩, ⟨.var, "var", .none, 1⟩, ⟨.identifier, "a", .none, 1⟩,
    ⟨.semicolon, ";", .none, 1⟩, ⟨.var, "var", .none, 2⟩, ⟨.identifier, "a", .none, 2⟩,
    ⟨.equal, "=", .none, 2⟩, ⟨.identifier, "a", .none, 2⟩, ⟨.semicolon, ";", .none, 2⟩,
    ⟨.break, "break", .none, 3⟩, ⟨.semicolon, ";", .none, 3⟩, ⟨.rightBrace, "\x7d", .none, 3⟩,
    .final 3]

def breachingErrors : List ResolutionError :=
  [⟨.redeclaration, ⟨.identifier, "a", .none, 2⟩⟩, ⟨.ownInitializer, ⟨.identifier, "a", .none, 2⟩⟩,
    ⟨.breakOutsideLoop, ⟨.break, "break", .none, 3⟩⟩]

def breachingMarked : List Stmt :=
  [.block [.var ⟨.identifier, "a", .none, 1⟩ none,
    .var ⟨.identifier, "a", .none, 2⟩ (some (.variable ⟨⟨.identifier, "a", .none, 2⟩, some 0⟩)),
    .break ⟨.break, "break", .none, 3⟩]]

theorem marking_reports_breaching :
    Reports [.program (Program.ofTokens 24 breachingText).statements] breachingErrors := by
  have spelled : ∀ token ∈ breachingText, token.Spelled := by
    intro token member
    simp only [breachingText, List.mem_cons, List.not_mem_nil, or_false] at member
    rcases member with rfl | rfl | rfl | rfl | rfl | rfl | rfl | rfl | rfl | rfl | rfl | rfl | rfl
    all_goals exact ⟨by decide, by decide, by decide⟩
  have shallow : mark? 16 (Program.ofTokens 24 breachingText).statements =
      some ⟨breachingMarked, breachingErrors⟩ := rfl
  exact ((marking_reports 24 16 spelled shallow).1 _).mpr rfl

end LoxLang.Scoping
