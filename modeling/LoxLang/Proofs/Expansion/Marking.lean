import LoxLang.Proofs.Expansion.Scopes
import LoxLang.Proofs.Scoping.Lexical

/-!
Marking an expansion. It breaks the static rules where the other text does, and its marks are as far out as those of the
other text once the empty scopes between are counted.
-/

namespace LoxLang.Scoping

variable {α β γ δ : Type} {s t u s' t' u' : Scopes} {gaps : Gaps} {free : Prop}

/-! ## Two markers side by side -/

/-- If neither marker gives up, they go from these scopes to those, report the same errors and have related results. -/
def Together (s t s' t' : Scopes) (related : α → β → Prop) (marker : Marker α)
    (other : Marker β) : Prop :=
  ∀ errors value last value' last', marker ⟨s, errors⟩ = .ok value last →
    other ⟨s', errors⟩ = .ok value' last' →
    ∃ found, last = ⟨t, found⟩ ∧ last' = ⟨t', found⟩ ∧ related value value'

/-- The marker always gives up. -/
def Fails (marker : Marker α) : Prop :=
  ∀ state value last, marker state ≠ .ok value last

theorem fails_tooDeep : Fails (tooDeep : Marker α) := by
  rintro state value last ⟨⟩

theorem Fails.bind_left {marker : Marker α} (h : Fails marker) (next : α → Marker β) :
    Fails (marker >>= next) := by
  intro state result last run
  obtain ⟨value, middle, begins, -⟩ := exists_of_bind_ok run
  exact h state value middle begins

theorem Fails.bind_right (marker : Marker α) {next : α → Marker β} (h : ∀ value, Fails (next value)) :
    Fails (marker >>= next) := by
  intro state result last run
  obtain ⟨value, middle, -, ends⟩ := exists_of_bind_ok run
  exact h value middle result last ends

namespace Together

variable {related stronger : α → β → Prop} {further : γ → δ → Prop} {marker : Marker α}
  {other : Marker β} {next : α → Marker γ} {next' : β → Marker δ}

theorem pure {value : α} {value' : β} (h : related value value') :
    Together s s s' s' related (Pure.pure value) (Pure.pure value') := by
  intro errors _ _ _ _ run run'
  cases run
  cases run'
  exact ⟨errors, rfl, rfl, h⟩

theorem tooDeep_left : Together s t s' t' related tooDeep other := by
  intro errors _ _ _ _ run
  cases run

theorem of_fails (h : Fails other) : Together s t s' t' related marker other :=
  fun _ _ _ value' last' _ run => absurd run (h _ value' last')

theorem bind (first : Together s t s' t' related marker other)
    (second : ∀ value value', related value value' →
      Together t u t' u' further (next value) (next' value')) :
    Together s u s' u' further (marker >>= next) (other >>= next') := by
  intro errors result last result' last' run run'
  obtain ⟨value, middle, begins, ends⟩ := exists_of_bind_ok run
  obtain ⟨value', middle', begins', ends'⟩ := exists_of_bind_ok run'
  obtain ⟨found, rfl, rfl, values⟩ := first _ _ _ _ _ begins begins'
  exact second value value' values _ _ _ _ _ ends ends'

theorem map {make : α → γ} {make' : β → δ} (h : Together s t s' t' related marker other)
    (makes : ∀ value value', related value value' → further (make value) (make' value')) :
    Together s t s' t' further (do return make (← marker)) (do return make' (← other)) :=
  h.bind fun value value' values => .pure (makes value value' values)

theorem map_right {make : β → δ} {between : α → δ → Prop}
    (h : Together s t s' t' related marker other)
    (makes : ∀ value value', related value value' → between value (make value')) :
    Together s t s' t' between marker (do return make (← other)) := by
  have all : Together s t s' t' between (do return id (← marker)) (do return make (← other)) := h.map makes
  rwa [show (do return id (← marker)) = marker from bind_pure marker] at all

theorem mono (h : Together s t s' t' stronger marker other)
    (weaken : ∀ value value', stronger value value' → related value value') :
    Together s t s' t' related marker other := by
  intro errors value last value' last' run run'
  obtain ⟨found, same, same', values⟩ := h _ _ _ _ _ run run'
  exact ⟨found, same, same', weaken _ _ values⟩

theorem get_bind {next : State → Marker γ} {next' : State → Marker δ}
    (h : ∀ errors, Together s t s' t' further (next ⟨s, errors⟩) (next' ⟨s', errors⟩)) :
    Together s t s' t' further (get >>= next) (get >>= next') :=
  fun errors => h errors errors

theorem updateScopes (update update' : Scopes → Scopes) :
    Together s (update s) s' (update' s') (fun _ _ => True) (Scoping.updateScopes update)
      (Scoping.updateScopes update') := by
  intro errors _ _ _ _ run run'
  cases run
  cases run'
  exact ⟨errors, rfl, rfl, trivial⟩

theorem reportIf (condition : Bool) (token : Token) (cause : ResolutionError.Cause) :
    Together s s s' s' (fun _ _ => True) (Scoping.reportIf condition token cause)
      (Scoping.reportIf condition token cause) := by
  intro errors _ _ _ _ run run'
  cases condition <;> cases run <;> cases run' <;> exact ⟨_, rfl, rfl, trivial⟩

theorem withScope {names : List String}
    (body : Together (s.enter names) t (s'.enter names) t' related marker other)
    (back : t.leave = s) (back' : t'.leave = s') :
    Together s s s' s' related (Scoping.withScope names marker)
      (Scoping.withScope names other) := by
  have leaves : Together t t.leave t' t'.leave (fun _ _ => True) (Scoping.updateScopes .leave)
      (Scoping.updateScopes .leave) := updateScopes .leave .leave
  rw [back, back'] at leaves
  exact (updateScopes _ _).bind fun _ _ _ => body.bind fun _ _ values =>
    leaves.bind fun _ _ _ => .pure values

/-- Only the other marker changes its scopes, at the beginning. -/
theorem enter_right {update : Scopes → Scopes} {rest : Marker β}
    (h : Together s t (update s') t' related marker rest) :
    Together s t s' t' related marker (do
      Scoping.updateScopes update
      rest) :=
  fun errors value last value' last' run run' => h errors value last value' last' run run'

/-- Only the other marker changes its scopes, at the end. -/
theorem leave_right {update : Scopes → Scopes} {make : β → δ} {first : Marker γ}
    (h : Together s t s' t' further first (do return make (← other))) :
    Together s t s' (update t') further first (do
      let result ← other
      Scoping.updateScopes update
      return make result) := by
  intro errors value last value' last' run run'
  obtain ⟨result, middle, begins, ends⟩ := exists_of_bind_ok run'
  have again : (do return make (← other) : Marker δ) ⟨s', errors⟩ = .ok (make result) middle := bind_ok begins
  obtain ⟨found, same, rfl, values⟩ := h _ _ _ _ _ run again
  cases ends
  exact ⟨found, same, rfl, values⟩

theorem mapM {items : List α} {items' : List β} {mark : α → Marker γ} {mark' : β → Marker δ}
    (count : items.length = items'.length)
    (each : ∀ item item', (item, item') ∈ items.zip items' →
      Together s s s' s' further (mark item) (mark' item')) :
    Together s s s' s' (List.Forall₂ further) (items.mapM mark) (items'.mapM mark') := by
  have all := List.forall₂_iff_zip.mpr ⟨count, fun member => each _ _ member⟩
  clear each count
  induction all with
  | nil => exact .pure .nil
  | cons first _ ih =>
      rw [List.mapM_cons, List.mapM_cons]
      exact first.bind fun _ _ head => ih.map fun _ _ => .cons head

/-! ## Names -/

theorem declare (h : s.Expands (0 :: gaps) s') (name : Token) :
    Together s (s.mark name.lexeme false) s' (s'.mark name.lexeme false) (fun _ _ => True)
      (Scoping.declare name) (Scoping.declare name) := by
  refine .get_bind fun _ => ?_
  dsimp only
  rw [h.redeclares]
  exact (reportIf _ _ _).bind fun _ _ _ => updateScopes _ _

theorem declareFully (h : s.Expands (0 :: gaps) s') (name : Token) :
    Together s (s.declare name) s' (s'.declare name) (fun _ _ => True)
      (Scoping.declareFully name) (Scoping.declareFully name) :=
  (declare h name).bind fun _ _ _ => updateScopes _ _

theorem params (h : s.Expands (0 :: gaps) s') (params : List Token) :
    Together s (s.declareAll params) s' (s'.declareAll params) (fun _ _ => True)
      (params.forM Scoping.declareFully) (params.forM Scoping.declareFully) := by
  induction params generalizing s s' with
  | nil => exact .pure trivial
  | cons param params ih =>
      exact (declareFully h param).bind fun _ _ _ => ih (h.declare param)

theorem locate (h : s.Expands gaps s') (name : Token) :
    Together s s s' s' (fun use use' => use.Expands gaps use' ∧ use = ⟨name, s.hops? name.lexeme⟩)
      (Scoping.locate name) (Scoping.locate name) := by
  refine .get_bind fun _ => .pure ⟨⟨rfl, ?_⟩, rfl⟩
  exact h.hops? name.lexeme

theorem markVariable (h : s.Expands gaps s') (name : Token) :
    Together s s s' s' (NameUse.Expands gaps) (Scoping.markVariable name)
      (Scoping.markVariable name) := by
  refine .get_bind fun _ => ?_
  dsimp only
  rw [h.isDeclaring]
  exact (reportIf _ _ _).bind fun _ _ _ => (locate h name).mono fun _ _ => And.left

theorem markThis (h : s.Expands gaps s') (around : Surroundings) {keyword keyword' : NameUse}
    (uses : keyword.Expands gaps keyword') :
    Together s s s' s' (NameUse.Expands gaps) (Scoping.markThis around keyword)
      (Scoping.markThis around keyword') := by
  unfold Scoping.markThis
  rw [uses.name]
  split
  · exact (reportIf true _ _).bind fun _ _ _ => .pure uses
  · exact (locate h _).mono fun _ _ => And.left

theorem markSuper (h : s.Expands gaps s') (around : Surroundings) {keyword : Token}
    (spelling : keyword.lexeme = "super") :
    Together s s s' s'
      (fun use use' => use.Expands gaps use' ∧ ∀ hops, use.hops = some hops → gaps.Tight hops)
      (Scoping.markSuper around keyword) (Scoping.markSuper around keyword) := by
  have found : Together s s s' s'
      (fun use use' => use.Expands gaps use' ∧ ∀ hops, use.hops = some hops → gaps.Tight hops)
      (Scoping.locate keyword) (Scoping.locate keyword) := by
    refine (locate h keyword).mono ?_
    rintro use use' ⟨uses, rfl⟩
    refine ⟨uses, fun hops marked => h.tight ?_⟩
    rwa [← spelling]
  unfold Scoping.markSuper
  cases around.inClass with
  | none | base => exact (reportIf true _ _).bind fun _ _ _ => found
  | derived => exact found

end Together

/-! ## Expressions -/

theorem markThis_congr {around around' : Surroundings} (same : around'.inClass = around.inClass)
    (keyword : NameUse) : markThis around' keyword = markThis around keyword := by
  rw [markThis, markThis, same]

theorem markSuper_congr {around around' : Surroundings} (same : around'.inClass = around.inClass)
    (keyword : Token) : markSuper around' keyword = markSuper around keyword := by
  rw [markSuper, markSuper, same]

/-- An expression looks at the class around it only. -/
theorem together_expr (h : s.Expands gaps s') {around around' : Surroundings}
    (same : around'.inClass = around.inClass) {expr expr' : Expr} (wellFormed : expr.WellFormed)
    (expands : expr.Expands gaps expr') (depth depth' : Nat) :
    Together s s s' s' (Expr.Expands gaps) (markExpr around depth expr)
      (markExpr around' depth' expr') := by
  induction depth generalizing depth' expr expr' with
  | zero => exact .tooDeep_left
  | succ depth ih =>
      cases depth' with
      | zero => exact .of_fails fails_tooDeep
      | succ depth' =>
          cases expands with
          | assign target value =>
              cases wellFormed with
              | assign _ given =>
                  refine (ih given value depth').bind fun _ _ values => ?_
                  rw [target.name]
                  exact (Together.locate h _).map fun _ _ uses => .assign uses.1 values
          | binary left right =>
              cases wellFormed with
              | binary _ first second =>
                  exact (ih first left depth').bind fun _ _ lefts =>
                    (ih second right depth').map fun _ _ => .binary lefts
          | call called count arguments =>
              cases wellFormed with
              | call first each =>
                  refine (ih first called depth').bind fun _ _ calls => ?_
                  refine (Together.mapM count fun argument argument' member => ?_).map
                    fun _ _ all => .call calls all.length_eq fun _ _ => List.forall₂_zip all
                  exact ih (each argument (List.of_mem_zip member).1)
                    (arguments argument argument' member) depth'
          | get object =>
              cases wellFormed with
              | get given => exact (ih given object depth').map fun _ _ => .get
          | grouping inner =>
              cases wellFormed with
              | grouping given => exact (ih given inner depth').map fun _ _ => .grouping
          | literal => exact .pure .literal
          | logical left right =>
              cases wellFormed with
              | logical first second =>
                  exact (ih first left depth').bind fun _ _ lefts =>
                    (ih second right depth').map fun _ _ => .logical lefts
          | set object value =>
              cases wellFormed with
              | set first second =>
                  exact (ih second value depth').bind fun _ _ values =>
                    (ih first object depth').map fun _ _ objects => .set objects values
          | super keyword _ =>
              cases wellFormed with
              | super _ spelling =>
                  rw [markExpr, markExpr, markSuper_congr same, keyword.name]
                  exact (Together.markSuper h around spelling).map fun _ _ uses =>
                    .super uses.1 uses.2
          | this keyword =>
              rw [markExpr, markExpr, markThis_congr same]
              exact (Together.markThis h around keyword).map fun _ _ => .this
          | unary right =>
              cases wellFormed with
              | unary _ given => exact (ih given right depth').map fun _ _ => .unary
          | «variable» use =>
              rw [markExpr, markExpr, use.name]
              exact (Together.markVariable h _).map fun _ _ => .variable

theorem together_expr? (h : s.Expands gaps s') (around : Surroundings) {expr expr' : Option Expr}
    (wellFormed : WellFormedExpr? expr) (expands : Expr?.Expands gaps expr expr')
    (depth depth' : Nat) :
    Together s s s' s' (Expr?.Expands gaps) (markOption (markExpr around depth) expr)
      (markOption (markExpr around depth') expr') := by
  cases expands with
  | none => exact .pure .none
  | some expands =>
      exact (together_expr h rfl (wellFormed _ rfl) expands depth depth').map fun _ _ => .some

/-! ## Statements -/

/-- The name that a statement declares, if the node is one. -/
def Node.declared? : Node → Option Token
  | .stmt part => part.declared?
  | _ => none

theorem declared?_of_expands {node node' : Node} (h : Node.Expands free gaps node node') :
    node'.declared? = node.declared? ∧ (node.declared? ≠ none → gaps.head? = some 0) := by
  induction h with
  | «class» | subclass | var => exact ⟨rfl, fun _ => rfl⟩
  | function h =>
      cases h
      exact ⟨rfl, fun _ => rfl⟩
  | @brace _ _ stmt _ _ _ ih =>
      have plain : stmt.declared? = none := by
        by_contra declares
        cases ih.2 declares
      exact ⟨plain.symm, fun declares => absurd plain declares⟩
  | _ => exact ⟨rfl, fun declares => (declares rfl).elim⟩

/-- The scopes behind a statement and an expansion of it. -/
theorem Scopes.Expands.after {stmt stmt' : Stmt} (h : s.Expands gaps s')
    (expands : Node.Expands free gaps (.stmt stmt) (.stmt stmt')) :
    (s.after stmt).Expands gaps (s'.after stmt') := by
  obtain ⟨same, closed⟩ := declared?_of_expands expands
  change stmt'.declared? = stmt.declared? at same
  change stmt.declared? ≠ none → _ at closed
  unfold Scopes.after
  rw [same]
  cases declares : stmt.declared? with
  | none => exact h
  | some name =>
      rw [declares] at closed
      obtain ⟨outer, rfl⟩ := List.head?_eq_some_iff.mp (closed (Option.some_ne_none name))
      exact h.declare name

theorem isSome_of_rel {related : α → β → Prop} {item : Option α} {item' : Option β}
    (h : Option.Rel related item item') : item'.isSome = item.isSome := by
  cases h <;> rfl

/-- What marking makes of a statement and of an expansion of it. -/
def MarkedAs (free : Prop) (gaps : Gaps) (stmt : Stmt) (marked marked' : Stmt) : Prop :=
  Node.Expands free gaps (.stmt marked) (.stmt marked') ∧ marked.continues = stmt.continues

/-- Markers of any depth, next to those of a certain depth for expansions. -/
structure MarksTogether (free : Prop) (depth' : Nat) : Prop where
  stmt {s s' : Scopes} {gaps : Gaps} {stmt stmt' : Stmt} (around : Surroundings) (depth : Nat) :
    s.Expands gaps s' → s.Ready → stmt.WellFormed →
    Node.Expands free gaps (.stmt stmt) (.stmt stmt') →
    Together s (s.after stmt) s' (s'.after stmt') (MarkedAs free gaps stmt)
      (markStmt around depth stmt) (markStmt around depth' stmt')
  stmts {s s' : Scopes} {gaps : Gaps} {statements statements' : List Stmt} (around : Surroundings)
    (depth : Nat) : s.Expands gaps s' → s.Ready → (∀ stmt ∈ statements, stmt.WellFormed) →
    Node.Expands free gaps (.statements statements) (.statements statements') →
    Together s (s.afterAll statements) s' (s'.afterAll statements')
      (fun marked marked' => Node.Expands free gaps (.statements marked) (.statements marked') ∧
        continuesAny marked = continuesAny statements)
      (markStmts around depth statements) (markStmts around depth' statements')
  function {s s' : Scopes} {gaps : Gaps} {declaration declaration' : FunctionDecl}
    (around : Surroundings) (depth : Nat) : s.Expands gaps s' → declaration.WellFormed →
    Node.Expands free gaps (.function declaration) (.function declaration') →
    Together s s s' s'
      (fun marked marked' => Node.Expands free gaps (.function marked) (.function marked'))
      (markFunction around depth declaration) (markFunction around depth' declaration')
  «class» {s s' : Scopes} {gaps : Gaps} {name : Token} {superclass superclass' : Option NameUse}
    {methods methods' : List FunctionDecl} (around : Surroundings) (depth : Nat) :
    s.Expands gaps s' → (Stmt.class name superclass methods).WellFormed →
    Node.Expands free gaps (.stmt (.class name superclass methods))
      (.stmt (.class name superclass' methods')) →
    Together s (s.declare name) s' (s'.declare name)
      (MarkedAs free gaps (.class name superclass methods))
      (markClass around depth name superclass methods)
      (markClass around depth' name superclass' methods')

namespace MarksTogether

variable {depth' : Nat}

theorem zero (free : Prop) : MarksTogether free 0 where
  stmt _ _ _ _ _ _ := .of_fails fails_tooDeep
  stmts _ _ _ _ _ _ := .of_fails fails_tooDeep
  function _ _ _ _ _ := .of_fails fails_tooDeep
  «class» _ _ _ _ _ := .of_fails fails_tooDeep

/-- A branch declares nothing, so the scopes behind it are those before it. -/
theorem branch (marks : MarksTogether free depth') {stmt stmt' : Stmt} (around : Surroundings) (depth : Nat)
    (h : s.Expands gaps s') (ready : s.Ready) (wellFormed : stmt.WellFormed) (plain : stmt.declared? = none)
    (expands : Node.Expands free gaps (.stmt stmt) (.stmt stmt')) :
    Together s s s' s' (MarkedAs free gaps stmt) (markStmt around depth stmt) (markStmt around depth' stmt') := by
  have both := marks.stmt around depth h ready wellFormed expands
  have plain' := (declared?_of_expands expands).1.trans plain
  rwa [Scopes.after_of_none plain, Scopes.after_of_none plain'] at both

theorem stmts_succ (marks : MarksTogether free depth') {statements statements' : List Stmt}
    (around : Surroundings) (depth : Nat) (h : s.Expands gaps s') (ready : s.Ready)
    (wellFormed : ∀ stmt ∈ statements, stmt.WellFormed)
    (expands : Node.Expands free gaps (.statements statements) (.statements statements')) :
    Together s (s.afterAll statements) s' (s'.afterAll statements')
      (fun marked marked' => Node.Expands free gaps (.statements marked) (.statements marked') ∧
        continuesAny marked = continuesAny statements)
      (statements.mapM (markStmt around depth)) (statements'.mapM (markStmt around depth')) := by
  induction statements generalizing s s' statements' with
  | nil =>
      cases expands
      exact .pure ⟨.nil, rfl⟩
  | cons stmt rest ih =>
      cases expands with
      | cons first later =>
          obtain ⟨given, others⟩ := List.forall_mem_cons.mp wellFormed
          rw [List.mapM_cons, List.mapM_cons]
          refine (marks.stmt around depth h ready given first).bind fun _ _ head => ?_
          have behind : (s.after stmt).Ready := ready.after fun _ => names_of_declared? given
          refine (ih (h.after first) behind others later).map fun _ _ tail => ?_
          exact ⟨.cons head.1 tail.1, congrArg₂ (· || ·) head.2 tail.2⟩

theorem function_succ (marks : MarksTogether free depth') {declaration declaration' : FunctionDecl}
    (around : Surroundings) (depth : Nat) (h : s.Expands gaps s')
    (wellFormed : declaration.WellFormed)
    (expands : Node.Expands free gaps (.function declaration) (.function declaration')) :
    Together s s s' s'
      (fun marked marked' => Node.Expands free gaps (.function marked) (.function marked'))
      (markFunction around (depth + 1) declaration)
      (markFunction around (depth' + 1) declaration') := by
  cases expands with
  | @declaration _ name params body body' code =>
      obtain ⟨names, each⟩ := wellFormed
      have inner := (h.enter []).declareAll params
      have ready := (Scopes.ready_enter s).declareAll names
      have makes : Together _ _ _ _
          (fun marked marked' => Node.Expands free gaps (.function marked) (.function marked'))
          (do return FunctionDecl.mk name params (← markStmts around depth body))
          (do return FunctionDecl.mk name params (← markStmts around depth' body')) :=
        (marks.stmts around depth inner ready each code).map fun _ _ bodies => .declaration bodies.1
      have all := (Together.params (h.enter []) params).bind fun _ _ _ => makes
      refine all.withScope ?_ ?_
      · rw [Scopes.leave_afterAll, Scopes.leave_declareAll]
        rfl
      · rw [Scopes.leave_afterAll, Scopes.leave_declareAll]
        rfl

theorem methods (marks : MarksTogether free depth') {methods methods' : List FunctionDecl}
    (around : Surroundings) (depth : Nat) (h : s.Expands gaps s')
    (wellFormed : ∀ method ∈ methods, method.WellFormed) (count : methods.length = methods'.length)
    (each : ∀ method method', (method, method') ∈ methods.zip methods' →
      Node.Expands free gaps (.function method) (.function method')) :
    Together s s s' s'
      (List.Forall₂ fun marked marked' =>
        Node.Expands free gaps (.function marked) (.function marked'))
      (methods.mapM fun method =>
        markFunction (around.enterFunction (methodContext method)) depth method)
      (methods'.mapM fun method =>
        markFunction (around.enterFunction (methodContext method)) depth' method) := by
  refine .mapM count fun method method' member => ?_
  have code := each method method' member
  have context : methodContext method' = methodContext method := by
    cases code
    rfl
  rw [context]
  exact marks.function _ depth h (wellFormed method (List.of_mem_zip member).1) code

theorem class_succ (marks : MarksTogether free depth') {name : Token}
    {superclass superclass' : Option NameUse} {methods methods' : List FunctionDecl}
    (around : Surroundings) (depth : Nat) (h : s.Expands gaps s')
    (wellFormed : (Stmt.class name superclass methods).WellFormed)
    (expands : Node.Expands free gaps (.stmt (.class name superclass methods))
      (.stmt (.class name superclass' methods'))) :
    Together s (s.declare name) s' (s'.declare name)
      (MarkedAs free gaps (.class name superclass methods))
      (markClass around (depth + 1) name superclass methods)
      (markClass around (depth' + 1) name superclass' methods') := by
  have each : ∀ method ∈ methods, method.WellFormed := by
    cases wellFormed with
    | «class» _ _ params bodies =>
        exact fun method member => ⟨params method member, bodies method member⟩
  cases expands with
  | «class» count all =>
      refine (Together.declareFully h name).bind fun _ _ _ => ?_
      refine (Together.withScope (marks.methods _ depth ((h.declare name).enter ["this"]) each count
        all) rfl rfl).map fun _ _ made => ?_
      exact ⟨.class made.length_eq fun _ _ => List.forall₂_zip made, rfl⟩
  | @subclass _ _ use _ _ _ uses count all =>
      refine (Together.declareFully h name).bind fun _ _ _ => ?_
      dsimp only
      rw [uses.name]
      refine (Together.reportIf _ _ _).bind fun _ _ _ => ?_
      refine (Together.markVariable (h.declare name) use.name).bind fun _ _ found => ?_
      have inner := ((h.declare name).enter ["super"]).enter ["this"]
      refine (Together.withScope (Together.withScope (marks.methods _ depth inner each count all)
        rfl rfl) rfl rfl).map fun _ _ made => ?_
      exact ⟨.subclass found made.length_eq fun _ _ => List.forall₂_zip made, rfl⟩

/-- Where there are braces around a statement, they are entered and left around it. -/
theorem markStmt_braces (around : Surroundings) (depth : Nat) (stmt : Stmt) :
    markStmt around (depth + 2) (.block [stmt]) = (do
      updateScopes (·.enter [])
      let inner ← markStmt around depth stmt
      updateScopes .leave
      return .block [inner]) := by
  simp only [markStmt, markStmts, withScope, List.mapM_cons, List.mapM_nil, bind_assoc, pure_bind]

theorem markStmt_loop (around : Surroundings) (depth : Nat) (condition increment : Expr)
    (body : Stmt) :
    markStmt around (depth + 4) (.while condition (.block [body, .expression increment]) none) = (do
      let condition ← markExpr around (depth + 3) condition
      updateScopes (·.enter [])
      let body ← markStmt around.enterLoop (depth + 1) body
      let increment ← markExpr around.enterLoop depth increment
      updateScopes .leave
      return .while condition (.block [body, .expression increment]) none) := by
  simp only [markStmt, markStmts, withScope, markOption, List.mapM_cons, List.mapM_nil, bind_assoc,
    pure_bind]

theorem fails_braces (around : Surroundings) {depth : Nat} (shallow : depth < 3) (stmt : Stmt)
    (rest : List Stmt) : Fails (markStmt around depth (.block (stmt :: rest))) := by
  have block {depth : Nat} (inner : Fails (markStmts around depth (stmt :: rest))) :
      Fails (markStmt around (depth + 1) (.block (stmt :: rest))) :=
    (Fails.bind_right _ fun _ => inner.bind_left _).bind_left _
  rcases depth with _ | _ | _ | depth
  · exact fails_tooDeep
  · exact block fails_tooDeep
  · refine block ?_
    rw [markStmts, List.mapM_cons]
    exact fails_tooDeep.bind_left _
  · omega

theorem stmt_succ (below : ∀ less < depth' + 1, MarksTogether free less) {stmt stmt' : Stmt}
    (around : Surroundings) (depth : Nat) (h : s.Expands gaps s') (ready : s.Ready)
    (wellFormed : stmt.WellFormed)
    (expands : Node.Expands free gaps (.stmt stmt) (.stmt stmt')) :
    Together s (s.after stmt) s' (s'.after stmt') (MarkedAs free gaps stmt)
      (markStmt around (depth + 1) stmt) (markStmt around (depth' + 1) stmt') := by
  have marks := below depth' (Nat.lt_succ_self depth')
  cases expands with
  | block inner =>
      cases wellFormed with
      | block each =>
          have all := marks.stmts around depth (h.enter []) s.ready_enter each inner
          refine (all.withScope ?_ ?_).map fun _ _ made => ⟨.block made.1, made.2⟩
          · rw [Scopes.leave_afterAll]
            rfl
          · rw [Scopes.leave_afterAll]
            rfl
  | «break» => exact (Together.reportIf _ _ _).map fun _ _ _ => ⟨.break, rfl⟩
  | «class» count all => exact marks.class around depth h wellFormed (.class count all)
  | subclass uses count all => exact marks.class around depth h wellFormed (.subclass uses count all)
  | «continue» => exact (Together.reportIf _ _ _).map fun _ _ _ => ⟨.continue, rfl⟩
  | expression value =>
      cases wellFormed with
      | expression given =>
          exact (together_expr h rfl given value depth depth').map fun _ _ made =>
            ⟨.expression made, rfl⟩
  | @function _ declaration declaration' code =>
      cases wellFormed with
      | function _ params body =>
          have name : declaration'.name = declaration.name := by
            cases code
            rfl
          have inner := marks.function (around.enterFunction .function) depth
            (h.declare declaration.name) ⟨params, body⟩ code
          change Together s (s.declare declaration.name) s' (s'.declare declaration'.name) _ _ _
          rw [markStmt, markStmt, name]
          exact (Together.declareFully h _).bind fun _ _ _ => inner.map fun _ _ made =>
            ⟨.function made, rfl⟩
  | «if» test first =>
      cases wellFormed with
      | «if» given plain inner _ _ =>
          refine (together_expr h rfl given test depth depth').bind fun _ _ tests => ?_
          exact (marks.branch around depth h ready inner plain first).bind fun _ _ firsts => .pure
            ⟨.if tests firsts.1, congrArg (· || false) firsts.2⟩
  | ifElse test first second =>
      cases wellFormed with
      | «if» given plain inner plainElse innerElse =>
          refine (together_expr h rfl given test depth depth').bind fun _ _ tests => ?_
          refine (marks.branch around depth h ready inner plain first).bind fun _ _ firsts => ?_
          have other := marks.branch around depth h ready (innerElse _ rfl) (plainElse _ rfl) second
          rw [markOption, markOption, bind_assoc, bind_assoc]
          exact other.bind fun _ _ seconds => .pure
            ⟨.ifElse tests firsts.1 seconds.1, congrArg₂ (· || ·) firsts.2 seconds.2⟩
  | print value =>
      cases wellFormed with
      | print given =>
          exact (together_expr h rfl given value depth depth').map fun _ _ made =>
            ⟨.print made, rfl⟩
  | «return» value =>
      cases wellFormed with
      | «return» given =>
          have present := isSome_of_rel value
          rw [markStmt, markStmt, present]
          refine (Together.reportIf _ _ _).bind fun _ _ _ => ?_
          refine (Together.reportIf _ _ _).bind fun _ _ _ => ?_
          exact (together_expr? h around given value depth depth').map fun _ _ made =>
            ⟨.return made, rfl⟩
  | @var _ name _ _ value =>
      cases wellFormed with
      | var _ given =>
          refine (Together.declare h name).bind fun _ _ _ => ?_
          have inner := h.mark name.lexeme false
          refine (together_expr? inner around given value depth depth').bind fun _ _ made => ?_
          exact (Together.updateScopes _ _).map fun _ _ _ => ⟨.var made, rfl⟩
  | «while» test round each =>
      cases wellFormed with
      | «while» given plain inner increments =>
          refine (together_expr h rfl given test depth depth').bind fun _ _ tests => ?_
          refine (marks.branch around.enterLoop depth h ready inner plain round).bind fun _ _ rounds => ?_
          exact (together_expr? h around increments each depth depth').map fun _ _ steps =>
            ⟨.while tests rounds.1 steps, rfl⟩
  | @brace gap outer _ stmt'' allowed inner =>
      have plain : stmt.declared? = none := by
        by_contra declares
        cases (declared?_of_expands inner).2 declares
      cases depth' with
      | zero => exact .of_fails (fails_braces around (by decide) _ _)
      | succ depth' =>
          have code := (below depth' (by omega)).branch around (depth + 1) (h.enter_empty ready) ready
            wellFormed plain inner
          rw [markStmt_braces, Scopes.after_of_none plain]
          exact .enter_right (.leave_right (code.map_right fun _ _ made =>
            ⟨.brace allowed made.1, made.2⟩))
  | unroll allowed calm test round step =>
      cases wellFormed with
      | «while» given plain inner increments =>
          by_cases shallow : depth' < 3
          · have fails := fails_braces around.enterLoop shallow
            exact .of_fails (Fails.bind_right _ fun _ => (fails _ _).bind_left _)
          · obtain ⟨depth', rfl⟩ := Nat.exists_eq_add_of_le' (Nat.not_lt.mp shallow)
            rw [markStmt_loop]
            refine (together_expr h rfl given test depth (depth' + 3)).bind fun _ _ tests => ?_
            have empty := h.enter_empty ready
            have body := (below (depth' + 1) (by omega)).branch around.enterLoop depth empty ready inner
              plain round
            change Together s s s' (Scopes.leave (s'.enter [])) _ _ _
            refine .enter_right (body.bind fun _ _ rounds => .leave_right ?_)
            rw [markOption, bind_assoc]
            have sameClass : around.enterLoop.inClass = around.inClass := rfl
            refine (together_expr empty sameClass (increments _ rfl) step depth depth').bind
              fun _ _ steps => ?_
            exact .pure ⟨.unroll allowed (rounds.2.trans calm) tests rounds.1 steps, rfl⟩

end MarksTogether

theorem marksTogether (free : Prop) (depth' : Nat) : MarksTogether free depth' := by
  -- Braces take more levels than the statement in them, so all smaller depths are asked for.
  induction depth' using Nat.strongRecOn with
  | _ depth' below =>
      cases depth' with
      | zero => exact .zero free
      | succ depth' =>
          have marks := below depth' (Nat.lt_succ_self depth')
          exact {
            stmt := fun around depth h ready wellFormed expands => by
              cases depth with
              | zero => exact .tooDeep_left
              | succ depth =>
                  exact MarksTogether.stmt_succ below around depth h ready wellFormed expands
            stmts := fun around depth h ready wellFormed expands => by
              cases depth with
              | zero => exact .tooDeep_left
              | succ depth => exact marks.stmts_succ around depth h ready wellFormed expands
            function := fun around depth h wellFormed expands => by
              cases depth with
              | zero => exact .tooDeep_left
              | succ depth => exact marks.function_succ around depth h wellFormed expands
            «class» := fun around depth h wellFormed expands => by
              cases depth with
              | zero => exact .tooDeep_left
              | succ depth => exact marks.class_succ around depth h wellFormed expands }

/-! ## Programs -/

/-- Where a program and an expansion of it are both marked, the same rules are broken, and what is marked is an
expansion again. -/
theorem expands_of_mark? {depth depth' : Nat} {statements statements' : List Stmt}
    {marked marked' : Marked} (wellFormed : ∀ stmt ∈ statements, stmt.WellFormed)
    (expands : Node.Expands free [0] (.statements statements) (.statements statements'))
    (made : mark? depth statements = some marked) (made' : mark? depth' statements' = some marked') :
    marked'.errors = marked.errors ∧
      Node.Expands free [0] (.statements marked.statements) (.statements marked'.statements) := by
  unfold mark? at made made'
  cases run : markStmts .topLevel depth statements ⟨.global, #[]⟩ with
  | error _ _ =>
      rw [run] at made
      cases made
  | ok value last =>
      cases run' : markStmts .topLevel depth' statements' ⟨.global, #[]⟩ with
      | error _ _ =>
          rw [run'] at made'
          cases made'
      | ok value' last' =>
          rw [run] at made
          rw [run'] at made'
          cases made
          cases made'
          have ready : Scopes.global.Ready := ⟨fun _ => rfl, rfl⟩
          obtain ⟨found, rfl, rfl, both, -⟩ := (marksTogether free depth').stmts .topLevel depth
            .global ready wellFormed expands _ _ _ _ _ run run'
          exact ⟨rfl, both⟩

end LoxLang.Scoping
