import LoxLang.Proofs.Scoping.Lexical
import LoxLang.Proofs.Variation.Scopes

/-!
Marking other words in the same places. Where a text was marked without an error, every variation of the marked tree is
what its own text is marked as.
-/

namespace LoxLang.Scoping

variable {r : Respelling} {levels middle after : Levels} {s t u : Scopes} {α β : Type}

/-! ## Marking again -/

/-- In scopes that vary from some, the marker yields the value without an error, and goes on in scopes that vary from
others. -/
def Replays (r : Respelling) (levels after : Levels) (s t : Scopes) (marker : Marker α)
    (value : α) : Prop :=
  ∀ scopes errors, Scopes.Varies r levels s scopes →
    ∃ last, marker ⟨scopes, errors⟩ = .ok value ⟨last, errors⟩ ∧ Scopes.Varies r after t last

namespace Replays

variable {marker : Marker α} {next : α → Marker β} {value : α} {result : β}

theorem pure : Replays r levels levels s s (Pure.pure value : Marker α) value :=
  fun scopes _ varies => ⟨scopes, rfl, varies⟩

theorem bind (first : Replays r levels middle s t marker value)
    (second : Replays r middle after t u (next value) result) :
    Replays r levels after s u (marker >>= next) result := by
  intro scopes errors varies
  obtain ⟨between, marks, varies⟩ := first scopes errors varies
  obtain ⟨last, goes, varies⟩ := second between errors varies
  exact ⟨last, (bind_ok marks).trans goes, varies⟩

theorem map {make : α → β} (h : Replays r levels after s t marker value) :
    Replays r levels after s t (do return make (← marker)) (make value) :=
  h.bind .pure

theorem get_bind {next : State → Marker β}
    (h : ∀ scopes errors, Scopes.Varies r levels s scopes →
      Replays r levels after s t (next ⟨scopes, errors⟩) result) :
    Replays r levels after s t (get >>= next) result :=
  fun scopes errors varies => h scopes errors varies scopes errors varies

theorem updateScopes {update : Scopes → Scopes}
    (h : ∀ scopes, Scopes.Varies r levels s scopes → Scopes.Varies r after t (update scopes)) :
    Replays r levels after s t (Scoping.updateScopes update) () :=
  fun scopes _ varies => ⟨update scopes, rfl, h scopes varies⟩

theorem reportIf {condition : Bool} {token : Token} {cause : ResolutionError.Cause}
    (fine : condition = false) :
    Replays r levels levels s s (Scoping.reportIf condition token cause) () := by
  subst fine
  exact .pure

theorem withScope {level : Bool} {names : List String}
    (enters : ∀ scopes, Scopes.Varies r levels s scopes →
      Scopes.Varies r (level :: levels) (s.enter names) (scopes.enter names))
    (body : Replays r (level :: levels) (level :: levels) (s.enter names) t marker value) :
    Replays r levels levels s t.leave (Scoping.withScope names marker) value := by
  intro scopes errors varies
  have some := varies.levels_ne_nil
  have leaves : Replays r (level :: levels) levels t t.leave (do
      Scoping.updateScopes .leave
      return value) value :=
    (updateScopes fun _ inner => inner.leave some).bind .pure
  exact (updateScopes enters).bind (body.bind leaves) scopes errors varies

variable {name other : Token}

theorem declare (spelled : r.fresh.named (levels.headD false) name other)
    (new : s.redeclares name.lexeme = false) :
    Replays r levels levels s (s.mark name.lexeme false) (Scoping.declare other) () := by
  obtain ⟨named, fresh⟩ := spelled
  have lexeme := Respelling.lexeme_of_named named
  refine .get_bind fun scopes errors varies => .bind (.reportIf ?_) (.updateScopes ?_)
  · change scopes.redeclares other.lexeme = false
    rw [lexeme, varies.redeclares, new]
  · intro scopes varies
    rw [lexeme]
    exact varies.mark fresh false

theorem complete (spelled : r.fresh.named (levels.headD false) name other) :
    Replays r levels levels s (s.mark name.lexeme true) (Scoping.complete other) () := by
  refine .updateScopes fun scopes varies => ?_
  rw [Respelling.lexeme_of_named spelled.1]
  exact varies.mark spelled.2 true

theorem declareFully (spelled : r.fresh.named (levels.headD false) name other)
    (new : s.redeclares name.lexeme = false) :
    Replays r levels levels s ((s.mark name.lexeme false).mark name.lexeme true)
      (Scoping.declareFully other) () :=
  (declare spelled new).bind (complete spelled)

variable {use use' : NameUse}

theorem locate (h : use.Varies r.fresh levels use') (found : use.hops = s.hops? use.name.lexeme) :
    Replays r levels levels s s (Scoping.locate use'.name) use' := by
  refine .get_bind fun scopes errors varies => ?_
  have hops : scopes.hops? use'.name.lexeme = use'.hops := by
    rw [Respelling.lexeme_of_named h.name.1, varies.hops? h.name.2 found, ← found, h.hops]
  change Replays r levels levels s s
    (Pure.pure ⟨use'.name, scopes.hops? use'.name.lexeme⟩) use'
  rw [hops]
  exact .pure

theorem markVariable (h : use.Varies r.fresh levels use')
    (found : use.hops = s.hops? use.name.lexeme) (ready : s.isDeclaring use.name.lexeme = false) :
    Replays r levels levels s s (Scoping.markVariable use'.name) use' := by
  refine .get_bind fun scopes errors varies => .bind (.reportIf ?_) (.locate h found)
  change scopes.isDeclaring use'.name.lexeme = false
  rw [Respelling.lexeme_of_named h.name.1]
  exact varies.isDeclaring h.name.2 found ready

theorem markThis {around : Surroundings} (h : use.Varies r.fresh levels use')
    (inside : around.inClass ≠ .none) (found : use.hops = s.hops? use.name.lexeme) :
    Replays r levels levels s s (Scoping.markThis around use'.unmark) use' := by
  unfold Scoping.markThis
  rw [if_neg inside]
  exact locate h found

theorem markSuper {around : Surroundings} (h : use.Varies r.fresh levels use')
    (derived : around.inClass = .derived) (found : use.hops = s.hops? use.name.lexeme) :
    Replays r levels levels s s (Scoping.markSuper around use'.name) use' := by
  unfold Scoping.markSuper
  rw [derived]
  exact locate h found

end Replays

/-! ## What markers do without errors -/

/-- A marker only adds errors, and if it adds none its scopes and its result are as stated. -/
def Traces (marker : Marker α) (means : Scopes → α → Scopes → Prop) : Prop :=
  ∀ before value after, marker before = .ok value after →
    ∃ found, after.errors.toList = before.errors.toList ++ found ∧
      (found = [] → means before.scopes value after.scopes)

namespace Traces

variable {marker : Marker α} {next : α → Marker β} {means stronger : Scopes → α → Scopes → Prop}
  {further : Scopes → β → Scopes → Prop}

theorem mono (traces : Traces marker stronger)
    (weaken : ∀ s value t, stronger s value t → means s value t) : Traces marker means := by
  intro before value after h
  obtain ⟨found, herrors, hmeans⟩ := traces before value after h
  exact ⟨found, herrors, fun clean => weaken _ _ _ (hmeans clean)⟩

theorem bind (first : Traces marker means)
    (second : ∀ value, Traces (next value) fun s result t =>
      ∀ start, means start value s → further start result t) :
    Traces (marker >>= next) further := by
  intro before result last h
  obtain ⟨value, middle, begins, ends⟩ := exists_of_bind_ok h
  obtain ⟨found, herrors, hmeans⟩ := first _ _ _ begins
  obtain ⟨more, hmore, hfurther⟩ := second value _ _ _ ends
  refine ⟨found ++ more, by rw [hmore, herrors, List.append_assoc], fun clean => ?_⟩
  obtain ⟨hfound, hlater⟩ := List.append_eq_nil_iff.mp clean
  exact hfurther hlater _ (hmeans hfound)

theorem pure {value : α} (h : ∀ s, means s value s) : Traces (Pure.pure value) means := by
  intro before result after heq
  cases heq
  exact ⟨[], (List.append_nil _).symm, fun _ => h _⟩

theorem map {make : α → β} (first : Traces marker means)
    (h : ∀ s value t, means s value t → further s (make value) t) :
    Traces (do return make (← marker)) further :=
  first.bind fun value => pure fun t _ given => h _ value t given

theorem get_bind {next : State → Marker β}
    (h : ∀ state, Traces (next state) fun s result t =>
      s = state.scopes → further s result t) : Traces (get >>= next) further := by
  intro before result after heq
  obtain ⟨found, herrors, hmeans⟩ := h before before result after heq
  exact ⟨found, herrors, fun clean => hmeans clean rfl⟩

theorem tooDeep : Traces (Scoping.tooDeep : Marker α) means := by
  intro before value after h
  cases h

theorem updateScopes (update : Scopes → Scopes) :
    Traces (Scoping.updateScopes update) fun s _ t => t = update s := by
  intro before value after h
  cases h
  exact ⟨[], (List.append_nil _).symm, fun _ => rfl⟩

theorem report (token : Token) (cause : ResolutionError.Cause) :
    Traces (Scoping.report token cause) fun _ _ _ => False := by
  intro before value after h
  cases h
  exact ⟨[⟨cause, token⟩], Array.toList_push, fun absurd => nomatch absurd⟩

theorem reportIf (condition : Bool) (token : Token) (cause : ResolutionError.Cause) :
    Traces (Scoping.reportIf condition token cause) fun s _ t => condition = false ∧ t = s := by
  cases condition with
  | false => exact pure fun _ => ⟨rfl, rfl⟩
  | true => exact (report token cause).mono fun _ _ _ => False.elim

theorem withScope {names : List String} {body : Marker α} (traces : Traces body means) :
    Traces (Scoping.withScope names body) fun s value t =>
      ∃ last, means (s.enter names) value last ∧ t = last.leave := by
  refine (updateScopes _).bind fun _ => traces.bind fun value => (updateScopes _).bind fun _ => ?_
  refine pure fun t middle hleave entered hbody start hentered => ?_
  subst hentered hleave
  exact ⟨middle, hbody, rfl⟩

theorem declare (name : Token) : Traces (Scoping.declare name) fun s _ t =>
    s.redeclares name.lexeme = false ∧ t = s.mark name.lexeme false := by
  refine get_bind fun state => (reportIf _ _ _).bind fun _ => (updateScopes _).mono ?_
  rintro s _ t rfl start ⟨new, rfl⟩ rfl
  exact ⟨new, rfl⟩

theorem complete (name : Token) : Traces (Scoping.complete name) fun s _ t =>
    t = s.mark name.lexeme true :=
  updateScopes _

theorem declareFully (name : Token) : Traces (Scoping.declareFully name) fun s _ t =>
    s.redeclares name.lexeme = false ∧
      t = (s.mark name.lexeme false).mark name.lexeme true := by
  refine (declare name).bind fun _ => (complete name).mono ?_
  rintro s _ t rfl start ⟨new, rfl⟩
  exact ⟨new, rfl⟩

theorem locate (name : Token) : Traces (Scoping.locate name) fun s use t =>
    use = ⟨name, s.hops? name.lexeme⟩ ∧ t = s :=
  get_bind fun _ => pure fun _ same => by rw [same]; exact ⟨rfl, rfl⟩

theorem markVariable (name : Token) : Traces (Scoping.markVariable name) fun s use t =>
    s.isDeclaring name.lexeme = false ∧ use = ⟨name, s.hops? name.lexeme⟩ ∧ t = s := by
  refine get_bind fun state => (reportIf _ _ _).bind fun _ => (locate name).mono ?_
  rintro s use t found start ⟨ready, rfl⟩ rfl
  exact ⟨ready, found⟩

theorem markThis (around : Surroundings) (keyword : NameUse) :
    Traces (Scoping.markThis around keyword) fun s use t =>
      around.inClass ≠ .none ∧ use = ⟨keyword.name, s.hops? keyword.name.lexeme⟩ ∧ t = s := by
  unfold Scoping.markThis
  split
  · exact (report _ _).bind fun _ => pure fun _ _ absurd => absurd.elim
  · next inside => exact (locate keyword.name).mono fun _ _ _ found => ⟨inside, found⟩

theorem markSuper (around : Surroundings) (keyword : Token) :
    Traces (Scoping.markSuper around keyword) fun s use t =>
      around.inClass = .derived ∧ use = ⟨keyword, s.hops? keyword.lexeme⟩ ∧ t = s := by
  unfold Scoping.markSuper
  cases around.inClass with
  | none | base =>
      exact (report _ _).bind fun _ => (locate keyword).mono fun _ _ _ _ _ absurd => absurd.elim
  | derived => exact (locate keyword).mono fun _ _ _ found => ⟨rfl, found⟩

end Traces

/-! ## Expressions -/

/-- Every variation of what was marked is what its text is marked as in scopes that vary. -/
def Replayed (r : Respelling) (related : Levels → α → α → Prop) (again : α → Marker α)
    (s : Scopes) (value : α) (t : Scopes) : Prop :=
  ∀ levels other, related levels value other → Replays r levels levels s t (again other) other

variable {related : Levels → α → α → Prop} {again : α → Marker α}

theorem traces_mapM {mark : β → Marker α} {items : List β}
    (each : ∀ item ∈ items, Traces (mark item) (Replayed r related again)) :
    Traces (items.mapM mark) (Replayed r (fun levels => List.Forall₂ (related levels))
      (fun others => others.mapM again)) := by
  induction items with
  | nil =>
      refine .pure fun s levels others same => ?_
      cases same
      exact .pure
  | cons item items ih =>
      rw [List.mapM_cons]
      refine (each item List.mem_cons_self).bind fun first => ?_
      refine (ih fun other member => each other (List.mem_cons_of_mem _ member)).map ?_
      intro s rest t goes start begins levels others same
      cases same with
      | cons head tail =>
          dsimp only
          rw [List.mapM_cons]
          exact (begins levels _ head).bind (goes levels _ tail).map

theorem traces_option {mark : α → Marker α} {item : Option α}
    (each : ∀ inner, item = some inner → Traces (mark inner) (Replayed r related again)) :
    Traces (markOption mark item) fun s marked t => marked.isSome = item.isSome ∧
      Replayed r (fun levels => Option.Rel (related levels)) (markOption again) s marked t := by
  cases item with
  | none =>
      refine .pure fun s => ⟨rfl, fun levels other same => ?_⟩
      cases same
      exact .pure
  | some inner =>
      refine (each inner rfl).map fun s value t goes => ⟨rfl, fun levels other same => ?_⟩
      cases same with
      | some same => exact (goes levels _ same).map

theorem markOption_map (mark : α → Marker α) (make : α → α) (item : Option α) :
    markOption mark (item.map make) = markOption (fun inner => mark (make inner)) item := by
  cases item <;> rfl

theorem traces_expr (r : Respelling) (around : Surroundings) (depth : Nat) (expr : Expr) :
    Traces (markExpr around depth expr) (Replayed r (Expr.Varies r.fresh)
      fun other => markExpr around depth other.unmark) := by
  induction depth generalizing expr with
  | zero => exact .tooDeep
  | succ depth ih =>
      cases expr with
      | assign target value =>
          refine (ih value).bind fun value => (Traces.locate target.name).map ?_
          rintro s use t ⟨rfl, rfl⟩ start goes levels other same
          cases same with
          | assign use same => exact (goes levels _ same).bind (Replays.locate use rfl).map
      | binary left operator right =>
          refine (ih left).bind fun left => (ih right).map ?_
          intro s right t goes start begins levels other same
          cases same with
          | binary left _ right => exact (begins levels _ left).bind (goes levels _ right).map
      | call callee paren arguments =>
          refine (ih callee).bind fun callee => (traces_mapM fun item _ => ih item).map ?_
          intro s arguments t goes start begins levels other same
          cases same with
          | call callee _ count each =>
              have alike := List.forall₂_iff_zip.mpr ⟨count, fun member => each _ _ member⟩
              have again := goes levels _ alike
              refine (begins levels _ callee).bind (Replays.map ?_)
              rw [unmarkExprs_eq_map, List.mapM_map]
              exact again
      | get object name =>
          refine (ih object).map fun s object t goes levels other same => ?_
          cases same with
          | get object _ => exact (goes levels _ object).map
      | grouping inner =>
          refine (ih inner).map fun s inner t goes levels other same => ?_
          cases same with
          | grouping inner => exact (goes levels _ inner).map
      | literal value =>
          refine .pure fun s levels other same => ?_
          cases same
          exact .pure
      | logical left operator right =>
          refine (ih left).bind fun left => (ih right).map ?_
          intro s right t goes start begins levels other same
          cases same with
          | logical left _ right => exact (begins levels _ left).bind (goes levels _ right).map
      | set object name value =>
          refine (ih value).bind fun value => (ih object).map ?_
          intro s object t goes start begins levels other same
          cases same with
          | set object _ value => exact (begins levels _ value).bind (goes levels _ object).map
      | super keyword method =>
          refine (Traces.markSuper around keyword.name).map ?_
          rintro s use t ⟨derived, rfl, rfl⟩ levels other same
          cases same with
          | super use _ => exact (Replays.markSuper use derived rfl).map
      | this keyword =>
          refine (Traces.markThis around keyword).map ?_
          rintro s use t ⟨inside, rfl, rfl⟩ levels other same
          cases same with
          | this use => exact (Replays.markThis use inside rfl).map
      | unary operator right =>
          refine (ih right).map fun s right t goes levels other same => ?_
          cases same with
          | unary _ right => exact (goes levels _ right).map
      | «variable» use =>
          refine (Traces.markVariable use.name).map ?_
          rintro s use t ⟨ready, rfl, rfl⟩ levels other same
          cases same with
          | «variable» use => exact (Replays.markVariable use rfl ready).map

/-! ## Statements -/

/-- Marking at one depth, and marking again. -/
structure ReplayedMarks (r : Respelling) (depth : Nat) : Prop where
  stmt (around : Surroundings) (stmt : Stmt) :
    Traces (markStmt around depth stmt)
      (Replayed r (fun levels marked other => Node.Varies r.fresh levels (.stmt marked) (.stmt other))
        fun other => markStmt around depth other.unmark)
  stmts (around : Surroundings) (statements : List Stmt) :
    Traces (markStmts around depth statements)
      (Replayed r (fun levels marked others =>
          Node.Varies r.fresh levels (.statements marked) (.statements others))
        fun others => markStmts around depth (unmarkStmts others))
  function (around : Surroundings) (declaration : FunctionDecl) :
    Traces (markFunction around depth declaration) fun s marked t =>
      marked.name = declaration.name ∧ Replayed r
        (fun levels marked other => Node.Varies r.fresh levels (.function marked) (.function other))
        (fun other => markFunction around depth other.unmark) s marked t
  «class» (around : Surroundings) (name : Token) (superclass : Option NameUse)
      (methods : List FunctionDecl) :
    Traces (markClass around depth name superclass methods) fun s marked t =>
      (∃ superclass methods, marked = .class name superclass methods) ∧
      ∀ levels name' superclass' methods',
        Node.Varies r.fresh levels (.stmt marked) (.stmt (.class name' superclass' methods')) →
        Replays r levels levels s t
          (markClass around depth name' (superclass'.map NameUse.unmark) (unmarkFunctions methods'))
          (.class name' superclass' methods')

theorem traces_params (r : Respelling) (params : List Token) :
    Traces (params.forM declareFully) fun s _ t => ∀ levels others,
      List.Forall₂ (r.fresh.named (levels.headD false)) params others →
      Replays r levels levels s t (others.forM declareFully) () := by
  induction params with
  | nil =>
      refine .pure fun s levels others same => ?_
      cases same
      exact .pure
  | cons param params ih =>
      refine (Traces.declareFully param).bind fun _ => ih.mono ?_
      rintro s _ t goes start ⟨new, rfl⟩ levels others same
      cases same with
      | cons spelled rest => exact (Replays.declareFully spelled new).bind (goes levels _ rest)

namespace ReplayedMarks

variable {depth : Nat}

theorem stmt_succ (marks : ReplayedMarks r depth) (around : Surroundings) (stmt : Stmt) :
    Traces (markStmt around (depth + 1) stmt)
      (Replayed r (fun levels marked other => Node.Varies r.fresh levels (.stmt marked) (.stmt other))
        fun other => markStmt around (depth + 1) other.unmark) := by
  cases stmt with
  | block statements =>
      refine (Traces.withScope (marks.stmts around statements)).map ?_
      rintro s marked t ⟨last, goes, rfl⟩ levels other same
      cases same with
      | block same =>
          exact (Replays.withScope (fun _ varies => varies.enter _) (goes _ _ same)).map
  | «break» keyword =>
      refine (Traces.reportIf _ _ _).map ?_
      rintro s _ t ⟨inside, rfl⟩ levels other same
      cases same with
      | «break» _ => exact (Replays.reportIf inside).map
  | «class» name superclass methods =>
      refine (marks.class around name superclass methods).mono ?_
      rintro s marked t ⟨⟨superclass, methods, rfl⟩, goes⟩ levels other same
      cases other with
      | «class» name' superclass' methods' => exact goes levels name' superclass' methods' same
      | _ => cases same
  | «continue» keyword =>
      refine (Traces.reportIf _ _ _).map ?_
      rintro s _ t ⟨inside, rfl⟩ levels other same
      cases same with
      | «continue» _ => exact (Replays.reportIf inside).map
  | expression value =>
      refine (traces_expr r around depth value).map fun s value t goes levels other same => ?_
      cases same with
      | expression same => exact (goes levels _ same).map
  | function declaration =>
      refine (Traces.declareFully declaration.name).bind fun _ =>
        (marks.function _ declaration).map ?_
      rintro s marked t ⟨kept, goes⟩ start ⟨new, rfl⟩ levels other same
      cases same with
      | @function _ _ declaration' name same =>
          obtain ⟨name', params', body'⟩ := declaration'
          rw [← kept] at new goes
          exact (Replays.declareFully name.named new).bind (goes levels _ same).map
  | «if» condition thenBranch elseBranch =>
      refine (traces_expr r around depth condition).bind fun condition => ?_
      refine (marks.stmt around thenBranch).bind fun thenBranch => ?_
      refine (traces_option fun inner _ => marks.stmt around inner).map ?_
      rintro s elseBranch t ⟨-, goesElse⟩ between goesThen start goes levels other same
      cases same with
      | «if» test first =>
          exact (goes levels _ test).bind ((goesThen levels _ first).bind
            (goesElse levels _ .none).map)
      | ifElse test first second =>
          exact (goes levels _ test).bind ((goesThen levels _ first).bind
            (goesElse levels _ (.some second)).map)
  | print value =>
      refine (traces_expr r around depth value).map fun s value t goes levels other same => ?_
      cases same with
      | print same => exact (goes levels _ same).map
  | «return» keyword value =>
      refine (Traces.reportIf _ _ _).bind fun _ => (Traces.reportIf _ _ _).bind fun _ => ?_
      refine (traces_option fun inner _ => traces_expr r around depth inner).map ?_
      rintro s marked t ⟨present, goes⟩ _ ⟨initializer, rfl⟩ _ ⟨inside, rfl⟩ levels other same
      cases same with
      | @«return» _ _ keyword' _ value' _ same =>
          have present' : (value'.map Expr.unmark).isSome = value.isSome := by
            rw [Option.isSome_map, ← present]
            cases same <;> rfl
          refine (Replays.reportIf inside).bind ((Replays.reportIf ?_).bind (Replays.map ?_))
          · rw [present', initializer]
          · rw [markOption_map]
            exact goes levels _ same
  | var name initializer =>
      refine (Traces.declare name).bind fun _ => ?_
      refine (traces_option fun inner _ => traces_expr r around depth inner).bind fun value => ?_
      refine (Traces.complete name).map ?_
      rintro s _ t rfl between ⟨-, goes⟩ start ⟨new, rfl⟩ levels other same
      cases same with
      | @var _ _ name' _ value' spelled same =>
          have again := goes levels _ same
          rw [← markOption_map] at again
          exact (Replays.declare spelled new).bind (again.bind (Replays.complete spelled).map)
  | «while» condition body increment =>
      refine (traces_expr r around depth condition).bind fun condition => ?_
      refine (marks.stmt around.enterLoop body).bind fun body => ?_
      refine (traces_option fun inner _ => traces_expr r around depth inner).map ?_
      rintro s increment t ⟨-, goesStep⟩ between goesBody start goes levels other same
      cases same with
      | «while» test inner step =>
          refine (goes levels _ test).bind ((goesBody levels _ inner).bind (Replays.map ?_))
          rw [markOption_map]
          exact goesStep levels _ step

theorem stmts_succ (marks : ReplayedMarks r depth) (around : Surroundings)
    (statements : List Stmt) :
    Traces (markStmts around (depth + 1) statements)
      (Replayed r (fun levels marked others =>
          Node.Varies r.fresh levels (.statements marked) (.statements others))
        fun others => markStmts around (depth + 1) (unmarkStmts others)) := by
  refine (traces_mapM fun stmt _ => marks.stmt around stmt).mono fun s marked t goes => ?_
  intro levels others same
  dsimp only
  rw [unmarkStmts_eq_map, markStmts, List.mapM_map]
  exact goes levels others same.forall₂

theorem function_succ (marks : ReplayedMarks r depth) (around : Surroundings)
    (declaration : FunctionDecl) :
    Traces (markFunction around (depth + 1) declaration) fun s marked t =>
      marked.name = declaration.name ∧ Replayed r
        (fun levels marked other => Node.Varies r.fresh levels (.function marked) (.function other))
        (fun other => markFunction around (depth + 1) other.unmark) s marked t := by
  obtain ⟨name, params, body⟩ := declaration
  have code : Traces (do
        params.forM declareFully
        let body ← markStmts around depth body
        return FunctionDecl.mk name params body) fun s marked t =>
      ∃ body, marked = ⟨name, params, body⟩ ∧ ∀ levels (other : FunctionDecl),
        List.Forall₂ (r.fresh.named (levels.headD false)) params other.params →
        Node.Varies r.fresh levels (.statements body) (.statements other.body) →
        Replays r levels levels s t (do
          other.params.forM declareFully
          let body ← markStmts around depth (unmarkStmts other.body)
          return ⟨other.name, other.params, body⟩) other := by
    refine (traces_params r params).bind fun _ => (marks.stmts around body).map ?_
    intro s body t goes start begins
    refine ⟨body, rfl, fun levels ⟨name', params', body'⟩ params same => ?_⟩
    exact (begins levels _ params).bind (goes levels _ same).map
  refine code.withScope.mono ?_
  rintro s _ t ⟨last, ⟨body, rfl, goes⟩, rfl⟩
  refine ⟨rfl, fun levels other same => ?_⟩
  cases same with
  | @declaration _ inner _ name' _ params' _ body' _ params same =>
      exact Replays.withScope (fun _ varies => varies.enter inner)
        (goes (inner :: levels) ⟨name', params', body'⟩ params same)

theorem methods (marks : ReplayedMarks r depth) (around : Surroundings)
    (methods : List FunctionDecl) :
    Traces (methods.mapM fun method =>
        markFunction (around.enterFunction (methodContext method)) depth method)
      (Replayed r (fun levels => List.Forall₂ fun marked other =>
          Node.Varies r.fresh levels (.function marked) (.function other))
        fun others => (others.map FunctionDecl.unmark).mapM fun method =>
          markFunction (around.enterFunction (methodContext method)) depth method) := by
  simp only [List.mapM_map]
  refine traces_mapM fun method _ => (marks.function _ method).mono ?_
  rintro s marked t ⟨kept, goes⟩ levels other same
  have context : methodContext other.unmark = methodContext method := by
    cases same with
    | declaration name _ _ =>
        change (if _ = _ then _ else _) = (if _ = _ then _ else _)
        rw [← kept, ← r.lexeme name]
        rfl
  change Replays r levels levels s t
    (markFunction (around.enterFunction (methodContext other.unmark)) depth other.unmark) other
  rw [context]
  exact goes levels other same

theorem class_succ (marks : ReplayedMarks r depth) (around : Surroundings) (name : Token)
    (superclass : Option NameUse) (methods : List FunctionDecl) :
    Traces (markClass around (depth + 1) name superclass methods) fun s marked t =>
      (∃ superclass methods, marked = .class name superclass methods) ∧
      ∀ levels name' superclass' methods',
        Node.Varies r.fresh levels (.stmt marked) (.stmt (.class name' superclass' methods')) →
        Replays r levels levels s t
          (markClass around (depth + 1) name' (superclass'.map NameUse.unmark)
            (unmarkFunctions methods'))
          (.class name' superclass' methods') := by
  refine (Traces.declareFully name).bind fun _ => ?_
  cases superclass with
  | none =>
      refine (Traces.withScope (marks.methods (around.enterClass .base) methods)).map ?_
      rintro s marked t ⟨last, goes, rfl⟩ start ⟨new, rfl⟩
      refine ⟨⟨_, _, rfl⟩, fun levels name' superclass' methods' same => ?_⟩
      cases same with
      | «class» name count each =>
          have alike := List.forall₂_iff_zip.mpr ⟨count, fun member => each _ _ member⟩
          rw [unmarkFunctions_eq_map]
          refine (Replays.declareFully name.named new).bind (Replays.map ?_)
          exact Replays.withScope
            (fun _ varies => varies.enter_names (by simpa using r.new_ne_this))
            (goes _ _ alike)
  | some superclass =>
      refine (Traces.reportIf _ _ _).bind fun _ => ?_
      refine (Traces.markVariable superclass.name).bind fun use => ?_
      refine (Traces.withScope (Traces.withScope
        (marks.methods (around.enterClass .derived) methods))).map ?_
      rintro s marked t ⟨_, ⟨last, goes, rfl⟩, rfl⟩ between ⟨ready, rfl, rfl⟩ middle
        ⟨different, rfl⟩ start ⟨new, rfl⟩
      refine ⟨⟨_, _, rfl⟩, fun levels name' superclass' methods' same => ?_⟩
      cases same with
      | subclass name superclass count each =>
          have alike := List.forall₂_iff_zip.mpr ⟨count, fun member => each _ _ member⟩
          rw [unmarkFunctions_eq_map]
          refine (Replays.declareFully name.named new).bind ?_
          refine (Replays.reportIf ?_).bind ((Replays.markVariable superclass rfl ready).bind
            (Replays.map ?_))
          · exact decide_eq_false
              (name.ne superclass.name (of_decide_eq_false different))
          · refine Replays.withScope
              (fun _ varies => varies.enter_names (by simpa using r.new_ne_super)) ?_
            exact Replays.withScope
              (fun _ varies => varies.enter_names (by simpa using r.new_ne_this))
              (goes _ _ alike)

theorem zero : ReplayedMarks r 0 where
  stmt _ _ := .tooDeep
  stmts _ _ := .tooDeep
  function _ _ := .tooDeep
  «class» _ _ _ _ := .tooDeep

end ReplayedMarks

theorem replayedMarks (r : Respelling) : ∀ depth, ReplayedMarks r depth
  | 0 => .zero
  | depth + 1 =>
      have marks := replayedMarks r depth
      { stmt := marks.stmt_succ
        stmts := marks.stmts_succ
        function := marks.function_succ
        «class» := marks.class_succ }

/-! ## Programs -/

theorem eq_of_mark? {depth : Nat} {statements marked : List Stmt}
    (h : mark? depth statements = some ⟨marked, []⟩) :
    ∃ scopes, markStmts .topLevel depth statements ⟨.global, #[]⟩ = .ok marked ⟨scopes, #[]⟩ := by
  unfold mark? at h
  cases goes : markStmts .topLevel depth statements ⟨.global, #[]⟩ with
  | error _ _ =>
      rw [goes] at h
      cases h
  | ok value state =>
      obtain ⟨scopes, errors⟩ := state
      rw [goes, Option.some.injEq, Marked.mk.injEq] at h
      obtain ⟨rfl, none⟩ := h
      cases Array.toList_eq_nil_iff.mp none
      exact ⟨scopes, rfl⟩

theorem markStmts_append (around : Surroundings) (depth : Nat) (first second : List Stmt) :
    markStmts around depth (first ++ second) = do
      let marked ← markStmts around depth first
      return marked ++ (← markStmts around depth second) := by
  cases depth with
  | zero => rfl
  | succ depth => exact List.mapM_append

/-- Behind statements that were marked no name of the globals is being declared. -/
theorem settled_of_marks {depth : Nat} {statements marked : List Stmt} {state : State}
    (wellFormed : ∀ stmt ∈ statements, stmt.WellFormed)
    (h : markStmts .topLevel depth statements ⟨.global, #[]⟩ = .ok marked state) :
    Scopes.Varies r [false] .global state.scopes := by
  obtain ⟨tracks, -⟩ := (statementMarks True depth).stmts suits_topLevel rfl wellFormed _ _ _ _
    tracks_global h
  have nothing : (Names.ofList []).begun = none := rfl
  obtain ⟨names, same, settled, -⟩ := afterAll_global _ nothing statements
  change Tracks ((Regions.global _).afterAll statements) _ at tracks
  rw [same] at tracks
  cases hscopes : state.scopes with
  | nil => exact absurd hscopes tracks.nonempty
  | cons scope outer =>
      rw [hscopes] at tracks
      have ready (name : String) : Scopes.isDeclaring (scope :: outer) name ≠ true := by
        rw [ne_eq, tracks.isDeclaring_iff]
        change names.begun ≠ some name
        rw [settled]
        exact nofun
      cases tracks with
      | global _ =>
          refine .global fun name => iff_of_false (fun found => ?_) nofun
          exact ready name (decide_eq_true found)

theorem replays_of_mark? {depth : Nat} {statements marked others : List Stmt}
    (clean : mark? depth statements = some ⟨marked, []⟩)
    (varies : Node.Varies r.fresh [false] (.statements marked) (.statements others)) :
    ∃ last, Replays r [false] [false] .global last
      (markStmts .topLevel depth (unmarkStmts others)) others := by
  obtain ⟨last, goes⟩ := eq_of_mark? clean
  obtain ⟨found, same, replays⟩ := (replayedMarks r depth).stmts .topLevel statements _ _ _ goes
  exact ⟨last, replays (List.self_eq_append_right.mp same) [false] others varies⟩

/-- Other words in the same places are marked as the words of the program are. -/
theorem mark?_varies {depth : Nat} {statements marked others : List Stmt}
    (clean : mark? depth statements = some ⟨marked, []⟩)
    (varies : Node.Varies r.fresh [false] (.statements marked) (.statements others)) :
    mark? depth (unmarkStmts others) = some ⟨others, []⟩ := by
  obtain ⟨_, replays⟩ := replays_of_mark? clean varies
  obtain ⟨last, goes, -⟩ := replays .global #[] (.global fun _ => .rfl)
  rw [mark?, goes]

/-- So they are behind other statements that are marked. -/
theorem mark?_append {depth : Nat} {first marked statements seconds others : List Stmt}
    (wellFormed : ∀ stmt ∈ first, stmt.WellFormed)
    (before : mark? depth first = some ⟨marked, []⟩)
    (clean : mark? depth statements = some ⟨seconds, []⟩)
    (varies : Node.Varies r.fresh [false] (.statements seconds) (.statements others)) :
    mark? depth (first ++ unmarkStmts others) = some ⟨marked ++ others, []⟩ := by
  obtain ⟨between, begins⟩ := eq_of_mark? before
  obtain ⟨_, replays⟩ := replays_of_mark? clean varies
  obtain ⟨last, goes, -⟩ := replays between #[] (settled_of_marks wellFormed begins)
  have all : markStmts .topLevel depth (first ++ unmarkStmts others) ⟨.global, #[]⟩ =
      .ok (marked ++ others) ⟨last, #[]⟩ := by
    rw [markStmts_append, bind_ok begins, bind_ok goes]
    rfl
  rw [mark?, all]

end LoxLang.Scoping
