import LoxLang.Proofs.Scoping.Marks
import LoxLang.Proofs.Scoping.Suited

/-!
Markers that find no error. Where the tree that is read is well formed, the tree that they make is suited in its
surroundings.
-/

namespace LoxLang.Scoping

variable {α β : Type}

/-! ## Markers without errors -/

/-- A marker only adds errors, and if it adds none its result is as stated. -/
def Clean (marker : Marker α) (means : α → Prop) : Prop :=
  ∀ before value after, marker before = .ok value after →
    ∃ found, after.errors.toList = before.errors.toList ++ found ∧ (found = [] → means value)

namespace Clean

variable {marker : Marker α} {next : α → Marker β} {means stronger : α → Prop}
  {further : β → Prop}

theorem bind (first : Clean marker means)
    (second : ∀ value, Clean (next value) fun result => means value → further result) :
    Clean (marker >>= next) further := by
  intro before result last h
  obtain ⟨value, middle, begins, ends⟩ := exists_of_bind_ok h
  obtain ⟨found, herrors, hmeans⟩ := first _ _ _ begins
  obtain ⟨more, hmore, hfurther⟩ := second value _ _ _ ends
  refine ⟨found ++ more, by rw [hmore, herrors, List.append_assoc], fun clean => ?_⟩
  obtain ⟨hfound, hlater⟩ := List.append_eq_nil_iff.mp clean
  exact hfurther hlater (hmeans hfound)

theorem pure {value : α} (h : means value) : Clean (Pure.pure value) means := by
  intro before result after heq
  cases heq
  exact ⟨[], (List.append_nil _).symm, fun _ => h⟩

theorem mono (clean : Clean marker stronger) (weaken : ∀ value, stronger value → means value) :
    Clean marker means := by
  intro before value after h
  obtain ⟨found, herrors, hmeans⟩ := clean before value after h
  exact ⟨found, herrors, fun nothing => weaken value (hmeans nothing)⟩

/-- A marker that comes first may do anything but take errors back. -/
theorem after {first : Marker α} (h : Clean first fun _ => True)
    (rest : ∀ value, Clean (next value) further) : Clean (first >>= next) further :=
  h.bind fun value => (rest value).mono fun _ means _ => means

theorem tooDeep : Clean (Scoping.tooDeep : Marker α) means := by
  intro before value after h
  cases h

theorem updateScopes (update : Scopes → Scopes) :
    Clean (Scoping.updateScopes update) fun _ => True := by
  intro before value after h
  cases h
  exact ⟨[], (List.append_nil _).symm, fun _ => trivial⟩

theorem report (token : Token) (cause : ResolutionError.Cause) :
    Clean (Scoping.report token cause) fun _ => False := by
  intro before value after h
  cases h
  exact ⟨[⟨cause, token⟩], Array.toList_push, fun absurd => nomatch absurd⟩

theorem reportIf (condition : Bool) (token : Token) (cause : ResolutionError.Cause) :
    Clean (Scoping.reportIf condition token cause) fun _ => condition = false := by
  cases condition with
  | false => exact pure rfl
  | true => exact (report token cause).mono fun _ => False.elim

theorem get : Clean (MonadState.get : Marker State) fun _ => True := by
  intro before value after h
  cases h
  exact ⟨[], (List.append_nil _).symm, fun _ => trivial⟩

theorem mapM {mark : α → Marker β} {means : β → Prop} {items : List α}
    (each : ∀ item ∈ items, Clean (mark item) means) :
    Clean (items.mapM mark) fun results => ∀ result ∈ results, means result := by
  induction items with
  | nil => exact pure fun _ absurd => nomatch absurd
  | cons item items ih =>
      rw [List.mapM_cons]
      apply (each item List.mem_cons_self).bind
      intro first
      apply (ih fun other member => each other (List.mem_cons_of_mem _ member)).bind
      intro others
      apply pure
      intro hothers hfirst result member
      rcases List.mem_cons.mp member with rfl | member
      · exact hfirst
      · exact hothers result member

theorem forM {mark : α → Marker PUnit} {items : List α}
    (each : ∀ item ∈ items, Clean (mark item) fun _ => True) :
    Clean (items.forM mark) fun _ => True := by
  induction items with
  | nil => exact pure trivial
  | cons item items ih =>
      apply (each item List.mem_cons_self).after
      intro _
      exact ih fun other member => each other (List.mem_cons_of_mem _ member)

theorem option {mark : α → Marker α} {item : Option α} {means : α → Prop}
    (each : ∀ inner, item = some inner → Clean (mark inner) means) :
    Clean (markOption mark item) fun marked => ∀ found, marked = some found → means found := by
  cases item with
  | none => exact pure nofun
  | some inner =>
      apply (each inner rfl).bind
      intro marked
      apply pure
      intro h found same
      cases same
      exact h

theorem withScope {names : List String} (body : Clean marker means) :
    Clean (Scoping.withScope names marker) means := by
  apply (updateScopes _).after
  intro _
  apply body.bind
  intro value
  exact (updateScopes _).after fun _ => pure id

theorem declare (name : Token) : Clean (Scoping.declare name) fun _ => True := by
  apply get.after
  intro _
  exact ((reportIf _ _ _).mono fun _ _ => trivial).after fun _ => updateScopes _

theorem declareFully (name : Token) : Clean (Scoping.declareFully name) fun _ => True :=
  (declare name).after fun _ => updateScopes _

theorem locate (name : Token) : Clean (Scoping.locate name) fun use => use.name = name :=
  get.after fun _ => pure rfl

theorem markVariable (name : Token) : Clean (Scoping.markVariable name) fun _ => True := by
  apply get.after
  intro _
  apply ((reportIf _ _ _).mono fun _ _ => trivial).after
  exact fun _ => (locate name).mono fun _ _ => trivial

theorem markThis (around : Surroundings) (keyword : NameUse) :
    Clean (Scoping.markThis around keyword) fun use =>
      use.name = keyword.name ∧ around.inClass ≠ .none := by
  unfold Scoping.markThis
  split
  · exact (report _ _).bind fun _ => pure False.elim
  · next inside => exact (locate keyword.name).mono fun _ same => ⟨same, inside⟩

theorem markSuper (around : Surroundings) (keyword : Token) :
    Clean (Scoping.markSuper around keyword) fun use =>
      use.name = keyword ∧ around.inClass = .derived := by
  unfold Scoping.markSuper
  cases around.inClass with
  | none | base => exact (report _ _).bind fun _ => (locate keyword).mono fun _ _ => False.elim
  | derived => exact (locate keyword).mono fun _ same => ⟨same, rfl⟩

end Clean


/-! ## Marking -/

theorem clean_expr (around : Surroundings) (depth : Nat) {expr : Expr}
    (wellFormed : expr.WellFormed) :
    Clean (markExpr around depth expr) (Expr.Suited around.inClass) := by
  have leaf {expr : Expr} (suits : expr.Suits around.inClass) (none : expr.parts = []) :
      expr.Suited around.inClass := .intro suits (by rw [none]; exact nofun)
  induction depth generalizing expr with
  | zero => exact .tooDeep
  | succ depth ih =>
      cases wellFormed with
      | assign names hvalue =>
          apply (ih hvalue).bind
          intro value
          apply (Clean.locate _).bind
          intro use
          apply Clean.pure
          intro same hvalue
          refine .intro (show use.name.Names by rw [same]; exact names.2) fun part member => ?_
          rw [List.mem_singleton.mp member]
          exact hvalue
      | binary _ hleft hright | logical hleft hright =>
          apply (ih hleft).bind
          intro left
          apply (ih hright).bind
          intro right
          apply Clean.pure
          intro hright hleft
          refine .intro trivial fun part member => ?_
          rcases List.mem_cons.mp member with rfl | member
          · exact hleft
          · rw [List.mem_singleton.mp member]
            exact hright
      | call hcallee harguments =>
          apply (ih hcallee).bind
          intro callee
          apply (Clean.mapM fun item member => ih (harguments item member)).bind
          intro arguments
          apply Clean.pure
          intro harguments hcallee
          refine .intro trivial fun part member => ?_
          rcases List.mem_cons.mp member with rfl | member
          · exact hcallee
          · exact harguments part member
      | get hpart | grouping hpart | unary _ hpart =>
          apply (ih hpart).bind
          intro part
          apply Clean.pure
          intro hpart
          refine .intro trivial fun other member => ?_
          rw [List.mem_singleton.mp member]
          exact hpart
      | literal => exact .pure (leaf trivial rfl)
      | set hobject hvalue =>
          apply (ih hvalue).bind
          intro value
          apply (ih hobject).bind
          intro object
          apply Clean.pure
          intro hobject hvalue
          refine .intro trivial fun part member => ?_
          rcases List.mem_cons.mp member with rfl | member
          · exact hobject
          · rw [List.mem_singleton.mp member]
            exact hvalue
      | super _ spelling =>
          apply (Clean.markSuper around _).bind
          intro use
          apply Clean.pure
          intro ⟨same, derived⟩
          exact leaf ⟨by rw [same, spelling], derived⟩ rfl
      | this _ spelling =>
          apply (Clean.markThis around _).bind
          intro use
          apply Clean.pure
          intro ⟨same, inside⟩
          exact leaf ⟨by rw [same, spelling], inside⟩ rfl
      | «variable» _ => exact (Clean.markVariable _).after fun _ => .pure (leaf trivial rfl)

theorem clean_expr? (around : Surroundings) (depth : Nat) {expr : Option Expr}
    (wellFormed : WellFormedExpr? expr) :
    Clean (markOption (markExpr around depth) expr) fun marked =>
      ∀ found, marked = some found → found.Suited around.inClass :=
  .option fun inner present => clean_expr around depth (wellFormed inner present)

/-- What marking without errors means for statements of one depth. -/
structure SuitedMarks (depth : Nat) : Prop where
  stmt : ∀ around {stmt : Stmt}, stmt.WellFormed →
    Clean (markStmt around depth stmt) (Suited around)
  stmts : ∀ around {statements : List Stmt}, (∀ stmt ∈ statements, stmt.WellFormed) →
    Clean (markStmts around depth statements) fun marked => ∀ stmt ∈ marked, Suited around stmt
  function : ∀ around {declaration : FunctionDecl}, declaration.WellFormed →
    Clean (markFunction around depth declaration) fun marked =>
      marked.name = declaration.name ∧ SuitedFunction around marked
  «class» : ∀ around {name : Token} {superclass : Option NameUse} {methods : List FunctionDecl},
    (Stmt.class name superclass methods).WellFormed →
    Clean (markClass around depth name superclass methods) (Suited around)

namespace SuitedMarks

variable {depth : Nat}

theorem stmt_succ (marks : SuitedMarks depth) (around : Surroundings) {stmt : Stmt}
    (wellFormed : stmt.WellFormed) :
    Clean (markStmt around (depth + 1) stmt) (Suited around) := by
  cases wellFormed with
  | block hstatements =>
      apply (Clean.withScope (marks.stmts around hstatements)).bind
      exact fun _ => .pure .block
  | «break» =>
      apply (Clean.reportIf _ _ _).bind
      exact fun _ => .pure fun inside => .break (by simpa using inside)
  | «class» names hsuperclass hparams hbodies =>
      exact marks.class around (.class names hsuperclass hparams hbodies)
  | «continue» =>
      apply (Clean.reportIf _ _ _).bind
      exact fun _ => .pure fun inside => .continue (by simpa using inside)
  | expression hvalue =>
      apply (clean_expr around depth hvalue).bind
      exact fun _ => .pure .expression
  | function names params body =>
      apply (Clean.declareFully _).after
      intro _
      apply (marks.function (around.enterFunction .function) ⟨params, body⟩).bind
      intro marked
      apply Clean.pure
      intro ⟨sameName, suited⟩
      exact .function (by rw [sameName]; exact names) suited.params suited.body
  | «if» hcondition _ hthen _ helse =>
      apply (clean_expr around depth hcondition).bind
      intro _
      apply (marks.stmt around hthen).bind
      intro first
      apply (Clean.option fun inner present => marks.stmt around (helse inner present)).bind
      exact fun _ => .pure fun second first condition => .if condition first second
  | print hvalue =>
      apply (clean_expr around depth hvalue).bind
      exact fun _ => .pure .print
  | «return» hvalue =>
      apply (Clean.reportIf _ _ _).bind
      intro _
      apply ((Clean.reportIf _ _ _).mono fun _ _ => trivial).after
      intro _
      apply (clean_expr? around depth hvalue).bind
      exact fun _ => .pure fun value inside => .return (of_decide_eq_false inside) value
  | var names hinitializer =>
      apply (Clean.declare _).after
      intro _
      apply (clean_expr? around depth hinitializer).bind
      intro _
      apply (Clean.updateScopes _).after
      exact fun _ => .pure (.var names)
  | «while» hcondition _ hbody hincrement =>
      apply (clean_expr around depth hcondition).bind
      intro _
      apply (marks.stmt around.enterLoop hbody).bind
      intro _
      apply (clean_expr? around depth hincrement).bind
      exact fun _ => .pure fun increment body condition => .while condition body increment

theorem function_succ (marks : SuitedMarks depth) (around : Surroundings)
    {declaration : FunctionDecl} (wellFormed : declaration.WellFormed) :
    Clean (markFunction around (depth + 1) declaration) fun marked =>
      marked.name = declaration.name ∧ SuitedFunction around marked := by
  apply Clean.withScope
  apply (Clean.forM fun param _ => Clean.declareFully param).after
  intro _
  apply (marks.stmts around wellFormed.body).bind
  exact fun _ => .pure fun body => ⟨rfl, wellFormed.params, body⟩

theorem methods (marks : SuitedMarks depth) (around : Surroundings) {methods : List FunctionDecl}
    (wellFormed : ∀ method ∈ methods, method.WellFormed) :
    Clean (methods.mapM fun method =>
        markFunction (around.enterFunction (methodContext method)) depth method)
      fun marked => ∀ method ∈ marked,
        SuitedFunction (around.enterFunction (methodContext method)) method := by
  apply Clean.mapM
  intro method member
  apply (marks.function _ (wellFormed method member)).mono
  rintro marked ⟨sameName, body⟩
  rwa [methodContext, sameName]

theorem class_succ (marks : SuitedMarks depth) (around : Surroundings) {name : Token}
    {superclass : Option NameUse} {methods : List FunctionDecl}
    (wellFormed : (Stmt.class name superclass methods).WellFormed) :
    Clean (markClass around (depth + 1) name superclass methods) (Suited around) := by
  cases wellFormed with
  | «class» names _ hparams hbodies =>
      have hmethods : ∀ method ∈ methods, method.WellFormed :=
        fun method member => ⟨hparams method member, hbodies method member⟩
      apply (Clean.declareFully name).after
      intro _
      cases superclass with
      | none =>
          apply (Clean.withScope (marks.methods (around.enterClass .base) hmethods)).bind
          intro _
          apply Clean.pure
          exact fun suited => .class names (fun method member => (suited method member).params)
            fun method member => (suited method member).body
      | some superclass =>
          apply ((Clean.reportIf _ _ _).mono fun _ _ => trivial).after
          intro _
          apply (Clean.markVariable superclass.name).after
          intro _
          apply (Clean.withScope
            (Clean.withScope (marks.methods (around.enterClass .derived) hmethods))).bind
          intro _
          apply Clean.pure
          exact fun suited => .class names (fun method member => (suited method member).params)
            fun method member => (suited method member).body

end SuitedMarks

theorem suitedMarks (depth : Nat) : SuitedMarks depth := by
  induction depth with
  | zero => exact ⟨fun _ _ _ => .tooDeep, fun _ _ _ => .tooDeep, fun _ _ _ => .tooDeep,
      fun _ _ _ _ _ => .tooDeep⟩
  | succ depth ih =>
      refine ⟨ih.stmt_succ, fun around statements wellFormed => ?_, ih.function_succ, ih.class_succ⟩
      exact .mapM fun stmt member => ih.stmt around (wellFormed stmt member)

theorem suited_of_mark? {depth : Nat} {statements : List Stmt}
    (wellFormed : ∀ stmt ∈ statements, stmt.WellFormed) {marked : Marked}
    (h : mark? depth statements = some marked) (clean : marked.errors = []) :
    ∀ stmt ∈ marked.statements, Suited .topLevel stmt := by
  unfold mark? at h
  split at h
  · next result state hmarked =>
    cases h
    obtain ⟨found, herrors, suited⟩ := (suitedMarks depth).stmts _ wellFormed _ _ _ hmarked
    exact suited (herrors.symm.trans clean)
  · cases h

end LoxLang.Scoping
