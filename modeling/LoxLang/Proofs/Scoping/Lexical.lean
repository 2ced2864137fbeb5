import LoxLang.Proofs.Grammar.WellFormed
import LoxLang.Proofs.Program.Unmarked
import LoxLang.Proofs.Scoping.Marks
import LoxLang.Proofs.Token.Spelling

/-!
Marking is lexical scoping. Each use of a name is marked with the region that declares the name at its
place, and where marking finds no error every place is as the static rules allow.
-/

namespace LoxLang.Scoping

/-- What is known of a place in a marked tree. -/
def Fits (clean : Prop) (place : Place) : Prop :=
  place.Located ∧ (clean → place.Allowed) ∧ (clean → place.Distinct)

def MarkedExpr (clean : Prop) (regions : Regions) (expr marked : Expr) : Prop :=
  marked.unmark = expr ∧ Everywhere (Fits clean) ⟨regions, .expr marked⟩

def MarkedExpr? (clean : Prop) (regions : Regions) (expr marked : Option Expr) : Prop :=
  marked.map Expr.unmark = expr ∧
    ∀ found, marked = some found → Everywhere (Fits clean) ⟨regions, .expr found⟩

def MarkedStmt (clean : Prop) (regions : Regions) (stmt marked : Stmt) : Prop :=
  marked.unmark = stmt ∧ Everywhere (Fits clean) ⟨regions, .stmt marked⟩

def MarkedStmt? (clean : Prop) (regions : Regions) (stmt marked : Option Stmt) : Prop :=
  unmarkStmt? marked = stmt ∧
    ∀ found, marked = some found → Everywhere (Fits clean) ⟨regions, .stmt found⟩

def MarkedStmts (clean : Prop) (regions : Regions) (statements marked : List Stmt) : Prop :=
  unmarkStmts marked = statements ∧ Everywhere (Fits clean) ⟨regions, .statements marked⟩

def MarkedFunction (clean : Prop) (regions : Regions) (declaration marked : FunctionDecl) : Prop :=
  marked.unmark = declaration ∧ Everywhere (Fits clean) ⟨regions, .function marked⟩

variable {clean : Prop} {regions : Regions} {around : Surroundings}

/-- Surroundings agree with the regions on the classes around a place. -/
structure Regions.Suits (regions : Regions) (around : Surroundings) : Prop where
  regular : regions.Regular
  inClass : regions.inClass = around.inClass

/-! ## Expressions -/

theorem Place.Located.of_nil {place : Place} (h : place.node.uses = []) : place.Located := by
  intro use member
  rw [h] at member
  cases member

theorem Place.Located.of_one {place : Place} {use : NameUse} (h : place.node.uses = [use])
    (located : place.regions.Locates use) : place.Located := by
  intro other member
  rw [h] at member
  rw [List.mem_singleton.mp member]
  exact located

theorem everywhere_expr {expr : Expr}
    (here : Place.Located ⟨regions, .expr expr⟩ ∧ (clean → regions.AllowsExpr expr))
    (parts : ∀ part ∈ expr.parts, Everywhere (Fits clean) ⟨regions, .expr part⟩) :
    Everywhere (Fits clean) ⟨regions, .expr expr⟩ := by
  refine .intro ⟨here.1, here.2, fun _ => trivial⟩ fun inner part => ?_
  cases part with
  | expr member => exact parts _ member

theorem everywhere_leaf {expr : Expr} (hparts : expr.parts = [])
    (here : Place.Located ⟨regions, .expr expr⟩ ∧ (clean → regions.AllowsExpr expr)) :
    Everywhere (Fits clean) ⟨regions, .expr expr⟩ := by
  apply everywhere_expr here
  intro part member
  rw [hparts] at member
  cases member

theorem everywhere_unary {expr part : Expr} (uses : (Node.expr expr).uses = [])
    (allowed : clean → regions.AllowsExpr expr) (hparts : expr.parts = [part])
    (h : Everywhere (Fits clean) ⟨regions, .expr part⟩) :
    Everywhere (Fits clean) ⟨regions, .expr expr⟩ := by
  refine everywhere_expr ⟨.of_nil uses, allowed⟩ fun other member => ?_
  rw [hparts] at member
  rw [List.mem_singleton.mp member]
  exact h

theorem everywhere_binary {expr left right : Expr} (uses : (Node.expr expr).uses = [])
    (allowed : clean → regions.AllowsExpr expr) (hparts : expr.parts = [left, right])
    (hleft : Everywhere (Fits clean) ⟨regions, .expr left⟩)
    (hright : Everywhere (Fits clean) ⟨regions, .expr right⟩) :
    Everywhere (Fits clean) ⟨regions, .expr expr⟩ := by
  refine everywhere_expr ⟨.of_nil uses, allowed⟩ fun other member => ?_
  rw [hparts] at member
  rcases List.mem_cons.mp member with rfl | member
  · exact hleft
  · rw [List.mem_singleton.mp member]
    exact hright

theorem unmarkExprs_of_forall₂ {exprs marked : List Expr}
    (h : List.Forall₂ (MarkedExpr clean regions) exprs marked) : unmarkExprs marked = exprs := by
  induction h with
  | nil => rfl
  | cons first _ ih => rw [unmarkExprs, first.1, ih]

theorem forall_mem_of_forall₂ {α β : Type} {means : α → β → Prop} {holds : β → Prop}
    {items : List α} {results : List β} (h : List.Forall₂ means items results)
    (each : ∀ item result, means item result → holds result) :
    ∀ result ∈ results, holds result := by
  induction h with
  | nil => exact fun _ absurd => nomatch absurd
  | cons first _ ih =>
      intro result member
      rcases List.mem_cons.mp member with rfl | member
      · exact each _ _ first
      · exact ih result member

theorem marks_expr (suits : regions.Suits around) (depth : Nat) {expr : Expr}
    (wellFormed : expr.WellFormed) :
    Marks clean (markExpr around depth expr) regions regions (MarkedExpr clean regions expr) := by
  induction depth generalizing expr with
  | zero => exact .tooDeep
  | succ depth ih =>
      cases wellFormed with
      | @assign target value names hvalue =>
          apply (ih hvalue).bind
          intro value
          apply (Marks.locate target.name).map
          intro use ⟨same, located⟩ ⟨hunmark, inner⟩
          subst hunmark
          refine ⟨congrArg (Expr.assign · _) (NameUse.unmark_eq names.1 same), ?_⟩
          refine everywhere_expr ⟨.of_one rfl located, fun _ => ⟨?_, ?_⟩⟩ ?_
          · rw [same]
            exact names.2
          · intro hops marked
            obtain ⟨region, found, -⟩ := ((located hops).mp marked).at?
            exact ⟨region, found⟩
          · intro part member
            rw [List.mem_singleton.mp member]
            exact inner
      | binary hkind hleft hright =>
          apply (ih hleft).bind
          intro left
          apply (ih hright).map
          intro right ⟨hright, second⟩ ⟨hleft, first⟩
          subst hleft hright
          exact ⟨rfl, everywhere_binary rfl (fun _ => hkind) rfl first second⟩
      | call hcallee harguments =>
          apply (ih hcallee).bind
          intro callee
          apply (Marks.mapM fun item member => ih (harguments item member)).map
          intro arguments marked ⟨hcallee, first⟩
          subst hcallee
          refine ⟨congrArg _ (unmarkExprs_of_forall₂ marked), ?_⟩
          refine everywhere_expr ⟨.of_nil rfl, fun _ => trivial⟩ fun part member => ?_
          rcases List.mem_cons.mp member with rfl | member
          · exact first
          · exact forall_mem_of_forall₂ marked (fun _ _ h => h.2) part member
      | get hobject =>
          apply (ih hobject).map
          intro object ⟨hobject, inner⟩
          subst hobject
          exact ⟨rfl, everywhere_unary rfl (fun _ => trivial) rfl inner⟩
      | grouping hinner =>
          apply (ih hinner).map
          intro expression ⟨hexpression, inner⟩
          subst hexpression
          exact ⟨rfl, everywhere_unary rfl (fun _ => trivial) rfl inner⟩
      | literal => exact .pure ⟨rfl, everywhere_leaf rfl ⟨.of_nil rfl, fun _ => trivial⟩⟩
      | logical hleft hright =>
          apply (ih hleft).bind
          intro left
          apply (ih hright).map
          intro right ⟨hright, second⟩ ⟨hleft, first⟩
          subst hleft hright
          exact ⟨rfl, everywhere_binary rfl (fun _ => trivial) rfl first second⟩
      | set hobject hvalue =>
          apply (ih hvalue).bind
          intro value
          apply (ih hobject).map
          intro object ⟨hobject, first⟩ ⟨hvalue, second⟩
          subst hobject hvalue
          exact ⟨rfl, everywhere_binary rfl (fun _ => trivial) rfl first second⟩
      | super unmarked spelling =>
          apply (Marks.markSuper suits.regular suits.inClass spelling).map
          intro use ⟨same, located, allowed⟩
          refine ⟨congrArg (Expr.super · _) (NameUse.unmark_eq unmarked same), ?_⟩
          exact everywhere_leaf rfl ⟨.of_one rfl located, allowed⟩
      | this unmarked spelling =>
          apply (Marks.markThis suits.regular suits.inClass unmarked spelling).map
          intro use ⟨same, located, allowed⟩
          refine ⟨congrArg Expr.this (NameUse.unmark_eq unmarked same), ?_⟩
          exact everywhere_leaf rfl ⟨.of_one rfl located, allowed⟩
      | unary hkind hright =>
          apply (ih hright).map
          intro right ⟨hright, inner⟩
          subst hright
          exact ⟨rfl, everywhere_unary rfl (fun _ => hkind) rfl inner⟩
      | @«variable» use names =>
          apply (Marks.markVariable suits.regular use.name).map
          intro use ⟨same, located, allowed⟩
          refine ⟨congrArg Expr.variable (NameUse.unmark_eq names.1 same), ?_⟩
          exact everywhere_leaf rfl ⟨.of_one rfl located, allowed⟩

/-! ## Statements -/

theorem declared?_of_unmark {stmt marked : Stmt} (same : marked.unmark = stmt) :
    marked.declared? = stmt.declared? := by
  rw [← same, Stmt.declared?_unmark]

theorem after_of_unmark {stmt marked : Stmt} (same : marked.unmark = stmt) (regions : Regions) :
    regions.after marked = regions.after stmt := by
  rw [Regions.after, Regions.after, declared?_of_unmark same]

theorem names_of_declared? {stmt : Stmt} (wellFormed : stmt.WellFormed) {name : Token}
    (h : stmt.declared? = some name) : name.Names := by
  cases wellFormed with
  | «class» names _ _ _ =>
      cases h
      exact names
  | function names _ _ =>
      cases h
      exact names
  | var names _ =>
      cases h
      exact names
  | _ => cases h

theorem Regions.Suits.hold (suits : regions.Suits around) {name : Token} (names : name.Names) :
    (regions.hold name.lexeme).Suits around :=
  ⟨suits.regular.hold ⟨names.1, names.2⟩, by rw [inClass_hold, suits.inClass]⟩

theorem Regions.Suits.begin (suits : regions.Suits around) {name : Token} (names : name.Names) :
    (regions.begin name.lexeme).Suits around :=
  ⟨suits.regular.begin ⟨names.1, names.2⟩, by rw [inClass_begin, suits.inClass]⟩

theorem Regions.Suits.after (suits : regions.Suits around) {stmt : Stmt}
    (wellFormed : stmt.WellFormed) : (regions.after stmt).Suits around := by
  unfold Regions.after
  split
  · next name hname => exact suits.hold (names_of_declared? wellFormed hname)
  · exact suits

theorem Regions.Suits.params (suits : regions.Suits around) (closed : regions.begun? = none) {params : List Token}
    (names : ∀ param ∈ params, param.Names) :
    (Regions.inside (.block (.ofList (params.map Token.lexeme))) regions).Suits around :=
  ⟨⟨Regions.regular_params names, closed, suits.regular⟩, suits.inClass⟩

theorem Regions.Suits.base (suits : regions.Suits around) (settled : regions.Settled) {name : Token}
    (names : name.Names) :
    (Regions.inside .receiver (regions.hold name.lexeme)).Suits (around.enterClass .base) :=
  ⟨⟨trivial, Regions.begun?_hold settled name.lexeme, (suits.hold names).regular⟩,
    Regions.inClass_receiver (settled.hold _)⟩

theorem Regions.Suits.derived (suits : regions.Suits around) (settled : regions.Settled) {name : Token}
    (names : name.Names) :
    (Regions.inside .receiver (.inside .superclass (regions.hold name.lexeme))).Suits
      (around.enterClass .derived) :=
  ⟨⟨trivial, rfl, trivial, Regions.begun?_hold settled name.lexeme, (suits.hold names).regular⟩, rfl⟩

theorem Regions.Suits.method (suits : regions.Suits around) (method : FunctionDecl) :
    regions.Suits (around.enterFunction (methodContext method)) :=
  ⟨suits.regular, suits.inClass⟩

theorem afterAll_block (names : Names) (outer : Regions) (statements : List Stmt) :
    ∃ last, (Regions.inside (.block names) outer).afterAll statements =
      .inside (.block last) outer := by
  induction statements generalizing names with
  | nil => exact ⟨names, rfl⟩
  | cons stmt rest ih =>
      rw [Regions.afterAll, List.foldl_cons, Regions.after]
      split
      · exact ih (names.hold _)
      · exact ih names

theorem afterAll_global (names : Names) (settled : names.begun = none) (statements : List Stmt) :
    ∃ last : Names, (Regions.global names).afterAll statements = .global last ∧
      last.begun = none ∧
      ∀ name, name ∈ last.held ↔ name ∈ declaredNames statements ∨ name ∈ names.held := by
  induction statements generalizing names with
  | nil => exact ⟨names, rfl, settled, fun name => by simp [declaredNames]⟩
  | cons stmt rest ih =>
      rw [Regions.afterAll, List.foldl_cons, Regions.after]
      cases declared : stmt.declared? with
      | none =>
          obtain ⟨last, same, closed, held⟩ := ih names settled
          exact ⟨last, same, closed, fun name => by simpa [declaredNames, declared] using held name⟩
      | some token =>
          obtain ⟨last, same, closed, held⟩ := ih (names.hold token.lexeme) rfl
          refine ⟨last, same, closed, fun name => ?_⟩
          rw [held]
          simp [declaredNames, declared, Names.hold, or_left_comm, or_assoc]

/-- What marking the statements of one depth does. -/
structure StatementMarks (clean : Prop) (depth : Nat) : Prop where
  stmt : ∀ {around : Surroundings} {regions : Regions} {stmt : Stmt},
    regions.Suits around → regions.Settled → stmt.WellFormed →
    Marks clean (markStmt around depth stmt) regions (regions.after stmt)
      (MarkedStmt clean regions stmt)
  stmts : ∀ {around : Surroundings} {regions : Regions} {statements : List Stmt},
    regions.Suits around → regions.Settled → (∀ stmt ∈ statements, stmt.WellFormed) →
    Marks clean (markStmts around depth statements) regions (regions.afterAll statements)
      (MarkedStmts clean regions statements)
  function : ∀ {around : Surroundings} {regions : Regions} {declaration : FunctionDecl},
    regions.Suits around → regions.begun? = none → declaration.WellFormed →
    Marks clean (markFunction around depth declaration) regions regions
      (MarkedFunction clean regions declaration)
  «class» : ∀ {around : Surroundings} {regions : Regions} {name : Token}
    {superclass : Option NameUse} {methods : List FunctionDecl},
    regions.Suits around → regions.Settled → (Stmt.class name superclass methods).WellFormed →
    Marks clean (markClass around depth name superclass methods) regions
      (regions.hold name.lexeme) (MarkedStmt clean regions (.class name superclass methods))

theorem everywhere_stmt {marked : Stmt}
    (declares : ∀ name, marked.declared? = some name →
      name.Names ∧ (clean → regions.Admits name.lexeme))
    (branches : ∀ branch ∈ marked.branches, branch.declared? = none)
    (parts : ∀ inner, Part ⟨regions, .stmt marked⟩ inner → Everywhere (Fits clean) inner) :
    Everywhere (Fits clean) ⟨regions, .stmt marked⟩ :=
  .intro ⟨.of_nil rfl, fun _ => ⟨fun name same => (declares name same).1, branches⟩,
    fun holds name same => (declares name same).2 holds⟩ parts

theorem everywhere_statements {marked : List Stmt}
    (parts : ∀ inner, Part ⟨regions, .statements marked⟩ inner → Everywhere (Fits clean) inner) :
    Everywhere (Fits clean) ⟨regions, .statements marked⟩ :=
  .intro ⟨.of_nil rfl, fun _ => trivial, fun _ => trivial⟩ parts

theorem marks_expr? (suits : regions.Suits around) (depth : Nat) {expr : Option Expr}
    (wellFormed : WellFormedExpr? expr) :
    Marks clean (markOption (markExpr around depth) expr) regions regions
      (MarkedExpr? clean regions expr) := by
  apply Marks.option
  · intro absent
    exact ⟨absent.symm, nofun⟩
  · intro inner present
    apply (marks_expr suits depth (wellFormed inner present)).mono
    intro marked ⟨same, everywhere⟩
    refine ⟨?_, ?_⟩
    · rw [present, Option.map_some, same]
    · intro found hfound
      cases hfound
      exact everywhere

theorem marks_stmts {depth : Nat} (marks : StatementMarks clean depth)
    (suits : regions.Suits around) (settled : regions.Settled) {statements : List Stmt}
    (wellFormed : ∀ stmt ∈ statements, stmt.WellFormed) :
    Marks clean (statements.mapM (markStmt around depth)) regions (regions.afterAll statements)
      (MarkedStmts clean regions statements) := by
  induction statements generalizing regions with
  | nil =>
      apply Marks.pure
      refine ⟨rfl, everywhere_statements fun inner part => ?_⟩
      cases part
  | cons stmt rest ih =>
      have hstmt : stmt.WellFormed := wellFormed stmt List.mem_cons_self
      have hrest : ∀ other ∈ rest, other.WellFormed :=
        fun other member => wellFormed other (List.mem_cons_of_mem _ member)
      rw [List.mapM_cons]
      apply (marks.stmt suits settled hstmt).bind
      intro marked
      apply (ih (suits.after hstmt) (settled.after stmt) hrest).bind
      intro others
      apply Marks.pure
      intro ⟨hothers, tail⟩ ⟨hmarked, head⟩
      refine ⟨by rw [unmarkStmts, hmarked, hothers], everywhere_statements fun inner part => ?_⟩
      cases part with
      | head => exact head
      | tail =>
          rw [after_of_unmark hmarked]
          exact tail

theorem marks_function {depth : Nat} (marks : StatementMarks clean depth)
    (suits : regions.Suits around) (settled : regions.begun? = none) {declaration : FunctionDecl}
    (wellFormed : declaration.WellFormed) :
    Marks clean (markFunction around (depth + 1) declaration) regions regions
      (MarkedFunction clean regions declaration) := by
  obtain ⟨name, params, body⟩ := declaration
  obtain ⟨hparams, hbody⟩ := wellFormed
  obtain ⟨names, hafter⟩ := afterAll_block (.ofList (params.map Token.lexeme)) regions body
  have inner := marks.stmts (suits.params settled hparams) rfl hbody
  rw [hafter] at inner
  apply Marks.withBlock
  apply (Marks.declareParams regions params).bind
  intro _
  apply inner.map
  intro marked ⟨hmarked, everywhere⟩ _
  subst hmarked
  refine ⟨rfl, .intro ⟨.of_nil rfl, fun _ => trivial, fun _ => trivial⟩ fun place part => ?_⟩
  cases part with
  | body => exact everywhere

theorem unmarkFunctions_of_forall₂ {methods marked : List FunctionDecl}
    (h : List.Forall₂ (MarkedFunction clean regions) methods marked) :
    unmarkFunctions marked = methods := by
  induction h with
  | nil => rfl
  | cons first _ ih => rw [unmarkFunctions, first.1, ih]

theorem marks_methods {depth : Nat} (marks : StatementMarks clean depth)
    (suits : (Regions.inside .receiver regions).Suits around) {methods : List FunctionDecl}
    (wellFormed : ∀ method ∈ methods, method.WellFormed) :
    Marks clean
      (withScope ["this"] (methods.mapM fun method =>
        markFunction (around.enterFunction (methodContext method)) depth method))
      regions regions
      (List.Forall₂ (MarkedFunction clean (.inside .receiver regions)) methods) := by
  apply Marks.withScope Region.state?_receiver
  apply Marks.mapM
  intro method member
  exact marks.function (suits.method method) rfl (wellFormed method member)

theorem marks_class {depth : Nat} (marks : StatementMarks clean depth)
    (suits : regions.Suits around) (settled : regions.Settled) {name : Token}
    {superclass : Option NameUse} {methods : List FunctionDecl}
    (wellFormed : (Stmt.class name superclass methods).WellFormed) :
    Marks clean (markClass around (depth + 1) name superclass methods) regions
      (regions.hold name.lexeme) (MarkedStmt clean regions (.class name superclass methods)) := by
  cases wellFormed with
  | «class» names hsuperclass hparams hbodies =>
      have hmethods : ∀ method ∈ methods, method.WellFormed :=
        fun method member => ⟨hparams method member, hbodies method member⟩
      have declares (new : clean → regions.Admits name.lexeme) (superclass : Option NameUse)
          (methods : List FunctionDecl) :
          ∀ found, (Stmt.class name superclass methods).declared? = some found →
            found.Names ∧ (clean → regions.Admits found.lexeme) := by
        intro found same
        cases same
        exact ⟨names, new⟩
      apply (Marks.declareFully settled).bind
      intro _
      cases superclass with
      | none =>
          apply (marks_methods marks (suits.base settled names) hmethods).map
          intro marked hmarked new
          refine ⟨congrArg _ (unmarkFunctions_of_forall₂ hmarked), ?_⟩
          refine everywhere_stmt (declares new none marked) (List.forall_mem_nil _) fun place part => ?_
          cases part with
          | method member => exact forall_mem_of_forall₂ hmarked (fun _ _ h => h.2) _ member
          | exprOf member | branch member => cases member
      | some superclass =>
          have inner := marks_methods marks (suits.derived settled names) hmethods
          have parent := hsuperclass superclass rfl
          apply (Marks.reportIf _ _ _).bind
          intro _
          apply (Marks.markVariable (suits.hold names).regular superclass.name).bind
          intro use
          apply (Marks.withScope Region.state?_superclass inner).map
          rintro marked hmarked ⟨same, located, reaches⟩ different new
          have hunmark : use.unmark = superclass := NameUse.unmark_eq parent.1 same
          refine ⟨?_, ?_⟩
          · rw [Stmt.unmark, Option.map_some, hunmark, unmarkFunctions_of_forall₂ hmarked]
          refine everywhere_stmt (declares new (some use) marked) (List.forall_mem_nil _) fun place part => ?_
          cases part with
          | method member => exact forall_mem_of_forall₂ hmarked (fun _ _ h => h.2) _ member
          | exprOf member | branch member => cases member
          | superclass =>
              -- The name of the class is complete here already, which only matters if it is the parent.
              apply everywhere_leaf rfl
              refine ⟨.of_one rfl fun hops => ?_, fun holds => ?_⟩
              · exact (located hops).trans (Regions.finds_begin settled name.lexeme hops).symm
              · apply Regions.reaches_begin settled _ (reaches holds)
                rw [same]
                exact fun equal => of_decide_eq_false (different holds) equal.symm

theorem everywhere_simple {marked : Stmt} {expr : Expr}
    (simple : marked = .expression expr ∨ marked = .print expr)
    (h : Everywhere (Fits clean) ⟨regions, .expr expr⟩) :
    Everywhere (Fits clean) ⟨regions, .stmt marked⟩ := by
  rcases simple with rfl | rfl
  all_goals
    refine everywhere_stmt nofun nofun fun place part => ?_
    cases part with
    | exprOf member =>
        rw [List.mem_singleton.mp member]
        exact h
    | branch member => cases member

theorem everywhere_jump {marked : Stmt} {keyword : Token}
    (jump : marked = .break keyword ∨ marked = .continue keyword) :
    Everywhere (Fits clean) ⟨regions, .stmt marked⟩ := by
  rcases jump with rfl | rfl
  all_goals
    refine everywhere_stmt nofun nofun fun place part => ?_
    cases part with
    | exprOf member | branch member => cases member

theorem marks_if {depth : Nat} (marks : StatementMarks clean depth)
    (suits : regions.Suits around) (settled : regions.Settled) {condition : Expr}
    {thenBranch : Stmt} {elseBranch : Option Stmt}
    (wellFormed : (Stmt.if condition thenBranch elseBranch).WellFormed) :
    Marks clean (markStmt around (depth + 1) (.if condition thenBranch elseBranch)) regions
      regions (MarkedStmt clean regions (.if condition thenBranch elseBranch)) := by
  cases wellFormed with
  | «if» hcondition thenInner hthen elseInner helse =>
      have first := marks.stmt suits settled hthen
      rw [Regions.after_of_none thenInner] at first
      have second : Marks clean (markOption (markStmt around depth) elseBranch) regions regions
          (MarkedStmt? clean regions elseBranch) := by
        apply Marks.option
        · intro absent
          refine ⟨absent.symm, ?_⟩
          rintro _ ⟨⟩
        · intro inner present
          have branch := marks.stmt suits settled (helse inner present)
          rw [Regions.after_of_none (elseInner inner present)] at branch
          apply branch.mono
          rintro marked ⟨same, everywhere⟩
          refine ⟨by rw [unmarkStmt?, same, present], fun found hfound => ?_⟩
          cases hfound
          exact everywhere
      apply (marks_expr suits depth hcondition).bind
      intro condition
      apply first.bind
      intro thenMarked
      apply second.map
      rintro elseMarked ⟨sameElse, everywhereElse⟩ ⟨sameThen, everywhereThen⟩ ⟨same, everywhere⟩
      refine ⟨by rw [Stmt.unmark, sameElse, sameThen, same], ?_⟩
      refine everywhere_stmt (by rintro _ ⟨⟩) (fun branch member => ?_) fun place part => ?_
      · rcases List.mem_cons.mp member with rfl | member
        · rw [declared?_of_unmark sameThen, thenInner]
        · rw [Option.mem_toList.mp member] at sameElse
          rw [← Stmt.declared?_unmark]
          exact elseInner _ sameElse.symm
      · cases part with
        | exprOf member =>
            rw [List.mem_singleton.mp member]
            exact everywhere
        | branch member =>
            rcases List.mem_cons.mp member with rfl | member
            · exact everywhereThen
            · exact everywhereElse _ (Option.mem_toList.mp member)

theorem marks_while {depth : Nat} (marks : StatementMarks clean depth)
    (suits : regions.Suits around) (settled : regions.Settled) {condition : Expr} {body : Stmt}
    {increment : Option Expr} (wellFormed : (Stmt.while condition body increment).WellFormed) :
    Marks clean (markStmt around (depth + 1) (.while condition body increment)) regions
      regions (MarkedStmt clean regions (.while condition body increment)) := by
  cases wellFormed with
  | «while» hcondition inner hbody hincrement =>
      have loopSuits : regions.Suits around.enterLoop := ⟨suits.regular, suits.inClass⟩
      have marksBody := marks.stmt loopSuits settled hbody
      rw [Regions.after_of_none inner] at marksBody
      apply (marks_expr suits depth hcondition).bind
      intro condition
      apply marksBody.bind
      intro bodyMarked
      apply (marks_expr? suits depth hincrement).map
      rintro incrementMarked ⟨sameIncrement, everywhereIncrement⟩ ⟨sameBody, everywhereBody⟩
        ⟨same, everywhere⟩
      refine ⟨by rw [Stmt.unmark, sameIncrement, sameBody, same], ?_⟩
      refine everywhere_stmt (by rintro _ ⟨⟩) (fun branch member => ?_) fun place part => ?_
      · rw [List.mem_singleton.mp member, declared?_of_unmark sameBody, inner]
      · cases part with
        | exprOf member =>
            rcases List.mem_cons.mp member with rfl | member
            · exact everywhere
            · exact everywhereIncrement _ (Option.mem_toList.mp member)
        | branch member =>
            rw [List.mem_singleton.mp member]
            exact everywhereBody

theorem marks_var (suits : regions.Suits around) (settled : regions.Settled) (depth : Nat)
    {name : Token} {initializer : Option Expr}
    (wellFormed : (Stmt.var name initializer).WellFormed) :
    Marks clean (markStmt around (depth + 1) (.var name initializer)) regions
      (regions.hold name.lexeme) (MarkedStmt clean regions (.var name initializer)) := by
  cases wellFormed with
  | var names hinitializer =>
      apply (Marks.declare settled).bind
      intro _
      apply (marks_expr? (suits.begin names) depth hinitializer).bind
      intro marked
      apply (Marks.complete settled).bind
      intro _
      apply Marks.pure
      intro _ ⟨same, everywhere⟩ new
      refine ⟨by rw [Stmt.unmark, same], everywhere_stmt ?_ nofun fun place part => ?_⟩
      · intro found hfound
        cases hfound
        exact ⟨names, new⟩
      · cases part with
        | initializer => exact everywhere _ rfl
        | exprOf member | branch member => cases member

theorem marks_stmt {depth : Nat} (marks : StatementMarks clean depth)
    (suits : regions.Suits around) (settled : regions.Settled) {stmt : Stmt}
    (wellFormed : stmt.WellFormed) :
    Marks clean (markStmt around (depth + 1) stmt) regions (regions.after stmt)
      (MarkedStmt clean regions stmt) := by
  cases stmt with
  | block statements =>
      cases wellFormed with
      | block inner =>
          obtain ⟨names, hafter⟩ := afterAll_block (.ofList []) regions statements
          have blockSuits : (Regions.inside (.block (.ofList [])) regions).Suits around :=
            ⟨⟨Regions.regular_ofList nofun, settled.begun?, suits.regular⟩, suits.inClass⟩
          have body := marks.stmts blockSuits rfl inner
          rw [hafter] at body
          apply (Marks.withBlock body).map
          intro marked ⟨same, everywhere⟩
          refine ⟨congrArg Stmt.block same, everywhere_stmt nofun nofun fun place part => ?_⟩
          cases part with
          | block => exact everywhere
          | exprOf member | branch member => cases member
  | «break» keyword =>
      apply (Marks.reportIf _ _ _).bind
      intro _
      exact .pure fun _ => ⟨rfl, everywhere_jump (.inl rfl)⟩
  | «continue» keyword =>
      apply (Marks.reportIf _ _ _).bind
      intro _
      exact .pure fun _ => ⟨rfl, everywhere_jump (.inr rfl)⟩
  | «class» name superclass methods => exact marks.class suits settled wellFormed
  | expression value =>
      cases wellFormed with
      | expression hvalue =>
          apply (marks_expr suits depth hvalue).map
          intro marked ⟨same, everywhere⟩
          exact ⟨congrArg Stmt.expression same, everywhere_simple (.inl rfl) everywhere⟩
  | print value =>
      cases wellFormed with
      | print hvalue =>
          apply (marks_expr suits depth hvalue).map
          intro marked ⟨same, everywhere⟩
          exact ⟨congrArg Stmt.print same, everywhere_simple (.inr rfl) everywhere⟩
  | function declaration =>
      cases wellFormed with
      | function names hparams hbody =>
          have inner : (regions.hold declaration.name.lexeme).Suits
              (around.enterFunction .function) :=
            ⟨(suits.hold names).regular, (suits.hold names).inClass⟩
          have closed := Regions.begun?_hold settled declaration.name.lexeme
          apply (Marks.declareFully settled).bind
          intro _
          apply (marks.function inner closed ⟨hparams, hbody⟩).map
          intro marked ⟨same, everywhere⟩ new
          have sameName : marked.name = declaration.name := by
            rw [← same]
            cases marked
            rfl
          refine ⟨congrArg Stmt.function same, everywhere_stmt ?_ nofun fun place part => ?_⟩
          · intro found hfound
            cases hfound
            rw [sameName]
            exact ⟨names, new⟩
          · cases part with
            | function =>
                rw [sameName]
                exact everywhere
            | exprOf member | branch member => cases member
  | «if» condition thenBranch elseBranch => exact marks_if marks suits settled wellFormed
  | «return» keyword value =>
      cases wellFormed with
      | «return» hvalue =>
          apply (Marks.reportIf _ _ _).bind
          intro _
          apply (Marks.reportIf _ _ _).bind
          intro _
          apply (marks_expr? suits depth hvalue).map
          intro marked ⟨same, everywhere⟩ _ _
          refine ⟨congrArg (Stmt.return keyword) same, ?_⟩
          refine everywhere_stmt nofun nofun fun place part => ?_
          cases part with
          | exprOf member => exact everywhere _ (Option.mem_toList.mp member)
          | branch member => cases member
  | var name initializer => exact marks_var suits settled depth wellFormed
  | «while» condition body increment => exact marks_while marks suits settled wellFormed

theorem statementMarks (clean : Prop) (depth : Nat) : StatementMarks clean depth := by
  -- Statements, functions and classes are marked by one another, each one level deeper than the last.
  induction depth with
  | zero =>
      exact ⟨fun _ _ _ => .tooDeep, fun _ _ _ => .tooDeep, fun _ _ _ => .tooDeep,
        fun _ _ _ => .tooDeep⟩
  | succ depth ih =>
      exact {
        stmt := fun suits settled wellFormed => marks_stmt ih suits settled wellFormed
        stmts := fun suits settled wellFormed => marks_stmts ih suits settled wellFormed
        function := fun suits settled wellFormed => marks_function ih suits settled wellFormed
        «class» := fun suits settled wellFormed => marks_class ih suits settled wellFormed }

/-! ## Programs -/

theorem tracks_global : Tracks .start .global :=
  .global fun _ => rfl

theorem suits_topLevel : Regions.start.Suits .topLevel :=
  ⟨trivial, rfl⟩

/-- A program that was marked is as it was but for its marks, and every place in it is in order. -/
theorem markedStmts_of_mark? {limit : Nat} {statements : List Stmt} {marked : Marked}
    (wellFormed : ∀ stmt ∈ statements, stmt.WellFormed)
    (h : mark? limit statements = some marked) :
    MarkedStmts (marked.errors = []) .start statements marked.statements := by
  unfold mark? at h
  cases hrun : markStmts .topLevel limit statements ⟨.global, #[]⟩ with
  | error _ _ =>
      rw [hrun] at h
      cases h
  | ok result state =>
      rw [hrun] at h
      cases h
      have marks := (statementMarks (state.errors.toList = []) limit).stmts suits_topLevel rfl
        wellFormed
      obtain ⟨-, found, herrors, means⟩ := marks _ _ _ _ tracks_global hrun
      apply means
      intro clean
      rw [herrors] at clean
      exact clean

/-- Marking is lexical scoping: a use of a name is marked if and only if a local region around it declares the
name at that place, and its mark is the number of regions within the innermost such one. Each use has one
mark, and nothing but the uses of names has any. -/
theorem marking_lexical (depth limit : Nat) {tokens : List Token}
    (spelled : ∀ token ∈ tokens, token.Spelled) {marked : Marked}
    (shallow : mark? limit (Program.ofTokens depth tokens).statements = some marked) :
    unmarkStmts marked.statements = (Program.ofTokens depth tokens).statements ∧
      ∀ place, Stands marked.statements place → ∀ use ∈ place.node.uses, ∀ hops,
        use.hops = some hops ↔ place.regions.Finds use.name.lexeme hops := by
  have wellFormed := Program.wellFormed_ofTokens depth spelled
  obtain ⟨same, everywhere⟩ := markedStmts_of_mark? wellFormed shallow
  refine ⟨same, fun place stands => ?_⟩
  exact (everywhere place stands).1

/-- A name that is declared twice, and used in between. -/
def shadowingText : List Token :=
  [⟨.leftBrace, "\x7b", .none, 1⟩, ⟨.var, "var", .none, 1⟩, ⟨.identifier, "a", .none, 1⟩,
    ⟨.semicolon, ";", .none, 1⟩, ⟨.leftBrace, "\x7b", .none, 1⟩, ⟨.print, "print", .none, 1⟩,
    ⟨.identifier, "a", .none, 1⟩, ⟨.semicolon, ";", .none, 1⟩, ⟨.var, "var", .none, 1⟩,
    ⟨.identifier, "a", .none, 1⟩, ⟨.semicolon, ";", .none, 1⟩,
    ⟨.rightBrace, "\x7d", .none, 1⟩, ⟨.rightBrace, "\x7d", .none, 1⟩, .final 1]

def shadowingMarked : List Stmt :=
  [.block [.var ⟨.identifier, "a", .none, 1⟩ none,
    .block [.print (.variable ⟨⟨.identifier, "a", .none, 1⟩, some 1⟩),
      .var ⟨.identifier, "a", .none, 1⟩ none]]]

theorem marking_lexical_shadowing :
    unmarkStmts shadowingMarked = (Program.ofTokens 24 shadowingText).statements ∧
      ∀ place, Stands shadowingMarked place → ∀ use ∈ place.node.uses, ∀ hops,
        use.hops = some hops ↔ place.regions.Finds use.name.lexeme hops := by
  have spelled : ∀ token ∈ shadowingText, token.Spelled := by
    intro token member
    simp only [shadowingText, List.mem_cons, List.not_mem_nil, or_false] at member
    rcases member with rfl | rfl | rfl | rfl | rfl | rfl | rfl | rfl | rfl | rfl | rfl | rfl |
      rfl | rfl
    all_goals exact ⟨by decide, by decide, by decide⟩
  have shallow : mark? 16 (Program.ofTokens 24 shadowingText).statements =
      some ⟨shadowingMarked, []⟩ := rfl
  exact marking_lexical 24 16 spelled shallow

end LoxLang.Scoping
