import LoxLang.Proofs.Expansion.Replacement
import LoxLang.Proofs.Sequence
import LoxLang.Scoping.Marking

/-!
The levels of a tree. A program can be marked if its tree has no more levels than the limit allows; where a loop is
spelled out there are at most five more.
-/

namespace LoxLang

open Scoping

mutual

/-- How many levels the tree of an expression has. -/
def Expr.levels : Expr → Nat
  | .assign _ value => value.levels + 1
  | .binary left _ right | .logical left _ right => max left.levels right.levels + 1
  | .call callee _ arguments => max callee.levels (exprsLevels arguments) + 1
  | .get inner _ | .grouping inner | .unary _ inner => inner.levels + 1
  | .literal _ | .super _ _ | .this _ | .variable _ => 1
  | .set object _ value => max value.levels object.levels + 1

def exprsLevels : List Expr → Nat
  | [] => 0
  | expr :: rest => max expr.levels (exprsLevels rest)

end

def exprLevels? : Option Expr → Nat
  | none => 0
  | some expr => expr.levels

mutual

/-- Blocks and bodies have a level of their own for the list of their statements. -/
def Stmt.levels : Stmt → Nat
  | .block statements => stmtsLevels statements + 2
  | .break _ | .continue _ => 1
  | .class _ _ methods => functionsLevels methods + 2
  | .expression value | .print value => value.levels + 1
  | .function declaration => declaration.levels + 1
  | .if condition thenBranch elseBranch =>
      max condition.levels (max thenBranch.levels (stmtLevels? elseBranch)) + 1
  | .return _ value | .var _ value => exprLevels? value + 1
  | .while condition body increment =>
      max condition.levels (max body.levels (exprLevels? increment)) + 1

def FunctionDecl.levels : FunctionDecl → Nat
  | ⟨_, _, body⟩ => stmtsLevels body + 2

def stmtLevels? : Option Stmt → Nat
  | none => 0
  | some stmt => stmt.levels

def stmtsLevels : List Stmt → Nat
  | [] => 0
  | stmt :: rest => max stmt.levels (stmtsLevels rest)

def functionsLevels : List FunctionDecl → Nat
  | [] => 0
  | declaration :: rest => max declaration.levels (functionsLevels rest)

end

namespace Scoping

/-! ## Levels of markers -/

/-- With that many levels the marker has a result in every state, with fewer it has none. -/
structure Takes {α : Type} (levels depth : Nat) (marker : Marker α) : Prop where
  enough : levels ≤ depth → ∀ state, ∃ result next, marker state = .ok result next
  few : depth < levels → ∀ state, ∃ next, marker state = .error () next

namespace Takes

variable {α β : Type} {levels more depth : Nat} {marker : Marker α}

theorem of_ok (h : ∀ state, ∃ result next, marker state = .ok result next) : Takes 0 depth marker :=
  ⟨fun _ => h, fun nothing => absurd nothing (Nat.not_lt_zero depth)⟩

theorem tooDeep (levels : Nat) : Takes (levels + 1) 0 (Scoping.tooDeep : Marker α) :=
  ⟨fun bound => absurd bound (Nat.not_succ_le_zero levels), fun _ state => ⟨state, rfl⟩⟩

theorem succ (h : Takes levels depth marker) : Takes (levels + 1) (depth + 1) marker :=
  ⟨fun bound => h.enough (Nat.le_of_succ_le_succ bound), fun bound => h.few (Nat.lt_of_succ_lt_succ bound)⟩

theorem bind {next : α → Marker β} (first : Takes levels depth marker)
    (second : ∀ result, Takes more depth (next result)) :
    Takes (max levels more) depth (marker >>= next) := by
  constructor
  · intro bound state
    obtain ⟨result, middle, begins⟩ := first.enough (Nat.le_trans (Nat.le_max_left _ _) bound) state
    obtain ⟨last, later, ends⟩ := (second result).enough (Nat.le_trans (Nat.le_max_right _ _) bound) middle
    exact ⟨last, later, (bind_ok begins).trans ends⟩
  · intro bound state
    by_cases enough : levels ≤ depth
    · obtain ⟨result, middle, begins⟩ := first.enough enough state
      rw [bind_ok begins]
      exact (second result).few (by omega) middle
    · obtain ⟨middle, fails⟩ := first.few (Nat.lt_of_not_le enough) state
      exact ⟨middle, bind_error fails⟩

theorem pure (value : α) : Takes 0 depth (Pure.pure value : Marker α) :=
  of_ok fun state => ⟨value, state, rfl⟩

/-- What goes before takes no levels. -/
theorem behind {next : α → Marker β} (first : Takes 0 depth marker)
    (second : ∀ result, Takes more depth (next result)) : Takes more depth (marker >>= next) := by
  have all := first.bind second
  rwa [Nat.zero_max] at all

/-- What comes after takes no levels. -/
theorem before {next : α → Marker β} (first : Takes levels depth marker)
    (second : ∀ result, Takes 0 depth (next result)) : Takes levels depth (marker >>= next) := by
  have all := first.bind second
  rwa [Nat.max_zero] at all

theorem map {make : α → β} (h : Takes levels depth marker) :
    Takes levels depth (do return make (← marker)) :=
  h.before fun result => pure (make result)

theorem withScope (names : List String) (h : Takes levels depth marker) :
    Takes levels depth (Scoping.withScope names marker) :=
  behind (of_ok fun _ => ⟨_, _, rfl⟩) fun _ => h.before fun _ => of_ok fun _ => ⟨_, _, rfl⟩

end Takes

variable {depth : Nat}

theorem takes_locate (name : Token) : Takes 0 depth (locate name) :=
  .of_ok fun _ => ⟨_, _, rfl⟩

theorem takes_reportIf (condition : Bool) (token : Token) (cause : ResolutionError.Cause) :
    Takes 0 depth (reportIf condition token cause) := by
  cases condition <;> exact .of_ok fun _ => ⟨_, _, rfl⟩

theorem takes_markVariable (name : Token) : Takes 0 depth (markVariable name) :=
  .behind (.of_ok fun _ => ⟨_, _, rfl⟩) fun _ => (takes_reportIf _ _ _).behind fun _ => takes_locate name

theorem takes_markThis (around : Surroundings) (keyword : NameUse) :
    Takes 0 depth (markThis around keyword) := by
  unfold markThis
  split
  · exact .of_ok fun _ => ⟨_, _, rfl⟩
  · exact takes_locate keyword.name

theorem takes_markSuper (around : Surroundings) (keyword : Token) :
    Takes 0 depth (markSuper around keyword) := by
  unfold markSuper
  split <;> exact .of_ok fun _ => ⟨_, _, rfl⟩

theorem takes_declare (name : Token) : Takes 0 depth (declare name) :=
  .behind (.of_ok fun _ => ⟨_, _, rfl⟩) fun _ =>
    (takes_reportIf _ _ _).behind fun _ => .of_ok fun _ => ⟨_, _, rfl⟩

theorem takes_complete (name : Token) : Takes 0 depth (complete name) :=
  .of_ok fun _ => ⟨_, _, rfl⟩

theorem takes_declareFully (name : Token) : Takes 0 depth (declareFully name) :=
  (takes_declare name).behind fun _ => takes_complete name

/-! ## Trees -/

theorem takes_exprs {mark : Expr → Marker Expr} (each : ∀ expr, Takes expr.levels depth (mark expr))
    (exprs : List Expr) : Takes (exprsLevels exprs) depth (exprs.mapM mark) := by
  induction exprs with
  | nil => exact .pure []
  | cons expr rest ih =>
      rw [List.mapM_cons]
      exact (each expr).bind fun _ => ih.map

theorem takes_expr (around : Surroundings) (depth : Nat) (expr : Expr) :
    Takes expr.levels depth (markExpr around depth expr) := by
  induction depth generalizing expr with
  | zero => cases expr <;> exact .tooDeep _
  | succ depth ih =>
      cases expr with
      | assign target value =>
          exact ((ih value).before fun _ => (takes_locate target.name).map).succ
      | binary left operator right | logical left operator right =>
          exact ((ih left).bind fun _ => (ih right).map).succ
      | call callee paren arguments => exact ((ih callee).bind fun _ => (takes_exprs ih arguments).map).succ
      | get inner _ | grouping inner | unary _ inner => exact (ih inner).map.succ
      | literal value => exact (Takes.pure _).succ
      | super keyword method => exact (takes_markSuper around keyword.name).map.succ
      | this keyword => exact (takes_markThis around keyword).map.succ
      | «variable» use => exact (takes_markVariable use.name).map.succ
      | set object name value => exact ((ih value).bind fun _ => (ih object).map).succ

theorem takes_expr? (around : Surroundings) (depth : Nat) (expr : Option Expr) :
    Takes (exprLevels? expr) depth (markOption (markExpr around depth) expr) := by
  cases expr with
  | none => exact .pure none
  | some expr => exact (takes_expr around depth expr).map

structure StatementsTake (depth : Nat) : Prop where
  stmt (around : Surroundings) (stmt : Stmt) : Takes stmt.levels depth (markStmt around depth stmt)
  stmts (around : Surroundings) (statements : List Stmt) :
    Takes (stmtsLevels statements + 1) depth (markStmts around depth statements)
  function (around : Surroundings) (declaration : FunctionDecl) :
    Takes declaration.levels depth (markFunction around depth declaration)
  classDecl (around : Surroundings) (name : Token) (superclass : Option NameUse)
    (methods : List FunctionDecl) :
    Takes (functionsLevels methods + 1) depth (markClass around depth name superclass methods)

namespace StatementsTake

theorem stmt_succ (h : StatementsTake depth) (around : Surroundings) (stmt : Stmt) :
    Takes stmt.levels (depth + 1) (markStmt around (depth + 1) stmt) := by
  cases stmt with
  | block statements => exact ((h.stmts around statements).withScope []).map.succ
  | «class» name superclass methods => exact (h.classDecl around name superclass methods).succ
  | expression value | print value => exact (takes_expr around depth value).map.succ
  | function declaration =>
      exact ((takes_declareFully declaration.name).behind fun _ => (h.function _ declaration).map).succ
  | «if» condition thenBranch elseBranch =>
      refine ((takes_expr around depth condition).bind fun _ =>
        (h.stmt around thenBranch).bind fun _ => ?_).succ
      cases elseBranch with
      | none => exact Takes.map (.pure none)
      | some elseBranch => exact (h.stmt around elseBranch).map.map
  | «return» keyword value =>
      exact ((takes_reportIf _ _ _).behind fun _ => (takes_reportIf _ _ _).behind fun _ =>
        (takes_expr? around depth value).map).succ
  | var name value =>
      exact ((takes_declare name).behind fun _ => (takes_expr? around depth value).before fun _ =>
        (takes_complete name).behind fun _ => .pure _).succ
  | «while» condition body increment =>
      exact ((takes_expr around depth condition).bind fun _ =>
        (h.stmt around.enterLoop body).bind fun _ => (takes_expr? around depth increment).map).succ
  | «break» keyword | «continue» keyword =>
      exact ((takes_reportIf _ _ _).behind fun _ => .pure _).succ

theorem stmts_succ (h : StatementsTake depth) (around : Surroundings) (statements : List Stmt) :
    Takes (stmtsLevels statements + 1) (depth + 1) (markStmts around (depth + 1) statements) := by
  rw [markStmts]
  refine Takes.succ ?_
  induction statements with
  | nil => exact .pure []
  | cons stmt rest ih =>
      rw [List.mapM_cons]
      exact (h.stmt around stmt).bind fun _ => ih.map

theorem function_succ (h : StatementsTake depth) (around : Surroundings)
    (declaration : FunctionDecl) :
    Takes declaration.levels (depth + 1) (markFunction around (depth + 1) declaration) := by
  obtain ⟨name, params, body⟩ := declaration
  refine Takes.succ (.withScope [] (.behind ?_ fun _ => (h.stmts around body).map))
  induction params with
  | nil => exact .pure ()
  | cons param params ih => exact (takes_declareFully param).behind fun _ => ih

theorem methods (h : StatementsTake depth) (around : FunctionDecl → Surroundings)
    (methods : List FunctionDecl) :
    Takes (functionsLevels methods) depth
      (methods.mapM fun method => markFunction (around method) depth method) := by
  induction methods with
  | nil => exact .pure []
  | cons method rest ih =>
      rw [List.mapM_cons]
      exact (h.function _ method).bind fun _ => ih.map

theorem classDecl_succ (h : StatementsTake depth) (around : Surroundings) (name : Token)
    (superclass : Option NameUse) (methods : List FunctionDecl) :
    Takes (functionsLevels methods + 1) (depth + 1)
      (markClass around (depth + 1) name superclass methods) := by
  refine Takes.succ ((takes_declareFully name).behind fun _ => ?_)
  cases superclass with
  | none => exact ((h.methods _ methods).withScope ["this"]).map
  | some superclass =>
      refine (takes_reportIf _ _ _).behind fun _ => (takes_markVariable superclass.name).behind fun _ => ?_
      exact (((h.methods _ methods).withScope ["this"]).withScope ["super"]).map

theorem all : ∀ depth, StatementsTake depth
  | 0 =>
      { stmt := fun _ stmt => by cases stmt <;> exact .tooDeep _
        stmts := fun _ _ => .tooDeep _
        function := fun _ declaration => by cases declaration; exact .tooDeep _
        classDecl := fun _ _ _ _ => .tooDeep _ }
  | depth + 1 =>
      have h : StatementsTake depth := all depth
      { stmt := h.stmt_succ
        stmts := h.stmts_succ
        function := h.function_succ
        classDecl := h.classDecl_succ }

end StatementsTake

/-- A program can be marked under the limits that its tree does not exceed. -/
theorem mark?_isSome_iff {limit : Nat} {statements : List Stmt} :
    (mark? limit statements).isSome = true ↔ stmtsLevels statements < limit := by
  have takes := (StatementsTake.all limit).stmts .topLevel statements
  unfold mark?
  by_cases enough : stmtsLevels statements < limit
  · obtain ⟨result, next, made⟩ := takes.enough enough ⟨.global, #[]⟩
    rw [made]
    exact ⟨fun _ => enough, fun _ => rfl⟩
  · obtain ⟨next, fails⟩ := takes.few (Nat.lt_succ_of_le (Nat.le_of_not_lt enough)) ⟨.global, #[]⟩
    rw [fails]
    exact iff_of_false Bool.false_ne_true enough

end Scoping

/-! ## Loops -/

theorem functionsLevels_append (declarations rest : List FunctionDecl) :
    functionsLevels (declarations ++ rest) = max (functionsLevels declarations) (functionsLevels rest) := by
  induction declarations with
  | nil => exact (Nat.zero_max _).symm
  | cons declaration declarations ih =>
      rw [List.cons_append, functionsLevels, functionsLevels, ih, Nat.max_assoc]

/-- Without an initializer there are two blocks more, otherwise one; and the increment becomes a statement. -/
theorem levels_spelledLoop (initializer : Option Stmt) (condition increment : Option Expr) (body : Stmt) :
    (Grammar.spelledLoop initializer condition increment body).levels ≤
      (Grammar.forLoop initializer condition increment body).levels + 5 := by
  cases initializer <;> cases increment <;>
    simp [Grammar.spelledLoop, Grammar.forLoop, Stmt.levels, stmtsLevels, exprLevels?] <;> omega

def Scoping.Node.levels : Node → Nat
  | .expr part => part.levels
  | .stmt part => part.levels
  | .statements parts => stmtsLevels parts
  | .function declaration => declaration.levels

/-- A tree gets no more levels than the statement that is replaced in it. -/
theorem Scoping.Node.Replaces.levels {old new : Stmt} {node other : Node} {more : Nat}
    (h : Replaces old new node other) (bound : new.levels ≤ old.levels + more) :
    other.levels ≤ node.levels + more := by
  induction h with
  | here => exact bound
  | block _ ih | function _ ih | body _ ih =>
      simp only [Node.levels, Stmt.levels, FunctionDecl.levels] at ih ⊢
      omega
  | method _ ih =>
      simp only [Node.levels, Stmt.levels, functionsLevels_append, functionsLevels] at ih ⊢
      omega
  | thenBranch _ ih | elseBranch _ ih | round _ ih =>
      simp only [Node.levels, Stmt.levels, stmtLevels?] at ih ⊢
      omega
  | head _ ih | tail _ ih =>
      simp only [Node.levels, stmtsLevels] at ih ⊢
      omega

end LoxLang
