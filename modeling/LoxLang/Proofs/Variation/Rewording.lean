import LoxLang.Proofs.Program.Tokens
import LoxLang.Proofs.Variation.Trees

/-!
Other words for the words of a tree. A name may be reworded otherwise where it belongs to a scope in which names are
respelled; the result is a variation of the tree.
-/

namespace LoxLang

open Scoping

structure Rewording where
  word : Token → Token
  name : Bool → Token → Token

def NameUse.reword (c : Rewording) (levels : Levels) (use : NameUse) : NameUse :=
  ⟨c.name (use.level levels) use.name, use.hops⟩

mutual

def Expr.reword (c : Rewording) (levels : Levels) : Expr → Expr
  | .assign target value => .assign (target.reword c levels) (value.reword c levels)
  | .binary left operator right =>
      .binary (left.reword c levels) (c.word operator) (right.reword c levels)
  | .call callee paren arguments =>
      .call (callee.reword c levels) (c.word paren) (rewordExprs c levels arguments)
  | .get object name => .get (object.reword c levels) (c.word name)
  | .grouping expression => .grouping (expression.reword c levels)
  | .literal value => .literal value
  | .logical left operator right =>
      .logical (left.reword c levels) (c.word operator) (right.reword c levels)
  | .set object name value =>
      .set (object.reword c levels) (c.word name) (value.reword c levels)
  | .super keyword method => .super (keyword.reword c levels) (c.word method)
  | .this keyword => .this (keyword.reword c levels)
  | .unary operator right => .unary (c.word operator) (right.reword c levels)
  | .variable use => .variable (use.reword c levels)

def rewordExprs (c : Rewording) (levels : Levels) : List Expr → List Expr
  | [] => []
  | expr :: rest => expr.reword c levels :: rewordExprs c levels rest

end

/-- The levels of the scopes around a method. -/
def Levels.ofMethods (levels : Levels) (superclass : Option NameUse) : Levels :=
  match superclass with
  | none => false :: levels
  | some _ => false :: false :: levels

mutual

/-- The scopes in a statement are none in which names are respelled. -/
def Stmt.reword (c : Rewording) (levels : Levels) : Stmt → Stmt
  | .block statements => .block (rewordStmts c (false :: levels) statements)
  | .break keyword => .break (c.word keyword)
  | .class name superclass methods =>
      .class (c.word name) (superclass.map (NameUse.reword c levels))
        (rewordFunctions c (levels.ofMethods superclass) methods)
  | .continue keyword => .continue (c.word keyword)
  | .expression expression => .expression (expression.reword c levels)
  | .function declaration => .function (declaration.reword c false levels)
  | .if condition thenBranch elseBranch =>
      .if (condition.reword c levels) (thenBranch.reword c levels)
        (rewordStmt? c levels elseBranch)
  | .print expression => .print (expression.reword c levels)
  | .return keyword value => .return (c.word keyword) (value.map (Expr.reword c levels))
  | .var name initializer =>
      .var (c.name (levels.headD false) name) (initializer.map (Expr.reword c levels))
  | .while condition body increment =>
      .while (condition.reword c levels) (body.reword c levels)
        (increment.map (Expr.reword c levels))

/-- The scope of the function itself may be one in which names are respelled. -/
def FunctionDecl.reword (c : Rewording) (inner : Bool) (levels : Levels) :
    FunctionDecl → FunctionDecl
  | ⟨name, params, body⟩ =>
      ⟨c.word name, params.map (c.name inner), rewordStmts c (inner :: levels) body⟩

def rewordStmt? (c : Rewording) (levels : Levels) : Option Stmt → Option Stmt
  | none => none
  | some stmt => some (stmt.reword c levels)

def rewordStmts (c : Rewording) (levels : Levels) : List Stmt → List Stmt
  | [] => []
  | stmt :: rest => stmt.reword c levels :: rewordStmts c levels rest

def rewordFunctions (c : Rewording) (levels : Levels) : List FunctionDecl → List FunctionDecl
  | [] => []
  | declaration :: rest => declaration.reword c false levels :: rewordFunctions c levels rest

end

/-! ## Variations -/

/-- The other words for a token are among those that may stand for it in scopes of these levels. -/
structure Rewording.Suits (c : Rewording) (v : Variation) (levels : Levels) (token : Token) :
    Prop where
  plain : v.plain token (c.word token)
  kept : v.named false token (c.word token)
  named {level : Bool} : level ∈ false :: levels → v.named level token (c.name level token)

variable {v : Variation} {c : Rewording}

theorem Rewording.Suits.enter {levels : Levels} {token : Token} (h : c.Suits v levels token) :
    c.Suits v (false :: levels) token where
  plain := h.plain
  kept := h.kept
  named member := by
    rcases List.mem_cons.mp member with rfl | member
    · exact h.named List.mem_cons_self
    · exact h.named member

theorem NameUse.level_mem (use : NameUse) (levels : Levels) : use.level levels ∈ false :: levels := by
  obtain ⟨name, hops⟩ := use
  cases hops with
  | none => exact List.mem_cons_self
  | some hops =>
      change levels[hops]?.getD false ∈ _
      cases found : levels[hops]? with
      | none => exact List.mem_cons_self
      | some level => exact List.mem_cons_of_mem _ (List.mem_of_getElem? found)

theorem Levels.headD_mem (levels : Levels) : levels.headD false ∈ false :: levels := by
  cases levels with
  | nil => exact List.mem_cons_self
  | cons level rest => exact List.mem_cons_of_mem _ List.mem_cons_self

theorem NameUse.varies_reword {levels : Levels} {use : NameUse} (h : c.Suits v levels use.name) :
    use.Varies v levels (use.reword c levels) :=
  ⟨rfl, h.named (use.level_mem levels)⟩

mutual

theorem Expr.varies_reword {levels : Levels} (expr : Expr)
    (h : ∀ token ∈ expr.tokens, c.Suits v levels token) :
    expr.Varies v levels (expr.reword c levels) := by
  cases expr with
  | assign target value =>
      exact .assign (target.varies_reword (h _ List.mem_cons_self))
        (value.varies_reword fun token member => h token (List.mem_cons_of_mem _ member))
  | binary left operator right =>
      simp only [Expr.tokens, List.forall_mem_append, List.forall_mem_cons] at h
      exact .binary (left.varies_reword h.1) h.2.1.plain (right.varies_reword h.2.2)
  | call callee paren arguments =>
      simp only [Expr.tokens, List.forall_mem_append, List.forall_mem_singleton] at h
      obtain ⟨count, each⟩ := varies_rewordExprs arguments h.2.1
      exact .call (callee.varies_reword h.1) h.2.2.plain count each
  | get object name =>
      simp only [Expr.tokens, List.forall_mem_append, List.forall_mem_singleton] at h
      exact .get (object.varies_reword h.1) h.2.plain
  | grouping inner => exact .grouping (inner.varies_reword h)
  | literal value => exact .literal
  | logical left operator right =>
      simp only [Expr.tokens, List.forall_mem_append, List.forall_mem_cons] at h
      exact .logical (left.varies_reword h.1) h.2.1.plain (right.varies_reword h.2.2)
  | set object name value =>
      simp only [Expr.tokens, List.forall_mem_append, List.forall_mem_cons] at h
      exact .set (object.varies_reword h.1) h.2.1.plain (value.varies_reword h.2.2)
  | super keyword method =>
      simp only [Expr.tokens, List.forall_mem_cons] at h
      exact .super (keyword.varies_reword h.1) h.2.1.plain
  | this keyword => exact .this (keyword.varies_reword (h _ List.mem_cons_self))
  | unary operator right =>
      simp only [Expr.tokens, List.forall_mem_cons] at h
      exact .unary h.1.plain (right.varies_reword h.2)
  | «variable» use => exact .variable (use.varies_reword (h _ List.mem_cons_self))

theorem varies_rewordExprs {levels : Levels} (exprs : List Expr)
    (h : ∀ token ∈ tokensOfExprs exprs, c.Suits v levels token) :
    exprs.length = (rewordExprs c levels exprs).length ∧
      ∀ expr expr', (expr, expr') ∈ exprs.zip (rewordExprs c levels exprs) →
        expr.Varies v levels expr' := by
  cases exprs with
  | nil => exact ⟨rfl, nofun⟩
  | cons first rest =>
      simp only [tokensOfExprs, List.forall_mem_append] at h
      obtain ⟨count, each⟩ := varies_rewordExprs rest h.2
      refine ⟨congrArg (· + 1) count, fun expr expr' member => ?_⟩
      rcases List.mem_cons.mp member with same | member
      · cases same
        exact first.varies_reword h.1
      · exact each expr expr' member

end

theorem varies_rewordExpr? {levels : Levels} (expr : Option Expr)
    (h : ∀ token ∈ tokensOfExpr? expr, c.Suits v levels token) :
    Expr?.Varies v levels expr (expr.map (Expr.reword c levels)) := by
  cases expr with
  | none => exact .none
  | some expr => exact .some (expr.varies_reword h)

mutual

/-- The names of the functions and classes that a statement declares in the scope in which it stands. -/
def Stmt.fixedNames : Stmt → List Token
  | .class name _ _ => [name]
  | .function ⟨name, _, _⟩ => [name]
  | .if _ thenBranch elseBranch => thenBranch.fixedNames ++ fixedNames? elseBranch
  | .while _ body _ => body.fixedNames
  | _ => []

def fixedNames? : Option Stmt → List Token
  | none => []
  | some stmt => stmt.fixedNames

end

/-- The words for names that are fixed may stand for them also where names are respelled. -/
def Rewording.Fixes (c : Rewording) (v : Variation) (level : Bool) (names : List Token) : Prop :=
  level = true → ∀ name ∈ names, v.named true name (c.word name)

theorem Rewording.fixes_false {names : List Token} : c.Fixes v false names :=
  fun absurd => nomatch absurd

theorem Token.kept_of_fixes {levels : Levels} {name : Token} (h : c.Suits v levels name)
    (fixes : c.Fixes v (levels.headD false) [name]) : name.Kept v levels (c.word name) := by
  refine ⟨h.plain, ?_⟩
  cases level : levels.headD false with
  | false => exact h.kept
  | true => exact fixes level name List.mem_cons_self

mutual

theorem Stmt.varies_reword {levels : Levels} (stmt : Stmt)
    (h : ∀ token ∈ stmt.tokens, c.Suits v levels token)
    (fixes : c.Fixes v (levels.headD false) stmt.fixedNames) :
    Node.Varies v levels (.stmt stmt) (.stmt (stmt.reword c levels)) := by
  cases stmt with
  | block statements =>
      exact .block (varies_rewordStmts statements (fun token member => (h token member).enter)
        Rewording.fixes_false)
  | «break» keyword => exact .break (h _ List.mem_cons_self).plain
  | «class» name superclass methods =>
      cases superclass with
      | none =>
          simp only [Stmt.tokens, List.nil_append, List.forall_mem_cons] at h
          obtain ⟨count, each⟩ := varies_rewordFunctions methods
            fun token member => (h.2 token member).enter.enter
          exact .class (Token.kept_of_fixes h.1 fixes) count each
      | some superclass =>
          simp only [Stmt.tokens, List.cons_append, List.nil_append, List.forall_mem_cons] at h
          obtain ⟨count, each⟩ := varies_rewordFunctions methods
            fun token member => (h.2.2 token member).enter.enter.enter
          exact .subclass (Token.kept_of_fixes h.1 fixes) (superclass.varies_reword h.2.1) count each
  | «continue» keyword => exact .continue (h _ List.mem_cons_self).plain
  | expression value => exact .expression (value.varies_reword h)
  | function declaration =>
      obtain ⟨name, params, body⟩ := declaration
      exact .function (Token.kept_of_fixes (h name List.mem_cons_self) fixes)
        (FunctionDecl.varies_reword ⟨name, params, body⟩
          (fun token member => (h token member).enter) Rewording.fixes_false)
  | «if» condition thenBranch elseBranch =>
      simp only [Stmt.tokens, List.forall_mem_append] at h
      have first := thenBranch.varies_reword h.2.1 fun level name member =>
        fixes level name (List.mem_append_left _ member)
      cases elseBranch with
      | none => exact .if (condition.varies_reword h.1) first
      | some elseBranch =>
          refine .ifElse (condition.varies_reword h.1) first ?_
          exact elseBranch.varies_reword h.2.2 fun level name member =>
            fixes level name (List.mem_append_right _ member)
  | print value => exact .print (value.varies_reword h)
  | «return» keyword value =>
      simp only [Stmt.tokens, List.forall_mem_cons] at h
      exact .return h.1.plain (varies_rewordExpr? value h.2)
  | var name initializer =>
      simp only [Stmt.tokens, List.forall_mem_cons] at h
      exact .var (h.1.named levels.headD_mem) (varies_rewordExpr? initializer h.2)
  | «while» condition body increment =>
      simp only [Stmt.tokens, List.forall_mem_append] at h
      exact .while (condition.varies_reword h.1) (body.varies_reword h.2.2 fixes)
        (varies_rewordExpr? increment h.2.1)

theorem FunctionDecl.varies_reword {levels : Levels} (declaration : FunctionDecl) {inner : Bool}
    (h : ∀ token ∈ declaration.tokens, c.Suits v (inner :: levels) token)
    (fixes : c.Fixes v inner (declaration.body.flatMap Stmt.fixedNames)) :
    Node.Varies v levels (.function declaration) (.function (declaration.reword c inner levels)) := by
  obtain ⟨name, params, body⟩ := declaration
  simp only [FunctionDecl.tokens, List.forall_mem_cons, List.forall_mem_append] at h
  refine .declaration h.1.plain ?_ (varies_rewordStmts body h.2.2 fixes)
  rw [List.forall₂_map_right_iff, List.forall₂_same]
  exact fun param member => (h.2.1 param member).named (List.mem_cons_of_mem _ List.mem_cons_self)

theorem varies_rewordStmts {levels : Levels} (statements : List Stmt)
    (h : ∀ token ∈ tokensOfStmts statements, c.Suits v levels token)
    (fixes : c.Fixes v (levels.headD false) (statements.flatMap Stmt.fixedNames)) :
    Node.Varies v levels (.statements statements) (.statements (rewordStmts c levels statements)) := by
  cases statements with
  | nil => exact .nil
  | cons stmt rest =>
      simp only [tokensOfStmts, List.forall_mem_append] at h
      refine .cons (stmt.varies_reword h.1 ?_) (varies_rewordStmts rest h.2 ?_)
      · exact fun level name member => fixes level name (List.mem_append_left _ member)
      · exact fun level name member => fixes level name (List.mem_append_right _ member)

theorem varies_rewordFunctions {levels : Levels} (declarations : List FunctionDecl)
    (h : ∀ token ∈ tokensOfFunctions declarations, c.Suits v (false :: levels) token) :
    declarations.length = (rewordFunctions c levels declarations).length ∧
      ∀ method method', (method, method') ∈ declarations.zip (rewordFunctions c levels declarations) →
        Node.Varies v levels (.function method) (.function method') := by
  cases declarations with
  | nil => exact ⟨rfl, nofun⟩
  | cons first rest =>
      simp only [tokensOfFunctions, List.forall_mem_append] at h
      obtain ⟨count, each⟩ := varies_rewordFunctions rest h.2
      refine ⟨congrArg (· + 1) count, fun method method' member => ?_⟩
      rcases List.mem_cons.mp member with same | member
      · cases same
        exact first.varies_reword h.1 Rewording.fixes_false
      · exact each method method' member

end

/-! ## The same words -/

/-- Every word stands for itself. -/
def Rewording.same : Rewording :=
  ⟨id, fun _ => id⟩

mutual

theorem Expr.reword_same (levels : Levels) (expr : Expr) : expr.reword .same levels = expr := by
  cases expr with
  | assign target value => exact congrArg (Expr.assign target) (value.reword_same levels)
  | binary left operator right =>
      exact congrArg₂ (Expr.binary · operator) (left.reword_same levels) (right.reword_same levels)
  | call callee paren arguments =>
      exact congrArg₂ (Expr.call · paren) (callee.reword_same levels)
        (rewordExprs_same levels arguments)
  | get object name => exact congrArg (Expr.get · name) (object.reword_same levels)
  | grouping inner => exact congrArg Expr.grouping (inner.reword_same levels)
  | logical left operator right =>
      exact congrArg₂ (Expr.logical · operator) (left.reword_same levels)
        (right.reword_same levels)
  | set object name value =>
      exact congrArg₂ (Expr.set · name) (object.reword_same levels) (value.reword_same levels)
  | unary operator right => exact congrArg (Expr.unary operator) (right.reword_same levels)
  | literal _ | super _ _ | this _ | «variable» _ => rfl

theorem rewordExprs_same (levels : Levels) (exprs : List Expr) :
    rewordExprs .same levels exprs = exprs := by
  cases exprs with
  | nil => rfl
  | cons first rest =>
      exact congrArg₂ List.cons (first.reword_same levels) (rewordExprs_same levels rest)

end

theorem rewordExpr?_same (levels : Levels) (expr : Option Expr) :
    expr.map (Expr.reword .same levels) = expr := by
  cases expr with
  | none => rfl
  | some expr => exact congrArg some (expr.reword_same levels)

mutual

theorem Stmt.reword_same (levels : Levels) (stmt : Stmt) : stmt.reword .same levels = stmt := by
  cases stmt with
  | block statements => exact congrArg Stmt.block (rewordStmts_same _ statements)
  | «class» name superclass methods =>
      have uses : superclass.map (NameUse.reword .same levels) = superclass := Option.map_id'
      exact congrArg₂ (Stmt.class name) uses (rewordFunctions_same _ methods)
  | expression value => exact congrArg Stmt.expression (value.reword_same levels)
  | function declaration => exact congrArg Stmt.function (declaration.reword_same _ levels)
  | «if» condition thenBranch elseBranch =>
      rw [Stmt.reword, condition.reword_same, thenBranch.reword_same]
      cases elseBranch with
      | none => rfl
      | some elseBranch => rw [rewordStmt?, elseBranch.reword_same]
  | print value => exact congrArg Stmt.print (value.reword_same levels)
  | «return» keyword value =>
      exact congrArg (Stmt.return keyword) (rewordExpr?_same levels value)
  | var name initializer => exact congrArg (Stmt.var name) (rewordExpr?_same levels initializer)
  | «while» condition body increment =>
      rw [Stmt.reword, condition.reword_same, body.reword_same, rewordExpr?_same]
  | «break» _ | «continue» _ => rfl

theorem FunctionDecl.reword_same (inner : Bool) (levels : Levels) (declaration : FunctionDecl) :
    declaration.reword .same inner levels = declaration := by
  obtain ⟨name, params, body⟩ := declaration
  exact congrArg₂ (FunctionDecl.mk name) (List.map_id params) (rewordStmts_same _ body)

theorem rewordStmts_same (levels : Levels) (statements : List Stmt) :
    rewordStmts .same levels statements = statements := by
  cases statements with
  | nil => rfl
  | cons stmt rest =>
      exact congrArg₂ List.cons (stmt.reword_same levels) (rewordStmts_same levels rest)

theorem rewordFunctions_same (levels : Levels) (declarations : List FunctionDecl) :
    rewordFunctions .same levels declarations = declarations := by
  cases declarations with
  | nil => rfl
  | cons first rest =>
      exact congrArg₂ List.cons (first.reword_same false levels)
        (rewordFunctions_same levels rest)

end

/-! ## Trees without respelled names -/

/-- The word may stand for itself where no names are respelled. -/
structure Token.Stays (v : Variation) (token : Token) : Prop where
  plain : v.plain token token
  named : v.named false token token

/-- Names are respelled in none of the scopes. -/
def Levels.Outside (levels : Levels) : Prop :=
  ∀ level ∈ levels, level = false

namespace Levels.Outside

variable {levels : Levels}

theorem enter (h : levels.Outside) : Levels.Outside (false :: levels) :=
  List.forall_mem_cons.mpr ⟨rfl, h⟩

theorem ofMethods (h : levels.Outside) (superclass : Option NameUse) :
    (levels.ofMethods superclass).Outside := by
  cases superclass with
  | none => exact h.enter
  | some _ => exact h.enter.enter

theorem headD (h : levels.Outside) : levels.headD false = false :=
  h.enter _ levels.headD_mem

theorem fixes (h : levels.Outside) {names : List Token} : c.Fixes v (levels.headD false) names := by
  rw [h.headD]
  exact Rewording.fixes_false

end Levels.Outside

variable {levels : Levels}

theorem Token.Stays.suits {token : Token} (h : token.Stays v) (outside : levels.Outside) :
    Rewording.same.Suits v levels token where
  plain := h.plain
  kept := h.named
  named {level} member := by
    obtain rfl : level = false := outside.enter level member
    exact h.named

theorem Token.Stays.kept {token : Token} (h : token.Stays v) (outside : levels.Outside) :
    token.Kept v levels token where
  plain := h.plain
  named := by
    rw [outside.headD]
    exact h.named

section

variable (outside : levels.Outside)
include outside

theorem NameUse.varies_self (use : NameUse) (stays : use.name.Stays v) : use.Varies v levels use :=
  NameUse.varies_reword (stays.suits outside)

theorem Expr.varies_self (expr : Expr) (stays : ∀ token ∈ expr.tokens, token.Stays v) :
    expr.Varies v levels expr := by
  have varies := expr.varies_reword fun token member => (stays token member).suits outside
  rwa [expr.reword_same] at varies

theorem expr?_varies_self (expr : Option Expr) (stays : ∀ token ∈ tokensOfExpr? expr, token.Stays v) :
    Expr?.Varies v levels expr expr := by
  have varies := varies_rewordExpr? expr fun token member => (stays token member).suits outside
  rwa [rewordExpr?_same] at varies

theorem Stmt.varies_self (stmt : Stmt) (stays : ∀ token ∈ stmt.tokens, token.Stays v) :
    Node.Varies v levels (.stmt stmt) (.stmt stmt) := by
  have varies := stmt.varies_reword (fun token member => (stays token member).suits outside)
    outside.fixes
  rwa [stmt.reword_same] at varies

theorem FunctionDecl.varies_self (declaration : FunctionDecl)
    (stays : ∀ token ∈ declaration.tokens, token.Stays v) :
    Node.Varies v levels (.function declaration) (.function declaration) := by
  have varies := declaration.varies_reword
    (fun token member => (stays token member).suits outside.enter) Rewording.fixes_false
  rwa [declaration.reword_same] at varies

theorem stmts_varies_self (statements : List Stmt)
    (stays : ∀ token ∈ tokensOfStmts statements, token.Stays v) :
    Node.Varies v levels (.statements statements) (.statements statements) := by
  have varies := varies_rewordStmts statements
    (fun token member => (stays token member).suits outside) outside.fixes
  rwa [rewordStmts_same] at varies

end

end LoxLang
