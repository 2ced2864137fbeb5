import Mathlib.Data.List.Forall2
import Mathlib.Data.Option.Basic
import LoxLang.Proofs.Program.Unmarked
import LoxLang.Proofs.Scoping.Regions

/-!
Variations of trees. A variation has other words of the same sort in the same places, and the names of some scopes may
be spelled otherwise where they are declared and used.
-/

namespace LoxLang

open Scoping

/-- Which words may stand for others. What may stand for a name depends on whether names are respelled in the scope
that the name belongs to. -/
structure Variation where
  plain : Token → Token → Prop
  named : Bool → Token → Token → Prop

/-- For the scopes around a place, innermost first, whether names are respelled in them. -/
abbrev Levels := List Bool

/-- Whether names are respelled in the scope that a use is marked with; they never are among the globals. -/
def NameUse.level (use : NameUse) (levels : Levels) : Bool :=
  match use.hops with
  | some hops => levels[hops]?.getD false
  | none => false

structure NameUse.Varies (v : Variation) (levels : Levels) (use other : NameUse) : Prop where
  hops : other.hops = use.hops
  name : v.named (use.level levels) use.name other.name

inductive Expr.Varies (v : Variation) (levels : Levels) : Expr → Expr → Prop
  | assign {target target' : NameUse} {value value' : Expr} :
      target.Varies v levels target' → Varies v levels value value' →
      Varies v levels (.assign target value) (.assign target' value')
  | binary {left left' right right' : Expr} {operator operator' : Token} :
      Varies v levels left left' → v.plain operator operator' → Varies v levels right right' →
      Varies v levels (.binary left operator right) (.binary left' operator' right')
  | call {callee callee' : Expr} {paren paren' : Token} {arguments arguments' : List Expr} :
      Varies v levels callee callee' → v.plain paren paren' →
      arguments.length = arguments'.length →
      (∀ argument argument', (argument, argument') ∈ arguments.zip arguments' →
        Varies v levels argument argument') →
      Varies v levels (.call callee paren arguments) (.call callee' paren' arguments')
  | get {object object' : Expr} {name name' : Token} :
      Varies v levels object object' → v.plain name name' →
      Varies v levels (.get object name) (.get object' name')
  | grouping {inner inner' : Expr} :
      Varies v levels inner inner' → Varies v levels (.grouping inner) (.grouping inner')
  | literal {value : Constant} : Varies v levels (.literal value) (.literal value)
  | logical {left left' right right' : Expr} {operator operator' : Token} :
      Varies v levels left left' → v.plain operator operator' → Varies v levels right right' →
      Varies v levels (.logical left operator right) (.logical left' operator' right')
  | set {object object' value value' : Expr} {name name' : Token} :
      Varies v levels object object' → v.plain name name' → Varies v levels value value' →
      Varies v levels (.set object name value) (.set object' name' value')
  | super {keyword keyword' : NameUse} {method method' : Token} :
      keyword.Varies v levels keyword' → v.plain method method' →
      Varies v levels (.super keyword method) (.super keyword' method')
  | this {keyword keyword' : NameUse} :
      keyword.Varies v levels keyword' → Varies v levels (.this keyword) (.this keyword')
  | unary {operator operator' : Token} {right right' : Expr} :
      v.plain operator operator' → Varies v levels right right' →
      Varies v levels (.unary operator right) (.unary operator' right')
  | variable {use use' : NameUse} :
      use.Varies v levels use' → Varies v levels (.variable use) (.variable use')

abbrev Expr?.Varies (v : Variation) (levels : Levels) : Option Expr → Option Expr → Prop :=
  Option.Rel (Expr.Varies v levels)

/-- Functions and classes keep their names, also where the names of variables are respelled. -/
structure Token.Kept (v : Variation) (levels : Levels) (name other : Token) : Prop where
  plain : v.plain name other
  named : v.named (levels.headD false) name other

inductive Scoping.Node.Varies (v : Variation) : Levels → Node → Node → Prop
  | expr {levels : Levels} {expr expr' : Expr} :
      expr.Varies v levels expr' → Varies v levels (.expr expr) (.expr expr')
  | block {levels : Levels} {inner : Bool} {statements statements' : List Stmt} :
      Varies v (inner :: levels) (.statements statements) (.statements statements') →
      Varies v levels (.stmt (.block statements)) (.stmt (.block statements'))
  | break {levels : Levels} {keyword keyword' : Token} :
      v.plain keyword keyword' → Varies v levels (.stmt (.break keyword)) (.stmt (.break keyword'))
  | class {levels : Levels} {name name' : Token} {methods methods' : List FunctionDecl} :
      name.Kept v levels name' → methods.length = methods'.length →
      (∀ method method', (method, method') ∈ methods.zip methods' →
        Varies v (false :: levels) (.function method) (.function method')) →
      Varies v levels (.stmt (.class name none methods)) (.stmt (.class name' none methods'))
  | subclass {levels : Levels} {name name' : Token} {superclass superclass' : NameUse}
      {methods methods' : List FunctionDecl} :
      name.Kept v levels name' → superclass.Varies v levels superclass' →
      methods.length = methods'.length →
      (∀ method method', (method, method') ∈ methods.zip methods' →
        Varies v (false :: false :: levels) (.function method) (.function method')) →
      Varies v levels (.stmt (.class name (some superclass) methods))
        (.stmt (.class name' (some superclass') methods'))
  | continue {levels : Levels} {keyword keyword' : Token} :
      v.plain keyword keyword' →
      Varies v levels (.stmt (.continue keyword)) (.stmt (.continue keyword'))
  | expression {levels : Levels} {value value' : Expr} :
      value.Varies v levels value' →
      Varies v levels (.stmt (.expression value)) (.stmt (.expression value'))
  | function {levels : Levels} {declaration declaration' : FunctionDecl} :
      declaration.name.Kept v levels declaration'.name →
      Varies v levels (.function declaration) (.function declaration') →
      Varies v levels (.stmt (.function declaration)) (.stmt (.function declaration'))
  | if {levels : Levels} {condition condition' : Expr} {thenBranch thenBranch' : Stmt} :
      condition.Varies v levels condition' →
      Varies v levels (.stmt thenBranch) (.stmt thenBranch') →
      Varies v levels (.stmt (.if condition thenBranch none))
        (.stmt (.if condition' thenBranch' none))
  | ifElse {levels : Levels} {condition condition' : Expr}
      {thenBranch thenBranch' elseBranch elseBranch' : Stmt} :
      condition.Varies v levels condition' →
      Varies v levels (.stmt thenBranch) (.stmt thenBranch') →
      Varies v levels (.stmt elseBranch) (.stmt elseBranch') →
      Varies v levels (.stmt (.if condition thenBranch (some elseBranch)))
        (.stmt (.if condition' thenBranch' (some elseBranch')))
  | print {levels : Levels} {value value' : Expr} :
      value.Varies v levels value' → Varies v levels (.stmt (.print value)) (.stmt (.print value'))
  | return {levels : Levels} {keyword keyword' : Token} {value value' : Option Expr} :
      v.plain keyword keyword' → Expr?.Varies v levels value value' →
      Varies v levels (.stmt (.return keyword value)) (.stmt (.return keyword' value'))
  | var {levels : Levels} {name name' : Token} {initializer initializer' : Option Expr} :
      v.named (levels.headD false) name name' → Expr?.Varies v levels initializer initializer' →
      Varies v levels (.stmt (.var name initializer)) (.stmt (.var name' initializer'))
  | while {levels : Levels} {condition condition' : Expr} {body body' : Stmt}
      {increment increment' : Option Expr} :
      condition.Varies v levels condition' → Varies v levels (.stmt body) (.stmt body') →
      Expr?.Varies v levels increment increment' →
      Varies v levels (.stmt (.while condition body increment))
        (.stmt (.while condition' body' increment'))
  | nil {levels : Levels} : Varies v levels (.statements []) (.statements [])
  | cons {levels : Levels} {stmt stmt' : Stmt} {rest rest' : List Stmt} :
      Varies v levels (.stmt stmt) (.stmt stmt') →
      Varies v levels (.statements rest) (.statements rest') →
      Varies v levels (.statements (stmt :: rest)) (.statements (stmt' :: rest'))
  | declaration {levels : Levels} {inner : Bool} {name name' : Token} {params params' : List Token}
      {body body' : List Stmt} :
      v.plain name name' → List.Forall₂ (v.named inner) params params' →
      Varies v (inner :: levels) (.statements body) (.statements body') →
      Varies v levels (.function ⟨name, params, body⟩) (.function ⟨name', params', body'⟩)

theorem Scoping.Node.Varies.forall₂ {v : Variation} {levels : Levels} {statements others : List Stmt}
    (h : Node.Varies v levels (.statements statements) (.statements others)) :
    List.Forall₂ (fun stmt other => Node.Varies v levels (.stmt stmt) (.stmt other))
      statements others := by
  induction statements generalizing others with
  | nil => cases h; exact .nil
  | cons stmt rest ih =>
      cases h with
      | cons first later => exact .cons first (ih later)

end LoxLang
