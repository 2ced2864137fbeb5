import Mathlib.Data.List.Forall2
import Mathlib.Data.Option.Basic
import LoxLang.Proofs.Scoping.Regions

/-!
Expansions of trees. In an expansion a statement may have braces of its own, and a loop may have its increment at the
end of its body. The scopes of these braces are empty, but each mark of a use within them has to pass them.
-/

namespace LoxLang

open Scoping

/-- For the scopes around a place, innermost first, how many empty ones an expansion has within each of them. -/
abbrev Gaps := List Nat

namespace Gaps

/-- How far out a scope is in an expansion. -/
def shift : Gaps → (hops : Nat) → Nat
  | [], hops => hops
  | gap :: _, 0 => gap
  | gap :: outer, hops + 1 => gap + shift outer hops + 1

/-- The scope that far out has no empty ones within it. -/
def Tight (gaps : Gaps) (hops : Nat) : Prop :=
  gaps[hops]? = some 0

theorem shift_gap (gap : Nat) (outer : Gaps) (hops : Nat) :
    shift ((gap + 1) :: outer) hops = shift (gap :: outer) hops + 1 := by
  cases hops with
  | zero => rfl
  | succ hops => exact congrArg (· + 1) (Nat.add_right_comm gap 1 _)

theorem shift_zero {gaps : Gaps} (h : gaps.Tight 0) : gaps.shift 0 = 0 := by
  cases gaps with
  | nil => rfl
  | cons gap outer => exact Option.some.inj h

theorem shift_succ {gaps : Gaps} {hops : Nat} (h : gaps.Tight (hops + 1)) :
    gaps.shift (hops + 1) = gaps.shift hops + 1 := by
  induction gaps generalizing hops with
  | nil => cases h
  | cons gap outer ih =>
      cases hops with
      | zero =>
          cases outer with
          | nil => cases h
          | cons next rest =>
              cases h
              rfl
      | succ hops =>
          rw [shift, ih h]
          rfl

end Gaps

structure NameUse.Expands (gaps : Gaps) (use other : NameUse) : Prop where
  name : other.name = use.name
  hops : other.hops = use.hops.map gaps.shift

inductive Expr.Expands (gaps : Gaps) : Expr → Expr → Prop
  | assign {target target' : NameUse} {value value' : Expr} :
      target.Expands gaps target' → Expands gaps value value' →
      Expands gaps (.assign target value) (.assign target' value')
  | binary {left left' right right' : Expr} {operator : Token} :
      Expands gaps left left' → Expands gaps right right' →
      Expands gaps (.binary left operator right) (.binary left' operator right')
  | call {callee callee' : Expr} {paren : Token} {arguments arguments' : List Expr} :
      Expands gaps callee callee' → arguments.length = arguments'.length →
      (∀ argument argument', (argument, argument') ∈ arguments.zip arguments' →
        Expands gaps argument argument') →
      Expands gaps (.call callee paren arguments) (.call callee' paren arguments')
  | get {object object' : Expr} {name : Token} :
      Expands gaps object object' → Expands gaps (.get object name) (.get object' name)
  | grouping {inner inner' : Expr} :
      Expands gaps inner inner' → Expands gaps (.grouping inner) (.grouping inner')
  | literal {value : Constant} : Expands gaps (.literal value) (.literal value)
  | logical {left left' right right' : Expr} {operator : Token} :
      Expands gaps left left' → Expands gaps right right' →
      Expands gaps (.logical left operator right) (.logical left' operator right')
  | set {object object' value value' : Expr} {name : Token} :
      Expands gaps object object' → Expands gaps value value' →
      Expands gaps (.set object name value) (.set object' name value')
  | super {keyword keyword' : NameUse} {method : Token} :
      keyword.Expands gaps keyword' → (∀ hops, keyword.hops = some hops → gaps.Tight hops) →
      Expands gaps (.super keyword method) (.super keyword' method)
  | this {keyword keyword' : NameUse} :
      keyword.Expands gaps keyword' → Expands gaps (.this keyword) (.this keyword')
  | unary {operator : Token} {right right' : Expr} :
      Expands gaps right right' → Expands gaps (.unary operator right) (.unary operator right')
  | variable {use use' : NameUse} :
      use.Expands gaps use' → Expands gaps (.variable use) (.variable use')

abbrev Expr?.Expands (gaps : Gaps) : Option Expr → Option Expr → Prop :=
  Option.Rel (Expr.Expands gaps)

/-! ## Loops that are left by `continue` -/

mutual

/-- Whether a `continue` in the statement goes to the loop around the statement. -/
def Stmt.continues : Stmt → Bool
  | .block statements => continuesAny statements
  | .continue _ => true
  | .if _ thenBranch elseBranch => thenBranch.continues || continues? elseBranch
  | _ => false

def continues? : Option Stmt → Bool
  | none => false
  | some stmt => stmt.continues

def continuesAny : List Stmt → Bool
  | [] => false
  | stmt :: rest => stmt.continues || continuesAny rest

end

/-! ## Statements -/

/-- Nothing has changed in an expansion unless the statements in it are free to. Declarations never have braces of
their own. -/
inductive Scoping.Node.Expands (free : Prop) : Gaps → Node → Node → Prop
  | block {gaps : Gaps} {statements statements' : List Stmt} :
      Expands free (0 :: gaps) (.statements statements) (.statements statements') →
      Expands free gaps (.stmt (.block statements)) (.stmt (.block statements'))
  | break {gaps : Gaps} {keyword : Token} :
      Expands free gaps (.stmt (.break keyword)) (.stmt (.break keyword))
  | class {gaps : Gaps} {name : Token} {methods methods' : List FunctionDecl} :
      methods.length = methods'.length →
      (∀ method method', (method, method') ∈ methods.zip methods' →
        Expands free (0 :: 0 :: gaps) (.function method) (.function method')) →
      Expands free (0 :: gaps) (.stmt (.class name none methods)) (.stmt (.class name none methods'))
  | subclass {gaps : Gaps} {name : Token} {superclass superclass' : NameUse}
      {methods methods' : List FunctionDecl} :
      superclass.Expands (0 :: gaps) superclass' → methods.length = methods'.length →
      (∀ method method', (method, method') ∈ methods.zip methods' →
        Expands free (0 :: 0 :: 0 :: gaps) (.function method) (.function method')) →
      Expands free (0 :: gaps) (.stmt (.class name (some superclass) methods))
        (.stmt (.class name (some superclass') methods'))
  | continue {gaps : Gaps} {keyword : Token} :
      Expands free gaps (.stmt (.continue keyword)) (.stmt (.continue keyword))
  | expression {gaps : Gaps} {value value' : Expr} :
      value.Expands gaps value' →
      Expands free gaps (.stmt (.expression value)) (.stmt (.expression value'))
  | function {gaps : Gaps} {declaration declaration' : FunctionDecl} :
      Expands free (0 :: gaps) (.function declaration) (.function declaration') →
      Expands free (0 :: gaps) (.stmt (.function declaration)) (.stmt (.function declaration'))
  | if {gaps : Gaps} {condition condition' : Expr} {thenBranch thenBranch' : Stmt} :
      condition.Expands gaps condition' →
      Expands free gaps (.stmt thenBranch) (.stmt thenBranch') →
      Expands free gaps (.stmt (.if condition thenBranch none))
        (.stmt (.if condition' thenBranch' none))
  | ifElse {gaps : Gaps} {condition condition' : Expr}
      {thenBranch thenBranch' elseBranch elseBranch' : Stmt} :
      condition.Expands gaps condition' →
      Expands free gaps (.stmt thenBranch) (.stmt thenBranch') →
      Expands free gaps (.stmt elseBranch) (.stmt elseBranch') →
      Expands free gaps (.stmt (.if condition thenBranch (some elseBranch)))
        (.stmt (.if condition' thenBranch' (some elseBranch')))
  | print {gaps : Gaps} {value value' : Expr} :
      value.Expands gaps value' → Expands free gaps (.stmt (.print value)) (.stmt (.print value'))
  | return {gaps : Gaps} {keyword : Token} {value value' : Option Expr} :
      Expr?.Expands gaps value value' →
      Expands free gaps (.stmt (.return keyword value)) (.stmt (.return keyword value'))
  | var {gaps : Gaps} {name : Token} {initializer initializer' : Option Expr} :
      Expr?.Expands (0 :: gaps) initializer initializer' →
      Expands free (0 :: gaps) (.stmt (.var name initializer)) (.stmt (.var name initializer'))
  | while {gaps : Gaps} {condition condition' : Expr} {body body' : Stmt}
      {increment increment' : Option Expr} :
      condition.Expands gaps condition' → Expands free gaps (.stmt body) (.stmt body') →
      Expr?.Expands gaps increment increment' →
      Expands free gaps (.stmt (.while condition body increment))
        (.stmt (.while condition' body' increment'))
  | nil {gaps : Gaps} : Expands free gaps (.statements []) (.statements [])
  | cons {gaps : Gaps} {stmt stmt' : Stmt} {rest rest' : List Stmt} :
      Expands free gaps (.stmt stmt) (.stmt stmt') →
      Expands free gaps (.statements rest) (.statements rest') →
      Expands free gaps (.statements (stmt :: rest)) (.statements (stmt' :: rest'))
  | declaration {gaps : Gaps} {name : Token} {params : List Token} {body body' : List Stmt} :
      Expands free (0 :: gaps) (.statements body) (.statements body') →
      Expands free gaps (.function ⟨name, params, body⟩) (.function ⟨name, params, body'⟩)
  | brace {gap : Nat} {outer : Gaps} {stmt stmt' : Stmt} :
      free → Expands free ((gap + 1) :: outer) (.stmt stmt) (.stmt stmt') →
      Expands free (gap :: outer) (.stmt stmt) (.stmt (.block [stmt']))
  | unroll {gap : Nat} {outer : Gaps} {condition condition' increment increment' : Expr}
      {body body' : Stmt} :
      free → body.continues = false → condition.Expands (gap :: outer) condition' →
      Expands free ((gap + 1) :: outer) (.stmt body) (.stmt body') →
      increment.Expands ((gap + 1) :: outer) increment' →
      Expands free (gap :: outer) (.stmt (.while condition body (some increment)))
        (.stmt (.while condition' (.block [body', .expression increment']) none))

theorem Scoping.Node.Expands.mono {free free' : Prop} {gaps : Gaps} {node other : Node}
    (h : Node.Expands free gaps node other) (weaken : free → free') :
    Node.Expands free' gaps node other := by
  induction h with
  | block _ statements => exact .block statements
  | «break» => exact .break
  | «class» count _ methods => exact .class count methods
  | subclass use count _ methods => exact .subclass use count methods
  | «continue» => exact .continue
  | expression value => exact .expression value
  | function _ code => exact .function code
  | «if» condition _ thenBranch => exact .if condition thenBranch
  | ifElse condition _ _ thenBranch elseBranch => exact .ifElse condition thenBranch elseBranch
  | print value => exact .print value
  | «return» value => exact .return value
  | var value => exact .var value
  | «while» condition _ increment body => exact .while condition body increment
  | nil => exact .nil
  | cons _ _ stmt rest => exact .cons stmt rest
  | declaration _ body => exact .declaration body
  | brace allowed _ stmt => exact .brace (weaken allowed) stmt
  | unroll allowed calm condition _ increment body =>
      exact .unroll (weaken allowed) calm condition body increment

/-! ## Trees without marks -/

variable {free : Prop} {gaps : Gaps}

theorem NameUse.expands_self {use : NameUse} (unmarked : use.hops = none) (gaps : Gaps) :
    use.Expands gaps use :=
  ⟨rfl, by rw [unmarked]; rfl⟩

theorem forall_zip_self {α : Type} {p : α → α → Prop} {items : List α}
    (each : ∀ item ∈ items, p item item) :
    ∀ item item', (item, item') ∈ items.zip items → p item item' := by
  have forall₂ := List.forall₂_same.mpr each
  exact fun item item' member => List.forall₂_zip forall₂ member

theorem Expr.WellFormed.expands_self {expr : Expr} (wellFormed : expr.WellFormed) (gaps : Gaps) :
    expr.Expands gaps expr := by
  induction wellFormed with
  | assign target _ value => exact .assign (NameUse.expands_self target.1 gaps) value
  | binary _ _ _ left right => exact .binary left right
  | call _ _ callee arguments => exact .call callee rfl (forall_zip_self arguments)
  | get _ object => exact .get object
  | grouping _ inner => exact .grouping inner
  | literal => exact .literal
  | logical _ _ left right => exact .logical left right
  | set _ _ object value => exact .set object value
  | super unmarked _ =>
      refine .super (NameUse.expands_self unmarked gaps) fun hops marked => ?_
      rw [unmarked] at marked
      cases marked
  | this unmarked _ => exact .this (NameUse.expands_self unmarked gaps)
  | unary _ _ right => exact .unary right
  | «variable» use => exact .variable (NameUse.expands_self use.1 gaps)

theorem Expr?.expands_self {expr : Option Expr} (wellFormed : WellFormedExpr? expr) (gaps : Gaps) :
    Expr?.Expands gaps expr expr := by
  cases expr with
  | none => exact .none
  | some expr => exact .some ((wellFormed expr rfl).expands_self gaps)

theorem expands_statements {statements : List Stmt}
    (each : ∀ stmt ∈ statements, Node.Expands free gaps (.stmt stmt) (.stmt stmt)) :
    Node.Expands free gaps (.statements statements) (.statements statements) := by
  induction statements with
  | nil => exact .nil
  | cons stmt rest ih =>
      obtain ⟨first, later⟩ := List.forall_mem_cons.mp each
      exact .cons first (ih later)

theorem expands_function {declaration : FunctionDecl}
    (each : ∀ stmt ∈ declaration.body, Node.Expands free (0 :: gaps) (.stmt stmt) (.stmt stmt)) :
    Node.Expands free gaps (.function declaration) (.function declaration) := by
  obtain ⟨name, params, body⟩ := declaration
  exact .declaration (expands_statements each)

/-- A declaration can be left as it is where there is no gap, any other statement everywhere. -/
theorem Stmt.WellFormed.expands_self {stmt : Stmt} (wellFormed : stmt.WellFormed) {gap : Nat} {outer : Gaps}
    (fits : stmt.declared? ≠ none → gap = 0) :
    Node.Expands free (gap :: outer) (.stmt stmt) (.stmt stmt) := by
  induction wellFormed generalizing gap outer with
  | block _ ih => exact .block (expands_statements fun stmt member => ih stmt member fun _ => rfl)
  | «break» => exact .break
  | @«class» name superclass methods _ names _ _ ih =>
      cases fits (Option.some_ne_none name)
      have each (gaps : Gaps) : ∀ method method', (method, method') ∈ methods.zip methods →
          Node.Expands free gaps (.function method) (.function method') :=
        forall_zip_self fun method member =>
          expands_function fun stmt inside => ih method member stmt inside fun _ => rfl
      cases superclass with
      | none => exact .class rfl (each _)
      | some superclass =>
          exact .subclass (NameUse.expands_self (names superclass rfl).1 _) rfl (each _)
  | «continue» => exact .continue
  | expression value => exact .expression (value.expands_self _)
  | @function declaration _ _ _ ih =>
      cases fits (Option.some_ne_none declaration.name)
      exact .function (expands_function fun stmt member => ih stmt member fun _ => rfl)
  | @«if» _ branch elseBranch condition plain _ plainElse _ thenBranch ih =>
      have first : Node.Expands free (gap :: outer) (.stmt branch) (.stmt branch) :=
        thenBranch fun declares => absurd plain declares
      cases elseBranch with
      | none => exact .if (condition.expands_self _) first
      | some elseBranch =>
          exact .ifElse (condition.expands_self _) first
            (ih elseBranch rfl fun declares => absurd (plainElse elseBranch rfl) declares)
  | print value => exact .print (value.expands_self _)
  | «return» value => exact .return (Expr?.expands_self value _)
  | @var name _ _ value =>
      cases fits (Option.some_ne_none name)
      exact .var (Expr?.expands_self value _)
  | «while» condition plain _ increment ih =>
      exact .while (condition.expands_self _) (ih fun declares => absurd plain declares)
        (Expr?.expands_self increment _)

/-- A program may be left as it is. -/
theorem expands_self {statements : List Stmt}
    (wellFormed : ∀ stmt ∈ statements, stmt.WellFormed) (outer : Gaps) :
    Node.Expands free (0 :: outer) (.statements statements) (.statements statements) :=
  expands_statements fun stmt member => (wellFormed stmt member).expands_self fun _ => rfl

end LoxLang
