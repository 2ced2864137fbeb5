import LoxLang.Proofs.Remarking.Trees

/-!
Numbers of nodes. The nodes of a tree that use names are numbered one after the other, and a table tells the marks of
the nodes by their numbers. Looking all numbers up gives the marked tree back.
-/

namespace LoxLang

def NameUse.number (start : Nat) : NameUse → NameUse
  | ⟨name, _⟩ => ⟨name, some start⟩

/-! ## Marks in order -/

mutual

def Expr.hops : Expr → List (Option Nat)
  | .assign target value => target.hops :: value.hops
  | .binary left _ right => left.hops ++ right.hops
  | .call callee _ arguments => callee.hops ++ hopsOfExprs arguments
  | .get object _ => object.hops
  | .grouping expression => expression.hops
  | .literal _ => []
  | .logical left _ right => left.hops ++ right.hops
  | .set object _ value => object.hops ++ value.hops
  | .super keyword _ => [keyword.hops]
  | .this keyword => [keyword.hops]
  | .unary _ right => right.hops
  | .variable use => [use.hops]

def hopsOfExprs : List Expr → List (Option Nat)
  | [] => []
  | expr :: rest => expr.hops ++ hopsOfExprs rest

end

def hopsOfExpr? (expr : Option Expr) : List (Option Nat) :=
  hopsOfExprs expr.toList

def hopsOfUse? (use : Option NameUse) : List (Option Nat) :=
  use.toList.map NameUse.hops

mutual

def Stmt.hops : Stmt → List (Option Nat)
  | .block statements => hopsOfStmts statements
  | .break _ => []
  | .class _ superclass methods => hopsOfUse? superclass ++ hopsOfFunctions methods
  | .continue _ => []
  | .expression expression => expression.hops
  | .function declaration => declaration.hops
  | .if condition thenBranch elseBranch =>
      condition.hops ++ (thenBranch.hops ++ hopsOfStmt? elseBranch)
  | .print expression => expression.hops
  | .return _ value => hopsOfExpr? value
  | .var _ initializer => hopsOfExpr? initializer
  | .while condition body increment =>
      condition.hops ++ (body.hops ++ hopsOfExpr? increment)

def FunctionDecl.hops : FunctionDecl → List (Option Nat)
  | ⟨_, _, body⟩ => hopsOfStmts body

def hopsOfStmt? : Option Stmt → List (Option Nat)
  | none => []
  | some stmt => stmt.hops

def hopsOfStmts : List Stmt → List (Option Nat)
  | [] => []
  | stmt :: rest => stmt.hops ++ hopsOfStmts rest

def hopsOfFunctions : List FunctionDecl → List (Option Nat)
  | [] => []
  | declaration :: rest => declaration.hops ++ hopsOfFunctions rest

end

/-! ## Numbers in order -/

mutual

def Expr.number (start : Nat) : Expr → Expr
  | .assign target value => .assign (target.number start) (value.number (start + 1))
  | .binary left operator right =>
      .binary (left.number start) operator (right.number (start + left.hops.length))
  | .call callee paren arguments =>
      .call (callee.number start) paren (numberExprs (start + callee.hops.length) arguments)
  | .get object name => .get (object.number start) name
  | .grouping expression => .grouping (expression.number start)
  | .literal value => .literal value
  | .logical left operator right =>
      .logical (left.number start) operator (right.number (start + left.hops.length))
  | .set object name value =>
      .set (object.number start) name (value.number (start + object.hops.length))
  | .super keyword method => .super (keyword.number start) method
  | .this keyword => .this (keyword.number start)
  | .unary operator right => .unary operator (right.number start)
  | .variable use => .variable (use.number start)

def numberExprs (start : Nat) : List Expr → List Expr
  | [] => []
  | expr :: rest => expr.number start :: numberExprs (start + expr.hops.length) rest

end

mutual

def Stmt.number (start : Nat) : Stmt → Stmt
  | .block statements => .block (numberStmts start statements)
  | .break keyword => .break keyword
  | .class name superclass methods =>
      .class name (superclass.map (NameUse.number start))
        (numberFunctions (start + (hopsOfUse? superclass).length) methods)
  | .continue keyword => .continue keyword
  | .expression expression => .expression (expression.number start)
  | .function declaration => .function (declaration.number start)
  | .if condition thenBranch elseBranch =>
      let start' := start + condition.hops.length
      .if (condition.number start) (thenBranch.number start')
        (numberStmt? (start' + thenBranch.hops.length) elseBranch)
  | .print expression => .print (expression.number start)
  | .return keyword value => .return keyword (value.map (Expr.number start))
  | .var name initializer => .var name (initializer.map (Expr.number start))
  | .while condition body increment =>
      let start' := start + condition.hops.length
      .while (condition.number start) (body.number start')
        (increment.map (Expr.number (start' + body.hops.length)))

def FunctionDecl.number (start : Nat) : FunctionDecl → FunctionDecl
  | ⟨name, params, body⟩ => ⟨name, params, numberStmts start body⟩

def numberStmt? (start : Nat) : Option Stmt → Option Stmt
  | none => none
  | some stmt => some (stmt.number start)

def numberStmts (start : Nat) : List Stmt → List Stmt
  | [] => []
  | stmt :: rest => stmt.number start :: numberStmts (start + stmt.hops.length) rest

def numberFunctions (start : Nat) : List FunctionDecl → List FunctionDecl
  | [] => []
  | declaration :: rest =>
      declaration.number start :: numberFunctions (start + declaration.hops.length) rest

end

/-! ## Looking numbers up -/

/-- What holds of each number from one on and of the mark that belongs to it. -/
def Numbered (p : Nat → Option Nat → Prop) (start : Nat) (marks : List (Option Nat)) : Prop :=
  ∀ index mark, marks[index]? = some mark → p (start + index) mark

namespace Numbered

variable {p : Nat → Option Nat → Prop} {start : Nat} {mark : Option Nat}
  {marks others : List (Option Nat)}

theorem head (h : Numbered p start (mark :: marks)) : p start mark :=
  h 0 mark rfl

theorem left (h : Numbered p start (marks ++ others)) : Numbered p start marks := by
  intro index mark found
  have inside := (List.getElem?_eq_some_iff.mp found).1
  exact h index mark (by rw [List.getElem?_append_left inside, found])

theorem right (h : Numbered p start (marks ++ others)) :
    Numbered p (start + marks.length) others := by
  intro index mark found
  rw [Nat.add_assoc]
  refine h _ mark ?_
  rw [List.getElem?_append_right (Nat.le_add_right _ _), Nat.add_sub_cancel_left, found]

theorem tail (h : Numbered p start (mark :: marks)) : Numbered p (start + 1) marks := by
  have parts : Numbered p start ([mark] ++ marks) := h
  exact parts.right

end Numbered

/-- The numbers from one on are looked up as these marks. -/
def Remarking.Finds (f : Remarking) : Nat → List (Option Nat) → Prop :=
  Numbered fun number mark => f (some number) = mark

/-- The numbers from one on, as many as there are marks, are left as they are. -/
def Remarking.Keeps (f : Remarking) : Nat → List (Option Nat) → Prop :=
  Numbered fun number _ => f (some number) = some number

variable {f : Remarking}

theorem NameUse.remark_number {start : Nat} {use : NameUse} (found : f (some start) = use.hops) :
    (use.number start).remark f = use :=
  congrArg (NameUse.mk use.name) found

mutual

/-- A numbered tree in which all numbers are looked up is the marked one. -/
theorem Expr.remark_number {start : Nat} (expr : Expr) (h : f.Finds start expr.hops) :
    (expr.number start).remark f = expr := by
  cases expr with
  | assign target value =>
      exact congrArg₂ Expr.assign (NameUse.remark_number h.head) (value.remark_number h.tail)
  | binary left operator right =>
      exact congrArg₂ (Expr.binary · operator) (left.remark_number h.left)
        (right.remark_number h.right)
  | call callee paren arguments =>
      exact congrArg₂ (Expr.call · paren) (callee.remark_number h.left)
        (remark_numberExprs arguments h.right)
  | get object name => exact congrArg (Expr.get · name) (object.remark_number h)
  | grouping inner => exact congrArg Expr.grouping (inner.remark_number h)
  | literal value => rfl
  | logical left operator right =>
      exact congrArg₂ (Expr.logical · operator) (left.remark_number h.left)
        (right.remark_number h.right)
  | set object name value =>
      exact congrArg₂ (Expr.set · name) (object.remark_number h.left)
        (value.remark_number h.right)
  | super keyword method => exact congrArg (Expr.super · method) (NameUse.remark_number h.head)
  | this keyword => exact congrArg Expr.this (NameUse.remark_number h.head)
  | unary operator right => exact congrArg (Expr.unary operator) (right.remark_number h)
  | «variable» use => exact congrArg Expr.variable (NameUse.remark_number h.head)

theorem remark_numberExprs {start : Nat} (exprs : List Expr) (h : f.Finds start (hopsOfExprs exprs)) :
    remarkExprs f (numberExprs start exprs) = exprs := by
  cases exprs with
  | nil => rfl
  | cons first rest =>
      exact congrArg₂ List.cons (first.remark_number h.left) (remark_numberExprs rest h.right)

end

theorem Expr.map_remark_number {start : Nat} (expr : Option Expr) (h : f.Finds start (hopsOfExpr? expr)) :
    (expr.map (number start)).map (remark f) = expr := by
  cases expr with
  | none => rfl
  | some expr => exact congrArg some (expr.remark_number h.left)

mutual

theorem Stmt.remark_number {start : Nat} (stmt : Stmt) (h : f.Finds start stmt.hops) :
    (stmt.number start).remark f = stmt := by
  cases stmt with
  | block statements => exact congrArg Stmt.block (remark_numberStmts statements h)
  | «class» name superclass methods =>
      refine congrArg₂ (Stmt.class name) ?_ (remark_numberFunctions methods h.right)
      cases superclass with
      | none => rfl
      | some use => exact congrArg some (NameUse.remark_number h.head)
  | expression value => exact congrArg Stmt.expression (value.remark_number h)
  | function declaration => exact congrArg Stmt.function (declaration.remark_number h)
  | «if» condition thenBranch elseBranch =>
      rw [Stmt.number, Stmt.remark, condition.remark_number h.left,
        thenBranch.remark_number h.right.left]
      cases elseBranch with
      | none => rfl
      | some elseBranch => rw [numberStmt?, remarkStmt?, elseBranch.remark_number h.right.right]
  | print value => exact congrArg Stmt.print (value.remark_number h)
  | «return» keyword value => exact congrArg (Stmt.return keyword) (Expr.map_remark_number value h)
  | var name initializer => exact congrArg (Stmt.var name) (Expr.map_remark_number initializer h)
  | «while» condition body increment =>
      rw [Stmt.number, Stmt.remark, condition.remark_number h.left, body.remark_number h.right.left,
        Expr.map_remark_number increment h.right.right]
  | «break» _ | «continue» _ => rfl

theorem FunctionDecl.remark_number {start : Nat} (declaration : FunctionDecl)
    (h : f.Finds start declaration.hops) : (declaration.number start).remark f = declaration := by
  obtain ⟨name, params, body⟩ := declaration
  exact congrArg (FunctionDecl.mk name params) (remark_numberStmts body h)

theorem remark_numberStmts {start : Nat} (statements : List Stmt)
    (h : f.Finds start (hopsOfStmts statements)) :
    remarkStmts f (numberStmts start statements) = statements := by
  cases statements with
  | nil => rfl
  | cons stmt rest =>
      exact congrArg₂ List.cons (stmt.remark_number h.left) (remark_numberStmts rest h.right)

theorem remark_numberFunctions {start : Nat} (declarations : List FunctionDecl)
    (h : f.Finds start (hopsOfFunctions declarations)) :
    remarkFunctions f (numberFunctions start declarations) = declarations := by
  cases declarations with
  | nil => rfl
  | cons first rest =>
      exact congrArg₂ List.cons (first.remark_number h.left) (remark_numberFunctions rest h.right)

end

/-! ## The numbers that are there -/

theorem NameUse.remark_number_self {start : Nat} {use : NameUse}
    (kept : f (some start) = some start) : (use.number start).remark f = use.number start :=
  congrArg (NameUse.mk use.name) kept

mutual

/-- A numbered tree is left as it is where all its numbers are kept. -/
theorem Expr.remark_number_self {start : Nat} (expr : Expr) (h : f.Keeps start expr.hops) :
    (expr.number start).remark f = expr.number start := by
  cases expr with
  | assign target value =>
      exact congrArg₂ Expr.assign (NameUse.remark_number_self h.head) (value.remark_number_self h.tail)
  | binary left operator right =>
      exact congrArg₂ (Expr.binary · operator) (left.remark_number_self h.left)
        (right.remark_number_self h.right)
  | call callee paren arguments =>
      exact congrArg₂ (Expr.call · paren) (callee.remark_number_self h.left)
        (remark_numberExprs_self arguments h.right)
  | get object name => exact congrArg (Expr.get · name) (object.remark_number_self h)
  | grouping inner => exact congrArg Expr.grouping (inner.remark_number_self h)
  | literal value => rfl
  | logical left operator right =>
      exact congrArg₂ (Expr.logical · operator) (left.remark_number_self h.left)
        (right.remark_number_self h.right)
  | set object name value =>
      exact congrArg₂ (Expr.set · name) (object.remark_number_self h.left)
        (value.remark_number_self h.right)
  | super keyword method => exact congrArg (Expr.super · method) (NameUse.remark_number_self h.head)
  | this keyword => exact congrArg Expr.this (NameUse.remark_number_self h.head)
  | unary operator right => exact congrArg (Expr.unary operator) (right.remark_number_self h)
  | «variable» use => exact congrArg Expr.variable (NameUse.remark_number_self h.head)

theorem remark_numberExprs_self {start : Nat} (exprs : List Expr)
    (h : f.Keeps start (hopsOfExprs exprs)) :
    remarkExprs f (numberExprs start exprs) = numberExprs start exprs := by
  cases exprs with
  | nil => rfl
  | cons first rest =>
      exact congrArg₂ List.cons (first.remark_number_self h.left) (remark_numberExprs_self rest h.right)

end

theorem Expr.map_remark_number_self {start : Nat} (expr : Option Expr)
    (h : f.Keeps start (hopsOfExpr? expr)) :
    (expr.map (number start)).map (remark f) = expr.map (number start) := by
  cases expr with
  | none => rfl
  | some expr => exact congrArg some (expr.remark_number_self h.left)

mutual

theorem Stmt.remark_number_self {start : Nat} (stmt : Stmt) (h : f.Keeps start stmt.hops) :
    (stmt.number start).remark f = stmt.number start := by
  cases stmt with
  | block statements => exact congrArg Stmt.block (remark_numberStmts_self statements h)
  | «class» name superclass methods =>
      refine congrArg₂ (Stmt.class name) ?_ (remark_numberFunctions_self methods h.right)
      cases superclass with
      | none => rfl
      | some use => exact congrArg some (NameUse.remark_number_self h.head)
  | expression value => exact congrArg Stmt.expression (value.remark_number_self h)
  | function declaration => exact congrArg Stmt.function (declaration.remark_number_self h)
  | «if» condition thenBranch elseBranch =>
      rw [Stmt.number, Stmt.remark, condition.remark_number_self h.left,
        thenBranch.remark_number_self h.right.left]
      cases elseBranch with
      | none => rfl
      | some elseBranch =>
          rw [numberStmt?, remarkStmt?, elseBranch.remark_number_self h.right.right]
  | print value => exact congrArg Stmt.print (value.remark_number_self h)
  | «return» keyword value => exact congrArg (Stmt.return keyword) (Expr.map_remark_number_self value h)
  | var name initializer => exact congrArg (Stmt.var name) (Expr.map_remark_number_self initializer h)
  | «while» condition body increment =>
      rw [Stmt.number, Stmt.remark, condition.remark_number_self h.left,
        body.remark_number_self h.right.left,
        Expr.map_remark_number_self increment h.right.right]
  | «break» _ | «continue» _ => rfl

theorem FunctionDecl.remark_number_self {start : Nat} (declaration : FunctionDecl)
    (h : f.Keeps start declaration.hops) :
    (declaration.number start).remark f = declaration.number start := by
  obtain ⟨name, params, body⟩ := declaration
  exact congrArg (FunctionDecl.mk name params) (remark_numberStmts_self body h)

theorem remark_numberStmts_self {start : Nat} (statements : List Stmt)
    (h : f.Keeps start (hopsOfStmts statements)) :
    remarkStmts f (numberStmts start statements) = numberStmts start statements := by
  cases statements with
  | nil => rfl
  | cons stmt rest =>
      exact congrArg₂ List.cons (stmt.remark_number_self h.left) (remark_numberStmts_self rest h.right)

theorem remark_numberFunctions_self {start : Nat} (declarations : List FunctionDecl)
    (h : f.Keeps start (hopsOfFunctions declarations)) :
    remarkFunctions f (numberFunctions start declarations) =
      numberFunctions start declarations := by
  cases declarations with
  | nil => rfl
  | cons first rest =>
      exact congrArg₂ List.cons (first.remark_number_self h.left)
        (remark_numberFunctions_self rest h.right)

end

/-! ## Tables -/

/-- The marks of nodes by their numbers. -/
abbrev Table := Nat → Option Nat

/-- The marked ones among the nodes with the numbers from one on, each with its mark. -/
def distances (start : Nat) : List (Option Nat) → List (Nat × Nat)
  | [] => []
  | none :: rest => distances (start + 1) rest
  | some hops :: rest => (start, hops) :: distances (start + 1) rest

namespace Table

def find (table : Table) : Remarking :=
  fun number => number.bind table

/-- What is known of further nodes comes before what was known. -/
def update (table : Table) (known : List (Nat × Nat)) : Table :=
  fun number => (known.lookup number).or (table number)

/-- Only some nodes are still known. -/
def forget (table : Table) (keep : Nat → Bool) : Table :=
  fun number => if keep number then table number else none

variable (table : Table)

theorem find_forget (keep : Nat → Bool) :
    (table.forget keep).find = table.find ∘ Option.filter keep := by
  funext number
  cases number with
  | none => rfl
  | some number =>
      change (if keep number then table number else none) =
        (if keep number then some number else none).bind table
      split <;> rfl

end Table

theorem lookup_distances (start number : Nat) (marks : List (Option Nat)) :
    (distances start marks).lookup number =
      if start ≤ number then marks[number - start]?.join else none := by
  induction marks generalizing start with
  | nil => simp [distances]
  | cons mark rest ih =>
      have first : (distances start (mark :: rest)).lookup number =
          if number = start then mark else (distances (start + 1) rest).lookup number := by
        cases mark with
        | none =>
            split
            · next same => rw [distances, ih, if_neg (by omega)]
            · rfl
        | some hops =>
            rw [distances, List.lookup_cons]
            by_cases same : number = start
            · simp [same]
            · rw [if_neg same, beq_eq_false_iff_ne.mpr same]
      rw [first, ih]
      rcases Nat.lt_trichotomy number start with before | rfl | after
      · rw [if_neg (by omega), if_neg (by omega), if_neg (by omega)]
      · rw [if_pos rfl, if_pos (Nat.le_refl _), Nat.sub_self]
        rfl
      · rw [if_neg (by omega), if_pos (by omega), if_pos (by omega),
          show number - start = number - (start + 1) + 1 by omega]
        rfl

theorem Table.update_of_lt (table : Table) {start number : Nat} (before : number < start)
    (marks : List (Option Nat)) : table.update (distances start marks) number = table number := by
  rw [update, lookup_distances, if_neg (Nat.not_le_of_lt before), Option.none_or]

theorem Table.finds_update (table : Table) {start : Nat} (marks : List (Option Nat))
    (new : ∀ number, start ≤ number → table number = none) :
    (table.update (distances start marks)).find.Finds start marks := by
  intro index mark found
  change (table.update (distances start marks)) (start + index) = mark
  rw [update, lookup_distances, if_pos (Nat.le_add_right _ _), Nat.add_sub_cancel_left, found,
    new _ (Nat.le_add_right _ _), Option.or_none]
  rfl

end LoxLang
