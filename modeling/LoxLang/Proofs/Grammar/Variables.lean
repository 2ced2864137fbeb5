import Mathlib.Logic.Basic
import LoxLang.Proofs.Grammar.WellFormed
import LoxLang.Proofs.Program.Unmarked

/-!
The variables of a program. Each has an identifier of the text as its name, whether it is declared by itself or is a
parameter.
-/

namespace LoxLang

mutual

/-- The names of the variables and parameters that are declared anywhere in a statement. -/
def Stmt.variables : Stmt → List Token
  | .block statements => variablesOfStmts statements
  | .class _ _ methods => variablesOfFunctions methods
  | .function declaration => declaration.variables
  | .if _ thenBranch elseBranch => thenBranch.variables ++ variablesOfStmt? elseBranch
  | .var name _ => [name]
  | .while _ body _ => body.variables
  | _ => []

def FunctionDecl.variables : FunctionDecl → List Token
  | ⟨_, params, body⟩ => params ++ variablesOfStmts body

def variablesOfStmt? : Option Stmt → List Token
  | none => []
  | some stmt => stmt.variables

def variablesOfStmts : List Stmt → List Token
  | [] => []
  | stmt :: rest => stmt.variables ++ variablesOfStmts rest

def variablesOfFunctions : List FunctionDecl → List Token
  | [] => []
  | declaration :: rest => declaration.variables ++ variablesOfFunctions rest

end

theorem variablesOfStmts_eq_flatMap (statements : List Stmt) :
    variablesOfStmts statements = statements.flatMap Stmt.variables := by
  induction statements with
  | nil => rfl
  | cons stmt rest ih => rw [variablesOfStmts, List.flatMap_cons, ih]

theorem variablesOfFunctions_eq_flatMap (declarations : List FunctionDecl) :
    variablesOfFunctions declarations = declarations.flatMap FunctionDecl.variables := by
  induction declarations with
  | nil => rfl
  | cons declaration rest ih => rw [variablesOfFunctions, List.flatMap_cons, ih]

mutual

theorem Stmt.variables_unmark (stmt : Stmt) : stmt.unmark.variables = stmt.variables := by
  cases stmt with
  | block statements => exact variables_unmarkStmts statements
  | «class» _ _ methods => exact variables_unmarkFunctions methods
  | function declaration => exact declaration.variables_unmark
  | «if» _ thenBranch elseBranch =>
      rw [Stmt.unmark, Stmt.variables, Stmt.variables, thenBranch.variables_unmark]
      cases elseBranch with
      | none => rfl
      | some elseBranch => rw [unmarkStmt?, variablesOfStmt?, variablesOfStmt?,
          elseBranch.variables_unmark]
  | «while» _ body _ => exact body.variables_unmark
  | _ => rfl

theorem FunctionDecl.variables_unmark (declaration : FunctionDecl) :
    declaration.unmark.variables = declaration.variables := by
  obtain ⟨_, params, body⟩ := declaration
  exact congrArg (params ++ ·) (variables_unmarkStmts body)

theorem variables_unmarkStmts (statements : List Stmt) :
    variablesOfStmts (unmarkStmts statements) = variablesOfStmts statements := by
  cases statements with
  | nil => rfl
  | cons stmt rest =>
      exact congrArg₂ (· ++ ·) stmt.variables_unmark (variables_unmarkStmts rest)

theorem variables_unmarkFunctions (declarations : List FunctionDecl) :
    variablesOfFunctions (unmarkFunctions declarations) = variablesOfFunctions declarations := by
  cases declarations with
  | nil => rfl
  | cons first rest =>
      exact congrArg₂ (· ++ ·) first.variables_unmark (variables_unmarkFunctions rest)

end

namespace Grammar

/-- All the names are identifiers of the text. -/
def Identifiers (text names : List Token) : Prop :=
  ∀ name ∈ names, name ∈ text ∧ name.kind = .identifier

variable {text more names others : List Token}

theorem Identifiers.mono (h : Identifiers text names) (inside : ∀ token ∈ text, token ∈ more) :
    Identifiers more names :=
  fun name member => ⟨inside name (h name member).1, (h name member).2⟩

theorem Identifiers.append (first : Identifiers text names) (second : Identifiers text others) :
    Identifiers text (names ++ others) :=
  List.forall_mem_append.mpr ⟨first, second⟩

theorem identifiers_nil (text : List Token) : Identifiers text [] :=
  nofun

theorem identifiers_pieces {pieces : List (List Token × Stmt)}
    (h : ∀ piece ∈ pieces, Identifiers piece.1 piece.2.variables) :
    Identifiers (pieces.flatMap Prod.fst) (variablesOfStmts (pieces.map Prod.snd)) := by
  intro name member
  rw [variablesOfStmts_eq_flatMap, List.flatMap_map] at member
  obtain ⟨piece, inside, declares⟩ := List.mem_flatMap.mp member
  obtain ⟨here, kind⟩ := h piece inside name declares
  exact ⟨List.mem_flatMap.mpr ⟨piece, inside, here⟩, kind⟩

theorem VariableText.identifiers {stmt : Stmt} (h : VariableText text stmt) :
    Identifiers text stmt.variables := by
  cases h with
  | plain kind _ | initialized kind _ _ _ =>
      exact List.forall_mem_singleton.mpr ⟨List.mem_cons_self, kind⟩

theorem FunctionText.identifiers (function : FunctionText)
    (h : ∀ piece ∈ function.body, Identifiers piece.1 piece.2.variables) :
    Identifiers function.tokens function.declaration.variables := by
  refine .append (fun param member => ⟨?_, function.param_kind param member⟩)
    ((identifiers_pieces h).mono fun token member => ?_)
  · have flat : (function.params.map ([·])).flatten = function.params := List.flatMap_singleton' _
    have inside : param ∈ function.listing := by
      refine function.listing_params.sublist.mem ?_
      rw [flat]
      exact member
    simp [tokens, inside]
  · simp only [tokens, List.mem_cons, List.mem_append, member]
    simp

theorem identifiers_forLoop {initializer : Option Stmt} {body : Stmt}
    (begins : Identifiers text (variablesOfStmt? initializer))
    (inner : Identifiers text body.variables) (condition increment : Option Expr) :
    Identifiers text (forLoop initializer condition increment body).variables := by
  cases initializer with
  | none => exact inner
  | some initializer => exact begins.append (inner.append (identifiers_nil _))

/-- Whatever is declared as a variable or a parameter is an identifier of the text. -/
theorem Clause.identifiers {form : Form} {stmt : Stmt} (h : Clause form text stmt) :
    Identifiers text stmt.variables := by
  induction h with
  | @«class» _ _ _ _ _ _ methods _ _ _ _ _ _ ih =>
      intro name member
      rw [Stmt.variables, variablesOfFunctions_eq_flatMap, List.flatMap_map] at member
      obtain ⟨method, inside, declares⟩ := List.mem_flatMap.mp member
      obtain ⟨here, kind⟩ := method.identifiers (ih method inside) name declares
      have within : name ∈ methods.flatMap FunctionText.tokens :=
        List.mem_flatMap.mpr ⟨method, inside, here⟩
      refine ⟨?_, kind⟩
      simp only [List.mem_cons, List.mem_append, within]
      simp
  | @function _ text _ _ ih => exact (text.identifiers ih).mono fun _ => List.mem_cons_of_mem _
  | «variable» _ h => exact h.identifiers.mono fun _ => List.mem_cons_of_mem _
  | statement _ ih => exact ih
  | «for» _ _ init _ _ _ _ _ ih =>
      refine identifiers_forLoop ?_ (ih.mono fun token member => by simp [member]) _ _
      cases init with
      | absent _ => exact identifiers_nil _
      | «variable» _ h => exact h.identifiers.mono fun token member => by simp [member]
      | expression h =>
          cases h
          exact identifiers_nil _
  | «if» _ _ _ _ _ ih => exact (ih.mono fun token member => by simp [member]).append (identifiers_nil _)
  | ifElse _ _ _ _ _ _ _ first second => exact (first.mono fun token member => by simp [member]).append (second.mono fun token member => by simp [member])
  | «while» _ _ _ _ _ ih => exact ih.mono fun token member => by simp [member]
  | @block _ _ pieces _ _ _ ih => exact (identifiers_pieces ih).mono fun token member => by simp [member]
  | print | «return» | «break» | «continue» => exact identifiers_nil _
  | expression h =>
      cases h
      exact identifiers_nil _

end Grammar

open Grammar

theorem Program.identifiers_ofTokens (depth : Nat) (tokens : List Token) :
    Identifiers tokens (variablesOfStmts (ofTokens depth tokens).statements) := by
  intro name member
  rw [variablesOfStmts_eq_flatMap] at member
  obtain ⟨stmt, read, declares⟩ := List.mem_flatMap.mp member
  rcases clause_of_mem_declarations tokens.length depth tokens.length #[] ⟨tokens, #[]⟩
    (Array.mem_toList_iff.mp read) with nothing | ⟨text, inside, clause⟩
  · exact absurd nothing (Array.not_mem_empty _)
  · exact (clause.identifiers.mono inside) name declares

end LoxLang
