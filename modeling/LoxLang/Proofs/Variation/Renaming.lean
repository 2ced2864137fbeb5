import LoxLang.Proofs.Grammar.ProgramRepeating
import LoxLang.Proofs.Grammar.Variables
import LoxLang.Proofs.Scoping.Distinct
import LoxLang.Proofs.Session
import LoxLang.Proofs.Token.Renaming
import LoxLang.Proofs.Variation.Marking
import LoxLang.Proofs.Variation.Moving
import LoxLang.Proofs.Variation.Rewording

/-!
Renaming a local variable. The declaration gets another name, and so do the uses of the variable, which are those that
lead to its scope; the program that results is that of a text in which these words are replaced.
-/

namespace LoxLang

open Grammar Scoping

variable {old new : String} {v : Variation} {levels : Levels}

/-! ## Renaming -/

/-- Where names are respelled the new one stands for the old one, and all other words are as they were. -/
def Rewording.renaming (old new : String) : Rewording where
  word := id
  name level token := if level = true ∧ token.lexeme = old then token.renamed new else token

/-- Among the statements is a declaration of a variable with this name. -/
def DeclaresVariable (name : String) (statements : List Stmt) : Prop :=
  ∃ token initializer, Stmt.var token initializer ∈ statements ∧ token.lexeme = name

/-- In one of the local scopes in a node a variable or a parameter has got the new name: its declaration and those uses
of the old name that are marked with its scope. All other scopes are as they were. -/
inductive Scoping.Node.Renames (old new : String) : Levels → Node → Node → Prop
  | block {levels : Levels} {statements : List Stmt} :
      DeclaresVariable old statements →
      Renames old new levels (.stmt (.block statements))
        (.stmt (.block (rewordStmts (.renaming old new) (true :: levels) statements)))
  | function {levels : Levels} {declaration : FunctionDecl} :
      (∃ param ∈ declaration.params, param.lexeme = old) ∨ DeclaresVariable old declaration.body →
      Renames old new levels (.function declaration)
        (.function (declaration.reword (.renaming old new) true levels))
  | inBlock {levels : Levels} {statements others : List Stmt} :
      Renames old new (false :: levels) (.statements statements) (.statements others) →
      Renames old new levels (.stmt (.block statements)) (.stmt (.block others))
  | inBody {levels : Levels} {name : Token} {params : List Token} {body others : List Stmt} :
      Renames old new (false :: levels) (.statements body) (.statements others) →
      Renames old new levels (.function ⟨name, params, body⟩) (.function ⟨name, params, others⟩)
  | inFunction {levels : Levels} {declaration other : FunctionDecl} :
      Renames old new levels (.function declaration) (.function other) →
      Renames old new levels (.stmt (.function declaration)) (.stmt (.function other))
  | inMethod {levels : Levels} {name : Token} {superclass : Option NameUse}
      {before after : List FunctionDecl} {method other : FunctionDecl} :
      Renames old new (levels.ofMethods superclass) (.function method) (.function other) →
      Renames old new levels (.stmt (.class name superclass (before ++ method :: after)))
        (.stmt (.class name superclass (before ++ other :: after)))
  | inThen {levels : Levels} {condition : Expr} {thenBranch other : Stmt}
      {elseBranch : Option Stmt} :
      Renames old new levels (.stmt thenBranch) (.stmt other) →
      Renames old new levels (.stmt (.if condition thenBranch elseBranch))
        (.stmt (.if condition other elseBranch))
  | inElse {levels : Levels} {condition : Expr} {thenBranch elseBranch other : Stmt} :
      Renames old new levels (.stmt elseBranch) (.stmt other) →
      Renames old new levels (.stmt (.if condition thenBranch (some elseBranch)))
        (.stmt (.if condition thenBranch (some other)))
  | inLoop {levels : Levels} {condition : Expr} {body other : Stmt} {increment : Option Expr} :
      Renames old new levels (.stmt body) (.stmt other) →
      Renames old new levels (.stmt (.while condition body increment))
        (.stmt (.while condition other increment))
  | first {levels : Levels} {stmt other : Stmt} {rest : List Stmt} :
      Renames old new levels (.stmt stmt) (.stmt other) →
      Renames old new levels (.statements (stmt :: rest)) (.statements (other :: rest))
  | later {levels : Levels} {stmt : Stmt} {rest others : List Stmt} :
      Renames old new levels (.statements rest) (.statements others) →
      Renames old new levels (.statements (stmt :: rest)) (.statements (stmt :: others))

/-! ## The variable -/

def Scoping.Node.variables : Node → List Token
  | .expr _ => []
  | .stmt statement => statement.variables
  | .statements block => variablesOfStmts block
  | .function declaration => declaration.variables

theorem DeclaresVariable.mem_variables {statements : List Stmt} (h : DeclaresVariable old statements) :
    ∃ name ∈ variablesOfStmts statements, name.lexeme = old := by
  obtain ⟨token, initializer, member, lexeme⟩ := h
  rw [variablesOfStmts_eq_flatMap]
  exact ⟨token, List.mem_flatMap.mpr ⟨_, member, List.mem_singleton_self _⟩, lexeme⟩

theorem Scoping.Node.Renames.exists_variable {node other : Node}
    (h : Node.Renames old new levels node other) : ∃ name ∈ node.variables, name.lexeme = old := by
  have wider {names more : List Token} (subset : ∀ name ∈ names, name ∈ more)
      (found : ∃ name ∈ names, name.lexeme = old) : ∃ name ∈ more, name.lexeme = old := by
    obtain ⟨name, member, lexeme⟩ := found
    exact ⟨name, subset name member, lexeme⟩
  induction h with
  | block declares => exact declares.mem_variables
  | @function _ declaration declares =>
      obtain ⟨_, params, body⟩ := declaration
      rcases declares with param | declares
      · exact wider (fun _ => List.mem_append_left _) param
      · exact wider (fun _ => List.mem_append_right _) declares.mem_variables
  | inBlock _ ih | inFunction _ ih | inLoop _ ih => exact ih
  | inBody _ ih => exact wider (fun _ => List.mem_append_right _) ih
  | @inMethod _ _ _ before _ method _ _ ih =>
      refine wider (fun name member => ?_) ih
      change name ∈ variablesOfFunctions _
      rw [variablesOfFunctions_eq_flatMap]
      exact List.mem_flatMap.mpr ⟨method, by simp, member⟩
  | inThen _ ih | first _ ih => exact wider (fun _ => List.mem_append_left _) ih
  | inElse _ ih | later _ ih => exact wider (fun _ => List.mem_append_right _) ih

/-! ## Names that are kept -/

theorem Stmt.declared?_of_mem_fixedNames {regions : Regions} (stmt : Stmt)
    (allowed : Everywhere Place.Allowed ⟨regions, .stmt stmt⟩) {name : Token}
    (member : name ∈ stmt.fixedNames) : stmt.declared? = some name := by
  have inner {branch : Stmt} (inside : branch ∈ stmt.branches) : branch.declared? = none :=
    (allowed _ .refl).2 branch inside
  cases stmt with
  | «class» other _ _ => rw [List.mem_singleton.mp member]; rfl
  | function declaration =>
      obtain ⟨other, _, _⟩ := declaration
      rw [List.mem_singleton.mp member]
      rfl
  | «if» condition thenBranch elseBranch =>
      rcases List.mem_append.mp member with member | member
      · have declares := thenBranch.declared?_of_mem_fixedNames
          (allowed.part (.branch List.mem_cons_self)) member
        rw [inner List.mem_cons_self] at declares
        cases declares
      · cases elseBranch with
        | none => cases member
        | some elseBranch =>
            have inside : elseBranch ∈ (Stmt.if condition thenBranch (some elseBranch)).branches :=
              List.mem_cons_of_mem _ List.mem_cons_self
            have declares := elseBranch.declared?_of_mem_fixedNames (allowed.part (.branch inside))
              member
            rw [inner inside] at declares
            cases declares
  | «while» condition body increment =>
      have declares := body.declared?_of_mem_fixedNames
        (allowed.part (.branch List.mem_cons_self)) member
      rw [inner List.mem_cons_self] at declares
      cases declares
  | block _ | «break» _ | «continue» _ | expression _ | print _ | «return» _ _ | var _ _ =>
      cases member

theorem Stmt.mem_tokens_of_declared? {stmt : Stmt} {name : Token} (h : stmt.declared? = some name) :
    name ∈ stmt.tokens := by
  cases stmt with
  | «class» _ _ _ | var _ _ => cases h; exact List.mem_cons_self
  | function declaration =>
      obtain ⟨_, _, _⟩ := declaration
      cases h
      exact List.mem_cons_self
  | _ => cases h

/-- No function and no class has the name of a variable in the same scope. -/
theorem ne_of_mem_fixedNames {names : Names} {outer : Regions} {statements : List Stmt}
    (sound : Everywhere (fun place => place.Allowed ∧ place.Distinct)
      ⟨.inside (.block names) outer, .statements statements⟩)
    (declares : old ∈ names.held ∨ DeclaresVariable old statements) {name : Token}
    (member : name ∈ statements.flatMap Stmt.fixedNames) :
    name.lexeme ≠ old ∧ name ∈ tokensOfStmts statements := by
  obtain ⟨stmt, inside, fixed⟩ := List.mem_flatMap.mp member
  obtain ⟨unheld, pairs⟩ := distinct_statements fun place within => (sound place within).2
  obtain ⟨inner, here⟩ := sound.of_mem inside
  have declared := stmt.declared?_of_mem_fixedNames (fun place within => (here place within).1) fixed
  refine ⟨?_, ?_⟩
  · rintro rfl
    rcases declares with held | ⟨token, initializer, variableInside, lexeme⟩
    · exact unheld stmt inside name declared held
    · have different : stmt ≠ .var token initializer := by
        rintro rfl
        cases fixed
      exact pairs.forall inside variableInside different name token declared rfl lexeme.symm
  · rw [tokensOfStmts_eq_flatMap]
    exact List.mem_flatMap.mpr ⟨stmt, inside, Stmt.mem_tokens_of_declared? declared⟩

/-! ## Variations -/

def Scoping.Node.tokens : Node → List Token
  | .expr value => value.tokens
  | .stmt statement => statement.tokens
  | .statements block => tokensOfStmts block
  | .function declaration => declaration.tokens

theorem Rewording.Suits.everywhere {c : Rewording} {token : Token} (h : c.Suits v [true] token)
    (levels : Levels) : c.Suits v levels token where
  plain := h.plain
  kept := h.kept
  named {level} _ := by
    cases level with
    | false => exact h.named List.mem_cons_self
    | true => exact h.named (List.mem_cons_of_mem _ List.mem_cons_self)

/-- In a scope whose variable is renamed all other names are kept. -/
theorem fixes_renaming {names : Names} {outer : Regions} {statements : List Stmt} {level : Bool}
    (suits : ∀ token ∈ tokensOfStmts statements, (Rewording.renaming old new).Suits v [true] token)
    (sound : Everywhere (fun place => place.Allowed ∧ place.Distinct)
      ⟨.inside (.block names) outer, .statements statements⟩)
    (declares : old ∈ names.held ∨ DeclaresVariable old statements) :
    (Rewording.renaming old new).Fixes v level (statements.flatMap Stmt.fixedNames) := by
  intro _ name member
  obtain ⟨different, inside⟩ := ne_of_mem_fixedNames sound declares member
  have named := (suits name inside).named (List.mem_cons_of_mem _ List.mem_cons_self)
  have unchanged : (Rewording.renaming old new).name true name = name :=
    if_neg fun ⟨_, same⟩ => different same
  rwa [unchanged] at named

/-- Methods one of which varies, the others being the same. -/
theorem varies_methods {before after : List FunctionDecl} {method other : FunctionDecl}
    (same : ∀ declaration ∈ before ++ after,
      Node.Varies v levels (.function declaration) (.function declaration))
    (here : Node.Varies v levels (.function method) (.function other)) :
    (before ++ method :: after).length = (before ++ other :: after).length ∧
      ∀ first second, (first, second) ∈ (before ++ method :: after).zip (before ++ other :: after) →
        Node.Varies v levels (.function first) (.function second) := by
  have alike : List.Forall₂ (fun first second =>
      Node.Varies v levels (.function first) (.function second))
      (before ++ method :: after) (before ++ other :: after) :=
    List.rel_append
      (List.forall₂_same.mpr fun declaration member => same declaration (List.mem_append_left _ member))
      (.cons here
        (List.forall₂_same.mpr fun declaration member =>
          same declaration (List.mem_append_right _ member)))
  obtain ⟨count, each⟩ := List.forall₂_iff_zip.mp alike
  exact ⟨count, fun _ _ => each⟩

theorem Scoping.Node.Renames.name_eq {declaration other : FunctionDecl}
    (h : Node.Renames old new levels (.function declaration) (.function other)) :
    other.name = declaration.name := by
  cases h with
  | function _ => cases declaration; rfl
  | inBody _ => rfl

/-- A program in which a variable is renamed is a variation of the program. -/
theorem Scoping.Node.Renames.varies {node other : Node} (h : Node.Renames old new levels node other)
    {regions : Regions} (outside : levels.Outside)
    (suits : ∀ token ∈ node.tokens, (Rewording.renaming old new).Suits v [true] token)
    (sound : Everywhere (fun place => place.Allowed ∧ place.Distinct) ⟨regions, node⟩) :
    Node.Varies v levels node other := by
  have stays {token : Token} (suits : (Rewording.renaming old new).Suits v [true] token) :
      token.Stays v := ⟨suits.plain, suits.kept⟩
  induction h generalizing regions with
  | block declares =>
      exact .block (varies_rewordStmts _ (fun token member => (suits token member).everywhere _)
        (fixes_renaming suits (sound.part .block) (.inr declares)))
  | @function levels declaration declares =>
      refine declaration.varies_reword (fun token member => (suits token member).everywhere _) ?_
      obtain ⟨name, params, body⟩ := declaration
      refine fixes_renaming (fun token member => suits token ?_) (sound.part .body) ?_
      · exact List.mem_cons_of_mem _ (List.mem_append_right _ member)
      · rcases declares with ⟨param, member, lexeme⟩ | declares
        · exact .inl (lexeme ▸ List.mem_map_of_mem member)
        · exact .inr declares
  | inBlock _ ih => exact .block (ih outside.enter suits (sound.part .block))
  | inBody _ ih =>
      simp only [Node.tokens, FunctionDecl.tokens, List.forall_mem_cons, List.forall_mem_append] at suits
      obtain ⟨name, params, body⟩ := suits
      refine .declaration name.plain ?_ (ih outside.enter body (sound.part .body))
      exact List.forall₂_same.mpr fun param member => (stays (params param member)).named
  | @inFunction _ declaration _ renames ih =>
      have name : declaration.name ∈ declaration.tokens := by
        obtain ⟨_, _, _⟩ := declaration
        exact List.mem_cons_self
      refine .function ?_ (ih outside suits (sound.part .function))
      rw [renames.name_eq]
      exact (stays (suits _ name)).kept outside
  | @inMethod levels name superclass before after method other renames ih =>
      have methods (declaration : FunctionDecl) (member : declaration ∈ before ++ method :: after)
          (token : Token) (inside : token ∈ declaration.tokens) :
          (Rewording.renaming old new).Suits v [true] token := by
        refine suits token (List.mem_cons_of_mem _ (List.mem_append_right _ ?_))
        rw [tokensOfFunctions_eq_flatMap]
        exact List.mem_flatMap.mpr ⟨declaration, member, inside⟩
      have inner := outside.ofMethods superclass
      have here := ih inner (methods method (by simp)) (sound.part (.method (by simp)))
      have others (declaration : FunctionDecl) (member : declaration ∈ before ++ after) :
          Node.Varies v (levels.ofMethods superclass) (.function declaration)
            (.function declaration) := by
        have wider : declaration ∈ before ++ method :: after :=
          (List.sublist_cons_self method after).append_left before |>.mem member
        exact declaration.varies_self inner fun token inside =>
          stays (methods declaration wider token inside)
      obtain ⟨count, each⟩ := varies_methods others here
      have name := (stays (suits _ List.mem_cons_self)).kept outside
      cases superclass with
      | none => exact .class name count each
      | some superclass =>
          have use := stays (suits superclass.name (List.mem_cons_of_mem _ List.mem_cons_self))
          exact .subclass name (superclass.varies_self outside use) count each
  | @inThen _ condition _ _ elseBranch _ ih =>
      simp only [Node.tokens, Stmt.tokens, List.forall_mem_append] at suits
      have test := condition.varies_self outside fun token member => stays (suits.1 token member)
      have first := ih outside suits.2.1 (sound.part (.branch List.mem_cons_self))
      cases elseBranch with
      | none => exact .if test first
      | some elseBranch =>
          exact .ifElse test first
            (elseBranch.varies_self outside fun token member => stays (suits.2.2 token member))
  | @inElse _ condition thenBranch _ _ _ ih =>
      simp only [Node.tokens, Stmt.tokens, List.forall_mem_append] at suits
      exact .ifElse (condition.varies_self outside fun token member => stays (suits.1 token member))
        (thenBranch.varies_self outside fun token member => stays (suits.2.1 token member))
        (ih outside suits.2.2 (sound.part (.branch (List.mem_cons_of_mem _ List.mem_cons_self))))
  | @inLoop _ condition _ _ increment _ ih =>
      simp only [Node.tokens, Stmt.tokens, List.forall_mem_append] at suits
      exact .while (condition.varies_self outside fun token member => stays (suits.1 token member))
        (ih outside suits.2.2 (sound.part (.branch List.mem_cons_self)))
        (expr?_varies_self outside increment fun token member => stays (suits.2.1 token member))
  | first _ ih =>
      simp only [Node.tokens, tokensOfStmts, List.forall_mem_append] at suits
      exact .cons (ih outside suits.1 (sound.part .head))
        (stmts_varies_self outside _ fun token member => stays (suits.2 token member))
  | @later _ stmt _ _ _ ih =>
      simp only [Node.tokens, tokensOfStmts, List.forall_mem_append] at suits
      exact .cons (stmt.varies_self outside fun token member => stays (suits.1 token member))
        (ih outside suits.2 (sound.part .tail))

/-! ## Programs -/

theorem IsIdentifier.ne_keyword {name : String} (h : IsIdentifier name) (entry : String × Token.Kind)
    (keyword : entry ∈ Token.keywords) : name ≠ entry.1 :=
  fun same => h.unreserved entry.2 (same ▸ keyword)

/-- All words are the same, but the old name becomes the new one where names are respelled. -/
def Respelling.renaming (old new : String) (isOld : IsIdentifier old) (isNew : IsIdentifier new) :
    Respelling where
  plain token other := other = token
  old := old
  new := new
  kind h := by rw [h]
  lexeme h := by rw [h]
  old_ne_this := isOld.ne_keyword ("this", .this) (by decide)
  old_ne_super := isOld.ne_keyword ("super", .super) (by decide)
  new_ne_this := isNew.ne_keyword ("this", .this) (by decide)
  new_ne_super := isNew.ne_keyword ("super", .super) (by decide)

section

variable {isOld : IsIdentifier old} {isNew : IsIdentifier new} {token other : Token}

theorem name_renaming (isOld : IsIdentifier old) (isNew : IsIdentifier new) (fresh : token.lexeme ≠ new)
    (level : Bool) :
    (Rewording.renaming old new).name level token = ⟨token.kind,
      (Respelling.renaming old new isOld isNew).spell level token.lexeme, token.literal,
      token.line⟩ := by
  cases level with
  | false => rfl
  | true =>
      change (if true = true ∧ token.lexeme = old then token.renamed new else token) =
        ⟨_, Equiv.swap old new token.lexeme, _, _⟩
      by_cases same : token.lexeme = old
      · rw [if_pos ⟨rfl, same⟩, same, Equiv.swap_apply_left]
        rfl
      · rw [if_neg fun both => same both.2, Equiv.swap_apply_of_ne_of_ne same fresh]

theorem suits_renaming (isOld : IsIdentifier old) (isNew : IsIdentifier new)
    (fresh : token.lexeme ≠ new) :
    (Rewording.renaming old new).Suits (Respelling.renaming old new isOld isNew).fresh [true] token where
  plain := rfl
  kept := ⟨Respelling.named_of_plain rfl, fresh⟩
  named {level} _ :=
    ⟨⟨token, rfl, fun _ => fresh, name_renaming isOld isNew fresh level⟩, fresh⟩

theorem Rewording.Suits.of_fresh {r : Respelling} {c : Rewording} (h : c.Suits r.fresh levels token) :
    c.Suits r.variation levels token where
  plain := h.plain
  kept := h.kept.1
  named member := (h.named member).1

theorem Token.Renames.of_named {level : Bool}
    (h : (Respelling.renaming old new isOld isNew).named level token other) :
    token.Renames old new other := by
  obtain ⟨_, same, fresh, rfl⟩ := h
  cases same
  cases level with
  | false => exact .same
  | true =>
      rw [← name_renaming isOld isNew (fresh rfl)]
      change Token.Renames old new _ (if _ then _ else _)
      split
      · next both => exact .renamed both.2
      · exact .same

theorem within_renaming :
    (Respelling.renaming old new isOld isNew).fresh.Within (Token.Renames old new) where
  plain := by
    rintro token _ rfl
    exact .same
  named h := .of_named h.1

end

theorem substitution_renames (old new : String) : Substitution (Token.Renames old new) where
  kind h := by cases h <;> rfl
  literal h := by cases h <;> rfl
  total token := ⟨token, .same⟩

variable {limit : Nat} {source : String} {statements others : List Stmt}

/-- A variable that is renamed in an accepted program has an identifier as its name. -/
theorem isIdentifier_of_renames (accepted : prepare limit source = .ok statements)
    (renames : Node.Renames old new levels (.statements statements) (.statements others)) :
    IsIdentifier old := by
  obtain ⟨-, program, read, marked⟩ := prepare_eq_ok_iff.mp accepted
  have wellFormed := Program.wellFormed_ofTokens limit (Tokens.spelled_ofText source)
  have identifiers := Program.identifiers_ofTokens limit (Tokens.ofText source).tokens
  rw [read] at wellFormed identifiers
  obtain ⟨name, member, rfl⟩ := renames.exists_variable
  obtain ⟨same, -⟩ := markedStmts_of_mark? wellFormed marked
  change name ∈ variablesOfStmts statements at member
  rw [← variables_unmarkStmts, same] at member
  obtain ⟨inside, kind⟩ := identifiers name member
  exact Tokens.isIdentifier_of_mem inside kind

theorem varies_of_renames (accepted : prepare limit source = .ok statements)
    (renames : Node.Renames old new [false] (.statements statements) (.statements others))
    (suits : ∀ token ∈ tokensOfStmts statements, (Rewording.renaming old new).Suits v [true] token) :
    Node.Varies v [false] (.statements statements) (.statements others) :=
  renames.varies (List.forall_mem_singleton.mpr rfl) suits fun place within =>
    ⟨allowed_of_prepare accepted place within, distinct_of_prepare accepted place within⟩

/-- The program in which a variable is renamed is that of a text in which some words are replaced. Its uses of names
are marked as they were. -/
theorem prepare_renamed (accepted : prepare limit source = .ok statements)
    (renames : Node.Renames old new [false] (.statements statements) (.statements others))
    (isNew : IsIdentifier new) (fresh : ∀ token ∈ tokensOfStmts statements, token.lexeme ≠ new) :
    ∃ text : String,
      List.Forall₂ (Piece.Renames old new) (Piece.cut source.toList) (Piece.cut text.toList) ∧
      prepare limit text = .ok others := by
  have isOld := isIdentifier_of_renames accepted renames
  have varies := varies_of_renames accepted renames fun token member =>
    suits_renaming isOld isNew (fresh token member)
  obtain ⟨scanned, program, read, marked⟩ := prepare_eq_ok_iff.mp accepted
  have wellFormed := Program.wellFormed_ofTokens limit (Tokens.spelled_ofText source)
  rw [read] at wellFormed
  have same := (markedStmts_of_mark? wellFormed marked).1
  obtain ⟨found, line, tokens, inside⟩ := Tokens.exists_found source
  have like := (varies.unmark within_renaming [false]).like_stmts
  rw [same] at like
  rw [tokens] at read
  obtain ⟨words, alike, recites⟩ :=
    Program.recites (substitution_renames old new) read inside rfl like (Nat.le_refl _)
  rw [List.length_append, alike.length_eq, ← List.length_append] at recites
  have all : List.Forall₂ (Token.Renames old new) (Tokens.ofText source).tokens
      (words ++ [.final line]) := by
    rw [tokens]
    exact List.rel_append alike (.cons .same .nil)
  obtain ⟨text, pieces, scan⟩ := Tokens.exists_renamed scanned isOld isNew all
  refine ⟨text, pieces, prepare_eq_ok_iff.mpr ⟨by rw [scan], unmarkStmts others, ?_,
    mark?_varies marked varies⟩⟩
  rw [scan]
  exact recites.ofTokens rfl

end LoxLang
