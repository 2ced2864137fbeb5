import LoxLang.Proofs.Variation.Renaming
import LoxLang.Proofs.Variation.Sessions
import LoxLang.Proofs.Variation.Uses

/-!
Running a text in which a local variable is renamed. It does the same as the text with the old name; only the message
about an undefined variable tells the names apart.
-/

namespace LoxLang

open Scoping

variable {old new : String}

/-- The same error, but that the variable where it arose has the new name. -/
inductive RuntimeError.Renames (old new : String) : RuntimeError → RuntimeError → Prop
  | same {error : RuntimeError} : Renames old new error error
  | located {cause : RuntimeError.Cause} {token : Token} :
      token.lexeme = old →
      Renames old new ⟨cause, some token⟩ ⟨cause, some (token.renamed new)⟩
  | undefinedVariable {token : Token} :
      token.lexeme = old →
      Renames old new ⟨.undefinedVariable old, some token⟩
        ⟨.undefinedVariable new, some (token.renamed new)⟩

/-- The same fault, but that it may name the variable. -/
inductive Fault.Renames (old new : String) : Fault → Fault → Prop
  | same {fault : Fault} : Renames old new fault fault
  | notDefinedThere {distance : Int} :
      Renames old new (.notDefinedThere old distance) (.notDefinedThere new distance)

/-- The errors that a run ends with, or the fault. -/
inductive ErrorsRenamed (old new : String) :
    Except Fault (List Error) → Except Fault (List Error) → Prop
  | none : ErrorsRenamed old new (.ok []) (.ok [])
  | runtime {error other : RuntimeError} :
      error.Renames old new other →
      ErrorsRenamed old new (.ok [.runtime error]) (.ok [.runtime other])
  | fault {fault other : Fault} :
      fault.Renames old new other → ErrorsRenamed old new (.error fault) (.error other)

/-- What a text shows in which a variable has the new name, where the text shows something with the old one. -/
structure Report.Renames (old new : String) (first second : Report × Session) : Prop where
  printed : second.1.printed = first.1.printed
  errors : ErrorsRenamed old new first.1.errors second.1.errors
  globals : first.2.Alike second.2

variable {isOld : IsIdentifier old} {isNew : IsIdentifier new}

theorem RuntimeError.Renames.of_token {token other : Token} (h : token.Renames old new other)
    (cause : RuntimeError.Cause) :
    RuntimeError.Renames old new ⟨cause, some token⟩ ⟨cause, some other⟩ := by
  cases h with
  | same => exact .same
  | renamed named => exact .located named

theorem Fault.Renames.of_varies {fault other : Fault}
    (h : fault.Varies (.renaming old new isOld isNew) other) : fault.Renames old new other := by
  cases h with
  | same => exact .same
  | @notDefinedThere level name distance fresh =>
      cases level with
      | false => exact .same
      | true =>
          change Renames old new _ (.notDefinedThere (Equiv.swap old new name) distance)
          have ne_new : name ≠ new := fresh rfl
          by_cases same : name = old
          · rw [same, Equiv.swap_apply_left]
            exact .notDefinedThere
          · rw [Equiv.swap_apply_of_ne_of_ne same ne_new]
            exact .same

theorem ErrorsRenamed.of_varies {interruption other : Interruption}
    (h : interruption.Varies (.renaming old new isOld isNew) other) :
    ErrorsRenamed old new interruption.errors other.errors := by
  cases h with
  | located named => exact .runtime (.of_token (.of_named named) _)
  | undefinedVariable named =>
      cases Token.Renames.of_named named with
      | same => exact .runtime .same
      | renamed same =>
          subst same
          exact .runtime (.undefinedVariable rfl)
  | stackOverflow => exact .runtime .same
  | fault fault => exact .fault (.of_varies fault)

namespace Session

variable {session : Session} {limit : Nat} {outline : Outline} {programs : List (List Stmt)}

theorem renames_of_varies {machine other : Machine}
    (h : machine.Varies (.renaming old new isOld isNew) outline #[] [] other) (host : Host) :
    Report.Renames old new (outcome host machine) (outcome host other) where
  printed := h.store.printed.trans Array.empty_append
  errors := h.errors (ErrorsRenamed old new) .none (fun _ _ => .of_varies) host host
  globals := h.alike host host

/-- Renaming a local variable does not change what a program does. Where a variable or a parameter of an accepted source
gets an identifier as its name that is not a word of the program, and so do the uses that are marked with its scope,
there is a text with these words in place of the old ones: it is accepted with this program, in which each use is
marked with as many hops as before. In every session that comes up it prints the same lines and leaves the same globals, and it has the same errors on the
same lines, but for the name in them. This holds for every number of steps, so that one text runs forever if
the other does. -/
theorem run_renamed (after : After programs session) {source : String}
    {statements others : List Stmt} (accepted : prepare limit source = .ok statements)
    (renames : Node.Renames old new [false] (.statements statements) (.statements others))
    (isNew : IsIdentifier new) (fresh : ∀ token ∈ tokensOfStmts statements, token.lexeme ≠ new) :
    ∃ text : String,
      List.Forall₂ (Piece.Renames old new) (Piece.cut source.toList) (Piece.cut text.toList) ∧
      prepare limit text = .ok others ∧
      UsesLike (localUsesOfStmts statements) (localUsesOfStmts others) ∧
      ∀ now fuel, Option.Rel (Report.Renames old new)
        (session.run? ⟨limit, now, fuel⟩ source) (session.run? ⟨limit, now, fuel⟩ text) := by
  obtain ⟨text, pieces, again⟩ := prepare_renamed accepted renames isNew fresh
  have isOld := isIdentifier_of_renames accepted renames
  let r := Respelling.renaming old new isOld isNew
  have varies : Node.Varies r.variation [false] (.statements statements) (.statements others) :=
    varies_of_renames accepted renames fun token member =>
      Rewording.Suits.of_fresh (r := r) (suits_renaming isOld isNew (fresh token member))
  refine ⟨text, pieces, again, varies.usesLike, fun now fuel => ?_⟩
  obtain ⟨outline, stores⟩ := after.varies (r := r) fun _ _ _ _ => rfl
  have start := varies_load stores [] varies
  rw [List.append_nil] at start
  have echoed : Machine.Echoed (fun _ => True) ⟨session.natives, limit, now⟩
      ⟨session.natives, limit, now⟩ :=
    { agree := ⟨rfl, rfl⟩
      kept := fun _ _ => trivial
      answers := fun _ _ _ _ _ _ _ _ found => answersVary_of_getElem? after.uniform found now }
  rw [run?_of_prepare accepted, run?_of_prepare again]
  exact rel_map (Machine.run?_varies echoed trivial start fuel) fun _ _ ⟨_, _, vary⟩ =>
    renames_of_varies vary _

/-- A variable that is assigned to before it is there. -/
def earlySource : String :=
  "\x7b var a = (a = nil); \x7d"

/-- The program of the source, whatever the name. -/
def earlyProgram (name : String) : List Stmt :=
  let token : Token := ⟨.identifier, name, .none, 1⟩
  [.block [.var token (some (.grouping (.assign ⟨token, some 0⟩ (.literal .nil))))]]

theorem prepare_earlySource : prepare 40 earlySource = .ok (earlyProgram "a") := by
  have errors : (Tokens.ofText earlySource).errors = [] := by decide +kernel
  have tokens : (Tokens.ofText earlySource).tokens =
      [⟨.leftBrace, "\x7b", .none, 1⟩, ⟨.var, "var", .none, 1⟩, ⟨.identifier, "a", .none, 1⟩,
        ⟨.equal, "=", .none, 1⟩, ⟨.leftParen, "(", .none, 1⟩, ⟨.identifier, "a", .none, 1⟩,
        ⟨.equal, "=", .none, 1⟩, ⟨.nil, "nil", .none, 1⟩, ⟨.rightParen, ")", .none, 1⟩,
        ⟨.semicolon, ";", .none, 1⟩, ⟨.rightBrace, "\x7d", .none, 1⟩, .final 1] := by
    decide +kernel
  refine prepare_eq_ok_iff.mpr ⟨errors, unmarkStmts (earlyProgram "a"), ?_, rfl⟩
  rw [tokens]
  rfl

theorem run_renamed_undefined :
    ∃ text first second,
      (Session.start []).run? ⟨40, 0, 20⟩ earlySource = some first ∧
      (Session.start []).run? ⟨40, 0, 20⟩ text = some second ∧
      prepare 40 text = .ok (earlyProgram "c") ∧ Report.Renames "a" "c" first second := by
  have isNew : IsIdentifier "c" :=
    ⟨⟨'c', [], rfl, by decide, nofun⟩, fun kind => by cases kind <;> decide⟩
  have fresh : ∀ token ∈ tokensOfStmts (earlyProgram "a"), token.lexeme ≠ "c" := by decide
  have renames : Node.Renames "a" "c" [false] (.statements (earlyProgram "a"))
      (.statements (earlyProgram "c")) :=
    .first (.block ⟨_, _, List.mem_cons_self, rfl⟩)
  have after : After [] (start []) := Reached.start.after nofun
  obtain ⟨text, -, again, -, alike⟩ := run_renamed after prepare_earlySource renames isNew fresh
  have ended : ((Session.start []).run? ⟨40, 0, 20⟩ earlySource).isSome = true := by
    decide +kernel
  obtain ⟨first, ran⟩ := Option.isSome_iff_exists.mp ended
  have both := alike 0 20
  rw [ran] at both
  generalize second_eq : (Session.start []).run? _ text = result at both
  cases both with
  | some renamed => exact ⟨text, first, _, ran, second_eq, again, renamed⟩

end Session

end LoxLang
