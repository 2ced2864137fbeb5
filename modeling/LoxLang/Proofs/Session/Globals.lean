import LoxLang.Proofs.Grammar.WellFormed
import LoxLang.Proofs.Machine.Globals
import LoxLang.Proofs.Session

/-!
Local scopes never leak. However statements end, the global scope is the current one again; it has kept its names, and
the names that it has gained are declared by the statements themselves and not by anything within them.
-/

namespace LoxLang

namespace Session

/-- The sessions that arise when natives are added and statements are run, whatever these are and however they
end. -/
inductive Arises : Session → Prop
  | new : Arises ⟨#[], .initial⟩
  | native {session : Session} (native : Native) : Arises session → Arises (session.addNative native)
  | run {session : Session} {limit : Nat} {statements : List Stmt} {machine : Machine}
      (now : Float) :
      Arises session → session.Runs limit statements machine → machine.isFinal = true →
      Arises (unload ⟨session.natives, limit, now⟩ machine).2

variable {session : Session} {limit : Nat} {statements : List Stmt} {machine : Machine}

theorem Runs.inside (runs : session.Runs limit statements machine)
    (inside : Forest.globals < session.store.forest.next) :
    Forest.globals < machine.store.forest.next := by
  induction runs with
  | load => exact inside
  | step now _ ih => exact Machine.inside_step _ ih

theorem Arises.inside (arises : Arises session) : Forest.globals < session.store.forest.next := by
  induction arises with
  | new => exact Nat.zero_lt_one
  | native native _ ih =>
      change _ < (Forest.define _ _ _ _).next
      rwa [Forest.next_define]
  | run now _ runs _ ih => exact runs.inside ih

theorem Runs.contained (inside : Forest.globals < session.store.forest.next)
    (read : ∀ stmt ∈ unmarkStmts statements, stmt.WellFormed)
    (runs : session.Runs limit statements machine) :
    machine.Contained (declaredNames statements) session.store := by
  induction runs with
  | load => exact .load read inside
  | step now _ ih => exact ih.step _

/-- Statements that a text was read as, marked in whatever way, leave no scope behind. However they end, the global
scope is current; it has kept all its names, has gained only names that the statements declare
themselves, and has all of these where nothing failed. -/
theorem globals_stay (arises : Arises session) (depth : Nat) {tokens : List Token}
    (spelled : ∀ token ∈ tokens, token.Spelled)
    (read : unmarkStmts statements = (Program.ofTokens depth tokens).statements)
    (runs : session.Runs limit statements machine) (final : machine.isFinal = true) :
    machine.scope = Forest.globals ∧
      (∀ name, session.store.forest.Holds Forest.globals name →
        machine.store.forest.Holds Forest.globals name) ∧
      (∀ name, machine.store.forest.Holds Forest.globals name →
        session.store.forest.Holds Forest.globals name ∨ name ∈ declaredNames statements) ∧
      (machine.control.interruption? = none → ∀ name ∈ declaredNames statements,
        machine.store.forest.Holds Forest.globals name) := by
  have wellFormed := Program.wellFormed_ofTokens depth spelled
  rw [← read] at wellFormed
  obtain ⟨-, -, -, gains, last, accounts⟩ := runs.contained arises.inside wellFormed
  obtain ⟨control, frames, scope, height, store⟩ := machine
  obtain rfl : frames = [] := by
    cases frames with
    | nil => rfl
    | cons frame frames => cases control <;> cases final
  refine ⟨last, gains.keeps, gains.only, fun finished name declared => ?_⟩
  rcases accounts name declared finished with held | ⟨-, owed⟩ | owed
  · exact held
  · cases control with
    | exec stmt => cases final
    | eval _ | value _ | done _ | failed _ => cases owed
  · cases owed

/-- A global name, and a local one where an error ends the program. -/
def leakText : List Token :=
  [⟨.var, "var", .none, 1⟩, ⟨.identifier, "a", .none, 1⟩, ⟨.semicolon, ";", .none, 1⟩,
    ⟨.leftBrace, "\x7b", .none, 1⟩, ⟨.var, "var", .none, 1⟩, ⟨.identifier, "b", .none, 1⟩,
    ⟨.semicolon, ";", .none, 1⟩, ⟨.identifier, "a", .none, 1⟩, ⟨.leftParen, "(", .none, 1⟩,
    ⟨.rightParen, ")", .none, 1⟩, ⟨.semicolon, ";", .none, 1⟩, ⟨.rightBrace, "\x7d", .none, 1⟩,
    .final 1]

def leakStatements : List Stmt :=
  [.var ⟨.identifier, "a", .none, 1⟩ none,
    .block [.var ⟨.identifier, "b", .none, 1⟩ none,
      .expression (.call (.variable (.unmarked ⟨.identifier, "a", .none, 1⟩))
        ⟨.rightParen, ")", .none, 1⟩ [])]]

/-- The machine at the end of the program above. -/
def leakEnd : Machine :=
  .advance ⟨(start []).natives, 40, 0⟩ 20 (.load leakStatements (start []).store)

theorem globals_stay_error :
    leakEnd.control.interruption?.isSome = true ∧ leakEnd.scope = Forest.globals ∧
      leakEnd.store.forest.Holds Forest.globals "clock" ∧
      ¬ leakEnd.store.forest.Holds Forest.globals "b" := by
  have spelled : ∀ token ∈ leakText, token.Spelled := by
    intro token member
    simp only [leakText, List.mem_cons, List.not_mem_nil, or_false] at member
    rcases member with rfl | rfl | rfl | rfl | rfl | rfl | rfl | rfl | rfl | rfl | rfl | rfl | rfl
    all_goals exact ⟨by decide, by decide, by decide⟩
  have read : unmarkStmts leakStatements = (Program.ofTokens 24 leakText).statements := rfl
  have runs : (start []).Runs 40 leakStatements leakEnd := Runs.load.advance 0 20
  have final : leakEnd.isFinal = true := by decide +kernel
  obtain ⟨scope, keeps, only, -⟩ :=
    globals_stay (.native clock .new) 24 spelled read runs final
  have clockHeld : (start []).store.forest.Holds Forest.globals "clock" := by
    unfold Forest.Holds
    decide
  refine ⟨by decide +kernel, scope, keeps "clock" clockHeld, fun held => ?_⟩
  rcases only "b" held with before | declared
  · have absent : ¬ (start []).store.forest.Holds Forest.globals "b" := by
      unfold Forest.Holds
      decide
    exact absent before
  · have other : "b" ∉ declaredNames leakStatements := by decide
    exact other declared

end Session

end LoxLang
