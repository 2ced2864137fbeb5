import LoxLang.Proofs.Session.Loops

/-!
Braces in a session. A statement that is no declaration does the same in braces of its own: they are a scope that
nothing is declared in.
-/

namespace LoxLang

open Scoping

namespace Stmt.WellFormed

theorem expands_braced {stmt : Stmt} (wellFormed : stmt.WellFormed) (plain : stmt.declared? = none) (gap : Nat)
    (outer : Gaps) : Node.Expands True (gap :: outer) (.stmt stmt) (.stmt (.block [stmt])) :=
  .brace trivial (wellFormed.expands_self fun declares => absurd plain declares)

end Stmt.WellFormed

theorem Stmt.levels_braced (stmt : Stmt) : (Stmt.block [stmt]).levels ≤ stmt.levels + 2 := by
  simp [Stmt.levels, stmtsLevels]

namespace Session

variable {session : Session} {limit : Nat} {statements : List Stmt}

/-- Braces around a statement change nothing. Where a statement of a program, which is no declaration, stands in a
block of its own, the program is marked without errors again, and whatever it is run in, the same lines are printed,
the same errors told and the same globals left, unless one of the two runs out of places. -/
theorem statement_braced {natives : List Native} (honest : ∀ native ∈ natives, native.Sound)
    (indifferent : ∀ native ∈ natives, native.Indifferent) {programs : List (List Stmt)}
    (reached : Reached natives programs session) {source : String}
    (accepted : prepare limit source = .ok statements) {stmt : Stmt} (plain : stmt.declared? = none)
    {braced : List Stmt}
    (replaces : Node.Replaces stmt (.block [stmt])
      (.statements (Program.ofTokens limit (Tokens.ofText source).tokens).statements) (.statements braced)) :
    ∃ others,
      (∀ depth, limit + 2 ≤ depth → mark? depth braced = some ⟨others, []⟩) ∧
      (∀ depth found, mark? depth braced = some found → found = ⟨others, []⟩) ∧
      ∀ wide now,
        RunsFull (fun fuel => (session.progress ⟨limit, now, fuel⟩ source).showing) ∨
          RunsFull (fun fuel => (session.progressOf ⟨wide, now, fuel⟩ others).showing) ∨
          SeenAlike (fun fuel => (session.progress ⟨limit, now, fuel⟩ source).showing)
            (fun fuel => (session.progressOf ⟨wide, now, fuel⟩ others).showing) := by
  obtain ⟨-, program, read, marked⟩ := prepare_eq_ok_iff.mp accepted
  have wellFormed := Program.wellFormed_ofTokens limit (Tokens.spelled_ofText source)
  have expands := replaces.expands wellFormed (fun well => well.expands_braced plain) []
  have levels := replaces.levels stmt.levels_braced
  rw [read] at wellFormed expands levels
  obtain ⟨others, deep, only, both⟩ := exists_marked_of_expands wellFormed marked expands levels
  refine ⟨others, deep, only, fun wide now => ?_⟩
  exact seenAlike_of_accepted honest indifferent reached accepted both wide now

/-- A function whose statement uses a name of the function's scope. -/
def keeperSource : String :=
  "fun f(a)\x7bprint a;\x7d f(nil);"

def keeperName : Token :=
  ⟨.identifier, "a", .none, 1⟩

def keeperPrint : Stmt :=
  .print (.variable (.unmarked keeperName))

/-- The same program, where the statement in the function's body may be another. -/
def keeperProgram (body : Stmt) : List Stmt :=
  let name : Token := ⟨.identifier, "f", .none, 1⟩
  [.function ⟨name, [keeperName], [body]⟩,
    .expression (.call (.variable (.unmarked name)) ⟨.rightParen, ")", .none, 1⟩ [.literal .nil])]

theorem tokens_keeperSource : (Tokens.ofText keeperSource).tokens =
    [⟨.fun, "fun", .none, 1⟩, ⟨.identifier, "f", .none, 1⟩, ⟨.leftParen, "(", .none, 1⟩, keeperName,
      ⟨.rightParen, ")", .none, 1⟩, ⟨.leftBrace, "\x7b", .none, 1⟩, ⟨.print, "print", .none, 1⟩, keeperName,
      ⟨.semicolon, ";", .none, 1⟩, ⟨.rightBrace, "\x7d", .none, 1⟩, ⟨.identifier, "f", .none, 1⟩,
      ⟨.leftParen, "(", .none, 1⟩, ⟨.nil, "nil", .none, 1⟩, ⟨.rightParen, ")", .none, 1⟩,
      ⟨.semicolon, ";", .none, 1⟩, .final 1] := by
  decide +kernel

theorem statement_braced_in_function :
    ∃ statements others, prepare 40 keeperSource = .ok statements ∧
      mark? 42 (keeperProgram (.block [keeperPrint])) = some ⟨others, []⟩ ∧
      ∀ now,
        RunsFull (fun fuel => ((start []).progress ⟨40, now, fuel⟩ keeperSource).showing) ∨
          RunsFull (fun fuel => ((start []).progressOf ⟨42, now, fuel⟩ others).showing) ∨
          SeenAlike (fun fuel => ((start []).progress ⟨40, now, fuel⟩ keeperSource).showing)
            (fun fuel => ((start []).progressOf ⟨42, now, fuel⟩ others).showing) := by
  have replaces : Node.Replaces keeperPrint (.block [keeperPrint])
      (.statements (Program.ofTokens 40 (Tokens.ofText keeperSource).tokens).statements)
      (.statements (keeperProgram (.block [keeperPrint]))) := by
    have read : (Program.ofTokens 40 (Tokens.ofText keeperSource).tokens).statements =
        keeperProgram keeperPrint := by
      rw [tokens_keeperSource]
      rfl
    rw [read]
    exact .head (.function (.body (.head .here)))
  have accepted : (prepare 40 keeperSource).toBool = true := by decide +kernel
  cases prepared : prepare 40 keeperSource with
  | error errors =>
      rw [prepared] at accepted
      cases accepted
  | ok statements =>
      obtain ⟨others, deep, -, alike⟩ :=
        statement_braced (List.forall_mem_nil _) (List.forall_mem_nil _) .start prepared rfl replaces
      exact ⟨statements, others, rfl, deep 42 (Nat.le_refl 42), fun now => alike 42 now⟩

end Session

end LoxLang
