import LoxLang.Proofs.Machine.Completions
import LoxLang.Proofs.Scoping.Clean
import LoxLang.Proofs.Session

/-!
Accepted sources are suited, and so is every program that was run in a session.
-/

namespace LoxLang

open Scoping

theorem allSuited_cons {programs : List (List Stmt)} {statements : List Stmt}
    (first : ∀ stmt ∈ statements, Suited .topLevel stmt) (others : AllSuited programs) :
    AllSuited (statements :: programs) := by
  intro place ⟨program, member, stands⟩
  rcases List.mem_cons.mp member with rfl | member
  · exact suited_of_stands first stands
  · exact others place ⟨program, member, stands⟩

theorem suited_of_prepare {limit : Nat} {source : String} {statements : List Stmt}
    (h : prepare limit source = .ok statements) :
    ∀ stmt ∈ statements, Suited .topLevel stmt := by
  obtain ⟨-, program, read, marked⟩ := prepare_eq_ok_iff.mp h
  have wellFormed := Program.wellFormed_ofTokens limit (Tokens.spelled_ofText source)
  rw [read] at wellFormed
  exact suited_of_mark? wellFormed marked rfl

theorem Session.Reached.allSuited {natives : List Native} {programs : List (List Stmt)}
    {session : Session} (reached : Reached natives programs session) : AllSuited programs := by
  induction reached with
  | start =>
      intro place ⟨program, absurd, _⟩
      cases absurd
  | run now _ prepared _ _ ih => exact allSuited_cons (suited_of_prepare prepared) ih

end LoxLang
