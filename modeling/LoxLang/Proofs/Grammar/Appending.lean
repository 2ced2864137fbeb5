import LoxLang.Proofs.Grammar.Progress
import LoxLang.Proofs.Variation.Moving

/-!
One text behind another. Declarations that were read without errors are read in the same way whatever stands behind
them, unless that is an `else`; and what stands behind them is read as it is by itself.
-/

namespace LoxLang.Grammar

variable {rounds wide : Nat}

/-- Neither what was read before nor how many rounds are allowed matters to the declarations that are read. -/
theorem declarations_behind (le : rounds ≤ wide) (depth : Nat) {remaining left : Nat} (made statements : Array Stmt)
    {cursor : Cursor} (inside : cursor.Inside rounds) (enough : cursor.ahead.length ≤ remaining)
    (many : cursor.ahead.length ≤ left) :
    declarations wide depth left (made ++ statements) cursor =
      (made ++ (declarations rounds depth remaining statements cursor).1,
        (declarations rounds depth remaining statements cursor).2) := by
  induction remaining generalizing left statements cursor with
  | zero => exact absurd (Nat.lt_of_lt_of_le inside.length_pos enough) (Nat.lt_irrefl 0)
  | succ remaining ih =>
      obtain ⟨left, rfl⟩ : ∃ fewer, left = fewer + 1 :=
        ⟨left - 1, (Nat.sub_add_cancel (Nat.lt_of_lt_of_le inside.length_pos many)).symm⟩
      obtain ⟨same, steps⟩ := (statementsProceed le depth).declaration cursor inside
      rw [declarations, declarations]
      by_cases ended : cursor.atEnd = true
      · rw [if_pos ended, if_pos ended]
      rw [if_neg ended, if_neg ended, same]
      rw [Bool.not_eq_true] at ended
      cases read : declaration rounds depth cursor with
      | error stop next => rfl
      | ok result next =>
          rw [read] at steps
          have shorter := shortens_declaration (Cursor.atEnd_eq_false.mp ended) read
          have within : next.Inside rounds := (inside.steps steps).mono (Nat.le_trans steps.length_le inside.length)
          cases result with
          | none => exact ih statements within (by omega) (by omega)
          | some stmt =>
              have room : next.ahead.length ≤ left := by omega
              have later := ih (statements.push stmt) within (by omega) room
              rwa [Array.append_push] at later

end LoxLang.Grammar

namespace LoxLang

open Grammar

variable {depth : Nat} {before more : List Token} {final last : Token} {statements : List Stmt}

theorem Program.recites_self {wide : Nat} (clean : ofTokens depth (before ++ [final]) = ⟨statements, []⟩)
    (inside : ∀ token ∈ before, token.kind ≠ .endOfInput) (final_kind : final.kind = .endOfInput)
    (bound : (before ++ [final]).length ≤ wide) : Recites wide depth before statements := by
  have varies : Scoping.Node.Varies (.loose fun token other => other = token.moved 0) [false]
      (.statements statements) (.statements (movedStmts 0 statements)) := varies_moved fun _ _ => ⟨rfl, rfl⟩
  have like := varies.like_stmts
  rw [movedStmts_zero] at like
  obtain ⟨text, alike, recites⟩ := recites (substitution_moved 0) clean inside final_kind like bound
  have same : text = before := (eq_map_of_forall₂ alike).trans (List.map_id before)
  exact same ▸ recites

/-- Behind a text that is read without errors any other text that does not begin with `else` is read as by itself: its
statements come behind those of the first text, and its errors are all there are. -/
theorem Program.ofTokens_append (clean : ofTokens depth (before ++ [final]) = ⟨statements, []⟩)
    (inside : ∀ token ∈ before, token.kind ≠ .endOfInput) (final_kind : final.kind = .endOfInput)
    (last_kind : last.kind = .endOfInput) (follows : headKind (more ++ [last]) ≠ .else) :
    ofTokens depth (before ++ (more ++ [last])) =
      ⟨statements ++ (ofTokens depth (more ++ [last])).statements, (ofTokens depth (more ++ [last])).errors⟩ := by
  have le : (more ++ [last]).length ≤ (before ++ (more ++ [last])).length := by simp
  have short : (before ++ [final]).length ≤ (before ++ (more ++ [last])).length := by simp
  have within : Cursor.Inside (more ++ [last]).length ⟨more ++ [last], #[]⟩ :=
    ⟨⟨last, by simp, last_kind⟩, Nat.le_refl _⟩
  obtain ⟨left, enough, reads⟩ := (recites_self clean inside final_kind short).reads (more ++ [last]) #[] #[] _
    follows (Nat.le_refl _)
  have behind := declarations_behind le depth statements.toArray #[] within (Nat.le_refl _) enough
  rw [Array.append_empty] at behind
  unfold ofTokens
  simp only [reads, Array.empty_append, behind, Array.toList_append]

/-- A statement, and behind it a mistake that does not touch it. -/
theorem Program.ofTokens_append_stray :
    ofTokens 40 (strayText.tail ++ (strayText ++ [Token.final 1])) =
      ⟨[.print (.literal .nil)] ++ (ofTokens 40 (strayText ++ [Token.final 1])).statements,
        (ofTokens 40 (strayText ++ [Token.final 1])).errors⟩ := by
  have clean : ofTokens 40 (strayText.tail ++ [Token.final 1]) = ⟨[.print (.literal .nil)], []⟩ := rfl
  exact ofTokens_append clean (by decide) rfl rfl (by decide)

end LoxLang
