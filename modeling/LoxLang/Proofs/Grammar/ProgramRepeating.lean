import LoxLang.Proofs.Grammar.Slices
import LoxLang.Proofs.Grammar.StatementRepeating

/-!
Programs with other words, and one after the other. A text that was read without errors is read again, with other words
in it, wherever no `else` follows.
-/

namespace LoxLang.Grammar

variable {related : Token → Token → Prop} {rounds wide depth : Nat}

/-- Declarations that are read as statements, whatever was read before them and is read after them. -/
structure Recites (rounds depth : Nat) (text : List Token) (statements : List Stmt) : Prop where
  starts : headKind text ≠ .else
  reads (rest : List Token) (errors : Array SyntaxError) (made : Array Stmt) (remaining : Nat) :
    headKind rest ≠ .else → (text ++ rest).length ≤ remaining →
      ∃ left, rest.length ≤ left ∧
        declarations rounds depth remaining made ⟨text ++ rest, errors⟩ =
          declarations rounds depth left (made ++ statements.toArray) ⟨rest, errors⟩

namespace Recites

variable {text more : List Token} {statements others : List Stmt}

theorem nil : Recites rounds depth [] [] where
  starts := by decide
  reads rest errors made remaining _ bound := by
    refine ⟨remaining, bound, ?_⟩
    rw [List.nil_append, Array.append_empty]

theorem append (first : Recites rounds depth text statements)
    (second : Recites rounds depth more others) :
    Recites rounds depth (text ++ more) (statements ++ others) where
  starts := by
    by_cases nothing : text = []
    · rw [nothing, List.nil_append]
      exact second.starts
    · rw [headKind_append nothing]
      exact first.starts
  reads rest errors made remaining follows bound := by
    have next : headKind (more ++ rest) ≠ .else := by
      by_cases nothing : more = []
      · rw [nothing, List.nil_append]
        exact follows
      · rw [headKind_append nothing]
        exact second.starts
    rw [List.append_assoc] at bound ⊢
    obtain ⟨left, enough, reads⟩ := first.reads (more ++ rest) errors made remaining next bound
    obtain ⟨last, suffices_last, goes⟩ := second.reads rest errors _ left follows enough
    refine ⟨last, suffices_last, ?_⟩
    rw [reads, goes]
    simp

theorem ofTokens (h : Recites (text ++ [final]).length depth text statements)
    (ends : final.kind = .endOfInput) :
    Program.ofTokens depth (text ++ [final]) = ⟨statements, []⟩ := by
  obtain ⟨left, enough, reads⟩ := h.reads [final] #[] #[] _ (by simp [ends]) (Nat.le_refl _)
  obtain ⟨left, rfl⟩ : ∃ fewer, left = fewer + 1 := ⟨left - 1, by simp at enough; omega⟩
  have hend : (⟨[final], #[]⟩ : Cursor).atEnd = true := Cursor.atEnd_eq_true.mpr ends
  unfold Program.ofTokens
  simp only [reads, declarations, hend, if_true, Array.empty_append]

end Recites

/-- A single declaration. -/
theorem Recites.of_declaration {text : List Token} {stmt : Stmt} (some : text ≠ [])
    (starts : headKind text ∈ Form.declaration.starters)
    (h : ∀ rest errors, headKind rest ≠ .else →
      declaration rounds depth ⟨text ++ rest, errors⟩ = .ok (.some stmt) ⟨rest, errors⟩) :
    Recites rounds depth text [stmt] where
  starts := (declarationStarters starts).1
  reads rest errors made remaining follows bound := by
    have positive := List.length_pos_iff.mpr some
    rw [List.length_append] at bound
    obtain ⟨remaining, rfl⟩ : ∃ fewer, remaining = fewer + 1 := ⟨remaining - 1, by omega⟩
    have inside : (⟨text ++ rest, errors⟩ : Cursor).atEnd = false := by
      rw [Cursor.atEnd_eq_false, headKind_append some]
      exact (declarationStarters starts).2.2
    refine ⟨remaining, by omega, ?_⟩
    rw [declarations, inside]
    simp only [Bool.false_eq_true, if_false, h rest errors follows]
    simp

theorem Readings.recites (words : Substitution related) (bound : rounds ≤ wide)
    {cursor last : Cursor} {slices : List Slice} {others : List Stmt}
    (h : Readings rounds depth cursor slices last) (short : cursor.ahead.length ≤ rounds)
    (clean : slices.flatMap Slice.found = [])
    (same : List.Forall₂ (Stmt.Like related) (slices.filterMap Slice.kept) others) :
    ∃ text, List.Forall₂ related (slices.flatMap Slice.tokens) text ∧
      Recites wide depth text others := by
  induction h generalizing others with
  | done _ =>
      cases same
      exact ⟨[], .nil, .nil⟩
  | @next cursor middle last slice rest inside hread step later ih =>
      rw [List.flatMap_cons] at clean
      obtain ⟨hfound, hrest⟩ := List.append_eq_nil_iff.mp clean
      have outcome := (statementMirrors words bound depth).declaration cursor
      rw [hread] at outcome
      obtain ⟨used, found, moves, -, means⟩ := outcome
      obtain ⟨rfl, rfl⟩ := step.unique moves
      have shorter : middle.ahead.length ≤ rounds := by
        rw [step.ahead, List.length_append] at short
        omega
      obtain ⟨stmt, hkept, nonempty, goes⟩ := means hfound (step.ahead ▸ short)
      rw [List.filterMap_cons_some hkept] at same
      obtain _ | ⟨first, same⟩ := same
      obtain ⟨text, alike, reads⟩ := goes _ first
      obtain ⟨more, alike_more, recites⟩ := ih shorter hrest same
      obtain ⟨_, _, moved, sound⟩ := declaration_ok hread
      obtain ⟨rfl, rfl⟩ := step.unique moved
      obtain ⟨_, found, clause, -⟩ := sound.clean hfound
      have starts : headKind text = headKind slice.tokens := by
        have heads := words.headKind_append alike nonempty [] []
        rwa [List.append_nil, List.append_nil] at heads
      have some : text ≠ [] := by
        rintro rfl
        exact nonempty (List.forall₂_nil_right_iff.mp alike)
      have one : Recites wide depth text [_] := .of_declaration some
        (starts ▸ clause.accepts.starts) fun rest errors follows =>
          reads rest errors fun here => absurd here follows
      exact ⟨text ++ more, List.rel_append alike alike_more, one.append recites⟩

end LoxLang.Grammar

namespace LoxLang

open Grammar

variable {related : Token → Token → Prop} {depth wide : Nat}

/-- The text of a program without errors, with other words in it, is read as the program with those words. -/
theorem Program.recites (words : Substitution related) {before : List Token} {final : Token}
    {statements others : List Stmt}
    (clean : ofTokens depth (before ++ [final]) = ⟨statements, []⟩)
    (inside : ∀ token ∈ before, token.kind ≠ .endOfInput) (ends : final.kind = .endOfInput)
    (same : List.Forall₂ (Stmt.Like related) statements others)
    (bound : (before ++ [final]).length ≤ wide) :
    ∃ text, List.Forall₂ related before text ∧ Recites wide depth text others := by
  have nothing : (ofTokens depth (before ++ [final])).errors = [] := by rw [clean]
  obtain ⟨slices, hslices, hkept⟩ := declarations_readings
    (before ++ [final]).length #[] ⟨before ++ [final], #[]⟩ (Nat.le_refl _) fun error member => by
      have member : error ∈ (ofTokens depth (before ++ [final])).errors :=
        Array.mem_toList_iff.mpr member
      rw [nothing] at member
      cases member
  have moves := hslices.moves
  obtain ⟨htokens, hlast⟩ := eq_of_final moves.ahead
    (Cursor.atEnd_eq_true.mp hslices.atEnd) inside moves.inner ends
  have hstatements : slices.filterMap Slice.kept = statements :=
    hkept.symm.trans (congrArg Program.statements clean)
  have hfound : slices.flatMap Slice.found = [] :=
    (moves.errors.symm.trans nothing : [] ++ slices.flatMap Slice.found = [])
  rw [← hstatements] at same
  have whole := hslices.recites words bound (Nat.le_refl _) hfound same
  rwa [htokens] at whole

end LoxLang
