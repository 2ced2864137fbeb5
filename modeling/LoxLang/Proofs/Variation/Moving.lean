import Mathlib.Data.Fintype.EquivFin
import LoxLang.Proofs.Grammar.ProgramRepeating
import LoxLang.Proofs.Session
import LoxLang.Proofs.Token.Joining
import LoxLang.Proofs.Variation.Marking
import LoxLang.Proofs.Variation.Rewording

/-!
Programs below one another. Where two texts are accepted each by itself, the second is accepted below the first as well,
and its program is the same but for the lines of its words.
-/

namespace LoxLang

open Grammar Scoping

/-- Every word is on a line further down. -/
def Rewording.moved (lines : Nat) : Rewording :=
  ⟨Token.moved lines, fun _ => Token.moved lines⟩

/-- A program further down in a text. -/
def movedStmts (lines : Nat) (statements : List Stmt) : List Stmt :=
  rewordStmts (.moved lines) [false] statements

/-- Other words tell the same, and no name is respelled. -/
def Respelling.telling (words : Token → Token → Prop)
    (same : ∀ token other, words token other →
      other.kind = token.kind ∧ other.lexeme = token.lexeme)
    (name : String) (notThis : name ≠ "this") (notSuper : name ≠ "super") : Respelling where
  plain := words
  old := name
  new := name
  kind h := (same _ _ h).1
  lexeme h := (same _ _ h).2
  old_ne_this := notThis
  old_ne_super := notSuper
  new_ne_this := notThis
  new_ne_super := notSuper

variable {v : Variation} {statements : List Stmt} {lines : Nat}

theorem varies_moved
    (moves : ∀ token ∈ tokensOfStmts statements,
      v.plain token (token.moved lines) ∧ v.named false token (token.moved lines)) :
    Node.Varies v [false] (.statements statements) (.statements (movedStmts lines statements)) := by
  refine varies_rewordStmts statements (fun token member => ?_) Rewording.fixes_false
  obtain ⟨plain, named⟩ := moves token member
  refine ⟨plain, named, fun {level} member => ?_⟩
  obtain rfl : level = false := by simpa using member
  exact named

/-- The words of a text further down. -/
theorem substitution_moved (lines : Nat) :
    Substitution fun token other => other = token.moved lines where
  kind h := by rw [h, Token.moved]
  literal h := by rw [h, Token.moved]
  total token := ⟨_, rfl⟩

theorem eq_map_of_forall₂ {α β : Type} {f : α → β} {items : List α} {others : List β}
    (h : List.Forall₂ (fun item other => other = f item) items others) : others = items.map f := by
  induction h with
  | nil => rfl
  | cons same _ ih => rw [List.map_cons, same, ih]

/-- A text without errors is read again further down. -/
theorem Program.recites_moved {depth wide : Nat} {before : List Token} {final : Token}
    {program marked : List Stmt}
    (clean : ofTokens depth (before ++ [final]) = ⟨program, []⟩)
    (inside : ∀ token ∈ before, token.kind ≠ .endOfInput) (ends : final.kind = .endOfInput)
    (same : unmarkStmts marked = program) (bound : (before ++ [final]).length ≤ wide)
    (lines : Nat) :
    Recites wide depth (before.map (Token.moved lines))
      (unmarkStmts (movedStmts lines marked)) := by
  let loose : Variation := .loose fun token other => other = token.moved lines
  have varies : Node.Varies loose [false] (.statements marked)
      (.statements (movedStmts lines marked)) := varies_moved fun _ _ => ⟨rfl, rfl⟩
  have within : loose.Within fun token other => other = token.moved lines := ⟨id, id⟩
  have like := (varies.unmark within [false]).like_stmts
  rw [same] at like
  obtain ⟨text, alike, recites⟩ :=
    recites (substitution_moved lines) clean inside ends like bound
  rwa [eq_map_of_forall₂ alike] at recites

theorem movedStmts_zero (statements : List Stmt) : movedStmts 0 statements = statements :=
  rewordStmts_same _ _

theorem Tokens.exists_found (source : String) :
    ∃ found line, (ofText source).tokens = found ++ [.final line] ∧
      ∀ token ∈ found, token.kind ≠ .endOfInput := by
  obtain ⟨-, found, same, inside⟩ := reads_ofText source
  exact ⟨found, _, same, inside⟩

theorem mark?_moved {depth : Nat} {first marked program others : List Stmt}
    (wellFormed : ∀ stmt ∈ first, stmt.WellFormed)
    (before : mark? depth first = some ⟨marked, []⟩)
    (clean : mark? depth program = some ⟨others, []⟩) (lines : Nat) :
    mark? depth (first ++ unmarkStmts (movedStmts lines others)) =
      some ⟨marked ++ movedStmts lines others, []⟩ := by
  obtain ⟨name, fresh⟩ := Infinite.exists_notMem_finset
    ("this" :: "super" :: (tokensOfStmts others).map Token.lexeme).toFinset
  simp only [List.mem_toFinset, List.mem_cons, not_or] at fresh
  let r : Respelling := .telling (fun token other => other = token.moved lines)
    (fun _ _ h => by rw [h]; exact ⟨rfl, rfl⟩) name fresh.1 fresh.2.1
  refine mark?_append wellFormed before clean (varies_moved (v := r.fresh) fun token member => ?_)
  have other : token.lexeme ≠ name :=
    fun same => fresh.2.2 (same ▸ List.mem_map_of_mem member)
  have plain : r.plain token (token.moved lines) := rfl
  exact ⟨plain, Respelling.named_of_plain plain, other⟩

/-- Two texts that are accepted are accepted one below the other. -/
theorem prepare_below {limit : Nat} {first second : String} {statements others : List Stmt}
    (above : prepare limit first = .ok statements) (accepted : prepare limit second = .ok others) :
    prepare limit (below first second) =
      .ok (statements ++ movedStmts (1 + first.toList.count '\n') others) := by
  obtain ⟨scanned, program, read, marked⟩ := prepare_eq_ok_iff.mp above
  obtain ⟨scannedBelow, more, readBelow, markedBelow⟩ := prepare_eq_ok_iff.mp accepted
  have wellFormed := Program.wellFormed_ofTokens limit (Tokens.spelled_ofText first)
  have wellFormedBelow := Program.wellFormed_ofTokens limit (Tokens.spelled_ofText second)
  rw [read] at wellFormed
  rw [readBelow] at wellFormedBelow
  have same := (markedStmts_of_mark? wellFormed marked).1
  have sameBelow := (markedStmts_of_mark? wellFormedBelow markedBelow).1
  obtain ⟨found, line, tokens, inside⟩ := Tokens.exists_found first
  obtain ⟨foundBelow, lineBelow, tokensBelow, insideBelow⟩ := Tokens.exists_found second
  have joined : Tokens.ofText (below first second) = _ := Tokens.ofText_below scanned
  generalize 1 + first.toList.count '\n' = lines at joined ⊢
  rw [tokens] at read
  rw [tokensBelow] at readBelow
  have all : (Tokens.ofText (below first second)).tokens =
      (found ++ foundBelow.map (Token.moved lines)) ++ [(Token.final lineBelow).moved lines] := by
    rw [joined, tokens, tokensBelow]
    simp
  refine prepare_eq_ok_iff.mpr ⟨?_, program ++ unmarkStmts (movedStmts lines others), ?_,
    mark?_moved wellFormed marked markedBelow lines⟩
  · rw [joined, scannedBelow]
    rfl
  · rw [all]
    refine Recites.ofTokens (.append ?_ ?_) rfl
    · have unmoved : found.map (Token.moved 0) = found := List.map_id found
      have again : Recites (found ++ foundBelow.map (Token.moved lines) ++
          [(Token.final lineBelow).moved lines]).length limit _ _ :=
        Program.recites_moved read inside rfl same (by simp) 0
      rwa [movedStmts_zero, same, unmoved] at again
    · exact Program.recites_moved readBelow insideBelow rfl sameBelow (by simp) lines

/-- Empty lines have no program. -/
theorem prepare_blankLines {limit : Nat} (positive : 0 < limit) (count : Nat) :
    prepare limit (blankLines count) = .ok [] := by
  obtain ⟨limit, rfl⟩ := Nat.exists_eq_succ_of_ne_zero (Nat.ne_of_gt positive)
  have tokens := Tokens.ofText_blankLines count
  refine prepare_eq_ok_iff.mpr ⟨by rw [tokens], [], ?_, rfl⟩
  rw [tokens]
  exact Recites.ofTokens .nil rfl

theorem limit_pos_of_prepare {limit : Nat} {source : String} {statements : List Stmt}
    (h : prepare limit source = .ok statements) : 0 < limit := by
  obtain ⟨-, program, -, marked⟩ := prepare_eq_ok_iff.mp h
  refine Nat.pos_of_ne_zero fun none => ?_
  subst none
  cases marked

end LoxLang
