import LoxLang.Proofs.Grammar.StatementReading
import LoxLang.Proofs.Grammar.Trees

/-!
Whole programs, with errors or without. The declarations that are read one after the other cut a text into
slices. A slice in which no error was found is derived as the statement that it yields; every other slice
yields nothing.
-/

namespace LoxLang.Grammar

/-- What the reading of one declaration took, the errors that it recorded and what it yielded. -/
structure Slice where
  tokens : List Token
  found : List SyntaxError
  kept : Option Stmt

/-- What is kept of a slice: the tree that its tokens are derived as, or nothing if there were errors. -/
structure Slice.Sound (slice : Slice) : Prop where
  clean : slice.found = [] → ∃ stmt, slice.kept = some stmt ∧
    Clause .declaration slice.tokens stmt ∧ stmt.tokens.Sublist slice.tokens
  faulty : slice.found ≠ [] → slice.kept = none

/-- Declarations read one after the other, up to the end of the text. -/
inductive Readings (rounds depth : Nat) : Cursor → List Slice → Cursor → Prop
  | done {cursor : Cursor} : cursor.atEnd = true → Readings rounds depth cursor [] cursor
  | next {cursor middle last : Cursor} {slice : Slice} {rest : List Slice} :
      cursor.atEnd = false → declaration rounds depth cursor = .ok slice.kept middle →
      cursor.Moves middle slice.tokens slice.found → Readings rounds depth middle rest last →
      Readings rounds depth cursor (slice :: rest) last

variable {rounds depth : Nat} {cursor next : Cursor}

/-! ## Progress -/

theorem failed_after {α : Type} {rest : Reader α} {m : Nat} {meaning : Meaning α}
    (reads : Reads rest m meaning) (inside : cursor.peek.kind ≠ .endOfInput)
    (h : rest cursor.advance = .error .failed next) :
    ∃ used found, cursor.Moves next used found ∧ used ≠ [] := by
  have outcome := reads cursor.advance
  rw [h] at outcome
  obtain ⟨used, found, moves, -⟩ := outcome
  exact ⟨_, _, (Cursor.Moves.advance cursor inside).trans moves, List.cons_ne_nil _ _⟩

theorem statement_failed (h : statement rounds depth cursor = .error .failed next)
    (word : cursor.peek.kind ∈ [Token.Kind.for, .if, .while, .print, .return]) :
    ∃ used found, cursor.Moves next used found ∧ used ≠ [] := by
  cases depth with
  | zero => cases h
  | succ depth =>
      have reads := statementReads rounds depth
      have inside : cursor.peek.kind ≠ .endOfInput := by
        intro hend
        rw [hend] at word
        revert word
        decide
      rw [Grammar.statement, bind_ok peek_eq] at h
      simp only [List.mem_cons, List.not_mem_nil, or_false] at word
      rcases word with hkind | hkind | hkind | hkind | hkind
      · simp only [hkind] at h
        exact failed_after reads.forStatement inside h
      · simp only [hkind] at h
        exact failed_after reads.ifStatement inside h
      · simp only [hkind] at h
        exact failed_after reads.whileStatement inside h
      · simp only [hkind] at h
        exact failed_after (reads_printStatement rounds depth) inside h
      · simp only [hkind] at h
        exact failed_after (reads_returnStatement rounds depth cursor.peek) inside h

/-- A declaration that fails at once does so at no word that begins a statement. -/
theorem declarationBody_failed (h : declarationBody rounds depth cursor = .error .failed next)
    (word : cursor.peek.kind ∈ statementWords) :
    ∃ used found, cursor.Moves next used found ∧ used ≠ [] := by
  have reads := statementReads rounds depth
  unfold declarationBody at h
  by_cases hclass : cursor.peek.kind = .class
  · rw [bind_ok (accepts_of_kind hclass)] at h
    exact failed_after reads.classDeclaration (by simp [hclass]) h
  rw [bind_ok (accepts_of_ne hclass)] at h
  simp only [Bool.false_eq_true, if_false] at h
  by_cases hfun : cursor.peek.kind = .fun
  · rw [bind_ok (accepts_of_kind hfun)] at h
    have function : Reads (do return Stmt.function (← Grammar.function rounds .function depth)) 1
        fun _ _ _ => True := (reads.function .function).map fun _ _ _ _ => trivial
    exact failed_after function (by simp [hfun]) h
  rw [bind_ok (accepts_of_ne hfun)] at h
  simp only [Bool.false_eq_true, if_false] at h
  by_cases hvar : cursor.peek.kind = .var
  · rw [bind_ok (accepts_of_kind hvar)] at h
    exact failed_after (reads_varDeclaration rounds depth) (by simp [hvar]) h
  rw [bind_ok (accepts_of_ne hvar)] at h
  simp only [Bool.false_eq_true, if_false] at h
  exact statement_failed h (by simpa [statementWords, hclass, hfun, hvar] using word)

/-- A declaration that is read before the end takes a token, also if it fails at once: the token ahead
begins no statement then and is skipped. -/
theorem declaration_progress {result : Option Stmt} (inside : cursor.atEnd = false)
    (h : declaration rounds depth cursor = .ok result next) :
    ∃ used found, cursor.Moves next used found ∧ used ≠ [] := by
  cases depth with
  | zero => cases h
  | succ depth =>
      have reads := (statementReads rounds depth).declarationBody
      have outcome := reads cursor
      rw [Cursor.atEnd_eq_false] at inside
      rw [Grammar.declaration] at h
      change recovering (declarationBody rounds depth) cursor = _ at h
      unfold recovering at h
      cases hbody : declarationBody rounds depth cursor with
      | ok stmt middle =>
          rw [hbody] at outcome h
          obtain ⟨used, found, moves, least, -⟩ := outcome
          cases h
          exact ⟨used, found, moves, List.ne_nil_of_length_pos least⟩
      | error stop middle =>
          rw [hbody] at outcome h
          cases stop with
          | tooDeep => cases h
          | failed =>
              obtain ⟨skipped, skips, progress⟩ := middle.moves_synchronize
              cases h
              by_cases word : cursor.peek.kind ∈ statementWords
              · obtain ⟨used, found, moves, some⟩ := declarationBody_failed hbody word
                exact ⟨_, _, moves.trans skips, by simp [some]⟩
              · obtain ⟨used, found, moves, -⟩ := outcome
                refine ⟨_, _, moves.trans skips, fun none => ?_⟩
                obtain ⟨rfl, rfl⟩ := List.append_eq_nil_iff.mp none
                have same : cursor.ahead = middle.ahead := moves.ahead
                rw [← same] at progress
                exact progress inside word rfl

/-! ## Runs of declarations -/

theorem Cursor.Moves.unique {used more : List Token} {found further : List SyntaxError}
    (first : cursor.Moves next used found) (second : cursor.Moves next more further) :
    used = more ∧ found = further := by
  refine ⟨List.append_cancel_right (first.ahead.symm.trans second.ahead), ?_⟩
  exact List.append_cancel_left (first.errors.symm.trans second.errors)

theorem declaration_ok {result : Option Stmt}
    (h : declaration rounds depth cursor = .ok result next) :
    ∃ used found, cursor.Moves next used found ∧ (⟨used, found, result⟩ : Slice).Sound := by
  cases depth with
  | zero => cases h
  | succ depth =>
      have reads := (statementReads rounds depth).declarationBody
      rw [Grammar.declaration] at h
      obtain ⟨used, found, moves, clean, faulty⟩ := recovering_ok reads h
      refine ⟨used, found, moves, fun nothing => ?_, faulty⟩
      obtain ⟨stmt, hresult, hclause⟩ := clean nothing
      exact ⟨stmt, hresult, hclause, hclause.sublist⟩

namespace Readings

variable {last : Cursor} {slices : List Slice}

theorem moves (h : Readings rounds depth cursor slices last) :
    cursor.Moves last (slices.flatMap Slice.tokens) (slices.flatMap Slice.found) := by
  induction h with
  | done _ => exact .refl _
  | next _ _ step _ ih => exact step.trans ih

theorem atEnd (h : Readings rounds depth cursor slices last) : last.atEnd = true := by
  induction h with
  | done hend => exact hend
  | next _ _ _ _ ih => exact ih

theorem sound (h : Readings rounds depth cursor slices last) :
    ∀ slice ∈ slices, slice.tokens ≠ [] ∧ slice.Sound := by
  induction h with
  | done _ => exact fun _ member => nomatch member
  | next inside hread step _ ih =>
      intro slice member
      rcases List.mem_cons.mp member with rfl | member
      · obtain ⟨used, found, moves, hsound⟩ := declaration_ok hread
        obtain ⟨more, further, moved, hsome⟩ := declaration_progress inside hread
        obtain ⟨rfl, rfl⟩ := step.unique moves
        obtain ⟨rfl, -⟩ := step.unique moved
        exact ⟨hsome, hsound⟩
      · exact ih slice member

end Readings

/-- Unless something is nested too deeply, the declarations are read one after the other to the end, and what
they yield is collected in order. -/
theorem declarations_readings (remaining : Nat) (statements : Array Stmt) (cursor : Cursor)
    (enough : cursor.ahead.length ≤ remaining)
    (shallow : ∀ error ∈ (declarations rounds depth remaining statements cursor).2.errors,
      error.cause ≠ .nesting) :
    ∃ slices, Readings rounds depth cursor slices
        (declarations rounds depth remaining statements cursor).2 ∧
      (declarations rounds depth remaining statements cursor).1.toList =
        statements.toList ++ slices.filterMap Slice.kept := by
  induction remaining generalizing statements cursor with
  | zero =>
      have hnil : cursor.ahead = [] := List.length_eq_zero_iff.mp (Nat.le_zero.mp enough)
      refine ⟨[], .done ?_, (List.append_nil _).symm⟩
      rw [Cursor.atEnd_eq_true, hnil]
      rfl
  | succ remaining ih =>
      rw [declarations] at shallow ⊢
      by_cases hend : cursor.atEnd = true
      · rw [if_pos hend]
        exact ⟨[], .done hend, (List.append_nil _).symm⟩
      rw [if_neg hend] at shallow ⊢
      rw [Bool.not_eq_true] at hend
      cases hread : declaration rounds depth cursor with
      | error stop next =>
          rw [hread] at shallow
          refine absurd rfl (shallow ⟨.nesting, next.peek⟩ ?_)
          simp [Cursor.report]
      | ok result next =>
          obtain ⟨used, found, step, hsome⟩ := declaration_progress hend hread
          have shorter : next.ahead.length ≤ remaining := by
            have := List.length_pos_iff.mpr hsome
            rw [step.ahead, List.length_append] at enough
            omega
          rw [hread] at shallow
          cases result with
          | none =>
              obtain ⟨slices, hslices, hkept⟩ := ih statements next shorter shallow
              exact ⟨⟨used, found, none⟩ :: slices, .next hend hread step hslices, hkept⟩
          | some stmt =>
              obtain ⟨slices, hslices, hkept⟩ := ih (statements.push stmt) next shorter shallow
              refine ⟨⟨used, found, some stmt⟩ :: slices, .next hend hread step hslices, ?_⟩
              rw [hkept, Array.toList_push, List.append_assoc]
              rfl

theorem eq_of_final {before used rest : List Token} {final : Token}
    (h : before ++ [final] = used ++ rest) (ends : headKind rest = .endOfInput)
    (inside : ∀ token ∈ before, token.kind ≠ .endOfInput)
    (inner : ∀ token ∈ used, token.kind ≠ .endOfInput) (final_kind : final.kind = .endOfInput) :
    used = before ∧ rest = [final] := by
  induction before generalizing used with
  | nil =>
      cases used with
      | nil => exact ⟨rfl, h.symm⟩
      | cons token used =>
          obtain ⟨rfl, -⟩ := List.cons.inj h
          exact absurd final_kind (inner final List.mem_cons_self)
  | cons token before ih =>
      cases used with
      | nil =>
          rw [List.nil_append] at h
          rw [← h, List.cons_append, headKind_cons] at ends
          exact absurd ends (inside token List.mem_cons_self)
      | cons other used =>
          obtain ⟨rfl, htail⟩ := List.cons.inj h
          obtain ⟨rfl, hrest⟩ := ih htail
            (fun other member => inside other (List.mem_cons_of_mem _ member))
            (fun other member => inner other (List.mem_cons_of_mem _ member))
          exact ⟨rfl, hrest⟩

theorem Slice.sentence {slices : List Slice} (clean : slices.flatMap Slice.found = [])
    (sound : ∀ slice ∈ slices, slice.Sound) :
    Sentence (slices.flatMap Slice.tokens) (slices.filterMap Slice.kept) := by
  induction slices with
  | nil => exact ⟨[], fun _ member => (nomatch member), rfl, rfl⟩
  | cons slice rest ih =>
      rw [List.flatMap_cons] at clean
      obtain ⟨hfound, hrest⟩ := List.append_eq_nil_iff.mp clean
      obtain ⟨stmt, hkept, hclause, -⟩ := (sound slice List.mem_cons_self).clean hfound
      obtain ⟨pieces, hpieces, htexts, htrees⟩ :=
        ih hrest fun other member => sound other (List.mem_cons_of_mem _ member)
      refine ⟨(slice.tokens, stmt) :: pieces, ?_, ?_, ?_⟩
      · intro piece member
        rcases List.mem_cons.mp member with rfl | member
        · exact hclause
        · exact hpieces piece member
      · rw [List.flatMap_cons, List.flatMap_cons, htexts]
      · rw [List.map_cons, htrees, List.filterMap_cons_some hkept]

end LoxLang.Grammar

namespace LoxLang

open Grammar

/-- Reading a program cuts its text into slices, one for each declaration that was read. What is kept is what the
grammar derives from the slices without errors; a program without errors is a sentence. -/
theorem Program.ofTokens_slices (depth : Nat) (before : List Token) (final : Token)
    (inside : ∀ token ∈ before, token.kind ≠ .endOfInput)
    (final_kind : final.kind = .endOfInput)
    (shallow : ∀ error ∈ (ofTokens depth (before ++ [final])).errors,
      error.cause ≠ .nesting) :
    ∃ (slices : List Slice) (last : Cursor),
      Readings (before ++ [final]).length depth ⟨before ++ [final], #[]⟩ slices last ∧
      last.ahead = [final] ∧
      slices.flatMap Slice.tokens = before ∧
      (∀ slice ∈ slices, slice.tokens ≠ [] ∧ slice.Sound) ∧
      (ofTokens depth (before ++ [final])).statements = slices.filterMap Slice.kept ∧
      (ofTokens depth (before ++ [final])).errors = slices.flatMap Slice.found ∧
      ((ofTokens depth (before ++ [final])).errors = [] →
        Sentence before (ofTokens depth (before ++ [final])).statements) := by
  obtain ⟨slices, hslices, hkept⟩ := declarations_readings
    (before ++ [final]).length #[] ⟨before ++ [final], #[]⟩ (Nat.le_refl _)
    fun error member => shallow error (Array.mem_toList_iff.mpr member)
  have moves := hslices.moves
  have hsound := hslices.sound
  obtain ⟨htokens, hlast⟩ := eq_of_final moves.ahead
    (Cursor.atEnd_eq_true.mp hslices.atEnd) inside moves.inner final_kind
  have hstatements : (ofTokens depth (before ++ [final])).statements =
      slices.filterMap Slice.kept := hkept
  have herrors : (ofTokens depth (before ++ [final])).errors =
      slices.flatMap Slice.found := moves.errors
  refine ⟨slices, _, hslices, hlast, htokens, hsound, hstatements, herrors, fun clean => ?_⟩
  rw [hstatements, ← htokens]
  exact Slice.sentence (herrors.symm.trans clean) fun slice member => (hsound slice member).2

/-- A statement after a stray semicolon. -/
def strayText : List Token :=
  [⟨.semicolon, ";", .none, 1⟩, ⟨.print, "print", .none, 1⟩, ⟨.nil, "nil", .none, 1⟩,
    ⟨.semicolon, ";", .none, 1⟩]

theorem Program.ofTokens_slices_stray :
    ∃ slices : List Slice, slices.flatMap Slice.tokens = strayText ∧
      (∀ slice ∈ slices, slice.tokens ≠ [] ∧ slice.Sound) ∧
      slices.filterMap Slice.kept = [.print (.literal .nil)] := by
  obtain ⟨slices, -, -, -, htokens, hsound, hstatements, -⟩ :=
    ofTokens_slices 16 strayText (.final 1) (by decide) rfl (by decide)
  exact ⟨slices, htokens, hsound, hstatements.symm⟩

end LoxLang
