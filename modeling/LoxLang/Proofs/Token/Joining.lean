import LoxLang.Proofs.Token.Following
import LoxLang.Proofs.Token.Reading

/-!
Texts below one another. The tokens of a text that stands below another one are its own tokens, moved down by as many
lines as there are above it.
-/

namespace LoxLang

def Token.moved (lines : Nat) : Token → Token
  | ⟨kind, lexeme, literal, line⟩ => ⟨kind, lexeme, literal, line + lines⟩

def ScanError.moved (lines : Nat) : ScanError → ScanError
  | ⟨cause, line⟩ => ⟨cause, line + lines⟩

/-- A text, the end of its last line, and another text. -/
def below (first second : String) : String :=
  first ++ "\n" ++ second

namespace Scan

variable {scan before : Scan} {pieces : List Piece}

/-- What is read of a text, and then of another one below it. -/
def behind : (before scan : Scan) → Scan
  | ⟨lines, tokens, errors⟩, ⟨line, found, causes⟩ =>
      ⟨line + lines, found.map (Token.moved lines) ++ tokens,
        causes.map (ScanError.moved lines) ++ errors⟩

theorem add_behind (before scan : Scan) (piece : Piece) :
    (before.behind scan).add piece = before.behind (scan.add piece) := by
  have line : scan.line + before.line + piece.newlines = scan.line + piece.newlines + before.line :=
    Nat.add_right_comm _ _ _
  cases reading : piece.reading with
  | token _ _ | error _ => simp only [add, behind, reading, line]; rfl
  | skipped => simp only [add, behind, reading, line]

theorem foldl_behind (before scan : Scan) (pieces : List Piece) :
    pieces.foldl add (before.behind scan) = before.behind (pieces.foldl add scan) := by
  induction pieces generalizing scan with
  | nil => rfl
  | cons piece pieces ih => rw [List.foldl_cons, List.foldl_cons, add_behind, ih]

theorem line_foldl (scan : Scan) (pieces : List Piece) :
    (pieces.foldl add scan).line = scan.line + (pieces.flatMap Piece.text).count '\n' := by
  induction pieces generalizing scan with
  | nil => rfl
  | cons piece pieces ih =>
      have line : (scan.add piece).line = scan.line + piece.text.count '\n' := by
        cases reading : piece.reading with
        | token _ _ | error _ | skipped => simp only [add, reading]; rfl
      rw [List.foldl_cons, ih, line, List.flatMap_cons, List.count_append, Nat.add_assoc]

/-- Where no error tells of an open string, no string is left open. -/
theorem closed_of_terminated {scan : Scan}
    (terminated : ∀ error ∈ (pieces.foldl add scan).errors, error.cause ≠ .unterminatedString) :
    (∀ error ∈ scan.errors, error.cause ≠ .unterminatedString) ∧
      ∀ piece ∈ pieces, piece.form ≠ .unclosed := by
  induction pieces generalizing scan with
  | nil => exact ⟨terminated, nofun⟩
  | cons piece pieces ih =>
      obtain ⟨before, later⟩ := ih terminated
      cases reading : piece.reading with
      | error cause =>
          simp only [add, reading] at before
          obtain ⟨here, earlier⟩ := List.forall_mem_cons.mp before
          refine ⟨earlier, List.forall_mem_cons.mpr ⟨fun unclosed => here ?_, later⟩⟩
          simp only [Piece.reading, unclosed] at reading
          exact (Piece.Reading.error.inj reading).symm
      | token _ _ | skipped =>
          simp only [add, reading] at before
          refine ⟨before, List.forall_mem_cons.mpr ⟨fun unclosed => ?_, later⟩⟩
          simp only [Piece.reading, unclosed] at reading
          cases reading

end Scan

theorem Tokens.closed_of_terminated {text : String}
    (terminated : ∀ error ∈ (ofText text).errors, error.cause ≠ .unterminatedString) :
    ∀ piece ∈ Piece.cut text.toList, piece.form ≠ .unclosed :=
  (Scan.closed_of_terminated fun error member =>
    terminated error (List.mem_reverse.mpr member)).2

theorem Tokens.closed_of_errors {text : String} (clean : (ofText text).errors = []) :
    ∀ piece ∈ Piece.cut text.toList, piece.form ≠ .unclosed :=
  closed_of_terminated (by rw [clean]; exact nofun)

/-- A text in which every string is closed is cut as by itself where another text is below it. -/
theorem Piece.cut_below {first second : String}
    (closed : ∀ piece ∈ cut first.toList, piece.form ≠ .unclosed) :
    cut (below first second).toList =
      cut first.toList ++ ⟨.newline, ['\n']⟩ :: cut second.toList := by
  have newline : Cuts (⟨.newline, ['\n']⟩ :: cut second.toList) ('\n' :: ([] ++ second.toList)) :=
    .cons rfl (cuts_cut _)
  have ends : Ends [] ('\n' :: ([] ++ second.toList)) := by
    refine ⟨fun question asked _ => ?_, ?_⟩
    · have no : ∀ question ∈ questions, question '\n' = false := by decide
      exact no question asked
    · rintro ⟨_, _, same, -⟩
      exact absurd (List.cons.inj same).1 (by decide)
  have all := (cuts_cut first.toList).restate closed (List.forall₂_same.mpr fun _ _ => .same) ends newline
  rw [flatMap_text_cut] at all
  rw [← all.cut_eq]
  simp [below]

/-- Below a text in which every string is closed another text has its own tokens and errors, further down. -/
theorem Tokens.ofText_below_of_closed {first second : String}
    (closed : ∀ piece ∈ Piece.cut first.toList, piece.form ≠ .unclosed) :
    ofText (below first second) =
      let lines := lastLine first.toList
      ⟨(ofText first).tokens.dropLast ++ (ofText second).tokens.map (Token.moved lines),
        (ofText first).errors ++ (ofText second).errors.map (ScanError.moved lines)⟩ := by
  have line := Scan.line_foldl .start (Piece.cut first.toList)
  rw [Piece.flatMap_text_cut] at line
  have newline : ((Piece.cut first.toList).foldl Scan.add .start).add ⟨.newline, ['\n']⟩ =
      ((Piece.cut first.toList).foldl Scan.add .start).behind .start := by
    generalize (Piece.cut first.toList).foldl Scan.add .start = scan
    exact congrArg (Scan.mk · scan.tokens scan.errors) (Nat.add_comm _ _)
  have lines : Scan.start.line = 1 := rfl
  unfold ofText
  rw [Piece.cut_below closed, List.foldl_append, List.foldl_cons, newline, Scan.foldl_behind]
  generalize (Piece.cut first.toList).foldl Scan.add .start = above at line ⊢
  generalize (Piece.cut second.toList).foldl Scan.add .start = found
  obtain ⟨_, tokens, errors⟩ := above
  subst line
  simp [Scan.behind, Token.moved, Token.final, lines, lastLine]

theorem Tokens.ofText_below {first second : String} (clean : (ofText first).errors = []) :
    ofText (below first second) =
      let lines := 1 + first.toList.count '\n'
      ⟨(ofText first).tokens.dropLast ++ (ofText second).tokens.map (Token.moved lines),
        (ofText second).errors.map (ScanError.moved lines)⟩ := by
  rw [ofText_below_of_closed (closed_of_errors clean), clean]
  rfl

/-- A line break keeps texts apart. If every string in the first text is closed, whatever else is wrong with it, then
the tokens of both, one below the other, are those of the first one, without the token that ends it, and those of
the second one, further down; likewise for the errors. -/
theorem Tokens.ofText_apart (first second : String)
    (terminated : ∀ error ∈ (ofText first).errors, error.cause.message ≠ "Unterminated string.") :
    ∃ found, (ofText first).tokens = found ++ [.final (1 + first.toList.count '\n')] ∧
      (∀ token ∈ found, token.kind ≠ .endOfInput) ∧
      (ofText (first ++ "\n" ++ second)).tokens =
        found ++ (ofText second).tokens.map (Token.moved (1 + first.toList.count '\n')) ∧
      (ofText (first ++ "\n" ++ second)).errors =
        (ofText first).errors ++
          (ofText second).errors.map (ScanError.moved (1 + first.toList.count '\n')) := by
  have closed : ∀ piece ∈ Piece.cut first.toList, piece.form ≠ .unclosed := by
    apply closed_of_terminated
    intro error member unterminated
    exact terminated error member (by rw [unterminated]; rfl)
  have joined : ofText (first ++ "\n" ++ second) = _ := ofText_below_of_closed closed
  obtain ⟨-, found, tokens, inner⟩ := reads_ofText first
  refine ⟨found, tokens, inner, ?_, ?_⟩
  · rw [joined, tokens, List.dropLast_concat]
    rfl
  · rw [joined]
    rfl

/-- A stray character and an unclosed string, on either side of a comment that the line ends. -/
theorem Tokens.ofText_apart_stray :
    ∃ found, (ofText "@\n1. // <").tokens = found ++ [.final 2] ∧
      (∀ token ∈ found, token.kind ≠ .endOfInput) ∧
      (ofText ("@\n1. // <" ++ "\n" ++ "= \x22a")).tokens =
        found ++ (ofText "= \x22a").tokens.map (Token.moved 2) ∧
      (ofText ("@\n1. // <" ++ "\n" ++ "= \x22a")).errors =
        [⟨.unexpectedCharacter, 1⟩] ++ [⟨.unterminatedString, 3⟩] := by
  have above : (ofText "@\n1. // <").errors = [⟨.unexpectedCharacter, 1⟩] := by decide +kernel
  have under : (ofText "= \x22a").errors = [⟨.unterminatedString, 1⟩] := by decide +kernel
  have terminated : ∀ error ∈ (ofText "@\n1. // <").errors,
      error.cause.message ≠ "Unterminated string." := by
    rw [above]
    decide
  have lines : 1 + "@\n1. // <".toList.count '\n' = 2 := by decide
  obtain ⟨found, tokens, inner, all, errors⟩ := ofText_apart "@\n1. // <" "= \x22a" terminated
  rw [lines] at tokens all errors
  rw [above, under] at errors
  exact ⟨found, tokens, inner, all, errors⟩

def blankLines (count : Nat) : String :=
  .ofList (.replicate count '\n')

theorem count_blankLines (count : Nat) : (blankLines count).toList.count '\n' = count := by
  rw [blankLines, String.toList_ofList, List.count_replicate_self]

theorem Tokens.ofText_blankLines (count : Nat) :
    ofText (blankLines count) = ⟨[.final (1 + count)], []⟩ := by
  have skips (scan : Scan) : (List.replicate count ⟨.newline, ['\n']⟩).foldl Scan.add scan =
      ⟨scan.line + count, scan.tokens, scan.errors⟩ := by
    induction count generalizing scan with
    | zero => rfl
    | succ count ih =>
        rw [List.replicate_succ, List.foldl_cons, ih]
        exact congrArg (Scan.mk · scan.tokens scan.errors) (Nat.add_right_comm _ _ _)
  have cuts : Piece.Cuts (.replicate count ⟨.newline, ['\n']⟩) (.replicate count '\n') := by
    clear skips
    induction count with
    | zero => exact .nil
    | succ count ih => exact @Piece.Cuts.cons .newline '\n' [] _ _ rfl ih
  unfold ofText
  rw [blankLines, String.toList_ofList, cuts.cut_eq, skips]
  rfl

end LoxLang
