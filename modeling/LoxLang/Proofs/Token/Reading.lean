import LoxLang.Proofs.Token.Munch
import LoxLang.Token.Reading

/-!
What is read of a text, piece by piece. Symbols, words, numbers and strings are its tokens, in order; pieces that are
errors are told; each has the line on which it ends.
-/

namespace LoxLang

/-! ## Pieces read -/

/-- The kind and the literal of the token that a piece is. -/
inductive Piece.Means : Piece → Token.Kind → Token.Literal → Prop
  | symbol {kind : Token.Kind} {text : List Char} : Means ⟨.symbol kind, text⟩ kind .none
  | keyword {text : List Char} {kind : Token.Kind} :
      (String.ofList text, kind) ∈ Token.keywords → Means ⟨.word, text⟩ kind .none
  | identifier {text : List Char} :
      (∀ kind, (String.ofList text, kind) ∉ Token.keywords) → Means ⟨.word, text⟩ .identifier .none
  | number {text : List Char} : Means ⟨.number, text⟩ .number (.number (readNumber text))
  | string {body : List Char} :
      Means ⟨.string, '\x22' :: (body ++ ['\x22'])⟩ .string (.text (.ofList body))

/-- What is told of a piece that is an error. -/
inductive Piece.Fails : Piece → (message : String) → Prop
  | stray {text : List Char} : Fails ⟨.stray, text⟩ "Unexpected character."
  | unclosed {text : List Char} : Fails ⟨.unclosed, text⟩ "Unterminated string."

def Piece.IsLayout (piece : Piece) : Prop :=
  piece.form = .comment ∨ piece.form = .blank ∨ piece.form = .newline

/-- The line that a text ends on. -/
def lastLine (text : List Char) : Nat :=
  1 + text.count '\n'

/-- The tokens and errors of pieces that stand behind a text. -/
inductive Reads : (before : List Char) → List Piece → List Token → List ScanError → Prop
  | nil {before : List Char} : Reads before [] [.final (lastLine before)] []
  | token {before : List Char} {piece : Piece} {pieces : List Piece} {tokens : List Token}
      {errors : List ScanError} {kind : Token.Kind} {literal : Token.Literal} :
      piece.Means kind literal → Reads (before ++ piece.text) pieces tokens errors →
      Reads before (piece :: pieces)
        (⟨kind, .ofList piece.text, literal, lastLine (before ++ piece.text)⟩ :: tokens) errors
  | error {before : List Char} {piece : Piece} {pieces : List Piece} {tokens : List Token}
      {error : ScanError} {errors : List ScanError} {message : String} :
      piece.Fails message →
      error.diagnostic = ⟨.scan, some (lastLine (before ++ piece.text)), message, "", none⟩ →
      Reads (before ++ piece.text) pieces tokens errors →
      Reads before (piece :: pieces) tokens (error :: errors)
  | layout {before : List Char} {piece : Piece} {pieces : List Piece} {tokens : List Token}
      {errors : List ScanError} :
      piece.IsLayout → Reads (before ++ piece.text) pieces tokens errors →
      Reads before (piece :: pieces) tokens errors

/-! ## Kinds -/

theorem Token.Kind.ofWord_of_mem {word : String} {kind : Token.Kind}
    (known : (word, kind) ∈ Token.keywords) : ofWord word = kind := by
  simp only [keywords, List.mem_cons, Prod.mk.injEq, List.not_mem_nil, or_false] at known
  rcases known with h | h | h | h | h | h | h | h | h | h | h | h | h | h | h | h | h | h
  all_goals
    obtain ⟨rfl, rfl⟩ := h
    decide

theorem Token.Kind.ofWord_of_notMem {word : String}
    (unknown : ∀ kind, (word, kind) ∉ Token.keywords) : ofWord word = .identifier := by
  have nothing : keywords.lookup word = none := by
    cases found : keywords.lookup word with
    | none => rfl
    | some kind =>
        obtain ⟨before, after, split, -⟩ := List.lookup_eq_some_iff.mp found
        exact absurd (split ▸ List.mem_append_right _ List.mem_cons_self) (unknown kind)
  rw [ofWord, nothing]
  rfl

theorem Piece.means_word (text : List Char) :
    Piece.Means ⟨.word, text⟩ (.ofWord (.ofList text)) .none := by
  by_cases known : ∃ kind, (String.ofList text, kind) ∈ Token.keywords
  · obtain ⟨kind, member⟩ := known
    rw [Token.Kind.ofWord_of_mem member]
    exact .keyword member
  · have unknown (kind : Token.Kind) : (String.ofList text, kind) ∉ Token.keywords :=
      fun member => known ⟨kind, member⟩
    rw [Token.Kind.ofWord_of_notMem unknown]
    exact .identifier unknown

/-- The token that ends a text is no piece of it. -/
theorem Piece.Means.ne_endOfInput {form : Piece.Form} {text : List Char} {kind : Token.Kind}
    {literal : Token.Literal} (h : Piece.Means ⟨form, text⟩ kind literal)
    (spells : Piece.Spells form text) : kind ≠ .endOfInput := by
  have noSymbol : ∀ entry ∈ Piece.symbols, entry.2 ≠ .endOfInput := by decide
  have noKeyword : ∀ entry ∈ Token.keywords, entry.2 ≠ .endOfInput := by decide
  cases h with
  | symbol =>
      cases spells with
      | symbol member => exact noSymbol _ member
  | keyword member => exact noKeyword _ member
  | identifier | number | string => exact nofun

/-! ## Reading -/

/-- What a piece contributes is what it means. -/
theorem Piece.Spells.reading {form : Piece.Form} {text : List Char}
    (h : Piece.Spells form text) :
    (∃ kind literal, Piece.Means ⟨form, text⟩ kind literal ∧
      Piece.reading ⟨form, text⟩ = .token kind literal) ∨
    Piece.IsLayout ⟨form, text⟩ ∧ Piece.reading ⟨form, text⟩ = .skipped := by
  cases h with
  | symbol _ => exact .inl ⟨_, _, .symbol, rfl⟩
  | comment _ => exact .inr ⟨.inl rfl, rfl⟩
  | @string body _ =>
      refine .inl ⟨_, _, .string, ?_⟩
      simp only [Piece.reading, List.drop_succ_cons, List.drop_zero, List.dropLast_concat]
  | whole _ | fraction _ _ => exact .inl ⟨_, _, .number, rfl⟩
  | word _ _ => exact .inl ⟨_, _, Piece.means_word _, rfl⟩
  | blank _ => exact .inr ⟨.inr (.inl rfl), rfl⟩
  | newline => exact .inr ⟨.inr (.inr rfl), rfl⟩

theorem lastLine_append (before : List Char) (piece : Piece) :
    lastLine before + piece.newlines = lastLine (before ++ piece.text) := by
  rw [lastLine, lastLine, List.count_append, Piece.newlines, Nat.add_assoc]

namespace Scan

variable {before : List Char} {piece : Piece} {tokens : List Token} {errors : List ScanError}

theorem add_of_token {kind : Token.Kind} {literal : Token.Literal}
    (h : piece.reading = .token kind literal) :
    add ⟨lastLine before, tokens, errors⟩ piece =
      ⟨lastLine (before ++ piece.text),
        ⟨kind, .ofList piece.text, literal, lastLine (before ++ piece.text)⟩ :: tokens, errors⟩ := by
  simp only [add, h, lastLine_append]

theorem add_of_error {cause : ScanError.Cause} (h : piece.reading = .error cause) :
    add ⟨lastLine before, tokens, errors⟩ piece =
      ⟨lastLine (before ++ piece.text), tokens,
        ⟨cause, lastLine (before ++ piece.text)⟩ :: errors⟩ := by
  simp only [add, h, lastLine_append]

theorem add_of_skipped (h : piece.reading = .skipped) :
    add ⟨lastLine before, tokens, errors⟩ piece =
      ⟨lastLine (before ++ piece.text), tokens, errors⟩ := by
  simp only [add, h, lastLine_append]

end Scan

/-- Reading pieces that stand behind a text adds their tokens and errors, and counts their lines. -/
def Accounts (before : List Char) (pieces : List Piece) (text : List Char) : Prop :=
  ∀ tokens errors, ∃ found causes,
    pieces.foldl Scan.add ⟨lastLine before, tokens, errors⟩ =
      ⟨lastLine (before ++ text), found.reverse ++ tokens, causes.reverse ++ errors⟩ ∧
    Reads before pieces (found ++ [.final (lastLine (before ++ text))]) causes ∧
    ∀ token ∈ found, token.kind ≠ .endOfInput

namespace Accounts

variable {before text : List Char} {piece : Piece} {pieces : List Piece}

theorem nil (before : List Char) : Accounts before [] [] := by
  intro tokens errors
  refine ⟨[], [], ?_, ?_, nofun⟩
  · rw [List.append_nil]
    rfl
  · rw [List.append_nil]
    exact .nil

theorem token {kind : Token.Kind} {literal : Token.Literal} (means : piece.Means kind literal)
    (reading : piece.reading = .token kind literal) (inner : kind ≠ .endOfInput)
    (later : Accounts (before ++ piece.text) pieces text) :
    Accounts before (piece :: pieces) (piece.text ++ text) := by
  intro tokens errors
  rw [List.foldl_cons, Scan.add_of_token reading, ← List.append_assoc]
  obtain ⟨found, causes, same, reads, ends⟩ := later (_ :: tokens) errors
  refine ⟨_ :: found, causes, ?_, .token means reads, List.forall_mem_cons.mpr ⟨inner, ends⟩⟩
  rw [same, List.reverse_cons, List.append_cons]

theorem error {cause : ScanError.Cause} (fails : piece.Fails cause.message)
    (reading : piece.reading = .error cause)
    (later : Accounts (before ++ piece.text) pieces text) :
    Accounts before (piece :: pieces) (piece.text ++ text) := by
  intro tokens errors
  rw [List.foldl_cons, Scan.add_of_error reading, ← List.append_assoc]
  obtain ⟨found, causes, same, reads, ends⟩ := later tokens (_ :: errors)
  let here : ScanError := ⟨cause, lastLine (before ++ piece.text)⟩
  refine ⟨found, here :: causes, ?_, .error fails rfl reads, ends⟩
  rw [same, List.reverse_cons, List.append_cons]

theorem layout (isLayout : piece.IsLayout) (reading : piece.reading = .skipped)
    (later : Accounts (before ++ piece.text) pieces text) :
    Accounts before (piece :: pieces) (piece.text ++ text) := by
  intro tokens errors
  rw [List.foldl_cons, Scan.add_of_skipped reading, ← List.append_assoc]
  obtain ⟨found, causes, same, reads, ends⟩ := later tokens errors
  exact ⟨found, causes, same, .layout isLayout reads, ends⟩

end Accounts

theorem accounts_of_munches {pieces : List Piece} {text : List Char}
    (h : Piece.Munches pieces text) (before : List Char) : Accounts before pieces text := by
  induction h generalizing before with
  | nil => exact .nil before
  | @longest form text rest pieces spells _ _ ih =>
      have later := ih (before ++ text)
      rcases spells.reading with ⟨kind, literal, means, reading⟩ | ⟨isLayout, reading⟩
      · exact .token means reading (means.ne_endOfInput spells) later
      · exact .layout isLayout reading later
  | @stray first rest pieces _ _ _ ih =>
      have fails : Piece.Fails ⟨.stray, [first]⟩ ScanError.Cause.unexpectedCharacter.message := .stray
      exact .error fails rfl (ih _)
  | @unclosed body _ _ =>
      have fails : Piece.Fails ⟨.unclosed, '\x22' :: body⟩
          ScanError.Cause.unterminatedString.message := .unclosed
      have all := Accounts.error fails rfl (.nil (before ++ '\x22' :: body))
      rwa [List.append_nil] at all

theorem Piece.Munches.flatMap_text {pieces : List Piece} {text : List Char}
    (h : Piece.Munches pieces text) :
    pieces.flatMap Piece.text = text ∧ ∀ piece ∈ pieces, piece.text ≠ [] := by
  induction h with
  | nil => exact ⟨rfl, nofun⟩
  | longest spells _ _ ih =>
      exact ⟨by rw [List.flatMap_cons, ih.1], List.forall_mem_cons.mpr ⟨spells.ne_nil, ih.2⟩⟩
  | stray _ _ _ ih =>
      exact ⟨by rw [List.flatMap_cons, ih.1]; rfl,
        List.forall_mem_cons.mpr ⟨List.cons_ne_nil _ _, ih.2⟩⟩
  | unclosed _ _ =>
      exact ⟨List.append_nil _, List.forall_mem_cons.mpr ⟨List.cons_ne_nil _ _, nofun⟩⟩

/-- The pieces of a text are read as its tokens and errors, and only the last token ends the text. -/
theorem Tokens.reads_ofText (text : String) :
    Reads [] (Piece.cut text.toList) (ofText text).tokens (ofText text).errors ∧
      ∃ found, (ofText text).tokens = found ++ [.final (lastLine text.toList)] ∧
        ∀ token ∈ found, token.kind ≠ .endOfInput := by
  have munches := Piece.munches_cut text.toList
  obtain ⟨found, causes, same, reads, inner⟩ := accounts_of_munches munches [] [] []
  have result : ofText text = ⟨found ++ [.final (lastLine text.toList)], causes⟩ := by
    change Tokens.mk _ _ = _
    have start : Scan.start = ⟨lastLine [], [], []⟩ := rfl
    rw [start, same]
    simp
  rw [result]
  exact ⟨reads, found, rfl, inner⟩

/-- Every text is cut into pieces that are not empty and make up the text, each the longest with which the text can
begin at its place, or one stray character, or all that is behind a mark that is not closed. Its tokens are
the symbols, words, numbers and strings among the pieces, in order, and then one token that ends it; its
errors are the other pieces that are no layout. Each has the line on which its piece ends. -/
theorem Tokens.ofText_munches (text : String) :
    Piece.Munches (Piece.cut text.toList) text.toList ∧
      (Piece.cut text.toList).flatMap Piece.text = text.toList ∧
      (∀ piece ∈ Piece.cut text.toList, piece.text ≠ []) ∧
      Reads [] (Piece.cut text.toList) (ofText text).tokens (ofText text).errors ∧
      ∃ found, (ofText text).tokens = found ++ [.final (lastLine text.toList)] ∧
        ∀ token ∈ found, token.kind ≠ .endOfInput := by
  have munches := Piece.munches_cut text.toList
  obtain ⟨covers, nonempty⟩ := munches.flatMap_text
  exact ⟨munches, covers, nonempty, reads_ofText text⟩

end LoxLang
