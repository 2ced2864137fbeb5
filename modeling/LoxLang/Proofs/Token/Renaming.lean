import LoxLang.Proofs.Token.Joining

/-!
Texts with another name in them. Where an identifier is put in place of another one, here and there in a text, the
tokens of the text are the same but for these names.
-/

namespace LoxLang

/-- A word that is no keyword. -/
structure IsIdentifier (name : String) : Prop where
  word : Piece.IsWord name.toList
  unreserved : ∀ kind, (name, kind) ∉ Token.keywords

def Token.renamed (name : String) : Token → Token
  | ⟨kind, _, literal, line⟩ => ⟨kind, name, literal, line⟩

/-- The same word, or the new name in place of the old one. -/
inductive Token.Renames (old new : String) : Token → Token → Prop
  | same {token : Token} : Renames old new token token
  | renamed {token : Token} : token.lexeme = old → Renames old new token (token.renamed new)

inductive Piece.Renames (old new : String) : Piece → Piece → Prop
  | same {piece : Piece} : Renames old new piece piece
  | renamed : Renames old new ⟨.word, old.toList⟩ ⟨.word, new.toList⟩

namespace Piece

variable {piece : Piece} {pieces : List Piece} {text : List Char} {old new : String}

theorem Renames.restates (isNew : IsIdentifier new) {other : Piece} (h : piece.Renames old new other) :
    Restates piece other := by
  cases h with
  | same => exact .same
  | renamed => exact .word isNew.word

theorem IsWord.count_newline (h : IsWord text) : text.count '\n' = 0 := by
  obtain ⟨first, rest, rfl, letter, inside⟩ := h
  have noLetter : isLetter '\n' = false := by decide
  have noWord : isWordCharacter '\n' = false := by decide
  refine List.count_eq_zero.mpr fun member => ?_
  rcases List.mem_cons.mp member with same | member
  · rw [← same, noLetter] at letter
    cases letter
  · have word := inside _ member
    rw [noWord] at word
    cases word

/-- What begins with a letter is cut as a word. -/
theorem Cuts.form_of_isWord (cuts : Cuts pieces text) (member : piece ∈ pieces)
    (word : IsWord piece.text) : piece.form = .word := by
  induction cuts with
  | nil => cases member
  | cons begins _ ih =>
      rcases List.mem_cons.mp member with rfl | member
      · obtain ⟨first, rest, same, letter, -⟩ := word
        obtain ⟨rfl, -⟩ := List.cons.inj same
        rw [begin_letter letter] at begins
        exact (Prod.mk.inj begins).1.symm
      · exact ih member

theorem Means.reading {kind : Token.Kind} {literal : Token.Literal} (h : piece.Means kind literal) :
    piece.reading = .token kind literal := by
  cases h with
  | symbol | number => rfl
  | keyword member =>
      rw [← Token.Kind.ofWord_of_mem member]
      rfl
  | identifier unknown =>
      rw [← Token.Kind.ofWord_of_notMem unknown]
      rfl
  | string => simp only [Piece.reading, List.drop_succ_cons, List.drop_zero, List.dropLast_concat]

theorem reading_of_isIdentifier (h : IsIdentifier new) :
    reading ⟨.word, new.toList⟩ = .token .identifier .none := by
  rw [← Token.Kind.ofWord_of_notMem h.unreserved, Piece.reading, String.ofList_toList]

theorem Means.isIdentifier {literal : Token.Literal} (h : piece.Means .identifier literal)
    (munches : Munches pieces text) (member : piece ∈ pieces) :
    IsIdentifier (.ofList piece.text) := by
  have noSymbol : ∀ entry ∈ symbols, entry.2 ≠ .identifier := by decide
  have noKeyword : ∀ entry ∈ Token.keywords, entry.2 ≠ .identifier := by decide
  cases h with
  | symbol =>
      cases munches.spells member ⟨nofun, nofun⟩ with
      | symbol known => exact absurd rfl (noSymbol _ known)
  | keyword known => exact absurd rfl (noKeyword _ known)
  | identifier unknown =>
      refine ⟨?_, unknown⟩
      rw [String.toList_ofList]
      cases munches.spells member ⟨nofun, nofun⟩ with
      | word letter inside => exact ⟨_, _, rfl, letter, inside⟩

end Piece

/-- The pieces behind a text are read as these tokens, the last of which ends the text. -/
def Yields (before : List Char) (pieces : List Piece) (tokens : List Token) : Prop :=
  ∀ earlier, ∃ line found,
    pieces.foldl Scan.add ⟨lastLine before, earlier, []⟩ = ⟨line, found.reverse ++ earlier, []⟩ ∧
      tokens = found ++ [.final line]

namespace Yields

variable {before other : List Char} {piece : Piece} {pieces : List Piece} {tokens : List Token}

theorem nil (before : List Char) : Yields before [] [.final (lastLine before)] :=
  fun _ => ⟨_, [], rfl, rfl⟩

theorem token {kind : Token.Kind} {literal : Token.Literal}
    (h : Yields (before ++ piece.text) pieces tokens) (reading : piece.reading = .token kind literal) :
    Yields before (piece :: pieces)
      (⟨kind, .ofList piece.text, literal, lastLine (before ++ piece.text)⟩ :: tokens) := by
  intro earlier
  rw [List.foldl_cons, Scan.add_of_token reading]
  obtain ⟨line, found, scan, all⟩ := h (_ :: earlier)
  exact ⟨line, _ :: found, by rw [scan, List.reverse_cons, List.append_cons], congrArg _ all⟩

theorem layout (h : Yields (before ++ piece.text) pieces tokens) (reading : piece.reading = .skipped) :
    Yields before (piece :: pieces) tokens := by
  intro earlier
  rw [List.foldl_cons, Scan.add_of_skipped reading]
  exact h earlier

theorem of_lastLine (h : Yields before pieces tokens) (line : lastLine other = lastLine before) :
    Yields other pieces tokens := by
  unfold Yields
  rw [line]
  exact h

end Yields

namespace Reads

variable {before : List Char} {pieces : List Piece} {tokens others : List Token}
  {errors : List ScanError} {token : Token} {old new : String}

theorem exists_piece (h : Reads before pieces tokens errors) (member : token ∈ tokens)
    (inner : token.kind ≠ .endOfInput) :
    ∃ piece ∈ pieces, piece.Means token.kind token.literal ∧
      token.lexeme = .ofList piece.text := by
  have later {piece : Piece} {pieces : List Piece}
      (found : ∃ piece ∈ pieces, piece.Means token.kind token.literal ∧
        token.lexeme = .ofList piece.text) :
      ∃ other ∈ piece :: pieces, other.Means token.kind token.literal ∧
        token.lexeme = .ofList other.text := by
    obtain ⟨other, member, found⟩ := found
    exact ⟨other, List.mem_cons_of_mem _ member, found⟩
  induction h with
  | nil =>
      cases List.mem_singleton.mp member
      exact absurd rfl inner
  | token means _ ih =>
      rcases List.mem_cons.mp member with rfl | member
      · exact ⟨_, List.mem_cons_self, means, rfl⟩
      · exact later (ih member)
  | error _ _ _ ih | layout _ _ ih => exact later (ih member)

/-- Tokens with other names are those of pieces with other names. -/
theorem renamed (h : Reads before pieces tokens errors) (clean : errors = [])
    (isOld : IsIdentifier old) (isNew : IsIdentifier new)
    (words : ∀ piece ∈ pieces, piece.text = old.toList → piece.form = .word)
    (same : List.Forall₂ (Token.Renames old new) tokens others) :
    ∃ pieces', List.Forall₂ (Piece.Renames old new) pieces pieces' ∧
      Yields before pieces' others := by
  induction h generalizing others with
  | @nil before =>
      obtain _ | ⟨last, ⟨⟩⟩ := same
      cases last with
      | same => exact ⟨[], .nil, .nil before⟩
      | renamed named =>
          obtain ⟨_, _, absurd, -⟩ := named ▸ isOld.word
          cases absurd
  | @token before piece pieces tokens errors kind literal means _ ih =>
      obtain _ | ⟨first, rest⟩ := same
      obtain ⟨pieces', alike, yields⟩ :=
        ih clean (fun other member => words other (List.mem_cons_of_mem _ member)) rest
      cases first with
      | same => exact ⟨piece :: pieces', .cons .same alike, yields.token means.reading⟩
      | renamed named =>
          have text : piece.text = old.toList := by rw [← named, String.toList_ofList]
          have form := words piece List.mem_cons_self text
          obtain ⟨_, _⟩ := piece
          subst text form
          cases means.reading.symm.trans (Piece.reading_of_isIdentifier isOld)
          have line : lastLine (before ++ new.toList) = lastLine (before ++ old.toList) := by
            rw [lastLine, lastLine, List.count_append, List.count_append, isOld.word.count_newline,
              isNew.word.count_newline]
          have all := (yields.of_lastLine line).token (Piece.reading_of_isIdentifier isNew)
          rw [line, String.ofList_toList] at all
          exact ⟨⟨.word, new.toList⟩ :: pieces', .cons .renamed alike, all⟩
  | error _ _ _ _ => cases clean
  | @layout before piece pieces tokens errors isLayout _ ih =>
      obtain ⟨pieces', alike, yields⟩ :=
        ih clean (fun other member => words other (List.mem_cons_of_mem _ member)) same
      have reading : piece.reading = .skipped := by
        rcases isLayout with form | form | form <;> rw [Piece.reading, form]
      exact ⟨piece :: pieces', .cons .same alike, yields.layout reading⟩

end Reads

namespace Tokens

variable {source old new : String} {others : List Token}

theorem isIdentifier_of_mem {token : Token} (member : token ∈ (ofText source).tokens)
    (kind : token.kind = .identifier) : IsIdentifier token.lexeme := by
  have munches := Piece.munches_cut source.toList
  have inner : token.kind ≠ .endOfInput := by
    rw [kind]
    nofun
  obtain ⟨piece, inside, means, lexeme⟩ := (reads_ofText source).1.exists_piece member inner
  rw [kind] at means
  rw [lexeme]
  exact means.isIdentifier munches inside

/-- The tokens of a text with other names are those of a text in which words are replaced, and nothing else. -/
theorem exists_renamed (clean : (ofText source).errors = []) (isOld : IsIdentifier old)
    (isNew : IsIdentifier new)
    (same : List.Forall₂ (Token.Renames old new) (ofText source).tokens others) :
    ∃ text : String,
      List.Forall₂ (Piece.Renames old new) (Piece.cut source.toList) (Piece.cut text.toList) ∧
      ofText text = ⟨others, []⟩ := by
  have cuts := Piece.cuts_cut source.toList
  have words (piece : Piece) (member : piece ∈ Piece.cut source.toList)
      (text : piece.text = old.toList) : piece.form = .word :=
    cuts.form_of_isWord member (text ▸ isOld.word)
  obtain ⟨pieces, alike, yields⟩ := (reads_ofText source).1.renamed clean isOld isNew words same
  have closed := closed_of_errors clean
  have again := cuts.restate closed (alike.imp fun _ _ => Piece.Renames.restates isNew)
    ⟨fun _ _ no => no, id⟩ .nil
  rw [List.append_nil, List.append_nil] at again
  have pieces_eq : Piece.cut (String.ofList (pieces.flatMap Piece.text)).toList = pieces := by
    rw [String.toList_ofList, again.cut_eq]
  refine ⟨.ofList (pieces.flatMap Piece.text), pieces_eq.symm ▸ alike, ?_⟩
  obtain ⟨line, found, scan, all⟩ := yields []
  have start : Scan.start = ⟨lastLine [], [], []⟩ := rfl
  unfold ofText
  rw [pieces_eq, start, scan, all]
  simp

end Tokens

end LoxLang
