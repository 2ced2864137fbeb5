import LoxLang.Proofs.Program.WellFormed
import LoxLang.Token.Reading

/-!
The tokens of a text are spelled as their kinds are: `this` and `super` are no identifiers.
-/

namespace LoxLang

/-- What a word is depends on its spelling only. -/
theorem Token.Kind.ofWord_eq (word : String) :
    (ofWord word = .identifier → word ≠ "this" ∧ word ≠ "super") ∧
      (ofWord word = .this → word = "this") ∧ (ofWord word = .super → word = "super") := by
  by_cases hthis : word = "this"
  · subst hthis
    decide
  by_cases hsuper : word = "super"
  · subst hsuper
    decide
  refine ⟨fun _ => ⟨hthis, hsuper⟩, fun hkind => ?_, fun hkind => ?_⟩
  all_goals
    unfold ofWord at hkind
    cases hlookup : keywords.lookup word with
    | none =>
        rw [hlookup] at hkind
        cases hkind
    | some kind =>
        rw [hlookup] at hkind
        cases hkind
        obtain ⟨before, after, hsplit, -⟩ := List.lookup_eq_some_iff.mp hlookup
        have known : (word, _) ∈ keywords := hsplit ▸ List.mem_append_right _ List.mem_cons_self
        simp [keywords] at known
        simp [known] at hthis hsuper

namespace Piece

/-- A symbol is no word. -/
def Form.Plain (form : Form) : Prop :=
  ∀ kind, form = .symbol kind → kind ≠ .identifier ∧ kind ≠ .this ∧ kind ≠ .super

theorem plain_symbol {kind : Token.Kind}
    (h : kind ≠ .identifier ∧ kind ≠ .this ∧ kind ≠ .super) : (Form.symbol kind).Plain := by
  intro other heq
  cases heq
  exact h

theorem plain_withEqual (rest : List Char) {longer shorter : Token.Kind}
    (hlonger : longer ≠ .identifier ∧ longer ≠ .this ∧ longer ≠ .super)
    (hshorter : shorter ≠ .identifier ∧ shorter ≠ .this ∧ shorter ≠ .super) :
    (withEqual rest longer shorter).1.Plain := by
  unfold withEqual
  split
  · exact plain_symbol hlonger
  · exact plain_symbol hshorter

theorem plain_begin (first : Char) (rest : List Char) : (begin first rest).1.Plain := by
  unfold begin
  split
  case h_11 | h_12 | h_13 | h_14 => exact plain_withEqual rest (by decide) (by decide)
  case h_15 =>
    unfold slashForm
    split
    · exact nofun
    · exact plain_symbol (by decide)
  case h_20 =>
    simp only [stringForm]
    split <;> exact nofun
  case h_21 =>
    split
    · exact nofun
    split <;> exact nofun
  case h_16 | h_17 | h_18 | h_19 => exact nofun
  all_goals exact plain_symbol (by decide)

theorem plain_of_mem_cut (text : List Char) : ∀ piece ∈ cut text, piece.form.Plain := by
  induction hlength : text.length using Nat.strongRecOn generalizing text with
  | ind length ih =>
      intro piece member
      cases text with
      | nil =>
          rw [cut_nil] at member
          cases member
      | cons first rest =>
          rw [cut_cons] at member
          rcases List.mem_cons.mp member with rfl | member
          · exact plain_begin first rest
          · refine ih (rest.drop (begin first rest).2).length ?_ _ rfl piece member
            rw [← hlength, List.length_drop, List.length_cons]
            omega

end Piece

theorem Scan.spelled_add {scan : Scan} {piece : Piece} (plain : piece.form.Plain)
    (spelled : ∀ token ∈ scan.tokens, token.Spelled) :
    ∀ token ∈ (scan.add piece).tokens, token.Spelled := by
  obtain ⟨line, tokens, errors⟩ := scan
  obtain ⟨form, text⟩ := piece
  cases form with
  | symbol kind =>
      intro token member
      obtain ⟨nameless, notThis, notSuper⟩ := plain kind rfl
      rcases List.mem_cons.mp member with rfl | member
      · exact ⟨fun h => absurd h nameless, fun h => absurd h notThis, fun h => absurd h notSuper⟩
      · exact spelled token member
  | word =>
      intro token member
      obtain ⟨name, this, super⟩ := Token.Kind.ofWord_eq (.ofList text)
      rcases List.mem_cons.mp member with rfl | member
      · exact ⟨name, this, super⟩
      · exact spelled token member
  | number | string =>
      intro token member
      rcases List.mem_cons.mp member with rfl | member
      · exact ⟨nofun, nofun, nofun⟩
      · exact spelled token member
  | comment | blank | newline | stray | unclosed => exact spelled

theorem Scan.spelled_foldl {pieces : List Piece} {scan : Scan}
    (plain : ∀ piece ∈ pieces, piece.form.Plain)
    (spelled : ∀ token ∈ scan.tokens, token.Spelled) :
    ∀ token ∈ (pieces.foldl Scan.add scan).tokens, token.Spelled := by
  induction pieces generalizing scan with
  | nil => exact spelled
  | cons piece pieces ih =>
      apply ih
      · intro other member
        exact plain other (List.mem_cons_of_mem _ member)
      · exact spelled_add (plain piece List.mem_cons_self) spelled

theorem Tokens.spelled_ofText (text : String) :
    ∀ token ∈ (ofText text).tokens, token.Spelled := by
  intro token member
  rcases List.mem_cons.mp (List.mem_reverse.mp member) with rfl | member
  · exact ⟨nofun, nofun, nofun⟩
  · have nothing : ∀ token ∈ Scan.start.tokens, token.Spelled :=
      fun _ absurd => nomatch absurd
    exact Scan.spelled_foldl (Piece.plain_of_mem_cut text.toList) nothing token member

end LoxLang
