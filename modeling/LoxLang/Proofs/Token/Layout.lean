import LoxLang.Proofs.Token.Following
import LoxLang.Proofs.Token.Reading

/-!
Texts that are laid out anew. A piece that is a token is cut as itself wherever a blank or a line break is behind it, so
the tokens of a text can be written down again, in order, with any layout between them.
-/

namespace LoxLang

/-- What a token is, whatever line it is on. -/
def Token.content (token : Token) : Token.Kind × String × Token.Literal :=
  (token.kind, token.lexeme, token.literal)

/-! ## Layout -/

def blanks : List Char :=
  [' ', '\t', '\r', '\n']

/-- Blanks, line breaks and comments that are ended by a line break. -/
inductive Spacing : List Char → Prop
  | nil : Spacing []
  | blank {character : Char} {rest : List Char} :
      character ∈ blanks → Spacing rest → Spacing (character :: rest)
  | comment {body rest : List Char} :
      '\n' ∉ body → Spacing rest → Spacing ('/' :: '/' :: (body ++ '\n' :: rest))

/-- What may stand between two tokens, so that they are told apart. -/
def Separates (text : String) : Prop :=
  ∃ first rest, text.toList = first :: rest ∧ first ∈ blanks ∧ Spacing rest

/-- The lexemes are written down in order, with something between each two that separates them. -/
inductive LaidOut : (lexemes : List String) → (text : String) → Prop
  | nil : LaidOut [] ""
  | single (lexeme : String) : LaidOut [lexeme] lexeme
  | cons {lexeme separator next text : String} {rest : List String} :
      Separates separator → LaidOut (next :: rest) text →
      LaidOut (lexeme :: next :: rest) (lexeme ++ separator ++ text)

namespace Piece

/-! ## What is read of pieces -/

/-- What a piece is read as, if that is a token. -/
def content? (piece : Piece) : Option (Token.Kind × String × Token.Literal) :=
  match piece.reading with
  | .token kind literal => some (kind, .ofList piece.text, literal)
  | .error _ | .skipped => none

/-- Nothing is wrong with a piece. -/
def IsSound (piece : Piece) : Prop :=
  ∀ cause, piece.reading ≠ .error cause

theorem content?_of_skipped {piece : Piece} (h : piece.reading = .skipped) : piece.content? = none := by
  rw [content?, h]

theorem isSound_of_content? {piece : Piece} {content : Token.Kind × String × Token.Literal}
    (h : piece.content? = some content) : piece.IsSound := by
  intro cause reading
  rw [content?, reading] at h
  cases h

theorem text_of_content? {piece : Piece} {content : Token.Kind × String × Token.Literal}
    (h : piece.content? = some content) : content.2.1 = .ofList piece.text := by
  unfold content? at h
  split at h
  · cases h
    rfl
  · cases h
  · cases h

end Piece

namespace Scan

variable {pieces : List Piece}

theorem content_foldl (scan : Scan) (pieces : List Piece) :
    (pieces.foldl add scan).tokens.map Token.content =
      (pieces.filterMap Piece.content?).reverse ++ scan.tokens.map Token.content := by
  induction pieces generalizing scan with
  | nil => rfl
  | cons piece pieces ih =>
      rw [List.foldl_cons, ih]
      cases reading : piece.reading with
      | token kind literal => simp [add, reading, Piece.content?, Token.content]
      | error _ | skipped => simp [add, reading, Piece.content?]

theorem errors_foldl (scan : Scan) (sound : ∀ piece ∈ pieces, piece.IsSound) :
    (pieces.foldl add scan).errors = scan.errors := by
  induction pieces generalizing scan with
  | nil => rfl
  | cons piece pieces ih =>
      obtain ⟨here, later⟩ := List.forall_mem_cons.mp sound
      rw [List.foldl_cons, ih _ later]
      cases reading : piece.reading with
      | error cause => exact absurd reading (here cause)
      | token _ _ | skipped => simp only [add, reading]

end Scan

/-- What the tokens of a text say is what its pieces are read as, one by one. -/
theorem Tokens.content_ofText (text : String) :
    (ofText text).tokens.map Token.content =
      (Piece.cut text.toList).filterMap Piece.content? ++ [(.endOfInput, "", .none)] := by
  have contents := Scan.content_foldl .start (Piece.cut text.toList)
  have nothing : Scan.start.tokens = [] := rfl
  rw [nothing, List.map_nil, List.append_nil] at contents
  simp only [ofText, List.reverse_cons, List.map_append, List.map_reverse, contents, List.reverse_reverse]
  rfl

theorem Tokens.errors_ofText {text : String} (sound : ∀ piece ∈ Piece.cut text.toList, piece.IsSound) :
    (ofText text).errors = [] := by
  simp only [ofText, Scan.errors_foldl .start sound]
  rfl

namespace Piece

variable {form : Form} {first : Char} {body behind text : List Char} {pieces : List Piece}

/-! ## Pieces before a blank -/

/-- Nothing is behind a piece, or a blank or a line break is. -/
def Parted (behind : List Char) : Prop :=
  ∀ next ∈ behind.head?, next ∈ blanks

theorem parted_nil : Parted [] :=
  nofun

theorem forall_blanks {p : Char → Prop} (space : p ' ') (tab : p '\t') (back : p '\r') (line : p '\n') :
    ∀ character ∈ blanks, p character := by
  intro character member
  simp only [blanks, List.mem_cons, List.not_mem_nil, or_false] at member
  rcases member with rfl | rfl | rfl | rfl
  · exact space
  · exact tab
  · exact back
  · exact line

theorem Parted.any (parted : Parted behind) {p : Char → Bool}
    (no : ∀ character ∈ blanks, p character = false) : behind.head?.any p = false := by
  cases head : behind.head? with
  | none => rfl
  | some next => exact no next (parted next head)

theorem Parted.head_ne (parted : Parted behind) {symbol : Char} (other : symbol ∉ blanks) :
    behind.head? ≠ some symbol :=
  fun head => other (parted symbol head)

theorem Parted.not_pointed (parted : Parted behind) : ¬ Pointed behind := by
  rintro ⟨digit, rest, rfl, -⟩
  exact absurd (parted '.' rfl) (by decide)

theorem begin_symbol {kind : Token.Kind} (member : (first :: body, kind) ∈ symbols)
    (parted : Parted behind) : begin first (body ++ behind) = (.symbol kind, body.length) := by
  have equal (longer shorter : Token.Kind) : withEqual behind longer shorter = (.symbol shorter, 0) :=
    if_neg (parted.head_ne (by decide))
  have slash : slashForm behind = (.symbol .slash, 0) :=
    slashForm_alone (parted.head_ne (by decide))
  simp only [symbols, List.mem_cons, Prod.mk.injEq, List.cons.injEq, List.not_mem_nil,
    or_false] at member
  rcases member with h | h | h | h | h | h | h | h | h | h | h | h | h | h | h | h | h | h | h
  all_goals obtain ⟨⟨rfl, rfl⟩, rfl⟩ := h
  all_goals first
    | rfl
    | exact equal _ _
    | exact slash

theorem begin_string (outside : '\x22' ∉ body) :
    begin '\x22' (body ++ ['\x22'] ++ behind) = (.string, (body ++ ['\x22']).length) := by
  have inside : ∀ character ∈ body, decide (character ≠ '\x22') = true :=
    fun character member => decide_eq_true fun same => outside (same ▸ member)
  have taken : (body ++ '\x22' :: behind).takeWhile (· ≠ '\x22') = body :=
    takeWhile_eq_of_ends inside rfl
  change stringForm _ = _
  rw [List.append_assoc, List.singleton_append]
  simp only [stringForm, taken]
  rw [if_pos (by simp)]
  simp

theorem begin_fraction {whole places : List Char} (digit : isDigit first = true)
    (inside : ∀ character ∈ whole, isDigit character = true) (decimals : Digits places)
    (stops : behind.head?.any isDigit = false) :
    begin first (whole ++ '.' :: places ++ behind) = (.number, (whole ++ '.' :: places).length) := by
  have next : (places ++ behind).head?.any isDigit = true := by
    cases places with
    | nil => exact absurd rfl decimals.nonempty
    | cons place places => exact decimals.digits place List.mem_cons_self
  have taken : (places ++ behind).takeWhile isDigit = places :=
    takeWhile_eq_of_ends decimals.digits stops
  rw [begin_digit digit, List.append_assoc, List.cons_append, numberLength_pointed inside next, taken,
    List.length_append, List.length_cons]
  simp only [Nat.add_assoc, Nat.add_comm 1]

/-- A piece by itself, other than a comment, is cut as itself before a blank. -/
theorem Spells.begin (spells : Spells form text) (same : text = first :: body) (other : form ≠ .comment)
    (parted : Parted behind) : Piece.begin first (body ++ behind) = (form, body.length) := by
  have stops : behind.head?.any isDigit = false :=
    parted.any (forall_blanks rfl rfl rfl rfl)
  cases spells with
  | symbol member => exact begin_symbol (same ▸ member) parted
  | comment _ => exact absurd rfl other
  | string outside =>
      cases same
      exact begin_string outside
  | whole digits =>
      subst same
      obtain ⟨digit, inside⟩ := List.forall_mem_cons.mp digits.digits
      rw [begin_digit digit, numberLength_whole inside stops parted.not_pointed]
  | @fraction whole places digits decimals =>
      cases whole with
      | nil => exact absurd rfl digits.nonempty
      | cons digit whole =>
          cases same
          obtain ⟨digit, inside⟩ := List.forall_mem_cons.mp digits.digits
          exact begin_fraction digit inside decimals stops
  | word letter inside =>
      cases same
      rw [begin_letter letter, takeWhile_eq_of_ends inside (parted.any (forall_blanks rfl rfl rfl rfl))]
  | blank member =>
      cases same
      simp only [List.mem_cons, List.not_mem_nil, or_false] at member
      rcases member with rfl | rfl | rfl <;> rfl
  | newline =>
      cases same
      rfl

/-! ## Texts from pieces -/

theorem parted_cons (h : first ∈ blanks) : Parted (first :: text) := by
  intro next head
  cases head
  exact h

/-- Layout before a text is cut from it and skipped. -/
theorem exists_cuts_of_spacing {spacing : List Char} (h : Spacing spacing) (cuts : Cuts pieces text) :
    ∃ layout, Cuts (layout ++ pieces) (spacing ++ text) ∧ ∀ piece ∈ layout, piece.reading = .skipped := by
  induction h with
  | nil => exact ⟨[], cuts, nofun⟩
  | @blank character rest member _ ih =>
      obtain ⟨layout, later, skipped⟩ := ih
      have each : ∀ character ∈ blanks, ∃ form, Piece.begin character (rest ++ text) = (form, 0) ∧
          Piece.reading ⟨form, [character]⟩ = .skipped :=
        forall_blanks ⟨_, rfl, rfl⟩ ⟨_, rfl, rfl⟩ ⟨_, rfl, rfl⟩ ⟨_, rfl, rfl⟩
      obtain ⟨form, begins, reading⟩ := each character member
      exact ⟨⟨form, [character]⟩ :: layout, @Cuts.cons form character [] _ _ begins later,
        List.forall_mem_cons.mpr ⟨reading, skipped⟩⟩
  | @comment body rest line _ ih =>
      obtain ⟨layout, later, skipped⟩ := ih
      have inside : ∀ character ∈ body, decide (character ≠ '\n') = true :=
        fun character member => decide_eq_true fun same => line (same ▸ member)
      have taken : (body ++ '\n' :: (rest ++ text)).takeWhile (· ≠ '\n') = body :=
        takeWhile_eq_of_ends inside rfl
      have begins : Piece.begin '/' ('/' :: body ++ '\n' :: (rest ++ text)) =
          (.comment, ('/' :: body).length) := by
        change slashForm ('/' :: (body ++ '\n' :: (rest ++ text))) = _
        simp only [slashForm, taken, List.length_cons, Nat.add_comm]
      have newline : Cuts (⟨.newline, ['\n']⟩ :: (layout ++ pieces)) ('\n' :: ([] ++ (rest ++ text))) :=
        .cons rfl later
      refine ⟨⟨.comment, '/' :: '/' :: body⟩ :: ⟨.newline, ['\n']⟩ :: layout, ?_,
        List.forall_mem_cons.mpr ⟨rfl, List.forall_mem_cons.mpr ⟨rfl, skipped⟩⟩⟩
      have all := Cuts.cons begins newline
      simpa using all

/-- There is a piece by itself that is read as this. -/
def Standalone (content : Token.Kind × String × Token.Literal) : Prop :=
  ∃ piece : Piece, Spells piece.form piece.text ∧ piece.content? = some content

theorem Standalone.cuts {content : Token.Kind × String × Token.Literal} (standalone : Standalone content)
    (parted : Parted text) (cuts : Cuts pieces text) :
    ∃ piece : Piece, piece.content? = some content ∧
      Cuts (piece :: pieces) (content.2.1.toList ++ text) := by
  obtain ⟨⟨form, whole⟩, spells, said⟩ := standalone
  have other : form ≠ .comment := by
    rintro rfl
    cases said
  refine ⟨⟨form, whole⟩, said, ?_⟩
  rw [text_of_content? said, String.toList_ofList]
  cases whole with
  | nil => exact absurd rfl spells.ne_nil
  | cons first body => exact .cons (spells.begin rfl other parted) cuts

/-- Lexemes that are laid out are cut as themselves, with nothing but layout between them. -/
theorem exists_cuts_of_laidOut {lexemes : List String} {text : String} (laid : LaidOut lexemes text)
    {contents : List (Token.Kind × String × Token.Literal)} (same : contents.map (·.2.1) = lexemes)
    (standalone : ∀ content ∈ contents, Standalone content) :
    ∃ pieces, Cuts pieces text.toList ∧ pieces.filterMap content? = contents ∧
      ∀ piece ∈ pieces, piece.IsSound := by
  induction laid generalizing contents with
  | nil =>
      cases List.map_eq_nil_iff.mp same
      exact ⟨[], .nil, rfl, nofun⟩
  | single lexeme =>
      obtain ⟨content, rfl, rfl⟩ := List.map_eq_singleton_iff.mp same
      obtain ⟨piece, said, cuts⟩ := (standalone content List.mem_cons_self).cuts parted_nil .nil
      rw [List.append_nil] at cuts
      refine ⟨[piece], cuts, by simp [said], ?_⟩
      exact List.forall_mem_singleton.mpr (isSound_of_content? said)
  | @cons lexeme separator next text rest separates _ ih =>
      obtain ⟨content, others, rfl, rfl, later⟩ := List.map_eq_cons_iff.mp same
      obtain ⟨here, elsewhere⟩ := List.forall_mem_cons.mp standalone
      obtain ⟨pieces, cuts, contents, sound⟩ := ih later elsewhere
      obtain ⟨blank, spacing, text_eq, isBlank, spaces⟩ := separates
      obtain ⟨layout, between, skipped⟩ := exists_cuts_of_spacing (.blank isBlank spaces) cuts
      obtain ⟨piece, said, all⟩ := here.cuts (parted_cons isBlank) between
      refine ⟨piece :: (layout ++ pieces), ?_, ?_, ?_⟩
      · simpa [text_eq] using all
      · have nothing : layout.filterMap content? = [] :=
          List.filterMap_eq_nil_iff.mpr fun piece member => content?_of_skipped (skipped piece member)
        simp [said, nothing, contents]
      · refine List.forall_mem_cons.mpr ⟨isSound_of_content? said, fun other member => ?_⟩
        rcases List.mem_append.mp member with member | member
        · intro cause reading
          rw [skipped other member] at reading
          cases reading
        · exact sound other member

end Piece

namespace Tokens

theorem standalone_of_mem {source : String} {content : Token.Kind × String × Token.Literal}
    (member : content ∈ (Piece.cut source.toList).filterMap Piece.content?) : Piece.Standalone content := by
  obtain ⟨piece, inside, said⟩ := List.mem_filterMap.mp member
  refine ⟨piece, (Piece.munches_cut source.toList).spells inside ⟨fun form => ?_, fun form => ?_⟩, said⟩
  all_goals
    simp only [Piece.content?, Piece.reading, form] at said
    cases said

/-- The lexemes of any text, written down in order with any blanks, line breaks and comments between them, are read
as the same tokens, without any error. -/
theorem ofText_laidOut {source text : String}
    (laid : LaidOut ((ofText source).tokens.dropLast.map Token.lexeme) text) :
    (ofText text).errors = [] ∧
      (ofText text).tokens.map Token.content = (ofText source).tokens.map Token.content := by
  have contents := content_ofText source
  have lexemes : ((Piece.cut source.toList).filterMap Piece.content?).map (·.2.1) =
      (ofText source).tokens.dropLast.map Token.lexeme := by
    have whole := congrArg (fun contents => (List.dropLast contents).map (·.2.1)) contents
    rw [List.dropLast_concat, ← List.map_dropLast, List.map_map] at whole
    exact whole.symm
  obtain ⟨pieces, cuts, same, sound⟩ :=
    Piece.exists_cuts_of_laidOut laid lexemes fun content member => standalone_of_mem member
  rw [← cuts.cut_eq] at same sound
  refine ⟨errors_ofText sound, ?_⟩
  rw [content_ofText, content_ofText, same]

/-- A comment, a rejected character, symbols that could be longer, a string like a comment and a number before a point. -/
def crowdedText : String :=
  "a@//b\n!==\x22//\n\x221.5.c"

theorem ofText_laidOut_crowded :
    let text := "a" ++ " // x\n" ++ ("!=" ++ "\t" ++ ("=" ++ "\n" ++ ("\x22//\n\x22" ++ "\r" ++
      ("1.5" ++ " " ++ ("." ++ "\n//\n\t" ++ "c")))))
    LaidOut ((ofText crowdedText).tokens.dropLast.map Token.lexeme) text ∧ (ofText text).errors = [] ∧
      (ofText text).tokens.map Token.content = (ofText crowdedText).tokens.map Token.content := by
  intro text
  have lexemes : (ofText crowdedText).tokens.dropLast.map Token.lexeme =
      ["a", "!=", "=", "\x22//\n\x22", "1.5", ".", "c"] := by decide +kernel
  have comment : Separates " // x\n" :=
    ⟨' ', _, rfl, by decide, @Spacing.comment [' ', 'x'] [] (by decide) .nil⟩
  have blank : ∀ character ∈ blanks, Separates (.singleton character) := fun character member =>
    ⟨character, [], String.toList_singleton character, member, .nil⟩
  have lines : Separates "\n//\n\t" :=
    ⟨'\n', _, rfl, by decide, @Spacing.comment [] ['\t'] (by decide) (.blank (by decide) .nil)⟩
  have laid : LaidOut ((ofText crowdedText).tokens.dropLast.map Token.lexeme) text := by
    rw [lexemes]
    exact .cons comment (.cons (blank '\t' (by decide)) (.cons (blank '\n' (by decide))
      (.cons (blank '\r' (by decide)) (.cons (blank ' ' (by decide)) (.cons lines (.single "c"))))))
  exact ⟨laid, ofText_laidOut laid⟩

end Tokens

end LoxLang
