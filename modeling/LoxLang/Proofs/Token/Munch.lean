import LoxLang.Proofs.Token.Pieces

/-!
Longest pieces. A text is cut into pieces each of which is the longest one that the text can begin with at its
place; what no piece can begin with is an error.
-/

namespace LoxLang.Piece

/-! ## Spellings -/

def symbols : List (List Char × Token.Kind) :=
  [(['('], .leftParen), ([')'], .rightParen), (['\x7b'], .leftBrace), (['\x7d'], .rightBrace),
    ([','], .comma), (['.'], .dot), (['-'], .minus), (['+'], .plus), ([';'], .semicolon),
    (['/'], .slash), (['*'], .star), (['!'], .bang), (['!', '='], .bangEqual), (['='], .equal),
    (['=', '='], .equalEqual), (['>'], .greater), (['>', '='], .greaterEqual), (['<'], .less),
    (['<', '='], .lessEqual)]

structure Digits (text : List Char) : Prop where
  nonempty : text ≠ []
  digits : ∀ character ∈ text, isDigit character = true

/-- The texts that are pieces by themselves. -/
inductive Spells : Form → List Char → Prop
  | symbol {text : List Char} {kind : Token.Kind} :
      (text, kind) ∈ symbols → Spells (.symbol kind) text
  | comment {body : List Char} : '\n' ∉ body → Spells .comment ('/' :: '/' :: body)
  | string {body : List Char} : '\x22' ∉ body → Spells .string ('\x22' :: (body ++ ['\x22']))
  | whole {text : List Char} : Digits text → Spells .number text
  | fraction {whole places : List Char} :
      Digits whole → Digits places → Spells .number (whole ++ '.' :: places)
  | word {first : Char} {rest : List Char} :
      isLetter first = true → (∀ character ∈ rest, isWordCharacter character = true) →
      Spells .word (first :: rest)
  | blank {character : Char} : character ∈ [' ', '\r', '\t'] → Spells .blank [character]
  | newline : Spells .newline ['\n']

/-- No piece can begin the text. -/
def Unmatched (text : List Char) : Prop :=
  ∀ form piece, Spells form piece → ¬ piece <+: text

/-- The pieces of a text, each as long as can be. -/
inductive Munches : List Piece → List Char → Prop
  | nil : Munches [] []
  | longest {form : Form} {text rest : List Char} {pieces : List Piece} :
      Spells form text →
      (∀ other longer, Spells other longer → longer <+: text ++ rest →
        longer.length ≤ text.length) →
      Munches pieces rest → Munches (⟨form, text⟩ :: pieces) (text ++ rest)
  | stray {first : Char} {rest : List Char} {pieces : List Piece} :
      Unmatched (first :: rest) → first ≠ '\x22' → Munches pieces rest →
      Munches (⟨.stray, [first]⟩ :: pieces) (first :: rest)
  | unclosed {body : List Char} :
      Unmatched ('\x22' :: body) → '\x22' ∉ body →
      Munches [⟨.unclosed, '\x22' :: body⟩] ('\x22' :: body)

variable {form : Form} {first : Char} {text tail rest : List Char}

theorem Spells.ne_nil (h : Spells form text) : text ≠ [] := by
  intro same
  cases h with
  | symbol member =>
      subst same
      revert member
      simp [symbols]
  | whole digits => exact digits.nonempty same
  | fraction => simp at same
  | comment | string | word | blank | newline => cases same

/-- Every piece that is no error is a piece by itself. -/
theorem Munches.spells {piece : Piece} {pieces : List Piece} (h : Munches pieces text)
    (member : piece ∈ pieces) (plain : piece.form ≠ .stray ∧ piece.form ≠ .unclosed) : Spells piece.form piece.text := by
  induction h with
  | nil => cases member
  | longest spells _ _ ih =>
      rcases List.mem_cons.mp member with rfl | member
      · exact spells
      · exact ih member
  | stray _ _ _ ih =>
      rcases List.mem_cons.mp member with rfl | member
      · exact absurd rfl plain.1
      · exact ih member
  | unclosed _ _ =>
      cases List.mem_singleton.mp member
      exact absurd rfl plain.2

/-! ## Pieces that are found -/

theorem length_le_takeWhile_ne {mark : Char} {body behind : List Char} (outside : mark ∉ body) :
    body.length ≤ ((body ++ behind).takeWhile (· ≠ mark)).length := by
  refine le_length_takeWhile (fun character member => ?_) (List.prefix_append _ _)
  exact decide_eq_true fun same => outside (same ▸ member)

/-- A piece is found that is at least so long behind its first character. -/
structure Reaches (length : Nat) (found : Form × Nat) : Prop where
  ne_stray : found.1 ≠ .stray
  ne_unclosed : found.1 ≠ .unclosed
  length_le : length ≤ found.2

namespace Reaches

theorem alone {kind : Token.Kind} : Reaches 0 (.symbol kind, 0) :=
  ⟨nofun, nofun, Nat.le_refl _⟩

theorem withEqual (begins : tail <+: rest) (equal : tail = [] ∨ tail = ['='])
    (longer shorter : Token.Kind) : Reaches tail.length (withEqual rest longer shorter) := by
  unfold Piece.withEqual
  split
  · refine ⟨nofun, nofun, ?_⟩
    rcases equal with rfl | rfl
    · exact Nat.zero_le _
    · exact Nat.le_refl _
  · next other =>
    refine ⟨nofun, nofun, ?_⟩
    rcases equal with rfl | rfl
    · exact Nat.le_refl _
    · obtain ⟨behind, rfl⟩ := begins
      exact absurd rfl other

theorem slash (rest : List Char) : Reaches 0 (slashForm rest) := by
  unfold slashForm
  split
  · exact ⟨nofun, nofun, Nat.zero_le _⟩
  · exact alone

theorem comment {body : List Char} (line : '\n' ∉ body) (begins : '/' :: body <+: rest) :
    Reaches (body.length + 1) (slashForm rest) := by
  obtain ⟨behind, rfl⟩ := begins
  have taken : body.length ≤ ((body ++ behind).takeWhile (· ≠ '\n')).length :=
    length_le_takeWhile_ne line
  refine ⟨nofun, nofun, ?_⟩
  change body.length + 1 ≤ 1 + ((body ++ behind).takeWhile (· ≠ '\n')).length
  omega

theorem string {body : List Char} (inside : '\x22' ∉ body) (begins : body ++ ['\x22'] <+: rest) :
    Reaches (body.length + 1) (stringForm rest) := by
  obtain ⟨behind, rfl⟩ := begins
  have taken : ((body ++ ['\x22'] ++ behind).takeWhile (· ≠ '\x22')) = body := by
    rw [List.append_assoc]
    apply takeWhile_eq_of_ends
    · exact fun character member => decide_eq_true fun same => inside (same ▸ member)
    · rfl
  have closed : body.length < (body ++ ['\x22'] ++ behind).length := by
    simp only [List.length_append, List.length_singleton]
    omega
  simp only [stringForm, taken, if_pos closed]
  exact ⟨nofun, nofun, Nat.le_refl _⟩

theorem digits (digit : isDigit first = true)
    (inside : ∀ character ∈ tail, isDigit character = true) (begins : tail <+: rest) :
    Reaches tail.length (Piece.begin first rest) := by
  rw [begin_digit digit]
  exact ⟨nofun, nofun, le_numberLength inside begins⟩

theorem fraction {whole places : List Char} (digit : isDigit first = true)
    (inside : ∀ character ∈ whole, isDigit character = true) (behind : Digits places)
    (begins : whole ++ '.' :: places <+: rest) :
    Reaches (whole ++ '.' :: places).length (Piece.begin first rest) := by
  rw [begin_digit digit]
  refine ⟨nofun, nofun, ?_⟩
  obtain ⟨more, rfl⟩ := begins
  have next : (places ++ more).head?.any isDigit = true := by
    cases places with
    | nil => exact absurd rfl behind.nonempty
    | cons digit places => exact behind.digits digit List.mem_cons_self
  have taken := le_length_takeWhile behind.digits (List.prefix_append places more)
  have length := numberLength_pointed inside next
  rw [List.append_assoc, List.cons_append, length]
  simp only [List.length_append, List.length_cons]
  omega

theorem word (letter : isLetter first = true)
    (inside : ∀ character ∈ tail, isWordCharacter character = true) (begins : tail <+: rest) :
    Reaches tail.length (Piece.begin first rest) := by
  rw [begin_letter letter]
  exact ⟨nofun, nofun, le_length_takeWhile inside begins⟩

theorem symbol {kind : Token.Kind} (member : (first :: tail, kind) ∈ symbols)
    (begins : tail <+: rest) : Reaches tail.length (Piece.begin first rest) := by
  simp only [symbols, List.mem_cons, Prod.mk.injEq, List.cons.injEq, List.not_mem_nil,
    or_false] at member
  rcases member with h | h | h | h | h | h | h | h | h | h | h | h | h | h | h | h | h | h | h
  all_goals obtain ⟨⟨rfl, rfl⟩, -⟩ := h
  case inr.inr.inr.inr.inr.inr.inr.inr.inr.inl => exact slash rest
  all_goals first
    | exact alone
    | exact withEqual begins (.inl rfl) _ _
    | exact withEqual begins (.inr rfl) _ _

end Reaches

/-- No piece that a text begins with is longer than the one that is found. -/
theorem Spells.reaches (h : Spells form text) (same : text = first :: tail)
    (begins : tail <+: rest) : Reaches tail.length (Piece.begin first rest) := by
  cases h with
  | symbol member => exact .symbol (same ▸ member) begins
  | comment line =>
      cases same
      exact .comment line begins
  | string inside =>
      cases same
      rw [List.length_append]
      exact .string inside begins
  | whole digits =>
      subst same
      exact .digits (digits.digits first List.mem_cons_self)
        (fun character member => digits.digits character (List.mem_cons_of_mem _ member)) begins
  | @fraction whole places digits behind =>
      cases whole with
      | nil => exact absurd rfl digits.nonempty
      | cons digit whole =>
          cases same
          exact .fraction (digits.digits first List.mem_cons_self)
            (fun character member => digits.digits character (List.mem_cons_of_mem _ member))
            behind begins
  | word letter inside =>
      cases same
      exact .word letter inside begins
  | blank member =>
      cases same
      simp only [List.mem_cons, List.not_mem_nil, or_false] at member
      rcases member with rfl | rfl | rfl
      all_goals exact ⟨nofun, nofun, Nat.le_refl _⟩
  | newline =>
      cases same
      exact ⟨nofun, nofun, Nat.le_refl _⟩

/-! ## What is found -/

/-- A number is found up to a point with digits, or up to what is no digit. -/
theorem spells_number (digit : isDigit first = true) (rest : List Char) :
    Spells .number (first :: rest.take (numberLength rest)) := by
  obtain ⟨whole, behind, rfl, inside, ends⟩ := exists_run isDigit rest
  have leading : Digits (first :: whole) :=
    ⟨List.cons_ne_nil _ _, fun character member => by
      rcases List.mem_cons.mp member with rfl | member
      · exact digit
      · exact inside character member⟩
  by_cases pointed : Pointed behind
  · obtain ⟨next, rest, rfl, nextDigit⟩ := pointed
    have found : Digits ((next :: rest).takeWhile isDigit) := by
      refine ⟨?_, List.all_eq_true.mp List.all_takeWhile⟩
      rw [List.takeWhile_cons_of_pos nextDigit]
      exact List.cons_ne_nil _ _
    have taken : (whole ++ '.' :: next :: rest).take
        (whole.length + 1 + ((next :: rest).takeWhile isDigit).length) =
        whole ++ '.' :: (next :: rest).takeWhile isDigit := by
      rw [Nat.add_assoc, List.take_length_add_append, Nat.add_comm 1, List.take_succ_cons,
        ← List.prefix_iff_eq_take.mp (List.takeWhile_prefix isDigit)]
    have more : (next :: rest).head?.any isDigit = true := nextDigit
    rw [numberLength_pointed inside more, taken]
    exact .fraction leading found
  · rw [numberLength_whole inside ends pointed, List.take_left]
    exact .whole leading

theorem take_length_takeWhile (p : Char → Bool) (text : List Char) :
    text.take (text.takeWhile p).length = text.takeWhile p :=
  (List.prefix_iff_eq_take.mp (List.takeWhile_prefix p)).symm

theorem spells_word (letter : isLetter first = true) (rest : List Char) :
    Spells .word (first :: rest.take (rest.takeWhile isWordCharacter).length) := by
  rw [take_length_takeWhile]
  exact .word letter (List.all_eq_true.mp List.all_takeWhile)

theorem notMem_takeWhile_ne (mark : Char) (text : List Char) :
    mark ∉ text.takeWhile (· ≠ mark) := by
  intro member
  exact of_decide_eq_true (List.all_eq_true.mp List.all_takeWhile mark member) rfl

theorem spells_slash (rest : List Char) :
    Spells (slashForm rest).1 ('/' :: rest.take (slashForm rest).2) := by
  unfold slashForm
  split
  · next rest =>
    rw [Nat.add_comm 1, List.take_succ_cons, take_length_takeWhile]
    exact .comment (notMem_takeWhile_ne _ _)
  · have single : (['/'], Token.Kind.slash) ∈ symbols := by decide
    exact .symbol single

theorem spells_withEqual {longer shorter : Token.Kind} (rest : List Char)
    (single : ([first], shorter) ∈ symbols) (double : ([first, '='], longer) ∈ symbols) :
    Spells (withEqual rest longer shorter).1
      (first :: rest.take (withEqual rest longer shorter).2) := by
  unfold withEqual
  split
  · next equal =>
    obtain ⟨behind, rfl⟩ := List.head?_eq_some_iff.mp equal
    exact .symbol double
  · exact .symbol single

/-- What is found at a place is a piece by itself, or an error. -/
inductive Found (first : Char) (rest : List Char) : Form × Nat → Prop
  | piece {form : Form} {length : Nat} :
      Spells form (first :: rest.take length) → Found first rest (form, length)
  | stray : first ≠ '\x22' → Found first rest (.stray, 0)
  | unclosed : first = '\x22' → '\x22' ∉ rest → Found first rest (.unclosed, rest.length)

theorem found_symbol {kind : Token.Kind} (single : ([first], kind) ∈ symbols) :
    Found first rest (.symbol kind, 0) :=
  .piece (.symbol single)

theorem found_string (rest : List Char) : Found '\x22' rest (stringForm rest) := by
  obtain ⟨body, behind, rfl, inside, ends⟩ := exists_run (· ≠ '\x22') rest
  have outside : '\x22' ∉ body := fun member => of_decide_eq_true (inside _ member) rfl
  simp only [stringForm, takeWhile_eq_of_ends inside ends, List.length_append]
  cases behind with
  | nil =>
      rw [if_neg (by simp), List.append_nil]
      exact .unclosed rfl outside
  | cons mark behind =>
      obtain rfl : mark = '\x22' := by simpa using ends
      rw [if_pos (by simp)]
      refine .piece ?_
      rw [List.take_length_add_append]
      exact .string outside

theorem found_begin (first : Char) (rest : List Char) : Found first rest (Piece.begin first rest) := by
  by_cases mark : first ∈ marks
  · simp only [marks, List.mem_cons, List.not_mem_nil, or_false] at mark
    rcases mark with rfl | rfl | rfl | rfl | rfl | rfl | rfl | rfl | rfl | rfl | rfl | rfl | rfl |
      rfl | rfl | rfl | rfl | rfl | rfl | rfl
    all_goals first
      | exact found_symbol (by decide)
      | exact .piece (spells_withEqual rest (by decide) (by decide))
      | exact .piece (spells_slash rest)
      | exact .piece (.blank (by decide))
      | exact .piece .newline
      | exact found_string rest
  · by_cases digit : isDigit first = true
    · rw [begin_digit digit]
      exact .piece (spells_number digit rest)
    · by_cases letter : isLetter first = true
      · rw [begin_letter letter]
        exact .piece (spells_word letter rest)
      · rw [begin_other mark, if_neg digit, if_neg letter]
        refine .stray fun same => mark ?_
        rw [same]
        decide

/-! ## Cutting -/

/-- Nothing that is found is an error if some piece begins the text. -/
theorem unmatched_of_begin (error : (Piece.begin first rest).1 = .stray ∨
    (Piece.begin first rest).1 = .unclosed) : Unmatched (first :: rest) := by
  intro form piece spells begins
  cases piece with
  | nil => exact spells.ne_nil rfl
  | cons head tail =>
      obtain ⟨rfl, inner⟩ := List.cons_prefix_cons.mp begins
      have reaches := spells.reaches rfl inner
      rcases error with stray | unclosed
      · exact reaches.ne_stray stray
      · exact reaches.ne_unclosed unclosed

theorem length_le_of_spells {piece : List Char} (spells : Spells form piece)
    (begins : piece <+: first :: rest) : piece.length ≤ (Piece.begin first rest).2 + 1 := by
  cases piece with
  | nil => exact Nat.zero_le _
  | cons head tail =>
      obtain ⟨rfl, inner⟩ := List.cons_prefix_cons.mp begins
      exact Nat.succ_le_succ (spells.reaches rfl inner).length_le

theorem munches_cut (text : List Char) : Munches (cut text) text := by
  induction h : text.length using Nat.strongRecOn generalizing text with
  | ind length ih =>
      cases text with
      | nil =>
          rw [cut_nil]
          exact .nil
      | cons first rest =>
          have found := found_begin first rest
          have later : Munches (cut (rest.drop (Piece.begin first rest).2))
              (rest.drop (Piece.begin first rest).2) :=
            ih _ (by rw [← h, List.length_drop, List.length_cons]; omega) _ rfl
          have unmatched : (Piece.begin first rest).1 = .stray ∨
              (Piece.begin first rest).1 = .unclosed → Unmatched (first :: rest) :=
            unmatched_of_begin
          have bounded (other : Form) (piece : List Char) (spells : Spells other piece)
              (begins : piece <+: first :: rest) :
              piece.length ≤ (Piece.begin first rest).2 + 1 := length_le_of_spells spells begins
          rw [cut_cons]
          generalize Piece.begin first rest = result at *
          cases found with
          | stray plain => exact .stray (unmatched (.inl rfl)) plain later
          | unclosed same outside =>
              subst same
              rw [List.take_length, List.drop_length, cut_nil]
              exact .unclosed (unmatched (.inr rfl)) outside
          | @piece form length spells =>
              have parts : (first :: rest.take length) ++ rest.drop length = first :: rest := by
                rw [List.cons_append, List.take_append_drop]
              have all := Munches.longest spells (fun other longer begins whole => ?_) later
              · rwa [parts] at all
              · rw [parts] at whole
                have within := whole.length_le
                have found := bounded other longer begins whole
                simp only [List.length_cons, List.length_take] at within ⊢
                omega

end LoxLang.Piece
