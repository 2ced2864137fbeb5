import LoxLang.Notation.Program
import LoxLang.Proofs.Text.Quoted
import LoxLang.Proofs.Token.Pieces

/-!
What the notation of listings shows. Two texts show something of what they are written for if they begin
texts that are alike only when it holds, and what follows them is then alike as well. The parts of a node and
the entries of a list show in turn whatever they show alone, since nothing but a comma or a closing bracket
follows them.
-/

namespace LoxLang

open Notation

/-! ## Ends -/

/-- The characters that end the text of a part. -/
def isCloser (character : Char) : Bool :=
  character = ',' || character = ')' || character = ']'

/-- Nothing follows, or a comma or closing bracket and anything. -/
def Closed (text : List Char) : Prop :=
  text.head?.any (!isCloser ·) = false

theorem closed_nil : Closed [] := rfl

theorem closed_append {text rest : List Char} (first : Closed text) (second : Closed rest) :
    Closed (text ++ rest) := by
  cases text with
  | nil => exact second
  | cons => exact first

/-- Runs of characters are told by where they end. -/
theorem append_inj_of_ends {inside : Char → Bool} {body other behind rest : List Char}
    (first : ∀ character ∈ body, inside character = true) (second : ∀ character ∈ other, inside character = true)
    (ends : behind.head?.any inside = false) (ends' : rest.head?.any inside = false)
    (same : body ++ behind = other ++ rest) : body = other ∧ behind = rest := by
  have runs : (body ++ behind).takeWhile inside = (other ++ rest).takeWhile inside := by rw [same]
  rw [Piece.takeWhile_eq_of_ends first ends, Piece.takeWhile_eq_of_ends second ends'] at runs
  subst runs
  exact ⟨rfl, List.append_cancel_left same⟩

/-! ## Texts -/

/-- Where the two texts begin texts that are alike, something holds and what follows them is alike too. -/
def Shows (same : Prop) (text other : String) : Prop :=
  ∀ rest behind, Closed rest → Closed behind → text.toList ++ rest = other.toList ++ behind → same ∧ rest = behind

namespace Shows

variable {same also : Prop} {text other : String}

theorem mono (shows : Shows same text other) (weaken : same → also) : Shows also text other :=
  fun rest behind closed closed' alike => (shows rest behind closed closed' alike).imp_left weaken

theorem of_eq (shows : Shows same text other) (alike : text = other) : same :=
  (shows [] [] closed_nil closed_nil (by rw [alike])).1

theorem refl (text : String) : Shows True text text :=
  fun _ _ _ _ alike => ⟨trivial, List.append_cancel_left alike⟩

theorem after (start : String) (shows : Shows same text other) : Shows same (start ++ text) (start ++ other) := by
  intro rest behind closed closed' alike
  rw [String.toList_append, String.toList_append, List.append_assoc, List.append_assoc] at alike
  exact shows rest behind closed closed' (List.append_cancel_left alike)

theorem append {more others : String} (first : Shows same text other) (second : Shows also more others)
    (ends : Closed more.toList) (ends' : Closed others.toList) :
    Shows (same ∧ also) (text ++ more) (other ++ others) := by
  intro rest behind closed closed' alike
  rw [String.toList_append, String.toList_append, List.append_assoc, List.append_assoc] at alike
  obtain ⟨holds, rests⟩ := first _ _ (closed_append ends closed) (closed_append ends' closed') alike
  obtain ⟨holds', behinds⟩ := second rest behind closed closed' rests
  exact ⟨⟨holds, holds'⟩, behinds⟩

end Shows

/-- The text begins with this character. -/
def Opens (first : Char) (text : String) : Prop :=
  ∃ more, text.toList = first :: more

theorem Opens.append {first : Char} {text : String} (opens : Opens first text) (more : String) :
    Opens first (text ++ more) := by
  obtain ⟨others, begins⟩ := opens
  exact ⟨others ++ more.toList, by rw [String.toList_append, begins, List.cons_append]⟩

/-- Texts that begin in different ways show anything. -/
theorem shows_of_opens {same : Prop} {first second : Char} {text other : String} (opens : Opens first text)
    (opens' : Opens second other) (unlike : first ≠ second) : Shows same text other := by
  obtain ⟨more, begins⟩ := opens
  obtain ⟨others, begins'⟩ := opens'
  intro rest behind _ _ alike
  rw [begins, begins'] at alike
  exact absurd (List.cons.inj alike).1 unlike

theorem Opens.closed {closer : Char} {text : String} (opens : Opens closer text) (closes : isCloser closer = true) :
    Closed text.toList := by
  obtain ⟨more, begins⟩ := opens
  rw [begins, Closed, List.head?_cons, Option.any_some, closes]
  rfl

/-- A part and, behind a comma and some label, further ones. -/
theorem Shows.comma {same also : Prop} {text other more others : String} (first : Shows same text other)
    (label : String) (opens : Opens ',' label) (second : Shows also more others) :
    Shows (same ∧ also) (text ++ (label ++ more)) (other ++ (label ++ others)) :=
  first.append (second.after label) ((opens.append more).closed rfl) ((opens.append others).closed rfl)

/-- A text in which nothing ends a part shows itself. -/
theorem shows_bare {text other : String} (bare : ∀ character ∈ text.toList, (!isCloser character) = true)
    (bare' : ∀ character ∈ other.toList, (!isCloser character) = true) : Shows (text = other) text other := by
  intro rest behind closed closed' alike
  obtain ⟨texts, rests⟩ := append_inj_of_ends bare bare' closed closed' alike
  exact ⟨String.toList_inj.mp texts, rests⟩

theorem shows_quoted (text other : String) : Shows (text = other) (Text.quoted text) (Text.quoted other) := by
  intro rest behind _ _ alike
  rw [Text.quoted, Text.quoted, String.toList_ofList, String.toList_ofList] at alike
  obtain ⟨texts, rests⟩ := Text.Quoted.encode_append_inj alike
  exact ⟨String.toList_inj.mp texts, rests⟩

/-! ## Lists and nodes -/

/-- Entry by entry the texts of two lists show something. Where one list is longer than the other, its next entry must
not begin as a list ends. -/
inductive ShowsEach : Prop → List String → List String → Prop
  | nil : ShowsEach True [] []
  | longer {same : Prop} {first : Char} {text : String} {texts : List String} :
      Opens first text → isCloser first = false → ShowsEach same (text :: texts) []
  | shorter {same : Prop} {first : Char} {text : String} {texts : List String} :
      Opens first text → isCloser first = false → ShowsEach same [] (text :: texts)
  | cons {same also : Prop} {text other : String} {texts others : List String} :
      Shows same text other → ShowsEach also texts others →
      ShowsEach (same ∧ also) (text :: texts) (other :: others)
  | mono {same also : Prop} {texts others : List String} :
      ShowsEach same texts others → (same → also) → ShowsEach also texts others

/-- What stands behind an entry of a list: the other entries, and what closes the list. -/
def following (closing : String) (entries : List String) : String :=
  match entries with
  | [] => closing
  | entry :: entries => ", " ++ (", ".intercalate (entry :: entries) ++ closing)

theorem intercalate_append (closing entry : String) (entries : List String) :
    ", ".intercalate (entry :: entries) ++ closing = entry ++ following closing entries := by
  cases entries with
  | nil => rfl
  | cons second entries => rw [String.intercalate_cons_cons, following, String.append_assoc, String.append_assoc]

theorem opens_comma (text : String) : Opens ',' (", " ++ text) :=
  Opens.append ⟨_, rfl⟩ text

theorem closed_following {closer : Char} {closing : String} (opens : Opens closer closing)
    (closes : isCloser closer = true) (entries : List String) : Closed (following closing entries).toList := by
  cases entries with
  | nil => exact opens.closed closes
  | cons entry entries => exact (opens_comma _).closed rfl

/-- A comma tells that a list goes on, and an entry that the list is not empty. -/
theorem ShowsEach.closing {same : Prop} {closer : Char} {closing : String} {texts others : List String}
    (shows : ShowsEach same texts others) (opens : Opens closer closing) (closes : isCloser closer = true)
    (unlike : ',' ≠ closer) :
    Shows same (following closing texts) (following closing others) ∧
      Shows same (", ".intercalate texts ++ closing) (", ".intercalate others ++ closing) := by
  have empty : ", ".intercalate [] ++ closing = closing := String.empty_append
  have differs {first : Char} (plain : isCloser first = false) : first ≠ closer := by
    rintro rfl
    rw [closes] at plain
    cases plain
  -- the induction needs what stands behind an entry, since a comma there, too, tells that more entries follow
  induction shows with
  | nil => exact ⟨.refl _, .refl _⟩
  | longer first plain =>
      rw [intercalate_append, empty]
      exact ⟨shows_of_opens (opens_comma _) opens unlike, shows_of_opens (first.append _) opens (differs plain)⟩
  | shorter first plain =>
      rw [intercalate_append, empty]
      exact ⟨shows_of_opens opens (opens_comma _) unlike.symm,
        shows_of_opens opens (first.append _) (differs plain).symm⟩
  | @cons same also text other texts others first _ ih =>
      have whole : Shows (same ∧ also) (", ".intercalate (text :: texts) ++ closing)
          (", ".intercalate (other :: others) ++ closing) := by
        rw [intercalate_append, intercalate_append]
        exact first.append ih.1 (closed_following opens closes texts) (closed_following opens closes others)
      exact ⟨whole.after ", ", whole⟩
  | mono _ weaken ih => exact ⟨ih.1.mono weaken, ih.2.mono weaken⟩

theorem shows_list {same : Prop} {texts others : List String} (shows : ShowsEach same texts others) :
    Shows same (list texts) (list others) := by
  rw [list, list, String.append_assoc, String.append_assoc]
  exact (shows.closing ⟨_, rfl⟩ rfl (by decide)).2.after "["

/-- Lists whose entries all begin with one character show what their entries show. -/
theorem shows_each {α : Type} {first : Char} {write : α → String} {key : α → α} (plain : isCloser first = false)
    (opens : ∀ entry, Opens first (write entry)) (entries others : List α)
    (shows : ∀ entry ∈ entries, ∀ other, Shows (key entry = key other) (write entry) (write other)) :
    ShowsEach (entries.map key = others.map key) (entries.map write) (others.map write) := by
  induction entries generalizing others with
  | nil =>
      cases others with
      | nil => exact .mono .nil fun _ => rfl
      | cons other others => exact .shorter (opens other) plain
  | cons entry entries ih =>
      cases others with
      | nil => exact .longer (opens entry) plain
      | cons other others =>
          have rest := ih others fun entry member => shows entry (List.mem_cons_of_mem _ member)
          refine .mono (.cons (shows entry (List.mem_cons_self ..) other) rest) ?_
          rintro ⟨same, more⟩
          rw [List.map_cons, List.map_cons, same, more]

/-- The parts of a node with their names. -/
def labelled (labels values : List String) : List String :=
  (labels.zip values).map fun (label, value) => label ++ "=" ++ value

/-- The name of the shape stands between the family and the first bracket. -/
theorem write_eq (shape : NodeShape) (values : List String) :
    shape.write values =
      shape.family ++ "." ++
        (shape.variant ++ ("(" ++ (", ".intercalate (labelled shape.parts values) ++ ")"))) := by
  simp only [NodeShape.write, labelled, String.append_assoc]

theorem ShowsEach.labelled {same : Prop} {values others : List String} (shows : ShowsEach same values others)
    {labels : List String} (count : values.length = labels.length) (count' : others.length = labels.length) :
    ShowsEach same (labelled labels values) (labelled labels others) := by
  induction shows generalizing labels with
  | nil => rw [LoxLang.labelled, List.zip_nil_right]; exact .nil
  | longer => exact absurd (count.trans count'.symm) (Nat.succ_ne_zero _)
  | shorter => exact absurd (count'.trans count.symm) (Nat.succ_ne_zero _)
  | cons first _ ih =>
      cases labels with
      | nil => exact absurd count (Nat.succ_ne_zero _)
      | cons label labels => exact .cons (first.after _) (ih (Nat.succ.inj count) (Nat.succ.inj count'))
  | mono _ weaken ih => exact .mono (ih count count') weaken

/-- A node with all its parts shows what they show. -/
theorem shows_write {same : Prop} {shape : NodeShape} {values others : List String}
    (shows : ShowsEach same values others) (count : values.length = shape.parts.length)
    (count' : others.length = shape.parts.length) : Shows same (shape.write values) (shape.write others) := by
  have opens : Opens ')' ")" := ⟨_, rfl⟩
  have parts := ((shows.labelled count count').closing opens rfl (by decide)).2
  rw [write_eq, write_eq]
  exact .after _ (.after _ (.after _ parts))

/-- Shapes of one family of which neither name contains a bracket. -/
def Unlike (shape other : NodeShape) : Prop :=
  shape.family = other.family ∧ shape.variant ≠ other.variant ∧
    shape.variant.toList.all (· ≠ '(') = true ∧ other.variant.toList.all (· ≠ '(') = true

instance (shape other : NodeShape) : Decidable (Unlike shape other) :=
  inferInstanceAs (Decidable (_ ∧ _ ∧ _ ∧ _))

/-- Nodes of different shapes show anything. -/
theorem shows_of_unlike {same : Prop} {shape other : NodeShape} (unlike : Unlike shape other)
    (values others : List String) : Shows same (shape.write values) (other.write others) := by
  obtain ⟨families, variants, plain, plain'⟩ := unlike
  rw [write_eq, write_eq, families]
  refine .after _ fun rest behind _ _ alike => ?_
  simp only [String.toList_append, List.append_assoc] at alike
  have names := (append_inj_of_ends (List.all_eq_true.mp plain) (List.all_eq_true.mp plain') rfl rfl alike).1
  exact absurd (String.toList_inj.mp names) variants

end LoxLang
