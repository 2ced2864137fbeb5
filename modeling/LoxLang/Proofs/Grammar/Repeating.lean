import LoxLang.Proofs.Grammar.Acceptance
import Mathlib.Data.List.Forall2

/-!
Reading other words in the same places. `Repeats` states that a reader takes some text with other words of the same kinds
as it takes a given one, and yields a given value. What must agree behind the text depends on the reader: its edge.
-/

namespace LoxLang.Grammar

/-- Words that may stand for others in a text. -/
structure Substitution (related : Token → Token → Prop) : Prop where
  kind {token other : Token} : related token other → other.kind = token.kind
  literal {token other : Token} : related token other → other.literal = token.literal
  total (token : Token) : ∃ other, related token other

/-- What a reader sees of the text behind the one that it takes: whether an `else` is there, or the kind of the next
token. -/
inductive Edge where
  | branching | loose

/-- What was behind a text, and what is behind it now, make no difference. -/
def Edge.Fits : Edge → List Token → List Token → Prop
  | .branching, ahead, rest => headKind rest = .else → headKind ahead = .else
  | .loose, ahead, rest => headKind rest = headKind ahead

theorem Edge.loose_tells {kind : Token.Kind} (ahead rest : List Token)
    (h : Edge.loose.Fits ahead rest) (absent : headKind ahead ≠ kind) : headKind rest ≠ kind :=
  h.trans_ne absent

theorem Edge.branching_tells (ahead rest : List Token) (h : Edge.branching.Fits ahead rest)
    (absent : headKind ahead ≠ .else) : headKind rest ≠ .else :=
  fun here => absent (h here)

/-- The edge does not hide the token at the start of a text and what is behind it. -/
def Edge.Sees (edge : Edge) (used : List Token) : Prop :=
  edge = .loose ∨ used ≠ []

variable {related : Token → Token → Prop} {edge : Edge} {used other more ahead rest : List Token}

theorem Edge.fits_of_headKind (h : headKind rest = headKind ahead) : edge.Fits ahead rest := by
  cases edge with
  | branching => exact fun here => h ▸ here
  | loose => exact h

section

variable (words : Substitution related)
include words

theorem Substitution.headKind_append (h : List.Forall₂ related used other) (some : used ≠ [])
    (ahead rest : List Token) : headKind (other ++ rest) = headKind (used ++ ahead) := by
  cases h with
  | nil => exact absurd rfl some
  | cons first _ => exact words.kind first

theorem Edge.Fits.append (h : edge.Fits ahead rest) (same : List.Forall₂ related used other) :
    edge.Fits (used ++ ahead) (other ++ rest) := by
  by_cases some : used = []
  · subst some
    cases same
    exact h
  · exact fits_of_headKind (words.headKind_append same some ahead rest)

theorem Edge.Sees.headKind (sees : edge.Sees used) (same : List.Forall₂ related used other)
    (h : edge.Fits ahead rest) : headKind (other ++ rest) = headKind (used ++ ahead) := by
  rcases sees with rfl | some
  · exact h.append words same
  · exact words.headKind_append same some ahead rest

end

variable {α β : Type}

/-- For a text with other words in it the reader yields the value, and leaves what is behind. -/
def Repeats (related : Token → Token → Prop) (edge : Edge) (used ahead : List Token)
    (reader : Reader α) (value : α) : Prop :=
  ∃ other, List.Forall₂ related used other ∧ ∀ rest errors, edge.Fits ahead rest →
    reader ⟨other ++ rest, errors⟩ = .ok value ⟨rest, errors⟩

namespace Repeats

variable {reader behaved : Reader α} {next : α → Reader β} {value middle : α} {result : β}

theorem pure : Repeats related edge [] ahead (Pure.pure value : Reader α) value :=
  ⟨[], .nil, fun _ _ _ => rfl⟩

theorem of_branching (h : Repeats related .branching used ahead reader value) :
    Repeats related .loose used ahead reader value := by
  obtain ⟨other, same, reads⟩ := h
  exact ⟨other, same, fun rest errors fits =>
    reads rest errors (Edge.fits_of_headKind fits)⟩

variable (words : Substitution related)
include words

theorem bind (first : Repeats related edge used (more ++ ahead) reader middle)
    (second : Repeats related edge more ahead (next middle) result) :
    Repeats related edge (used ++ more) ahead (reader >>= next) result := by
  obtain ⟨other, same, reads⟩ := first
  obtain ⟨further, alike, goes⟩ := second
  refine ⟨other ++ further, List.rel_append same alike, fun rest errors fits => ?_⟩
  rw [List.append_assoc, bind_ok (reads _ errors (fits.append words alike))]
  exact goes rest errors fits

/-- Before a text with a token in it all edges are the same. -/
theorem before {inner : Edge} (first : Repeats related inner used (more ++ ahead) reader middle)
    (some : more ≠ []) (second : Repeats related edge more ahead (next middle) result) :
    Repeats related edge (used ++ more) ahead (reader >>= next) result := by
  obtain ⟨other, same, reads⟩ := first
  obtain ⟨further, alike, goes⟩ := second
  refine ⟨other ++ further, List.rel_append same alike, fun rest errors fits => ?_⟩
  have heads := words.headKind_append alike some ahead rest
  rw [List.append_assoc, bind_ok (reads _ errors (Edge.fits_of_headKind heads))]
  exact goes rest errors fits

/-- What goes on without taking anything. -/
theorem andThen (first : Repeats related edge used ahead reader middle)
    (second : Repeats related edge [] ahead (next middle) result) :
    Repeats related edge used ahead (reader >>= next) result := by
  rw [← List.append_nil used]
  exact .bind words first second

theorem map {make : α → β} (h : Repeats related edge used ahead reader value) :
    Repeats related edge used ahead (do return make (← reader)) (make value) :=
  h.andThen words .pure

/-- A reader that behaves as another at a kind of token. -/
theorem look (sees : edge.Sees used)
    (same : ∀ cursor, headKind cursor.ahead = headKind (used ++ ahead) →
      reader cursor = behaved cursor)
    (h : Repeats related edge used ahead behaved value) :
    Repeats related edge used ahead reader value := by
  obtain ⟨other, alike, reads⟩ := h
  refine ⟨other, alike, fun rest errors fits => ?_⟩
  rw [same _ (sees.headKind words alike fits)]
  exact reads rest errors fits

/-- A reader that takes a token and goes on as another. -/
theorem take {token word : Token} (stands : related token word)
    (same : word.kind = token.kind → ∀ rest errors,
      reader ⟨word :: rest, errors⟩ = behaved ⟨rest, errors⟩)
    (h : Repeats related edge used ahead behaved value) :
    Repeats related edge (token :: used) ahead reader value := by
  obtain ⟨other, alike, reads⟩ := h
  refine ⟨word :: other, .cons stands alike, fun rest errors fits => ?_⟩
  rw [List.cons_append, same (words.kind stands)]
  exact reads rest errors fits

section

variable {token word : Token} {kind : Token.Kind} {further : Token → Reader α}
  {decide : Bool → Reader α}

theorem expect {cause : SyntaxError.Cause} (stands : related token word)
    (hkind : token.kind = kind) (inside : kind ≠ .endOfInput)
    (h : Repeats related edge used ahead (further word) value) :
    Repeats related edge (token :: used) ahead (Grammar.expect kind cause >>= further) value :=
  take words stands (fun same _ _ => bind_ok (expect_cons (same.trans hkind) inside)) h

theorem expect_any {cause : SyntaxError.Cause} {behaved : Reader α} (hkind : token.kind = kind)
    (inside : kind ≠ .endOfInput) (h : Repeats related edge used ahead behaved value) :
    Repeats related edge (token :: used) ahead
      (Grammar.expect kind cause >>= fun _ => behaved) value := by
  obtain ⟨word, stands⟩ := words.total token
  exact expect words stands hkind inside h

theorem accepts (hkind : token.kind = kind) (inside : kind ≠ .endOfInput)
    (h : Repeats related edge used ahead (decide true) value) :
    Repeats related edge (token :: used) ahead (Grammar.accepts kind >>= decide) value := by
  obtain ⟨word, stands⟩ := words.total token
  exact take words stands (fun same _ _ => bind_ok (accepts_cons (same.trans hkind) inside)) h

theorem refuses (sees : edge.Sees used) (absent : headKind (used ++ ahead) ≠ kind)
    (h : Repeats related edge used ahead (decide false) value) :
    Repeats related edge used ahead (Grammar.accepts kind >>= decide) value :=
  look words sees (fun _ head => bind_ok (accepts_of_ne (head.trans_ne absent))) h

theorem acceptAny {kinds : List Token.Kind} {further : Option Token → Reader α}
    (stands : related token word) (member : token.kind ∈ kinds) (inside : .endOfInput ∉ kinds)
    (h : Repeats related edge used ahead (further (some word)) value) :
    Repeats related edge (token :: used) ahead (Grammar.acceptAny kinds >>= further) value := by
  refine take words stands (fun same rest errors => bind_ok (acceptAny_cons ?_ ?_)) h
  · exact same ▸ member
  · exact fun hend => inside (hend ▸ same ▸ member)

theorem refusesAny {kinds : List Token.Kind} {further : Option Token → Reader α}
    (sees : edge.Sees used) (absent : headKind (used ++ ahead) ∉ kinds)
    (h : Repeats related edge used ahead (further none) value) :
    Repeats related edge used ahead (Grammar.acceptAny kinds >>= further) value :=
  look words sees (fun _ head => bind_ok (acceptAny_of_notMem (head ▸ absent))) h

theorem isNext {answer : Bool} (sees : edge.Sees used)
    (found : answer = Decidable.decide (headKind (used ++ ahead) = kind))
    (h : Repeats related edge used ahead (decide answer) value) :
    Repeats related edge used ahead (Grammar.isNext kind >>= decide) value :=
  look words sees (fun _ head => bind_ok (found ▸ head ▸ isNext_eq)) h

theorem closes {answer : Bool} (sees : edge.Sees used)
    (found : answer = (Decidable.decide (headKind (used ++ ahead) = .rightBrace) ||
      Decidable.decide (headKind (used ++ ahead) = .endOfInput)))
    (h : Repeats related edge used ahead (decide answer) value) :
    Repeats related edge used ahead (Grammar.closes >>= decide) value :=
  look words sees (fun _ head => bind_ok (found ▸ head ▸ closes_eq)) h

end

end Repeats

/-! ## Readers in two texts -/

/-- For texts, with what is behind them, of no more than `rounds` tokens. -/
def Bounded (rounds : Nat) (meaning : Meaning α) : Meaning α :=
  fun used value ahead => (used ++ ahead).length ≤ rounds → meaning used value ahead

/-- Every value like the one that was read is what some other text is read as. -/
def Mirrors (related : Token → Token → Prop) (rounds : Nat) (edge : Edge) (alike : α → α → Prop)
    (again : Reader α) : Meaning α :=
  Bounded rounds fun used value ahead =>
    ∀ other, alike value other → Repeats related edge used ahead again other

/-- The meaning may refer to the text at the cursor. -/
theorem Outcome.here {cursor : Cursor} {least : Nat} {meaning : Meaning α}
    {result : EStateM.Result Stop Cursor α}
    (outcome : Outcome cursor least
      (fun used value ahead => cursor.ahead = used ++ ahead → meaning used value ahead) result) :
    Outcome cursor least meaning result := by
  match result, outcome with
  | .ok _ _, ⟨used, found, moves, enough, means⟩ =>
      exact ⟨used, found, moves, enough, fun clean => means clean moves.ahead⟩
  | .error .failed _, failed => exact failed
  | .error .tooDeep _, _ => trivial

namespace Reads

variable {reader : Reader α} {next : α → Reader β} {m n rounds fewer : Nat}
  {meaning stronger : Meaning α} {further : Meaning β}

theorem bounded (reads : Reads reader m meaning) : Reads reader m (Bounded rounds meaning) :=
  reads.mono (Nat.le_refl m) fun _ _ _ means _ => means

theorem bounded_mono (reads : Reads reader m (Bounded rounds stronger)) (bound : n ≤ m)
    (fewer_le : fewer ≤ rounds)
    (weaken : ∀ used value ahead, stronger used value ahead → meaning used value ahead) :
    Reads reader n (Bounded fewer meaning) :=
  reads.mono bound fun used value ahead means short =>
    weaken used value ahead (means (Nat.le_trans short fewer_le))

theorem bind_bounded (first : Reads reader m (Bounded rounds meaning))
    (second : ∀ result, Reads (next result) n (Bounded rounds fun used value ahead =>
      ∀ before, meaning before result (used ++ ahead) → further (before ++ used) value ahead)) :
    Reads (reader >>= next) (m + n) (Bounded rounds further) := by
  refine first.bind fun result => (second result).mono (Nat.le_refl n) ?_
  intro used value ahead means before given short
  rw [List.append_assoc] at short
  refine means (Nat.le_trans ?_ short) before (given short)
  simp only [List.length_append]
  omega

theorem map_bounded {make : α → β} (first : Reads reader m (Bounded rounds meaning))
    (means : ∀ used result ahead, meaning used result ahead →
      further used (make result) ahead) :
    Reads (do return make (← reader)) m (Bounded rounds further) :=
  first.map fun used result ahead given short => means used result ahead (given short)

theorem advance_bounded {next : Unit → Reader β} {cursor : Cursor}
    (inside : cursor.peek.kind ≠ .endOfInput)
    (rest : Reads (next ()) m (Bounded rounds fun used value ahead =>
      further (cursor.peek :: used) value ahead)) :
    Outcome cursor (1 + m) (Bounded rounds further) ((Grammar.advance >>= next) cursor) :=
  advance_bind inside (rest.mono (Nat.le_refl m) fun _ _ _ means short =>
    means (Nat.le_of_succ_le short))

theorem some_used (reads : Reads reader (m + 1) meaning) :
    Reads reader (m + 1) fun used value ahead => used ≠ [] ∧ meaning used value ahead := by
  intro cursor
  have outcome := reads cursor
  match reader cursor, outcome with
  | .ok _ _, ⟨used, found, moves, enough, means⟩ =>
      exact ⟨used, found, moves, enough, fun clean =>
        ⟨List.ne_nil_of_length_pos (Nat.lt_of_lt_of_le (Nat.succ_pos m) enough), means clean⟩⟩
  | .error .failed _, failed => exact failed
  | .error .tooDeep _, _ => trivial

theorem some_used_bounded (reads : Reads reader (m + 1) (Bounded rounds meaning)) :
    Reads reader 0 (Bounded rounds fun used value ahead =>
      used ≠ [] ∧ meaning used value ahead) :=
  reads.some_used.mono (Nat.zero_le _) fun _ _ _ means short => ⟨means.1, means.2 short⟩

end Reads

section

variable (words : Substitution related) {alike : α → α → Prop} {rounds wide m : Nat}
  {reader again : Reader α} {kind : Token.Kind}
include words

theorem expect_mirrors (cause : SyntaxError.Cause) (inside : kind ≠ .endOfInput) {edge : Edge} :
    Reads (expect kind cause) 1 (Mirrors related rounds edge related (expect kind cause)) := by
  refine (Reads.expect kind cause inside).mono (Nat.le_refl 1) ?_
  rintro used token ahead ⟨rfl, hkind⟩ _ word stands
  exact .take words stands (fun same _ _ => expect_cons (same.trans hkind) inside) .pure

/-! ## Optional parts -/

theorem optionally_isNext_mirrors
    (reads : Reads reader (m + 1) (Mirrors related rounds .loose alike again)) :
    Reads (optionally (isNext kind) reader) 0 (Mirrors related rounds .loose (Option.Rel alike)
      (optionally (isNext kind) again)) := by
  refine (Reads.optionally_isNext kind reads.some_used).mono (Nat.le_refl 0) ?_
  intro used result ahead means short other same
  cases same with
  | none =>
      obtain ⟨rfl, here⟩ := means
      exact .isNext words (.inl rfl) (decide_eq_true here).symm .pure
  | some same =>
      obtain ⟨elsewhere, some, means⟩ := means
      exact .isNext words (.inr some) (decide_eq_false elsewhere).symm
        ((means short _ same).map words)

/-- A part that begins at a token of its own. Whatever the edge, it tells whether such a token is behind the text. -/
theorem optionally_accepts_mirrors {edge : Edge} (inside : kind ≠ .endOfInput)
    (tells : ∀ ahead rest, edge.Fits ahead rest → headKind ahead ≠ kind → headKind rest ≠ kind)
    (reads : Reads reader m (Mirrors related rounds edge alike again)) :
    Reads (optionally (do return !(← accepts kind)) reader) 0
      (Mirrors related rounds edge (Option.Rel alike)
        (optionally (do return !(← accepts kind)) again)) := by
  refine (Reads.optionally_accepts kind inside reads).mono (Nat.le_refl 0) ?_
  intro used result ahead means short other same
  cases same with
  | none =>
      obtain ⟨rfl, absent⟩ := means
      exact ⟨[], .nil, fun rest errors fits =>
        optionally_skipped (skips_of_ne (tells ahead rest fits absent))⟩
  | some same =>
      obtain ⟨token, text, rfl, hkind, means⟩ := means
      rw [List.cons_append, List.length_cons] at short
      obtain ⟨word, stands⟩ := words.total token
      refine .take words stands (fun alike rest errors => ?_)
        ((means (Nat.le_of_succ_le short) _ same).map words)
      exact bind_ok (skips_cons (alike.trans hkind) inside)

/-! ## Loops -/

/-- A round of a loop takes some text and yields a next state, or ends the loop. Read again, it comes to every state
like the next one from one like its own. -/
def RoundMirrors (related : Token → Token → Prop) (alike : α → α → Prop)
    (again : α → Reader (Option α)) (state : α) : Meaning (Option α)
  | used, some next, ahead => used ≠ [] ∧ ∀ following, alike next following →
      ∃ current, alike state current ∧
        Repeats related .loose used ahead (again current) (some following)
  | used, none, ahead => used = [] ∧ ∀ current, alike state current →
      Repeats related .loose [] ahead (again current) none

theorem Repeats.ended {again : α → Reader (Option α)} {current : α}
    (stops : Repeats related .loose [] ahead (again current) none) (rounds : Nat) :
    Repeats related .loose [] ahead (iterate again rounds current) current := by
  cases rounds with
  | zero => exact .pure
  | succ rounds => exact stops.andThen words .pure

theorem iterate_mirrors {round again : α → Reader (Option α)}
    (step : ∀ state, Reads (round state) 0
      (Bounded rounds (RoundMirrors related alike again state)))
    (idle : ∀ current, Repeats related .loose [] [] (again current) none) (fewer wide : Nat)
    (fewer_le : fewer ≤ rounds) (fewer_le_wide : fewer ≤ wide) (state : α) :
    Reads (iterate round fewer state) 0 (Bounded fewer fun used last ahead =>
      ∀ final, alike last final → ∃ current, alike state current ∧
        Repeats related .loose used ahead (iterate again wide current) final) := by
  induction fewer generalizing wide state with
  | zero =>
      refine Reads.pure fun ahead short final same => ⟨final, same, ?_⟩
      cases List.eq_nil_of_length_eq_zero (Nat.le_zero.mp short)
      exact (idle final).ended words wide
  | succ fewer ih =>
      refine (step state).bind (n := 0) fun result => ?_
      cases result with
      | none =>
          refine Reads.pure fun ahead before means short final same => ⟨final, same, ?_⟩
          rw [List.append_nil] at short
          obtain ⟨rfl, stops⟩ := means (Nat.le_trans short fewer_le)
          exact (stops final same).ended words wide
      | some next =>
          obtain ⟨wide, rfl⟩ : ∃ less, wide = less + 1 := ⟨wide - 1, by omega⟩
          refine (ih wide (by omega) (by omega) next).mono (Nat.le_refl 0) ?_
          intro used last ahead rest before means short final same
          rw [List.append_assoc] at short
          obtain ⟨some, first⟩ := means (Nat.le_trans short fewer_le)
          rw [List.length_append] at short
          have := List.length_pos_iff.mpr some
          obtain ⟨following, alike_following, goes⟩ := rest (by omega) final same
          obtain ⟨current, alike_current, begins⟩ := first following alike_following
          exact ⟨current, alike_current, .bind words begins goes⟩

/-! ## Lists -/

omit words in
/-- Arrays with like entries in the same places. -/
def Entries (alike : α → α → Prop) (values others : Array α) : Prop :=
  List.Forall₂ alike values.toList others.toList

omit words in
theorem Entries.of_push {values others : Array α} {value : α}
    (h : Entries alike (values.push value) others) :
    ∃ firsts last, others = firsts.push last ∧ Entries alike values firsts ∧
      alike value last := by
  obtain ⟨others⟩ := others
  rw [Entries, Array.toList_push, ← List.forall₂_reverse_iff, List.reverse_concat] at h
  cases hothers : others.reverse with
  | nil => rw [hothers] at h; cases h
  | cons last firsts =>
      rw [hothers] at h
      obtain _ | ⟨hlast, hfirsts⟩ := h
      refine ⟨firsts.reverse.toArray, last, ?_, ?_, hlast⟩
      · rw [List.push_toArray, ← List.reverse_cons, ← hothers, List.reverse_reverse]
      · rw [Entries, ← List.forall₂_reverse_iff, List.reverse_reverse]
        exact hfirsts

omit words in
theorem Entries.size {values others : Array α} (h : Entries alike values others) :
    others.size = values.size := by
  rw [← Array.length_toList, ← Array.length_toList]
  exact h.length_eq.symm

omit words in
theorem Entries.of_singleton {value : α} {others : Array α} (h : Entries alike #[value] others) :
    ∃ other, others = #[other] ∧ alike value other := by
  have pushed : Entries alike ((#[] : Array α).push value) others := h
  obtain ⟨firsts, last, rfl, hfirsts, hlast⟩ := pushed.of_push
  cases Array.eq_empty_of_size_eq_zero hfirsts.size
  exact ⟨last, rfl, hlast⟩

omit words in
theorem commaList_unfold (rounds : Nat) (entry : Reader α) (tooMany : SyntaxError.Cause) :
    commaList rounds entry tooMany = do
      let first ← entry
      let values ← iterate (commaRound entry tooMany) rounds #[first]
      return values.toList :=
  rfl

theorem commaRound_mirrors (tooMany : SyntaxError.Cause) (values : Array α)
    (entry : Reads reader 1 (Mirrors related rounds .loose alike again)) :
    Reads (commaRound reader tooMany values) 0 (Bounded rounds
      (RoundMirrors related (Entries alike) (commaRound again tooMany) values)) := by
  refine (Reads.accepts .comma (by decide)).bounded.bind_bounded (n := 0) fun more => ?_
  cases more with
  | false =>
      refine Reads.pure fun ahead _ before ⟨nothing, absent⟩ => ?_
      subst nothing
      exact ⟨rfl, fun current _ => .refuses words (.inl rfl) absent .pure⟩
  | true =>
      have push : Reads (do return some (values.push (← reader))) 0 (Bounded rounds
          fun used next ahead => ∃ value, next = some (values.push value) ∧
            ∀ other, alike value other → Repeats related .loose used ahead again other) :=
        (entry.map_bounded fun _ value _ means => ⟨value, rfl, means⟩).some_or_none
      simp only [if_true]
      split
      · refine Reads.peek_bind fun cursor => ?_
        exact ((Reads.report _ _ fun _ _ _ => False).bind fun _ =>
          push.mono (Nat.le_refl 0) fun _ _ _ _ _ impossible => impossible.elim) cursor
      · next small =>
        refine push.bounded_mono (Nat.le_refl 0) (Nat.le_refl rounds) ?_
        rintro used next ahead ⟨value, rfl, means⟩ before ⟨comma, rfl, hcomma⟩
        refine ⟨List.cons_ne_nil _ _, fun following same => ?_⟩
        obtain ⟨current, last, rfl, hcurrent, hlast⟩ := same.of_push
        refine ⟨current, hcurrent, .accepts words hcomma (by decide) ?_⟩
        rw [if_pos rfl, if_neg (hcurrent.size ▸ small)]
        exact (means last hlast).map words

/-- A list of entries with commas: each entry is read again, and between them the commas. -/
theorem commaList_mirrors (tooMany : SyntaxError.Cause) (fewer_le : rounds ≤ wide)
    (entry : Reads reader 1 (Mirrors related rounds .loose alike again)) :
    Reads (commaList rounds reader tooMany) 1
      (Mirrors related rounds .loose (List.Forall₂ alike) (commaList wide again tooMany)) := by
  have idle (current : Array α) :
      Repeats related .loose [] [] (commaRound again tooMany current) none :=
    .refuses words (.inl rfl) (by decide) .pure
  have loop := iterate_mirrors words (fun state => commaRound_mirrors words tooMany state entry)
    idle rounds wide (Nat.le_refl rounds) fewer_le
  rw [commaList_unfold, commaList_unfold]
  refine entry.bind_bounded (n := 0) fun value => ?_
  refine (loop #[value]).map_bounded fun used values ahead rest text means others same => ?_
  obtain ⟨current, hcurrent, goes⟩ := rest others.toArray same
  obtain ⟨other, rfl, hvalue⟩ := hcurrent.of_singleton
  exact (means other hvalue).bind words (goes.map words)

end

end LoxLang.Grammar
