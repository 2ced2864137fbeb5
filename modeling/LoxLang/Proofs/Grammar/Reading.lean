import LoxLang.Proofs.Grammar.Derivation
import LoxLang.Proofs.Sequence

/-!
What readers do to a cursor, whatever is ahead of it. A reader takes tokens from the text ahead, never the
final one, and adds to the errors. `Reads` states this together with what the tokens taken mean when
no error was found among them; a reader made of others is treated in the same order as it reads.
-/

namespace LoxLang.Grammar

def headKind (text : List Token) : Token.Kind :=
  (text.headD (.final 1)).kind

@[simp] theorem headKind_cons (token : Token) (rest : List Token) :
    headKind (token :: rest) = token.kind := rfl

theorem Cursor.kind_peek (cursor : Cursor) : cursor.peek.kind = headKind cursor.ahead := rfl

theorem Cursor.atEnd_eq_true {cursor : Cursor} : cursor.atEnd = true ↔ headKind cursor.ahead = .endOfInput := by
  rw [Cursor.atEnd, decide_eq_true_iff, Cursor.kind_peek]

theorem Cursor.atEnd_eq_false {cursor : Cursor} :
    cursor.atEnd = false ↔ headKind cursor.ahead ≠ .endOfInput := by
  rw [← Bool.not_eq_true, Cursor.atEnd_eq_true]

/-- From one cursor to another the tokens `used` were taken and the errors `found` recorded. -/
structure Cursor.Moves (before after : Cursor) (used : List Token)
    (found : List SyntaxError) : Prop where
  ahead : before.ahead = used ++ after.ahead
  errors : after.errors.toList = before.errors.toList ++ found
  inner : ∀ token ∈ used, token.kind ≠ .endOfInput

namespace Cursor.Moves

variable {before middle after : Cursor} {used more : List Token}
  {found further : List SyntaxError}

theorem refl (cursor : Cursor) : cursor.Moves cursor [] [] where
  ahead := rfl
  errors := (List.append_nil _).symm
  inner := fun _ member => nomatch member

theorem trans (first : before.Moves middle used found)
    (second : middle.Moves after more further) :
    before.Moves after (used ++ more) (found ++ further) where
  ahead := by rw [first.ahead, second.ahead, List.append_assoc]
  errors := by rw [second.errors, first.errors, List.append_assoc]
  inner := by
    intro token member
    rcases List.mem_append.mp member with member | member
    · exact first.inner token member
    · exact second.inner token member

theorem report (cursor : Cursor) (token : Token) (cause : SyntaxError.Cause) :
    cursor.Moves (cursor.report token cause) [] [⟨cause, token⟩] where
  ahead := rfl
  errors := by simp [Cursor.report]
  inner := fun _ member => nomatch member

theorem advance (cursor : Cursor) (inside : cursor.peek.kind ≠ .endOfInput) :
    cursor.Moves cursor.advance [cursor.peek] [] := by
  obtain ⟨ahead, errors⟩ := cursor
  cases ahead with
  | nil => exact absurd rfl inside
  | cons token rest =>
      have hkind : token.kind ≠ .endOfInput := inside
      refine ⟨?_, ?_, ?_⟩
      · simp [Cursor.advance, Cursor.peek, hkind]
      · simp [Cursor.advance, hkind]
      · intro other member
        rw [List.mem_singleton] at member
        subst member
        exact inside

end Cursor.Moves

/-- A relation between the text that was read, what it was read as, and the text then ahead. -/
abbrev Meaning (α : Type) := List Token → α → List Token → Prop

variable {α β : Type}

/-- A reader that succeeds takes `least` tokens or more, and one that fails records an error. Nothing is
said about a reader that gives up. -/
def Outcome (cursor : Cursor) (least : Nat) (meaning : Meaning α) :
    EStateM.Result Stop Cursor α → Prop
  | .ok result next =>
      ∃ used found, cursor.Moves next used found ∧ least ≤ used.length ∧
        (found = [] → meaning used result next.ahead)
  | .error .failed next => ∃ used found, cursor.Moves next used found ∧ found ≠ []
  | .error .tooDeep _ => True

def Reads (reader : Reader α) (least : Nat) (meaning : Meaning α) : Prop :=
  ∀ cursor, Outcome cursor least meaning (reader cursor)

/-! ## Single tokens -/

section

variable {cursor : Cursor} {token : Token} {rest : List Token} {errors : Array SyntaxError}
  {kind : Token.Kind}

theorem peek_eq : peek cursor = .ok cursor.peek cursor := rfl

theorem advance_cons (inside : token.kind ≠ .endOfInput) :
    Cursor.advance ⟨token :: rest, errors⟩ = ⟨rest, errors⟩ := by
  simp [Cursor.advance, inside]

theorem acceptAny_of_mem {kinds : List Token.Kind} (member : cursor.peek.kind ∈ kinds) :
    acceptAny kinds cursor = .ok (some cursor.peek) cursor.advance := by
  simp [acceptAny, member]

theorem acceptAny_of_notMem {kinds : List Token.Kind} (member : headKind cursor.ahead ∉ kinds) :
    acceptAny kinds cursor = .ok none cursor := by
  rw [← Cursor.kind_peek] at member
  simp [acceptAny, member]

theorem accept_of_kind (h : cursor.peek.kind = kind) :
    accept kind cursor = .ok (some cursor.peek) cursor.advance :=
  acceptAny_of_mem (List.mem_singleton.mpr h)

theorem accept_of_ne (h : headKind cursor.ahead ≠ kind) : accept kind cursor = .ok none cursor :=
  acceptAny_of_notMem (by rwa [List.mem_singleton])

theorem accepts_of_kind (h : cursor.peek.kind = kind) :
    accepts kind cursor = .ok true cursor.advance := by
  rw [accepts, bind_ok (accept_of_kind h)]
  rfl

theorem accepts_of_ne (h : headKind cursor.ahead ≠ kind) :
    accepts kind cursor = .ok false cursor := by
  rw [accepts, bind_ok (accept_of_ne h)]
  rfl

theorem expect_of_kind {cause : SyntaxError.Cause} (h : cursor.peek.kind = kind) :
    expect kind cause cursor = .ok cursor.peek cursor.advance := by
  rw [expect, bind_ok (accept_of_kind h)]
  rfl

theorem isNext_eq : isNext kind cursor = .ok (decide (headKind cursor.ahead = kind)) cursor :=
  rfl

theorem closes_eq : closes cursor = .ok (decide (headKind cursor.ahead = .rightBrace) ||
    decide (headKind cursor.ahead = .endOfInput)) cursor :=
  rfl

end

/-! ## Outcomes -/

theorem Outcome.mono {cursor : Cursor} {least more : Nat} {meaning stronger : Meaning α}
    {result : EStateM.Result Stop Cursor α} (outcome : Outcome cursor more stronger result)
    (bound : least ≤ more)
    (weaken : ∀ used value ahead, stronger used value ahead → meaning used value ahead) :
    Outcome cursor least meaning result := by
  match result, outcome with
  | .ok _ _, ⟨used, found, moves, enough, means⟩ =>
      exact ⟨used, found, moves, by omega, fun clean => weaken _ _ _ (means clean)⟩
  | .error .failed _, failed => exact failed
  | .error .tooDeep _, _ => trivial

theorem Outcome.after {cursor middle : Cursor} {used : List Token} {found : List SyntaxError}
    {first least : Nat} {meaning : Meaning α} {result : EStateM.Result Stop Cursor α}
    (moves : cursor.Moves middle used found) (enough : first ≤ used.length)
    (outcome : Outcome middle least
      (fun more value ahead =>
        middle.ahead = more ++ ahead → found = [] → meaning (used ++ more) value ahead) result) :
    Outcome cursor (first + least) meaning result := by
  match result, outcome with
  | .ok value next, ⟨more, further, moved, bound, means⟩ =>
      refine ⟨used ++ more, found ++ further, moves.trans moved, ?_, ?_⟩
      · rw [List.length_append]
        omega
      · intro clean
        obtain ⟨hfound, hfurther⟩ := List.append_eq_nil_iff.mp clean
        exact means hfurther moved.ahead hfound
  | .error .failed next, ⟨more, further, moved, failed⟩ =>
      refine ⟨used ++ more, found ++ further, moves.trans moved, ?_⟩
      intro clean
      exact failed (List.append_eq_nil_iff.mp clean).2
  | .error .tooDeep _, _ => trivial

namespace Reads

variable {reader : Reader α} {next : α → Reader β} {m n : Nat}
  {meaning stronger : Meaning α} {further : Meaning β}

theorem mono (reads : Reads reader n stronger) (bound : m ≤ n)
    (weaken : ∀ used result ahead,
      stronger used result ahead → meaning used result ahead) :
    Reads reader m meaning :=
  fun cursor => (reads cursor).mono bound weaken

theorem some_or_none (reads : Reads reader m meaning) : Reads reader 0 meaning :=
  reads.mono (Nat.zero_le m) fun _ _ _ => id

theorem bind (first : Reads reader m meaning)
    (second : ∀ result, Reads (next result) n fun used value ahead =>
      ∀ before, meaning before result (used ++ ahead) → further (before ++ used) value ahead) :
    Reads (reader >>= next) (m + n) further := by
  intro cursor
  have outcome := first cursor
  cases hresult : reader cursor with
  | ok value middle =>
      rw [hresult] at outcome
      obtain ⟨used, found, moves, enough, means⟩ := outcome
      rw [bind_ok hresult]
      refine Outcome.after moves enough ((second value middle).mono (Nat.le_refl _) ?_)
      intro more result ahead rest hahead clean
      exact rest used (hahead ▸ means clean)
  | error stop middle =>
      rw [hresult] at outcome
      rw [bind_error hresult]
      cases stop with
      | failed => exact outcome
      | tooDeep => trivial

theorem pure {value : α} (means : ∀ ahead, meaning [] value ahead) :
    Reads (Pure.pure value) 0 meaning :=
  fun cursor => ⟨[], [], .refl cursor, Nat.le_refl _, fun _ => means _⟩

theorem map {make : α → β} (first : Reads reader m meaning)
    (means : ∀ used result ahead, meaning used result ahead →
      further used (make result) ahead) :
    Reads (do return make (← reader)) m further := by
  refine first.bind (n := 0) fun result => pure fun ahead before given => ?_
  rw [List.append_nil]
  exact means before result ahead given

theorem tooDeep : Reads (Grammar.tooDeep : Reader α) m meaning :=
  fun _ => trivial

theorem fail (cause : SyntaxError.Cause) : Reads (Grammar.fail cause) m meaning :=
  fun cursor => ⟨[], _, .report cursor _ cause, List.cons_ne_nil _ _⟩

theorem report (token : Token) (cause : SyntaxError.Cause) (meaning : Meaning Unit) :
    Reads (Grammar.report token cause) 0 meaning :=
  fun cursor => ⟨[], _, .report cursor token cause, Nat.le_refl _, fun clean => nomatch clean⟩

theorem isNext (kind : Token.Kind) : Reads (Grammar.isNext kind) 0 fun used result ahead =>
    used = [] ∧ result = decide (headKind ahead = kind) :=
  fun cursor => ⟨[], [], .refl cursor, Nat.le_refl _, fun _ => ⟨rfl, rfl⟩⟩

theorem closes : Reads Grammar.closes 0 fun used result ahead => used = [] ∧
    result = (decide (headKind ahead = .rightBrace) || decide (headKind ahead = .endOfInput)) :=
  fun cursor => ⟨[], [], .refl cursor, Nat.le_refl _, fun _ => ⟨rfl, rfl⟩⟩

theorem peek_bind {next : Token → Reader β}
    (at_ : ∀ cursor, Outcome cursor m further (next cursor.peek cursor)) :
    Reads (Grammar.peek >>= next) m further :=
  at_

theorem acceptAny (kinds : List Token.Kind) (inside : Token.Kind.endOfInput ∉ kinds) :
    Reads (Grammar.acceptAny kinds) 0 fun used result ahead =>
      match result with
      | some token => used = [token] ∧ token.kind ∈ kinds
      | none => used = [] ∧ headKind ahead ∉ kinds := by
  intro cursor
  by_cases member : cursor.peek.kind ∈ kinds
  · have hinside : cursor.peek.kind ≠ .endOfInput := fun hend => inside (hend ▸ member)
    rw [acceptAny_of_mem member]
    exact ⟨[cursor.peek], [], .advance cursor hinside, Nat.zero_le _, fun _ => ⟨rfl, member⟩⟩
  · rw [acceptAny_of_notMem member]
    exact ⟨[], [], .refl cursor, Nat.le_refl _, fun _ => ⟨rfl, member⟩⟩

theorem accept (kind : Token.Kind) (inside : kind ≠ .endOfInput) :
    Reads (Grammar.accept kind) 0 fun used result ahead =>
      match result with
      | some token => used = [token] ∧ token.kind = kind
      | none => used = [] ∧ headKind ahead ≠ kind := by
  refine (acceptAny [kind] ?_).mono (Nat.le_refl _) ?_
  · rw [List.mem_singleton]
    exact inside.symm
  · intro used result ahead means
    cases result with
    | some token => simpa using means
    | none => simpa using means

theorem accepts (kind : Token.Kind) (inside : kind ≠ .endOfInput) :
    Reads (Grammar.accepts kind) 0 fun used result ahead =>
      if result then ∃ token, used = [token] ∧ token.kind = kind
      else used = [] ∧ headKind ahead ≠ kind := by
  refine (accept kind inside).map fun used result ahead means => ?_
  cases result with
  | some token => exact ⟨token, means⟩
  | none => exact means

theorem expect (kind : Token.Kind) (cause : SyntaxError.Cause) (inside : kind ≠ .endOfInput) :
    Reads (Grammar.expect kind cause) 1 fun used token _ =>
      used = [token] ∧ token.kind = kind := by
  intro cursor
  by_cases hkind : cursor.peek.kind = kind
  · rw [expect_of_kind hkind]
    exact ⟨[cursor.peek], [], .advance cursor (hkind ▸ inside), Nat.le_refl _,
      fun _ => ⟨rfl, hkind⟩⟩
  · rw [Grammar.expect, bind_ok (accept_of_ne hkind)]
    exact ⟨[], _, .report cursor _ cause, List.cons_ne_nil _ _⟩

theorem advance_bind {next : Unit → Reader β} {cursor : Cursor}
    (inside : cursor.peek.kind ≠ .endOfInput)
    (rest : Reads (next ()) m fun used value ahead =>
      further (cursor.peek :: used) value ahead) :
    Outcome cursor (1 + m) further ((Grammar.advance >>= next) cursor) := by
  have step : Grammar.advance cursor = .ok () cursor.advance := rfl
  rw [bind_ok step]
  refine Outcome.after (.advance cursor inside) (Nat.le_refl _)
    ((rest cursor.advance).mono (Nat.le_refl _) ?_)
  intro used value ahead means _ _
  exact means

theorem optionally_isNext (kind : Token.Kind) (reads : Reads reader m meaning) :
    Reads (optionally (Grammar.isNext kind) reader) 0 fun used result ahead =>
      match result with
      | some value => headKind (used ++ ahead) ≠ kind ∧ meaning used value ahead
      | none => used = [] ∧ headKind ahead = kind := by
  refine (isNext kind).bind (n := 0) fun skip => ?_
  cases skip with
  | true =>
      refine pure fun _ before found => ?_
      rw [List.append_nil]
      exact ⟨found.1, of_decide_eq_true found.2.symm⟩
  | false =>
      refine reads.some_or_none.map fun used value ahead means before found => ?_
      rw [found.1]
      exact ⟨of_decide_eq_false found.2.symm, means⟩

theorem optionally_accepts (kind : Token.Kind) (inside : kind ≠ .endOfInput)
    (reads : Reads reader m meaning) :
    Reads (optionally (do return !(← Grammar.accepts kind)) reader) 0
      fun used result ahead =>
        match result with
        | some value => ∃ token text, used = token :: text ∧ token.kind = kind ∧
            meaning text value ahead
        | none => used = [] ∧ headKind ahead ≠ kind := by
  have skips : Reads (do return !(← Grammar.accepts kind)) 0 fun used skip ahead =>
      if skip then used = [] ∧ headKind ahead ≠ kind
      else ∃ token, used = [token] ∧ token.kind = kind := by
    refine (accepts kind inside).map fun used taken ahead means => ?_
    cases taken <;> exact means
  refine skips.bind (n := 0) fun skip => ?_
  cases skip with
  | true => exact pure fun _ before nothing => by rwa [List.append_nil]
  | false =>
      refine reads.some_or_none.map fun used value ahead means before taken => ?_
      obtain ⟨token, rfl, hkind⟩ := taken
      exact ⟨token, used, rfl, hkind, means⟩

/-- What every round of a loop keeps true of the text that the loop has read and of its state is true at
the end. -/
theorem iterate {round : α → Reader (Option α)} (kept : List Token → α → Prop)
    (step : ∀ state, Reads (round state) 0 fun used next _ =>
      ∀ before, kept before state → kept (before ++ used) (next.getD state)) :
    ∀ (rounds : Nat) (state : α), Reads (Grammar.iterate round rounds state) 0
      fun used last _ => ∀ before, kept before state → kept (before ++ used) last
  | 0, state => pure fun _ before given => by rwa [List.append_nil]
  | rounds + 1, state => by
      refine (step state).bind (n := 0) fun next => ?_
      cases next with
      | some next =>
          refine (iterate kept step rounds next).mono (Nat.le_refl _) ?_
          intro used last _ rest before first earlier given
          rw [← List.append_assoc]
          exact rest _ (first earlier given)
      | none =>
          refine pure fun _ before first earlier given => ?_
          rw [List.append_nil]
          exact first earlier given

/-- A list with commas has its entries in order, and no more of them than allowed. -/
theorem commaList {entry : Reader α} (means : List Token → α → Prop) (rounds : Nat)
    (tooMany : SyntaxError.Cause)
    (first : Reads entry 1 fun used value _ => means used value) :
    Reads (Grammar.commaList rounds entry tooMany) 1 fun used values _ =>
      ∃ entries : List (List Token × α), Listing (entries.map Prod.fst) used ∧
        (∀ entry ∈ entries, means entry.1 entry.2) ∧ entries.length ≤ maxArguments ∧
        entries.map Prod.snd = values := by
  let kept (text : List Token) (values : Array α) : Prop :=
    ∃ entries : List (List Token × α), entries ≠ [] ∧
      Listing (entries.map Prod.fst) text ∧ (∀ entry ∈ entries, means entry.1 entry.2) ∧
      entries.length ≤ maxArguments ∧ entries.map Prod.snd = values.toList
  refine first.bind (n := 0) fun value => ?_
  refine (iterate kept ?_ rounds (Array.singleton value)).bind (n := 0) ?_
  · intro values
    refine (accepts .comma (by decide)).bind (n := 0) fun more => ?_
    cases more with
    | false =>
        refine pure fun _ before comma earlier given => ?_
        rw [List.append_nil, comma.1, List.append_nil]
        exact given
    | true =>
        have push : Reads (do return some (values.push (← entry))) 0 fun used next _ =>
            ∃ value, next = some (values.push value) ∧ means used value :=
          (first.map fun used value _ means => ⟨value, rfl, means⟩).mono (Nat.zero_le _)
            fun _ _ _ => id
        simp only [if_true]
        split
        · refine peek_bind fun cursor => ?_
          exact ((report _ _ fun _ _ _ => False).bind fun _ =>
            push.mono (Nat.le_refl 0) fun _ _ _ _ _ impossible => impossible.elim) cursor
        · next small =>
          refine push.mono (Nat.le_refl _) ?_
          rintro used next _ ⟨value, rfl, hvalue⟩ before ⟨comma, rfl, hcomma⟩ earlier
            ⟨entries, nonempty, listing, hmeans, -, hvalues⟩
          have hlength : entries.length = values.size := by
            rw [← Array.length_toList, ← hvalues, List.length_map]
          refine ⟨entries ++ [(used, value)], ?_, ?_, ?_, ?_, ?_⟩
          · exact fun h => nonempty (List.append_eq_nil_iff.mp h).1
          · rw [List.map_append]
            exact .more (by simpa using nonempty) listing hcomma
          · intro entry member
            rcases List.mem_append.mp member with member | member
            · exact hmeans entry member
            · rw [List.mem_singleton.mp member]
              exact hvalue
          · rw [List.length_append, hlength]
            exact Nat.lt_of_not_le small
          · simp [hvalues]
  · intro values
    refine pure fun _ before loop earlier hvalue => ?_
    have start : kept earlier (Array.singleton value) :=
      ⟨[(earlier, value)], List.cons_ne_nil _ _, .one, by simpa using hvalue,
        Nat.le_of_ble_eq_true rfl, rfl⟩
    obtain ⟨entries, -, listing, hmeans, bound, hvalues⟩ := loop earlier start
    rw [List.append_nil]
    exact ⟨entries, listing, hmeans, bound, hvalues⟩

end Reads

end LoxLang.Grammar
