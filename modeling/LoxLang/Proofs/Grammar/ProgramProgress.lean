import LoxLang.Proofs.Grammar.Progress

/-!
The parser gets on and comes to an end. It stays within its text, of which it never takes the final token; each
declaration that is begun before the end takes a token; so no loop is ever stopped by the number of rounds it is
allowed, and unless something nests too deeply the text is read to its end.
-/

namespace LoxLang.Grammar

variable {α : Type} {rounds depth : Nat} {cursor start last : Cursor}

/-! ## Loops -/

/-- The rounds of all loops of the parser. -/
inductive Repeated (rounds : Nat) : {α : Type} → (α → Reader (Option α)) → Prop
  | operation (level : Level) (depth : Nat) : Repeated rounds (operationRound rounds level depth)
  | call (depth : Nat) : Repeated rounds (callRound rounds depth)
  | arguments (depth : Nat) : Repeated rounds (commaRound (expression rounds depth) .tooManyArguments)
  | parameters : Repeated rounds (commaRound (expect .identifier .parameterName) .tooManyParameters)
  | block (depth : Nat) : Repeated rounds (blockRound rounds depth)
  | class (depth : Nat) : Repeated rounds (classRound rounds depth)
  | program (depth : Nat) : Repeated rounds (programRound rounds depth)

theorem Repeated.shortens {round : α → Reader (Option α)} (h : Repeated rounds round) : Shortens round := by
  cases h with
  | operation level depth => exact shortens_operationRound rounds level depth
  | call depth => exact shortens_callRound rounds depth
  | arguments depth => exact shortens_commaRound (expressionReads rounds depth).expression _
  | parameters => exact shortens_commaRound (Reads.expect .identifier .parameterName (by decide)) _
  | block depth => exact shortens_blockRound rounds depth
  | «class» depth => exact shortens_classRound rounds depth
  | program depth => exact shortens_programRound rounds depth

theorem Repeated.proceeds {round : α → Reader (Option α)} (h : Repeated rounds round) (state : α) :
    Proceeds rounds (round state) (round state) := by
  have expressions := expressionsProceed (Nat.le_refl rounds)
  have statements := statementsProceed (Nat.le_refl rounds)
  cases h with
  | operation level depth => exact (expressions depth).operationRound level state
  | call depth => exact (expressions depth).callRound state
  | arguments depth => exact (expressions depth).expression.commaRound _ state
  | parameters => exact (Proceeds.expect _ _).commaRound _ state
  | block depth => exact (statements depth).blockRound state
  | «class» depth => exact (statements depth).classRound state
  | program depth => exact (statements depth).programRound state

theorem Repeated.loops {round : α → Reader (Option α)} (h : Repeated rounds round) (state : α)
    (inside : cursor.Inside rounds) : Loops round state cursor (iterate round rounds state cursor) :=
  loops_iterate h.proceeds h.shortens (Nat.le_refl rounds) state inside

theorem programRound_eq (statements : Array Stmt) (cursor : Cursor) :
    programRound rounds depth statements cursor =
      if cursor.atEnd then .ok none cursor
      else match declaration rounds depth cursor with
        | .ok (some stmt) next => .ok (some (statements.push stmt)) next
        | .ok none next => .ok (some statements) next
        | .error stop next => .error stop next := by
  have look : isNext .endOfInput cursor = .ok cursor.atEnd cursor := isNext_eq
  rw [programRound, bind_ok look]
  split
  · rfl
  · cases read : declaration rounds depth cursor with
    | error stop middle => exact bind_error read
    | ok found middle =>
        rw [bind_ok read]
        cases found <;> rfl

theorem declaration_error {stop : Stop} (h : declaration rounds depth cursor = .error stop last) :
    stop = .tooDeep := by
  cases depth with
  | zero =>
      cases h
      rfl
  | succ depth =>
      rw [declaration, recovering] at h
      split at h <;> cases h
      rfl

/-- What the declarations of a program are, given what comes of the loop that reads them. -/
def Concludes (found : Array Stmt × Cursor) : EStateM.Result Stop Cursor (Array Stmt) → Prop
  | .ok statements last => found = (statements, last) ∧ last.atEnd = true
  | .error stop last => stop = .tooDeep ∧ found.2 = last.report last.peek .nesting

theorem concludes_of_loops {statements : Array Stmt} {result : EStateM.Result Stop Cursor (Array Stmt)}
    (loops : Loops (programRound rounds depth) statements cursor result) {remaining : Nat}
    (enough : cursor.ahead.length ≤ remaining) :
    Concludes (declarations rounds depth remaining statements cursor) result := by
  induction loops generalizing remaining with
  | @done statements cursor last done =>
      rw [programRound_eq] at done
      split at done
      next ended =>
        cases done
        cases remaining <;> simp [declarations, ended, Concludes]
      next => split at done <;> cases done
  | @again statements next cursor middle result again _ ih =>
      have shorter := shortens_programRound rounds depth _ _ _ _ again
      rw [programRound_eq] at again
      split at again
      · cases again
      next inside =>
        obtain ⟨remaining, rfl⟩ : ∃ fewer, remaining = fewer + 1 := ⟨remaining - 1, by omega⟩
        have fewer : middle.ahead.length ≤ remaining := by omega
        have later := ih fewer
        rw [declarations, if_neg inside]
        cases read : declaration rounds depth cursor with
        | error stop last =>
            rw [read] at again
            cases again
        | ok entry after =>
            rw [read] at again
            cases entry <;> cases again <;> exact later
  | @interrupted statements cursor last stop interrupted =>
      rw [programRound_eq] at interrupted
      split at interrupted
      · cases interrupted
      next inside =>
        have some : 0 < cursor.ahead.length := by
          refine List.length_pos_iff.mpr fun nothing => inside ?_
          rw [Cursor.atEnd_eq_true, nothing]
          rfl
        obtain ⟨remaining, rfl⟩ : ∃ fewer, remaining = fewer + 1 := ⟨remaining - 1, by omega⟩
        rw [declarations, if_neg inside]
        cases read : declaration rounds depth cursor with
        | error stop last =>
            rw [read] at interrupted
            cases interrupted
            exact ⟨declaration_error read, rfl⟩
        | ok entry after =>
            rw [read] at interrupted
            cases entry <;> cases interrupted

/-! ## Places of errors -/

/-- The errors are told of at tokens of the text, from the first to the last. -/
def InOrder (text : List Token) (errors : List SyntaxError) : Prop :=
  ∃ places : List Nat, places.Pairwise (· ≤ ·) ∧
    List.Forall₂ (fun error place => text[place]? = some error.token) errors places

/-- A wrong target is told of at the sign that is to assign to it, any other error at the token ahead. -/
def isLocated (error : SyntaxError) : Bool :=
  error.cause ≠ .assignmentTarget

theorem Cursor.Steps.inOrder (steps : start.Steps last) (nothing : start.errors = #[]) :
    ∃ used places, start.ahead = used ++ last.ahead ∧ places.Pairwise (· ≤ ·) ∧
      (∀ place ∈ places, place ≤ used.length) ∧
      List.Forall₂ (fun error place => start.ahead[place]? = some error.token)
        (last.errors.toList.filter isLocated) places := by
  induction steps with
  | refl => exact ⟨[], [], rfl, .nil, nofun, by rw [nothing]; exact .nil⟩
  | tail _ step ih =>
      obtain ⟨used, places, ahead, ordered, behind, located⟩ := ih
      cases step with
      | @take token rest errors =>
          refine ⟨used ++ [token], places, by simpa using ahead, ordered, fun place member => ?_, located⟩
          rw [List.length_append]
          exact Nat.le_add_right_of_le (behind place member)
      | target => exact ⟨used, places, ahead, ordered, behind, by simpa [isLocated] using located⟩
      | @report token rest errors cause =>
          by_cases target : cause = .assignmentTarget
          · exact ⟨used, places, ahead, ordered, behind, by simpa [isLocated, target] using located⟩
          refine ⟨used, places ++ [used.length], ahead, ?_, ?_, ?_⟩
          · exact List.pairwise_append.mpr ⟨ordered, List.pairwise_singleton _ _, by simpa using behind⟩
          · simpa [or_imp, forall_and] using behind
          · have here : (errors.push ⟨cause, token⟩).toList.filter isLocated =
                errors.toList.filter isLocated ++ [⟨cause, token⟩] := by
              simp [isLocated, target]
            rw [here]
            exact List.rel_append located (.cons (by simp [ahead]) .nil)

/-! ## Programs -/

theorem Cursor.Steps.ahead_of_final {before : List Token} {final : Token} (steps : start.Steps last)
    (text : start.ahead = before ++ [final]) (final_kind : final.kind = .endOfInput) :
    ∃ taken left, before = taken ++ left ∧ last.ahead = left ++ [final] := by
  obtain ⟨used, found, moves⟩ := steps.moves
  have split : used ++ last.ahead = before ++ [final] := by rw [← moves.ahead, text]
  rcases List.append_eq_append_iff.mp split with ⟨left, taken, ahead⟩ | ⟨more, taken, rest⟩
  · exact ⟨used, left, taken, ahead⟩
  · rcases List.singleton_eq_append_iff.mp rest with ⟨nothing, ahead⟩ | ⟨all, -⟩
    · exact ⟨before, [], (List.append_nil _).symm, ahead⟩
    · have member : final ∈ used := by simp [taken, all]
      exact absurd final_kind (moves.inner final member)

/-- How the parser gets through a text. -/
structure Proceeding (depth rounds : Nat) (start : Cursor) (before : List Token) (final : Token) : Prop where
  steps : start.Steps (declarations rounds depth rounds #[] start).2
  inside : ∀ cursor, start.Steps cursor → ∃ taken left, before = taken ++ left ∧ cursor.ahead = left ++ [final]
  declaration : ∀ cursor, start.Steps cursor → ∀ inner,
    cursor.Steps (stopsAt (declaration rounds inner cursor)) ∧
      ∀ result next, declaration rounds inner cursor = .ok result next →
        cursor.atEnd = false → next.ahead.length < cursor.ahead.length
  loops : ∀ {α : Type} (round : α → Reader (Option α)), Repeated rounds round →
    ∀ cursor, start.Steps cursor → ∀ state, Loops round state cursor (iterate round rounds state cursor)
  concludes : ∃ result, Loops (programRound rounds depth) #[] start result ∧
    Concludes (declarations rounds depth rounds #[] start) result
  ends : (∃ error ∈ (Program.ofTokens depth (before ++ [final])).errors, error.cause = .nesting) ∨
    (declarations rounds depth rounds #[] start).2.ahead = [final]
  errors : InOrder (before ++ [final]) ((Program.ofTokens depth (before ++ [final])).errors.filter isLocated)

theorem nesting_or_atEnd {found : Array Stmt × Cursor} {result : EStateM.Result Stop Cursor (Array Stmt)}
    (concludes : Concludes found result) :
    (∃ error ∈ found.2.errors, error.cause = .nesting) ∨ found.2.atEnd = true := by
  cases result with
  | ok statements last =>
      obtain ⟨rfl, ended⟩ := concludes
      exact .inr ended
  | error stop last =>
      obtain ⟨-, same⟩ := concludes
      rw [same]
      exact .inl ⟨_, Array.mem_push_self, rfl⟩

theorem steps_of_concludes {found : Array Stmt × Cursor} {result : EStateM.Result Stop Cursor (Array Stmt)}
    (inside : cursor.Inside rounds) (concludes : Concludes found result) (steps : cursor.Steps (stopsAt result)) :
    cursor.Steps found.2 := by
  cases result with
  | ok statements last =>
      obtain ⟨rfl, -⟩ := concludes
      exact steps
  | error stop last =>
      obtain ⟨-, same⟩ := concludes
      rw [same]
      exact Relation.ReflTransGen.trans steps ((inside.steps steps).report .nesting)

end LoxLang.Grammar

namespace LoxLang

open Grammar

/-- Whatever the tokens are, the parser goes through them by steps, from the first to the last of them and no further;
a declaration begun before the end takes one, so all loops end by themselves; the text is read to its end unless
something nests too deeply; and the errors are told of in the order of their tokens. -/
theorem Program.proceeding (depth : Nat) {before : List Token} {final : Token}
    (inside : ∀ token ∈ before, token.kind ≠ .endOfInput) (final_kind : final.kind = .endOfInput) :
    Proceeding depth (before ++ [final]).length ⟨before ++ [final], #[]⟩ before final := by
  have within : Cursor.Inside (before ++ [final]).length ⟨before ++ [final], #[]⟩ :=
    ⟨⟨final, by simp, final_kind⟩, Nat.le_refl _⟩
  have along {cursor : Cursor} (steps : Cursor.Steps ⟨before ++ [final], #[]⟩ cursor) :
      cursor.Inside (before ++ [final]).length := (within.steps steps).mono steps.length_le
  have readers := statementsProceed (Nat.le_refl (before ++ [final]).length)
  have loops := (Repeated.program depth).loops #[] within
  have concludes := concludes_of_loops loops (Nat.le_refl (before ++ [final]).length)
  have moves := (Proceeds.iterate (readers depth).programRound (shortens_programRound _ depth) (Nat.le_refl _)
    (Nat.le_refl _) #[] _ within).2
  have steps := steps_of_concludes within concludes moves
  refine
    { steps := steps
      inside := fun cursor steps => steps.ahead_of_final rfl final_kind
      declaration := fun cursor steps inner => ⟨((readers inner).declaration cursor (along steps)).2, ?_⟩
      loops := fun round repeated cursor steps state => repeated.loops state (along steps)
      concludes := ⟨_, loops, concludes⟩
      ends := ?_
      errors := ?_ }
  · exact fun result next read inside => shortens_declaration (Cursor.atEnd_eq_false.mp inside) read
  · rcases nesting_or_atEnd concludes with ⟨error, member, nesting⟩ | ended
    · exact .inl ⟨error, Array.mem_toList_iff.mpr member, nesting⟩
    · obtain ⟨used, found, moves⟩ := steps.moves
      exact .inr (eq_of_final moves.ahead (Cursor.atEnd_eq_true.mp ended) inside moves.inner final_kind).2
  · obtain ⟨used, places, -, ordered, -, located⟩ := steps.inOrder rfl
    exact ⟨places, ordered, located⟩

/-- A declaration that fails at a word that begins a statement, so that nothing is skipped. -/
def brokenOffText : List Token :=
  [⟨.var, "var", .none, 1⟩, ⟨.print, "print", .none, 1⟩, ⟨.nil, "nil", .none, 1⟩,
    ⟨.semicolon, ";", .none, 1⟩]

theorem Program.proceeding_brokenOff :
    Proceeding 40 (brokenOffText ++ [Token.final 1]).length ⟨brokenOffText ++ [Token.final 1], #[]⟩ brokenOffText
      (Token.final 1) :=
  Program.proceeding 40 (by decide) rfl

end LoxLang
