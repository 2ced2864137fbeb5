import Mathlib.Logic.Relation
import LoxLang.Proofs.Grammar.Reading

/-!
How a cursor moves. A reader takes the token ahead unless it is the final one, and records an error at the token ahead;
only a wrong target of an assignment is told of at a token that was taken before. A loop of which each round takes a
token comes to its end by itself, so it does not matter how many rounds it is allowed.
-/

namespace LoxLang.Grammar

/-! ## Steps -/

inductive Cursor.Step : Cursor → Cursor → Prop
  | take {token : Token} {rest : List Token} {errors : Array SyntaxError} :
      token.kind ≠ .endOfInput → Step ⟨token :: rest, errors⟩ ⟨rest, errors⟩
  | report {token : Token} {rest : List Token} {errors : Array SyntaxError} {cause : SyntaxError.Cause} :
      Step ⟨token :: rest, errors⟩ ⟨token :: rest, errors.push ⟨cause, token⟩⟩
  | target {ahead : List Token} {errors : Array SyntaxError} {equals : Token} :
      Step ⟨ahead, errors⟩ ⟨ahead, errors.push ⟨.assignmentTarget, equals⟩⟩

abbrev Cursor.Steps : Cursor → Cursor → Prop :=
  Relation.ReflTransGen Cursor.Step

/-- The final token is ahead, and at most so many tokens are. -/
structure Cursor.Inside (bound : Nat) (cursor : Cursor) : Prop where
  final : ∃ token ∈ cursor.ahead, token.kind = .endOfInput
  length : cursor.ahead.length ≤ bound

variable {α β : Type} {cursor middle last : Cursor} {bound : Nat}

namespace Cursor.Step

theorem moves (step : cursor.Step last) : ∃ used found, cursor.Moves last used found := by
  cases step with
  | @take token _ _ inner => exact ⟨[token], [], rfl, (List.append_nil _).symm, by simpa using inner⟩
  | report | target => exact ⟨[], _, rfl, Array.toList_push, nofun⟩

end Cursor.Step

namespace Cursor.Steps

theorem moves (steps : cursor.Steps last) : ∃ used found, cursor.Moves last used found := by
  induction steps with
  | refl => exact ⟨[], [], .refl cursor⟩
  | tail _ step ih =>
      obtain ⟨used, found, moves⟩ := ih
      obtain ⟨more, further, moved⟩ := step.moves
      exact ⟨_, _, moves.trans moved⟩

theorem length_le (steps : cursor.Steps last) : last.ahead.length ≤ cursor.ahead.length := by
  obtain ⟨used, found, moves⟩ := steps.moves
  rw [moves.ahead, List.length_append]
  exact Nat.le_add_left _ _

theorem advance (cursor : Cursor) : cursor.Steps cursor.advance := by
  obtain ⟨ahead, errors⟩ := cursor
  cases ahead with
  | nil => exact .refl
  | cons token rest =>
      by_cases inner : token.kind = .endOfInput
      · simp only [Cursor.advance, inner, if_true]
        exact .refl
      · rw [advance_cons inner]
        exact .single (.take inner)

theorem synchronize (cursor : Cursor) : cursor.Steps cursor.synchronize := by
  obtain ⟨ahead, errors⟩ := cursor
  induction ahead with
  | nil => exact .refl
  | cons token rest ih =>
      simp only [Cursor.synchronize, nextStatement] at ih ⊢
      split
      · exact .refl
      next inner =>
      split
      · exact .single (.take inner)
      split
      · exact .refl
      · exact .head (.take inner) ih

end Cursor.Steps

namespace Cursor.Inside

theorem steps (inside : cursor.Inside bound) (steps : cursor.Steps last) :
    last.Inside last.ahead.length where
  final := by
    obtain ⟨token, member, final⟩ := inside.final
    obtain ⟨used, found, moves⟩ := steps.moves
    rw [moves.ahead] at member
    rcases List.mem_append.mp member with member | member
    · exact absurd final (moves.inner token member)
    · exact ⟨token, member, final⟩
  length := Nat.le_refl _

theorem mono {wide : Nat} (inside : cursor.Inside bound) (le : bound ≤ wide) : cursor.Inside wide :=
  ⟨inside.final, Nat.le_trans inside.length le⟩

theorem length_pos (inside : cursor.Inside bound) : 0 < cursor.ahead.length := by
  obtain ⟨token, member, -⟩ := inside.final
  exact List.length_pos_of_mem member

theorem positive (inside : cursor.Inside bound) : 0 < bound :=
  Nat.lt_of_lt_of_le inside.length_pos inside.length

theorem report (inside : cursor.Inside bound) (cause : SyntaxError.Cause) :
    cursor.Steps (cursor.report cursor.peek cause) := by
  obtain ⟨ahead, errors⟩ := cursor
  cases ahead with
  | nil =>
      obtain ⟨token, member, -⟩ := inside.final
      cases member
  | cons token rest => exact .single .report

end Cursor.Inside

theorem length_advance (inside : headKind cursor.ahead ≠ .endOfInput) :
    cursor.advance.ahead.length < cursor.ahead.length := by
  have moves := Cursor.Moves.advance cursor inside
  rw [moves.ahead]
  exact Nat.lt_succ_self _

theorem Reads.length_le {reader : Reader α} {least : Nat} {meaning : Meaning α} (reads : Reads reader least meaning)
    {value : α} (h : reader cursor = .ok value last) : last.ahead.length + least ≤ cursor.ahead.length := by
  have outcome := reads cursor
  rw [h] at outcome
  obtain ⟨used, found, moves, enough, -⟩ := outcome
  rw [moves.ahead, List.length_append]
  omega

/-! ## Readers -/

/-- Where a reader leaves the cursor. -/
def stopsAt : EStateM.Result Stop Cursor α → Cursor
  | .ok _ last => last
  | .error _ last => last

/-- The reader moves the cursor by steps, and the other reader does the same, where so many tokens are ahead. -/
def Proceeds (bound : Nat) (reader other : Reader α) : Prop :=
  ∀ cursor : Cursor, cursor.Inside bound →
    other cursor = reader cursor ∧ cursor.Steps (stopsAt (reader cursor))

namespace Proceeds

variable {reader other : Reader α} {next following : α → Reader β}

theorem of_steps (steps : ∀ cursor : Cursor, cursor.Inside bound → cursor.Steps (stopsAt (reader cursor))) :
    Proceeds bound reader reader :=
  fun cursor inside => ⟨rfl, steps cursor inside⟩

theorem bind (first : Proceeds bound reader other)
    (second : ∀ value, Proceeds bound (next value) (following value)) :
    Proceeds bound (reader >>= next) (other >>= following) := by
  intro cursor inside
  obtain ⟨same, steps⟩ := first cursor inside
  cases result : reader cursor with
  | ok value middle =>
      rw [result] at same steps
      have within : middle.Inside bound :=
        (inside.steps steps).mono (Nat.le_trans steps.length_le inside.length)
      obtain ⟨alike, goes⟩ := second value middle within
      rw [bind_ok result, bind_ok same]
      exact ⟨alike, Relation.ReflTransGen.trans steps goes⟩
  | error stop middle =>
      rw [result] at same steps
      rw [bind_error result, bind_error same]
      exact ⟨rfl, steps⟩

theorem pure (value : α) : Proceeds bound (Pure.pure value) (Pure.pure value) :=
  .of_steps fun _ _ => .refl

theorem map {make : α → β} (h : Proceeds bound reader other) :
    Proceeds bound (do return make (← reader)) (do return make (← other)) :=
  h.bind fun value => pure (make value)

theorem ite {condition : Prop} [Decidable condition] {reader' other' : Reader α}
    (h : Proceeds bound reader other) (h' : Proceeds bound reader' other') :
    Proceeds bound (if condition then reader else reader') (if condition then other else other') := by
  split <;> assumption

theorem tooDeep : Proceeds bound (Grammar.tooDeep : Reader α) Grammar.tooDeep :=
  .of_steps fun _ _ => .refl

theorem peek : Proceeds bound Grammar.peek Grammar.peek :=
  .of_steps fun _ _ => .refl

theorem isNext (kind : Token.Kind) : Proceeds bound (Grammar.isNext kind) (Grammar.isNext kind) :=
  .of_steps fun _ _ => .refl

theorem closes : Proceeds bound Grammar.closes Grammar.closes :=
  .of_steps fun _ _ => .refl

theorem advance : Proceeds bound Grammar.advance Grammar.advance :=
  .of_steps fun cursor _ => .advance cursor

theorem fail (cause : SyntaxError.Cause) :
    Proceeds bound (Grammar.fail cause : Reader α) (Grammar.fail cause) :=
  .of_steps fun _ inside => inside.report cause

theorem reportTarget (equals : Token) :
    Proceeds bound (Grammar.report equals .assignmentTarget) (Grammar.report equals .assignmentTarget) :=
  .of_steps fun _ _ => .single .target

/-- An error at the token ahead. -/
theorem reportPeek (cause : SyntaxError.Cause) :
    Proceeds bound (do Grammar.report (← Grammar.peek) cause) (do Grammar.report (← Grammar.peek) cause) :=
  .of_steps fun _ inside => inside.report cause

theorem acceptAny (kinds : List Token.Kind) :
    Proceeds bound (Grammar.acceptAny kinds) (Grammar.acceptAny kinds) := by
  refine .of_steps fun cursor _ => ?_
  by_cases member : cursor.peek.kind ∈ kinds
  · rw [acceptAny_of_mem member]
    exact .advance cursor
  · rw [acceptAny_of_notMem member]
    exact .refl

theorem accept (kind : Token.Kind) : Proceeds bound (Grammar.accept kind) (Grammar.accept kind) :=
  acceptAny [kind]

theorem accepts (kind : Token.Kind) : Proceeds bound (Grammar.accepts kind) (Grammar.accepts kind) :=
  (accept kind).map

theorem expect (kind : Token.Kind) (cause : SyntaxError.Cause) :
    Proceeds bound (Grammar.expect kind cause) (Grammar.expect kind cause) := by
  refine (accept kind).bind fun found => ?_
  cases found with
  | some token => exact .pure token
  | none => exact .fail cause

theorem optionally {skip : Reader Bool} (skips : Proceeds bound skip skip) (h : Proceeds bound reader other) :
    Proceeds bound (Grammar.optionally skip reader) (Grammar.optionally skip other) :=
  skips.bind fun _ => .ite (.pure none) h.map

theorem recovering {reader other : Reader Stmt} (h : Proceeds bound reader other) :
    Proceeds bound (Grammar.recovering reader) (Grammar.recovering other) := by
  intro cursor inside
  obtain ⟨same, steps⟩ := h cursor inside
  unfold Grammar.recovering
  rw [same]
  refine ⟨rfl, ?_⟩
  cases result : reader cursor with
  | ok stmt middle =>
      rw [result] at steps
      exact steps
  | error stop middle =>
      rw [result] at steps
      cases stop with
      | failed => exact Relation.ReflTransGen.trans steps (Cursor.Steps.synchronize middle)
      | tooDeep => exact steps

end Proceeds

/-! ## Loops -/

/-- What comes of a loop that goes on until a round yields nothing, or is interrupted. -/
inductive Loops (round : α → Reader (Option α)) : α → Cursor → EStateM.Result Stop Cursor α → Prop
  | done {state : α} {cursor last : Cursor} :
      round state cursor = .ok none last → Loops round state cursor (.ok state last)
  | again {state next : α} {cursor middle : Cursor} {result : EStateM.Result Stop Cursor α} :
      round state cursor = .ok (some next) middle → Loops round next middle result →
      Loops round state cursor result
  | interrupted {state : α} {cursor last : Cursor} {stop : Stop} :
      round state cursor = .error stop last → Loops round state cursor (.error stop last)

/-- A round that is not the last one takes a token. -/
def Shortens (round : α → Reader (Option α)) : Prop :=
  ∀ state cursor next last, round state cursor = .ok (some next) last →
    last.ahead.length < cursor.ahead.length

section

variable {round other : α → Reader (Option α)}

/-- A loop that is allowed as many rounds as there are tokens ahead ends by itself. -/
theorem loops_iterate (each : ∀ state, Proceeds bound (round state) (other state)) (shortens : Shortens round)
    {rounds : Nat} (fits : rounds ≤ bound) (state : α) (inside : cursor.Inside rounds) :
    Loops round state cursor (iterate round rounds state cursor) := by
  induction rounds generalizing state cursor with
  | zero => exact absurd inside.positive (Nat.lt_irrefl 0)
  | succ rounds ih =>
      obtain ⟨-, steps⟩ := each state cursor (inside.mono fits)
      rw [iterate]
      cases result : round state cursor with
      | error stop middle =>
          rw [bind_error result]
          exact .interrupted result
      | ok found middle =>
          rw [bind_ok result]
          cases found with
          | none => exact .done result
          | some next =>
              have shorter : middle.ahead.length ≤ rounds :=
                Nat.le_of_lt_succ (Nat.lt_of_lt_of_le (shortens _ _ _ _ result) inside.length)
              rw [result] at steps
              exact .again result
                (ih (Nat.le_of_succ_le fits) next ((inside.steps steps).mono shorter))

/-- More rounds than there are tokens ahead make no difference to a loop. -/
theorem Proceeds.iterate {wide rounds : Nat} (each : ∀ state, Proceeds bound (round state) (other state))
    (shortens : Shortens round) (fits : rounds ≤ bound) (le : rounds ≤ wide) (state : α) :
    Proceeds rounds (Grammar.iterate round rounds state) (Grammar.iterate other wide state) := by
  induction rounds generalizing wide state with
  | zero => exact fun _ inside => absurd inside.positive (Nat.lt_irrefl 0)
  | succ rounds ih =>
      obtain ⟨wide, rfl⟩ : ∃ more, wide = more + 1 := ⟨wide - 1, by omega⟩
      intro cursor inside
      obtain ⟨same, steps⟩ := each state cursor (inside.mono fits)
      rw [Grammar.iterate, Grammar.iterate]
      cases result : round state cursor with
      | error stop middle =>
          rw [result] at same steps
          rw [bind_error result, bind_error same]
          exact ⟨rfl, steps⟩
      | ok found middle =>
          rw [result] at same steps
          rw [bind_ok result, bind_ok same]
          cases found with
          | none => exact ⟨rfl, steps⟩
          | some next =>
              have shorter : middle.ahead.length ≤ rounds :=
                Nat.le_of_lt_succ (Nat.lt_of_lt_of_le (shortens _ _ _ _ result) inside.length)
              obtain ⟨alike, goes⟩ := ih (Nat.le_of_succ_le fits) (Nat.le_of_succ_le_succ le) next middle
                ((inside.steps steps).mono shorter)
              exact ⟨alike, Relation.ReflTransGen.trans steps goes⟩

end

end LoxLang.Grammar
