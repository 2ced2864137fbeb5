import LoxLang.Proofs.Grammar.ExpressionAcceptance
import LoxLang.Proofs.Grammar.Repeating
import LoxLang.Proofs.Variation.Unmarked

/-!
Expressions with other words. Every variation of an expression that was read is what some text with other words is read
as, at the same depth.
-/

namespace LoxLang

/-- Trees that differ in their words at most. -/
def Scoping.Node.Like (related : Token → Token → Prop) (node other : Node) : Prop :=
  ∃ levels, Node.Varies (.loose related) levels node other

def Expr.Like (related : Token → Token → Prop) (expr other : Expr) : Prop :=
  ∃ levels, expr.Varies (.loose related) levels other

variable {related : Token → Token → Prop}

theorem NameUse.Varies.of_unmarked {levels : Levels} {name : Token} {other : NameUse}
    (h : (NameUse.unmarked name).Varies (.loose related) levels other) :
    ∃ word, other = .unmarked word ∧ related name word := by
  obtain ⟨word, hops⟩ := other
  cases h.hops
  exact ⟨word, rfl, h.name⟩

theorem Expr.Like.of_combine {level : Grammar.Level} {left right other : Expr} {operator : Token}
    (h : (level.combine left operator right).Like related other) :
    ∃ leftOther word rightOther, other = level.combine leftOther word rightOther ∧
      left.Like related leftOther ∧ related operator word ∧ right.Like related rightOther := by
  obtain ⟨levels, h⟩ := h
  cases level with
  | or | and =>
      obtain _ | _ | _ | _ | _ | _ | ⟨left, operator, right⟩ := h
      exact ⟨_, _, _, rfl, ⟨_, left⟩, operator, ⟨_, right⟩⟩
  | _ =>
      obtain _ | ⟨left, operator, right⟩ := h
      exact ⟨_, _, _, rfl, ⟨_, left⟩, operator, ⟨_, right⟩⟩

namespace Grammar

/-- The readers of expressions read variations of what they read, as far as `depth` allows. -/
structure ExpressionMirrors (related : Token → Token → Prop) (rounds wide depth : Nat) : Prop where
  expression : Reads (expression rounds depth) 1
    (Mirrors related rounds .loose (Expr.Like related) (expression wide depth))
  assignment : Reads (assignment rounds depth) 1
    (Mirrors related rounds .loose (Expr.Like related) (assignment wide depth))
  operation (level : Level) : Reads (operation rounds level depth) 1
    (Mirrors related rounds .loose (Expr.Like related) (operation wide level depth))
  unary : Reads (unary rounds depth) 1
    (Mirrors related rounds .loose (Expr.Like related) (unary wide depth))
  call : Reads (call rounds depth) 1
    (Mirrors related rounds .loose (Expr.Like related) (call wide depth))
  finishCall (callee : Expr) : Reads (finishCall rounds callee depth) 1
    (Bounded rounds fun used result ahead => ∀ other, result.Like related other →
      ∃ current, callee.Like related current ∧
        Repeats related .loose used ahead (finishCall wide current depth) other)
  primary : Reads (primary rounds depth) 1
    (Mirrors related rounds .loose (Expr.Like related) (primary wide depth))

namespace ExpressionMirrors

variable {rounds wide depth : Nat} (words : Substitution related)
include words

theorem assignment_succ (mirrors : ExpressionMirrors related rounds wide depth) :
    Reads (Grammar.assignment rounds (depth + 1)) 1
      (Mirrors related rounds .loose (Expr.Like related) (Grammar.assignment wide (depth + 1))) := by
  rw [Grammar.assignment, Grammar.assignment]
  refine (mirrors.operation .or).bind_bounded (n := 0) fun target => ?_
  refine (Reads.accept .equal (by decide)).bounded.bind_bounded (n := 0) fun equals => ?_
  cases equals with
  | none =>
      refine Reads.pure ?_
      rintro ahead _ before ⟨nothing, absent⟩ text means other same
      subst nothing
      simp only [List.append_nil, List.nil_append] at absent means ⊢
      exact (means other same).andThen words
        (.refusesAny words (.inl rfl) (by simpa using absent) .pure)
  | some equals =>
      refine mirrors.assignment.some_or_none.bind_bounded (n := 0) fun value => ?_
      cases target with
      | «variable» use =>
          refine Reads.pure ?_
          rintro ahead _ valueText goes before ⟨nothing, hequals⟩ text means other ⟨levels, same⟩
          subst nothing
          obtain ⟨use, same⟩ := same
          obtain ⟨word, stands⟩ := words.total equals
          simp only [List.append_nil, List.nil_append] at goes means ⊢
          refine (means _ ⟨levels, .variable use⟩).bind words
            (.acceptAny words stands (by simp [hequals]) (by decide) ?_)
          exact (goes _ ⟨levels, same⟩).map words
      | get object name =>
          refine Reads.pure ?_
          rintro ahead _ valueText goes before ⟨nothing, hequals⟩ text means other ⟨levels, same⟩
          subst nothing
          obtain _ | _ | _ | _ | _ | _ | _ | ⟨object, name, same⟩ := same
          obtain ⟨word, stands⟩ := words.total equals
          simp only [List.append_nil, List.nil_append] at goes means ⊢
          refine (means _ ⟨levels, .get object name⟩).bind words
            (.acceptAny words stands (by simp [hequals]) (by decide) ?_)
          exact (goes _ ⟨levels, same⟩).map words
      | _ =>
          exact (Reads.report equals .assignmentTarget fun _ _ _ => False).bounded.bind_bounded
            (n := 0) fun _ => Reads.pure fun _ _ _ impossible => impossible.elim

omit words in
theorem operand (mirrors : ExpressionMirrors related rounds wide depth) (level : Level) :
    Reads (level.operand.reader rounds depth) 1
      (Mirrors related rounds .loose (Expr.Like related) (level.operand.reader wide depth)) := by
  cases level with
  | factor => exact mirrors.unary
  | _ => exact mirrors.operation _

theorem operationRound_mirrors (mirrors : ExpressionMirrors related rounds wide depth)
    (level : Level) (left : Expr) :
    Reads (operationRound rounds level depth left) 0 (Bounded rounds
      (RoundMirrors related (Expr.Like related) (operationRound wide level depth) left)) := by
  have inside : Token.Kind.endOfInput ∉ level.operators := by cases level <;> decide
  refine (Reads.acceptAny level.operators inside).bounded.bind_bounded (n := 0) fun operator => ?_
  cases operator with
  | none =>
      refine Reads.pure fun ahead _ before ⟨nothing, absent⟩ => ?_
      subst nothing
      exact ⟨rfl, fun current _ => .refusesAny words (.inl rfl) absent .pure⟩
  | some operator =>
      refine (mirrors.operand level).some_or_none.map_bounded ?_
      rintro used right ahead means before ⟨rfl, hkind⟩
      refine ⟨List.cons_ne_nil _ _, fun following same => ?_⟩
      obtain ⟨leftOther, word, rightOther, rfl, leftSame, stands, rightSame⟩ := same.of_combine
      refine ⟨leftOther, leftSame, .acceptAny words stands hkind inside ?_⟩
      exact (means rightOther rightSame).map words

theorem operation_succ (bound : rounds ≤ wide)
    (mirrors : ExpressionMirrors related rounds wide depth) (level : Level) :
    Reads (Grammar.operation rounds level (depth + 1)) 1 (Mirrors related rounds .loose
      (Expr.Like related) (Grammar.operation wide level (depth + 1))) := by
  have idle (current : Expr) :
      Repeats related .loose [] [] (operationRound wide level depth current) none :=
    .refusesAny words (.inl rfl) (by cases level <;> decide) .pure
  have loop := iterate_mirrors words (fun state => mirrors.operationRound_mirrors words level state)
    idle rounds wide (Nat.le_refl rounds) bound
  rw [Grammar.operation_succ, Grammar.operation_succ]
  refine (mirrors.operand level).bind_bounded (n := 0) fun first => ?_
  refine (loop first).bounded_mono (Nat.le_refl 0) (Nat.le_refl rounds) ?_
  intro used last ahead rest text means other same
  obtain ⟨current, alike, goes⟩ := rest other same
  exact (means current alike).bind words goes

theorem unary_succ (mirrors : ExpressionMirrors related rounds wide depth) :
    Reads (Grammar.unary rounds (depth + 1)) 1
      (Mirrors related rounds .loose (Expr.Like related) (Grammar.unary wide (depth + 1))) := by
  rw [Grammar.unary, Grammar.unary]
  refine (Reads.acceptAny [.bang, .minus] (by decide)).bounded.bind_bounded (n := 1)
    fun operator => ?_
  cases operator with
  | none =>
      refine mirrors.call.bounded_mono (Nat.le_refl 1) (Nat.le_refl rounds) ?_
      rintro used expr ahead means before ⟨rfl, absent⟩ other same
      exact .refusesAny words (.inl rfl) absent (means other same)
  | some operator =>
      refine mirrors.unary.map_bounded ?_
      rintro used right ahead means before ⟨rfl, hkind⟩ other ⟨levels, same⟩
      obtain _ | _ | _ | _ | _ | _ | _ | _ | _ | _ | ⟨stands, same⟩ := same
      exact .acceptAny words stands hkind (by decide) ((means _ ⟨levels, same⟩).map words)

theorem callRound_mirrors (mirrors : ExpressionMirrors related rounds wide depth) (callee : Expr) :
    Reads (callRound rounds depth callee) 0 (Bounded rounds
      (RoundMirrors related (Expr.Like related) (callRound wide depth) callee)) := by
  refine (Reads.accepts .leftParen (by decide)).bounded.bind_bounded (n := 0) fun parenthesis => ?_
  cases parenthesis with
  | true =>
      refine (mirrors.finishCall callee).some_or_none.map_bounded ?_
      rintro used result ahead means before ⟨opening, rfl, hopening⟩
      refine ⟨List.cons_ne_nil _ _, fun following same => ?_⟩
      obtain ⟨current, alike, goes⟩ := means following same
      exact ⟨current, alike, .accepts words hopening (by decide) (goes.map words)⟩
  | false =>
      refine (Reads.accepts .dot (by decide)).bounded.bind_bounded (n := 0) fun dot => ?_
      cases dot with
      | true =>
          refine (Reads.expect .identifier .propertyName
            (by decide)).some_or_none.bounded.map_bounded ?_
          rintro used name ahead ⟨rfl, hname⟩ before ⟨dot, rfl, hdot⟩ earlier ⟨rfl, noParen⟩
          refine ⟨List.cons_ne_nil _ _, ?_⟩
          rintro following ⟨levels, same⟩
          obtain _ | _ | _ | ⟨object, stands⟩ := same
          refine ⟨_, ⟨levels, object⟩, ?_⟩
          refine .refuses words (.inl rfl) noParen (.accepts words hdot (by decide) ?_)
          exact .expect words stands hname (by decide) .pure
      | false =>
          refine Reads.pure fun ahead _ before ⟨noName, noDot⟩ earlier ⟨nothing, noParen⟩ => ?_
          subst noName nothing
          refine ⟨rfl, fun current _ => ?_⟩
          exact .refuses words (.inl rfl) noParen (.refuses words (.inl rfl) noDot .pure)

theorem call_succ (bound : rounds ≤ wide)
    (mirrors : ExpressionMirrors related rounds wide depth) :
    Reads (Grammar.call rounds (depth + 1)) 1
      (Mirrors related rounds .loose (Expr.Like related) (Grammar.call wide (depth + 1))) := by
  have idle (current : Expr) : Repeats related .loose [] [] (callRound wide depth current) none :=
    .refuses words (.inl rfl) (by decide) (.refuses words (.inl rfl) (by decide) .pure)
  have loop := iterate_mirrors words (fun state => mirrors.callRound_mirrors words state) idle
    rounds wide (Nat.le_refl rounds) bound
  rw [Grammar.call_succ, Grammar.call_succ]
  refine mirrors.primary.bind_bounded (n := 0) fun callee => ?_
  refine (loop callee).bounded_mono (Nat.le_refl 0) (Nat.le_refl rounds) ?_
  intro used last ahead rest text means other same
  obtain ⟨current, alike, goes⟩ := rest other same
  exact (means current alike).bind words goes

theorem finishCall_succ (bound : rounds ≤ wide)
    (mirrors : ExpressionMirrors related rounds wide depth) (callee : Expr) :
    Reads (Grammar.finishCall rounds callee (depth + 1)) 1 (Bounded rounds fun used result ahead =>
      ∀ other, result.Like related other → ∃ current, callee.Like related current ∧
        Repeats related .loose used ahead (Grammar.finishCall wide current (depth + 1)) other) := by
  have closing (current : Expr) {paren word : Token} (arguments : List Expr) (ahead : List Token)
      (hparen : paren.kind = .rightParen) (stands : related paren word) :
      Repeats related .loose [paren] ahead (do
        let paren ← expect .rightParen .argumentsEnd
        return Expr.call current paren arguments) (.call current word arguments) :=
    .expect words stands hparen (by decide) .pure
  rw [Grammar.finishCall]
  refine (Reads.isNext .rightParen).bounded.bind_bounded (n := 1) fun closed => ?_
  cases closed with
  | true =>
      refine Reads.map_bounded (Reads.expect .rightParen .argumentsEnd (by decide)).bounded ?_
      rintro used paren ahead ⟨rfl, hparen⟩ before ⟨rfl, closed⟩ other ⟨levels, same⟩
      obtain _ | _ | @⟨_, current, _, word, _, arguments, callee, stands, count⟩ := same
      cases List.eq_nil_of_length_eq_zero count.symm
      refine ⟨current, ⟨levels, callee⟩, ?_⟩
      rw [Grammar.finishCall]
      exact .isNext words (.inl rfl) closed (closing current [] ahead hparen stands)
  | false =>
      refine (commaList_mirrors words .tooManyArguments bound
        mirrors.expression).some_or_none.bind_bounded (n := 1) fun arguments => ?_
      refine Reads.map_bounded (Reads.expect .rightParen .argumentsEnd (by decide)).bounded ?_
      rintro used paren ahead ⟨rfl, hparen⟩ text means before ⟨rfl, closed⟩ other ⟨levels, same⟩
      obtain _ | _ | @⟨_, current, _, word, _, others, callee, stands, count, each⟩ := same
      refine ⟨current, ⟨levels, callee⟩, ?_⟩
      rw [Grammar.finishCall]
      refine .isNext words (.inl rfl) closed ?_
      rw [List.nil_append]
      have alike : List.Forall₂ (Expr.Like related) arguments others :=
        List.forall₂_iff_zip.mpr ⟨count, fun member => ⟨levels, each _ _ member⟩⟩
      exact (means others alike).bind words (closing current others ahead hparen stands)

theorem primary_succ (mirrors : ExpressionMirrors related rounds wide depth) :
    Reads (Grammar.primary rounds (depth + 1)) 1
      (Mirrors related rounds .loose (Expr.Like related) (Grammar.primary wide (depth + 1))) := by
  rw [Grammar.primary]
  refine Reads.peek_bind fun cursor => ?_
  have single {expr : Expr} (inside : cursor.peek.kind ≠ .endOfInput)
      (means : ∀ other, expr.Like related other → ∃ word, related cursor.peek word ∧
        (word.kind = cursor.peek.kind → ∀ rest errors,
          Grammar.primary wide (depth + 1) ⟨word :: rest, errors⟩ = .ok other ⟨rest, errors⟩)) :
      Outcome cursor 1
        (Mirrors related rounds .loose (Expr.Like related) (Grammar.primary wide (depth + 1)))
        ((advance >>= fun _ => (pure expr : Reader Expr)) cursor) := by
    refine Reads.advance_bind (m := 0) inside (.pure fun ahead _ other same => ?_)
    obtain ⟨word, stands, reads⟩ := means other same
    exact .take words stands reads .pure
  have literal {value : Constant} (inside : cursor.peek.kind ≠ .endOfInput)
      (means : ∀ word : Token, related cursor.peek word → word.kind = cursor.peek.kind →
        ∀ rest errors, Grammar.primary wide (depth + 1) ⟨word :: rest, errors⟩ =
          .ok (.literal value) ⟨rest, errors⟩) :
      Outcome cursor 1
        (Mirrors related rounds .loose (Expr.Like related) (Grammar.primary wide (depth + 1)))
        ((advance >>= fun _ => (pure (.literal value) : Reader Expr)) cursor) := by
    refine single inside ?_
    rintro other ⟨levels, same⟩
    cases same
    obtain ⟨word, stands⟩ := words.total cursor.peek
    exact ⟨word, stands, means word stands⟩
  generalize hkind : cursor.peek.kind = kind
  cases kind with
  | false | true | nil | number | string =>
      refine literal (by simp [hkind]) fun word stands same rest errors => ?_
      rw [hkind] at same
      rw [Grammar.primary, bind_ok peek_cons]
      simp only [same, words.literal stands]
      exact bind_ok (advance_ok (by simp [same]))
  | this =>
      refine single (by simp [hkind]) ?_
      rintro other ⟨levels, same⟩
      obtain _ | _ | _ | _ | _ | _ | _ | _ | _ | ⟨use⟩ := same
      obtain ⟨word, rfl, stands⟩ := use.of_unmarked
      refine ⟨word, stands, fun same rest errors => ?_⟩
      rw [hkind] at same
      rw [Grammar.primary, bind_ok peek_cons]
      simp only [same]
      exact bind_ok (advance_ok (by simp [same]))
  | identifier =>
      refine single (by simp [hkind]) ?_
      rintro other ⟨levels, same⟩
      obtain _ | _ | _ | _ | _ | _ | _ | _ | _ | _ | _ | ⟨use⟩ := same
      obtain ⟨word, rfl, stands⟩ := use.of_unmarked
      refine ⟨word, stands, fun same rest errors => ?_⟩
      rw [hkind] at same
      rw [Grammar.primary, bind_ok peek_cons]
      simp only [same]
      exact bind_ok (advance_ok (by simp [same]))
  | leftParen =>
      refine Reads.advance_bounded (m := 0) (by simp [hkind]) ?_
      refine mirrors.expression.some_or_none.bind_bounded (n := 0) fun inner => ?_
      refine Reads.map_bounded
        (Reads.expect .rightParen .groupingEnd (by decide)).some_or_none.bounded ?_
      rintro used closing ahead ⟨rfl, hclosing⟩ text means other ⟨levels, same⟩
      obtain _ | _ | _ | _ | ⟨same⟩ := same
      obtain ⟨word, stands⟩ := words.total cursor.peek
      have reads : Repeats related .loose (text ++ [closing]) ahead (do
          let inner ← Grammar.expression wide depth
          let _ ← expect .rightParen .groupingEnd
          return Expr.grouping inner) _ :=
        (means _ ⟨levels, same⟩).bind words (.expect_any words hclosing (by decide) .pure)
      refine .take words stands (fun same rest errors => ?_) reads
      rw [hkind] at same
      rw [Grammar.primary, bind_ok peek_cons]
      simp only [same]
      exact bind_ok (advance_ok (by simp [same]))
  | super =>
      refine Reads.advance_bounded (m := 0) (by simp [hkind]) ?_
      refine (Reads.expect .dot .superDot (by decide)).some_or_none.bounded.bind_bounded (n := 0)
        fun dot => ?_
      refine Reads.map_bounded
        (Reads.expect .identifier .superMethodName (by decide)).some_or_none.bounded ?_
      rintro used method ahead ⟨rfl, hmethod⟩ before ⟨rfl, hdot⟩ other ⟨levels, same⟩
      obtain _ | _ | _ | _ | _ | _ | _ | _ | ⟨use, method⟩ := same
      obtain ⟨word, rfl, stands⟩ := use.of_unmarked
      have reads : Repeats related .loose ([dot] ++ [_]) ahead (do
          let _ ← expect .dot .superDot
          return Expr.super (.unmarked word) (← expect .identifier .superMethodName)) _ :=
        .expect_any words hdot (by decide) (.expect words method hmethod (by decide) .pure)
      refine .take words stands (fun same rest errors => ?_) reads
      rw [hkind] at same
      rw [Grammar.primary, bind_ok peek_cons]
      simp only [same]
      exact bind_ok (advance_ok (by simp [same]))
  | _ => exact Reads.fail _ cursor

omit words in
theorem zero : ExpressionMirrors related rounds wide 0 where
  expression := Reads.tooDeep
  assignment := Reads.tooDeep
  operation _ := Reads.tooDeep
  unary := Reads.tooDeep
  call := Reads.tooDeep
  finishCall _ := Reads.tooDeep
  primary := Reads.tooDeep

end ExpressionMirrors

theorem expressionMirrors (words : Substitution related) {rounds wide : Nat}
    (bound : rounds ≤ wide) : ∀ depth, ExpressionMirrors related rounds wide depth
  | 0 => .zero
  | depth + 1 =>
      have mirrors := expressionMirrors words bound depth
      { expression := mirrors.assignment
        assignment := mirrors.assignment_succ words
        operation := mirrors.operation_succ words bound
        unary := mirrors.unary_succ words
        call := mirrors.call_succ words bound
        finishCall := mirrors.finishCall_succ words bound
        primary := mirrors.primary_succ words }

end Grammar

end LoxLang
