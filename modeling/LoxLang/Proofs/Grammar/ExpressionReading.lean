import LoxLang.Proofs.Grammar.Reading

/-!
Expressions are read as the grammar derives them: every reader of expressions takes a text that its rule
derives as the tree that it yields, unless an error was found on the way.
-/

namespace LoxLang.Grammar

/-! ## Targets of assignments -/

theorem Phrase.of_variable {rule : Rule} {text : List Token} {use : NameUse}
    (h : Phrase rule text (.variable use)) :
    ∃ name, text = [name] ∧ name.kind = .identifier ∧ use = .unmarked name := by
  generalize hexpr : Expr.variable use = expr at h
  induction h with
  | operation _ ih | operand _ ih | unsigned _ ih | atom _ ih => exact ih hexpr
  | name hname => cases hexpr; exact ⟨_, rfl, hname, rfl⟩
  | @operator level => cases level <;> cases hexpr
  | _ => cases hexpr

theorem Phrase.of_get {rule : Rule} {text : List Token} {object : Expr} {name : Token}
    (h : Phrase rule text (.get object name)) :
    ∃ objectText dot, text = objectText ++ [dot, name] ∧ Phrase .call objectText object ∧
      dot.kind = .dot ∧ name.kind = .identifier := by
  generalize hexpr : Expr.get object name = expr at h
  induction h with
  | operation _ ih | operand _ ih | unsigned _ ih | atom _ ih => exact ih hexpr
  | property hobject hdot hname _ => cases hexpr; exact ⟨_, _, rfl, hobject, hdot, hname⟩
  | @operator level => cases level <;> cases hexpr
  | _ => cases hexpr

/-! ## Expressions -/

/-- A text read as an expression of a rule. -/
def Rule.meaning (rule : Rule) : Meaning Expr :=
  fun used expr _ => Phrase rule used expr

/-- The readers of expressions, as far as `depth` allows. -/
structure ExpressionReads (rounds depth : Nat) : Prop where
  expression : Reads (expression rounds depth) 1 (Rule.meaning .expression)
  assignment : Reads (assignment rounds depth) 1 (Rule.meaning .expression)
  operation (level : Level) :
    Reads (operation rounds level depth) 1 (Rule.meaning (.operation level))
  unary : Reads (unary rounds depth) 1 (Rule.meaning .unary)
  call : Reads (call rounds depth) 1 (Rule.meaning .call)
  finishCall (callee : Expr) :
    Reads (finishCall rounds callee depth) 1 fun used result _ =>
      ∀ text opening, Phrase .call text callee → opening.kind = .leftParen →
        Phrase .call (text ++ opening :: used) result
  primary : Reads (primary rounds depth) 1 (Rule.meaning .primary)

namespace ExpressionReads

variable {rounds depth : Nat}

theorem assignment_succ (reads : ExpressionReads rounds depth) :
    Reads (Grammar.assignment rounds (depth + 1)) 1 (Rule.meaning .expression) := by
  rw [Grammar.assignment]
  refine (reads.operation .or).bind (n := 0) fun target => ?_
  refine (Reads.accept .equal (by decide)).bind (n := 0) fun equals => ?_
  cases equals with
  | none =>
      refine Reads.pure fun _ before nothing text htarget => ?_
      rw [List.append_nil, nothing.1, List.append_nil]
      exact .operation htarget
  | some equals =>
      refine reads.assignment.some_or_none.bind (n := 0)
        fun value => ?_
      cases target with
      | «variable» use =>
          refine Reads.pure fun _ valueText hvalue before hequals text htarget => ?_
          obtain ⟨name, rfl, hname, rfl⟩ := htarget.of_variable
          obtain ⟨rfl, hequals⟩ := hequals
          rw [List.append_nil]
          exact .assign hname hequals hvalue
      | get object name =>
          refine Reads.pure fun _ valueText hvalue before hequals text htarget => ?_
          obtain ⟨objectText, dot, rfl, hobject, hdot, hname⟩ := htarget.of_get
          obtain ⟨rfl, hequals⟩ := hequals
          rw [List.append_nil, List.append_assoc]
          exact .set hobject hdot hname hequals hvalue
      | _ =>
          exact (Reads.report equals .assignmentTarget fun _ _ _ => False).bind
            (n := 0) fun _ => Reads.pure fun _ _ impossible => impossible.elim

theorem operand (reads : ExpressionReads rounds depth) (level : Level) :
    Reads (match level.tighter? with
      | some tighter => Grammar.operation rounds tighter depth
      | none => Grammar.unary rounds depth) 1 (Rule.meaning level.operand) := by
  cases level with
  | factor => exact reads.unary
  | _ => exact reads.operation _

theorem operation_succ (reads : ExpressionReads rounds depth) (level : Level) :
    Reads (Grammar.operation rounds level (depth + 1)) 1
      (Rule.meaning (.operation level)) := by
  rw [Grammar.operation]
  refine (reads.operand level).bind (n := 0) fun first => ?_
  refine (Reads.iterate (Phrase (.operation level)) ?_ rounds first).mono
    (Nat.le_refl _) fun used last _ loop before hfirst => loop before (.operand hfirst)
  intro left
  refine (Reads.acceptAny level.operators (by cases level <;> decide)).bind (n := 0)
    fun operator => ?_
  cases operator with
  | none =>
      refine Reads.pure fun _ before nothing text hleft => ?_
      rw [List.append_nil, nothing.1, List.append_nil]
      exact hleft
  | some operator =>
      refine (reads.operand level).some_or_none.map ?_
      intro used right _ hright before hoperator text hleft
      obtain ⟨rfl, hoperator⟩ := hoperator
      exact .operator hleft hoperator hright

theorem unary_succ (reads : ExpressionReads rounds depth) :
    Reads (Grammar.unary rounds (depth + 1)) 1 (Rule.meaning .unary) := by
  rw [Grammar.unary]
  refine (Reads.acceptAny [.bang, .minus] (by decide)).bind (n := 1) fun operator => ?_
  cases operator with
  | none =>
      refine reads.call.mono (Nat.le_refl _) fun used expr _ hexpr before nothing => ?_
      rw [nothing.1]
      exact .unsigned hexpr
  | some operator =>
      refine reads.unary.map fun used right _ hright before hoperator => ?_
      obtain ⟨rfl, hoperator⟩ := hoperator
      exact .sign hoperator hright

theorem call_succ (reads : ExpressionReads rounds depth) :
    Reads (Grammar.call rounds (depth + 1)) 1 (Rule.meaning .call) := by
  rw [Grammar.call]
  refine reads.primary.bind (n := 0) fun callee => ?_
  refine (Reads.iterate (Phrase .call) ?_ rounds callee).mono (Nat.le_refl _)
    fun used last _ loop before hcallee => loop before (.atom hcallee)
  intro callee
  refine (Reads.accepts .leftParen (by decide)).bind (n := 0) fun parenthesis => ?_
  cases parenthesis with
  | true =>
      refine (reads.finishCall callee).some_or_none.map ?_
      intro used result _ hresult before hopening text hcallee
      obtain ⟨opening, rfl, hopening⟩ := hopening
      exact hresult text opening hcallee hopening
  | false =>
      refine (Reads.accepts .dot (by decide)).bind (n := 0) fun dot => ?_
      cases dot with
      | true =>
          refine (Reads.expect .identifier .propertyName (by decide)).some_or_none.map ?_
          intro used name _ hname before hdot earlier nothing text hobject
          obtain ⟨rfl, hname⟩ := hname
          obtain ⟨dot, rfl, hdot⟩ := hdot
          rw [nothing.1]
          exact .property hobject hdot hname
      | false =>
          refine Reads.pure fun _ before nothing earlier none text hcallee => ?_
          rw [List.append_nil, nothing.1, none.1, List.append_nil, List.append_nil]
          exact hcallee

theorem finishCall_succ (reads : ExpressionReads rounds depth) (callee : Expr) :
    Reads (Grammar.finishCall rounds callee (depth + 1)) 1 fun used result _ =>
      ∀ text opening, Phrase .call text callee → opening.kind = .leftParen →
        Phrase .call (text ++ opening :: used) result := by
  have closing (arguments : List Expr) :
      Reads (do
        let paren ← expect .rightParen .argumentsEnd
        return .call callee paren arguments) 1 fun used result _ =>
        ∀ listing, (∃ entries : List (List Token × Expr),
          Listing (entries.map Prod.fst) listing ∧
          (∀ entry ∈ entries, Phrase .expression entry.1 entry.2) ∧
          entries.length ≤ maxArguments ∧ entries.map Prod.snd = arguments) →
        ∀ text opening, Phrase .call text callee → opening.kind = .leftParen →
          Phrase .call (text ++ opening :: (listing ++ used)) result := by
    refine (Reads.expect .rightParen .argumentsEnd (by decide)).map ?_
    rintro used paren _ ⟨rfl, hparen⟩ listing ⟨entries, hlisting, hentries, bound, rfl⟩
      text opening hcallee hopening
    exact .application hcallee hopening hlisting hentries bound hparen
  rw [Grammar.finishCall]
  refine (Reads.isNext .rightParen).bind (n := 1) fun closed => ?_
  cases closed with
  | true =>
      refine (closing []).mono (Nat.le_refl _) fun used result _ rest before nothing => ?_
      rw [nothing.1]
      exact rest [] ⟨[], .none, by simp, by simp, rfl⟩
  | false =>
      refine (Reads.commaList (Phrase .expression) rounds .tooManyArguments reads.expression).some_or_none.bind
        (n := 1) fun arguments => ?_
      refine (closing arguments).mono (Nat.le_refl _) ?_
      intro used result _ rest listing hlisting before nothing
      rw [nothing.1]
      exact rest listing hlisting

theorem primary_succ (reads : ExpressionReads rounds depth) :
    Reads (Grammar.primary rounds (depth + 1)) 1 (Rule.meaning .primary) := by
  rw [Grammar.primary]
  refine Reads.peek_bind fun cursor => ?_
  have single {expr : Expr} (inside : cursor.peek.kind ≠ .endOfInput)
      (means : Phrase .primary [cursor.peek] expr) :
      Outcome cursor 1 (Rule.meaning .primary)
        ((advance >>= fun _ => (pure expr : Reader Expr)) cursor) :=
    Reads.advance_bind (m := 0) inside (.pure fun _ => means)
  generalize hkind : cursor.peek.kind = kind
  cases kind with
  | false => exact single (by simp [hkind]) (.literal (by simp [constant?, hkind]))
  | true => exact single (by simp [hkind]) (.literal (by simp [constant?, hkind]))
  | nil => exact single (by simp [hkind]) (.literal (by simp [constant?, hkind]))
  | number => exact single (by simp [hkind]) (.literal (by simp [constant?, hkind]))
  | string => exact single (by simp [hkind]) (.literal (by simp [constant?, hkind]))
  | this => exact single (by simp [hkind]) (.this hkind)
  | identifier => exact single (by simp [hkind]) (.name hkind)
  | leftParen =>
      refine Reads.advance_bind (m := 0) (by simp [hkind]) ?_
      refine reads.expression.some_or_none.bind (n := 0)
        fun inner => ?_
      refine (Reads.expect .rightParen .groupingEnd (by decide)).some_or_none.map ?_
      rintro used closing _ ⟨rfl, hclosing⟩ text hinner
      exact .grouping hkind hinner hclosing
  | super =>
      refine Reads.advance_bind (m := 0) (by simp [hkind]) ?_
      refine (Reads.expect .dot .superDot (by decide)).some_or_none.bind (n := 0) fun dot => ?_
      refine (Reads.expect .identifier .superMethodName (by decide)).some_or_none.map ?_
      rintro used method _ ⟨rfl, hmethod⟩ before ⟨rfl, hdot⟩
      exact .super hkind hdot hmethod
  | _ => exact Reads.fail _ cursor

theorem zero : ExpressionReads rounds 0 where
  expression := Reads.tooDeep
  assignment := Reads.tooDeep
  operation _ := Reads.tooDeep
  unary := Reads.tooDeep
  call := Reads.tooDeep
  finishCall _ := Reads.tooDeep
  primary := Reads.tooDeep

end ExpressionReads

theorem expressionReads (rounds : Nat) : ∀ depth, ExpressionReads rounds depth
  | 0 => .zero
  | depth + 1 =>
      have reads := expressionReads rounds depth
      { expression := reads.assignment
        assignment := reads.assignment_succ
        operation := reads.operation_succ
        unary := reads.unary_succ
        call := reads.call_succ
        finishCall := reads.finishCall_succ
        primary := reads.primary_succ }

end LoxLang.Grammar
