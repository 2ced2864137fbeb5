import LoxLang.Proofs.Grammar.ExpressionRepeating
import LoxLang.Proofs.Grammar.StatementAcceptance

/-!
Statements and declarations with other words. Every variation of a statement that was read is what some text with other
words is read as; whether an `else` is behind the text is all that matters there.
-/

namespace LoxLang

variable {related : Token → Token → Prop}

def Stmt.Like (related : Token → Token → Prop) (stmt other : Stmt) : Prop :=
  Scoping.Node.Like related (.stmt stmt) (.stmt other)

def FunctionDecl.Like (related : Token → Token → Prop) (declaration other : FunctionDecl) : Prop :=
  Scoping.Node.Like related (.function declaration) (.function other)

theorem Expr?.Varies.like {levels : Levels} {expr other : Option Expr}
    (h : Expr?.Varies (.loose related) levels expr other) :
    Option.Rel (Expr.Like related) expr other := by
  cases h with
  | none => exact .none
  | some h => exact .some ⟨levels, h⟩

theorem Scoping.Node.Varies.like_stmts {levels : Levels} {statements others : List Stmt}
    (h : Node.Varies (.loose related) levels (.statements statements) (.statements others)) :
    List.Forall₂ (Stmt.Like related) statements others :=
  h.forall₂.imp fun _ _ same => ⟨levels, same⟩

theorem FunctionDecl.Like.parts {declaration other : FunctionDecl}
    (h : declaration.Like related other) :
    related declaration.name other.name ∧
      List.Forall₂ related declaration.params other.params ∧
      List.Forall₂ (Stmt.Like related) declaration.body other.body := by
  obtain ⟨levels, h⟩ := h
  cases h with
  | declaration name params body => exact ⟨name, params, body.like_stmts⟩

/-- A variation of a loop is a loop of variations. -/
theorem Stmt.Like.of_forLoop {initializer : Option Stmt} {condition increment : Option Expr}
    {body other : Stmt} (h : (Grammar.forLoop initializer condition increment body).Like related other) :
    ∃ init test step inner, other = Grammar.forLoop init test step inner ∧
      Option.Rel (Stmt.Like related) initializer init ∧
      Option.Rel (Expr.Like related) condition test ∧
      Option.Rel (Expr.Like related) increment step ∧ body.Like related inner := by
  have loop {levels : Levels} {other : Stmt} (h : Scoping.Node.Varies (.loose related) levels
      (.stmt (.while (condition.getD (.literal (.bool true))) body increment)) (.stmt other)) :
      ∃ test step inner, other = .while (test.getD (.literal (.bool true))) inner step ∧
        Option.Rel (Expr.Like related) condition test ∧
        Option.Rel (Expr.Like related) increment step ∧ body.Like related inner := by
    cases h with
    | @«while» _ _ test _ _ _ _ same inner step =>
        cases condition with
        | none =>
            cases same
            exact ⟨none, _, _, rfl, .none, step.like, ⟨levels, inner⟩⟩
        | some condition =>
            exact ⟨some test, _, _, rfl, .some ⟨levels, same⟩, step.like, ⟨levels, inner⟩⟩
  obtain ⟨levels, h⟩ := h
  cases initializer with
  | none =>
      obtain ⟨test, step, inner, rfl, same⟩ := loop h
      exact ⟨none, test, step, inner, rfl, .none, same⟩
  | some initializer =>
      cases h with
      | block statements =>
          cases statements with
          | cons first rest =>
              cases rest with
              | cons second nothing =>
                  cases nothing
                  obtain ⟨test, step, inner, rfl, same⟩ := loop second
                  exact ⟨some _, test, step, inner, rfl, .some ⟨_, first⟩, same⟩

namespace Grammar

/-! ## Statements without others in them -/

section

variable (words : Substitution related) {rounds wide : Nat} (bound : rounds ≤ wide) (depth : Nat)
include words bound

theorem expressionStatement_mirrors :
    Reads (expressionStatement rounds depth) 1
      (Mirrors related rounds .branching (Stmt.Like related) (expressionStatement wide depth)) := by
  cases depth with
  | zero => exact Reads.tooDeep
  | succ depth =>
      rw [expressionStatement, expressionStatement]
      refine (expressionMirrors words bound depth).expression.bind_bounded (n := 0) fun value => ?_
      refine Reads.map_bounded
        (Reads.expect .semicolon .expressionEnd (by decide)).some_or_none.bounded ?_
      rintro used semicolon ahead ⟨rfl, hsemicolon⟩ text means other ⟨levels, same⟩
      cases same with
      | expression same =>
          exact (means _ ⟨levels, same⟩).before words (List.cons_ne_nil _ _)
            (.expect_any words hsemicolon (by decide) .pure)

theorem printStatement_mirrors :
    Reads (printStatement rounds depth) 1
      (Mirrors related rounds .branching (Stmt.Like related) (printStatement wide depth)) := by
  cases depth with
  | zero => exact Reads.tooDeep
  | succ depth =>
      rw [printStatement, printStatement]
      refine (expressionMirrors words bound depth).expression.bind_bounded (n := 0) fun value => ?_
      refine Reads.map_bounded
        (Reads.expect .semicolon .printEnd (by decide)).some_or_none.bounded ?_
      rintro used semicolon ahead ⟨rfl, hsemicolon⟩ text means other ⟨levels, same⟩
      cases same with
      | print same =>
          exact (means _ ⟨levels, same⟩).before words (List.cons_ne_nil _ _)
            (.expect_any words hsemicolon (by decide) .pure)

theorem returnStatement_mirrors (keyword : Token) :
    Reads (returnStatement rounds keyword depth) 1 (Bounded rounds fun used stmt ahead =>
      ∀ other, stmt.Like related other → ∃ word, related keyword word ∧
        Repeats related .branching used ahead (returnStatement wide word depth) other) := by
  cases depth with
  | zero => exact Reads.tooDeep
  | succ depth =>
      rw [returnStatement]
      refine (optionally_isNext_mirrors words
        (expressionMirrors words bound depth).expression).bind_bounded (n := 1) fun value => ?_
      refine Reads.map_bounded (Reads.expect .semicolon .returnEnd (by decide)).bounded ?_
      rintro used semicolon ahead ⟨rfl, hsemicolon⟩ text means other ⟨levels, same⟩
      cases same with
      | @«return» _ _ word _ _ stands same =>
          refine ⟨word, stands, ?_⟩
          rw [returnStatement]
          exact (means _ same.like).before words (List.cons_ne_nil _ _)
            (.expect_any words hsemicolon (by decide) .pure)

theorem varDeclaration_mirrors :
    Reads (varDeclaration rounds depth) 1
      (Mirrors related rounds .branching (Stmt.Like related) (varDeclaration wide depth)) := by
  cases depth with
  | zero => exact Reads.tooDeep
  | succ depth =>
      rw [varDeclaration, varDeclaration]
      refine (Reads.expect .identifier .variableName (by decide)).bounded.bind_bounded (n := 0)
        fun name => ?_
      refine (optionally_accepts_mirrors words (by decide) Edge.loose_tells
        (expressionMirrors words bound depth).expression).bind_bounded (n := 0)
        fun initializer => ?_
      refine Reads.map_bounded
        (Reads.expect .semicolon .variableEnd (by decide)).some_or_none.bounded ?_
      rintro used semicolon ahead ⟨rfl, hsemicolon⟩ text means before ⟨rfl, hname⟩ other
        ⟨levels, same⟩
      cases same with
      | var name same =>
          rw [List.singleton_append]
          refine .expect words name hname (by decide) ?_
          exact (means _ same.like).before words (List.cons_ne_nil _ _)
            (.expect_any words hsemicolon (by decide) .pure)

theorem forInitializer_mirrors :
    Reads (forInitializer rounds depth) 0 (Mirrors related rounds .branching
      (Option.Rel (Stmt.Like related)) (forInitializer wide depth)) := by
  unfold forInitializer
  refine (Reads.accepts .semicolon (by decide)).bounded.bind_bounded (n := 0) fun semicolon => ?_
  cases semicolon with
  | true =>
      refine Reads.pure fun ahead _ before ⟨semicolon, found, hsemicolon⟩ other same => ?_
      subst found
      cases same
      exact .accepts words hsemicolon (by decide) .pure
  | false =>
  refine (Reads.accepts .var (by decide)).bounded.bind_bounded (n := 0) fun word => ?_
  cases word with
  | true =>
      refine (varDeclaration_mirrors words bound depth).some_or_none.map_bounded ?_
      rintro used stmt ahead means before ⟨word, rfl, hword⟩ earlier ⟨rfl, absent⟩ other same
      obtain same | _ := same
      refine .refuses words (.inr (List.cons_ne_nil _ _)) absent ?_
      exact .accepts words hword (by decide) ((means _ same).map words)
  | false =>
      refine (expressionStatement_mirrors words bound depth).some_used_bounded.map_bounded ?_
      rintro used stmt ahead ⟨some, means⟩ before ⟨rfl, noWord⟩ earlier ⟨rfl, noSemicolon⟩ other
        same
      obtain same | _ := same
      refine .refuses words (.inr some) noSemicolon (.refuses words (.inr some) noWord ?_)
      exact (means _ same).map words

theorem parameters_mirrors :
    Reads (parameters rounds) 0
      (Mirrors related rounds .loose (List.Forall₂ related) (parameters wide)) := by
  unfold parameters
  refine (Reads.isNext .rightParen).bounded.bind_bounded (n := 0) fun closed => ?_
  cases closed with
  | true =>
      refine Reads.pure fun ahead _ before ⟨nothing, closed⟩ other same => ?_
      subst nothing
      cases same
      exact .isNext words (.inl rfl) closed .pure
  | false =>
      refine (commaList_mirrors words .tooManyParameters bound
        (expect_mirrors words _ (by decide))).some_or_none.bounded_mono (Nat.le_refl 0)
        (Nat.le_refl rounds) ?_
      rintro used params ahead means before ⟨rfl, closed⟩ others same
      exact .isNext words (.inl rfl) closed (means others same)

end

/-! ## Statements and declarations -/

/-- One round of a block reads a declaration, unless the block ends. -/
def blockRound (rounds depth : Nat) (statements : Array Stmt) : Reader (Option (Array Stmt)) := do
  if ← closes then return none
  else match ← declaration rounds depth with
    | some stmt => return some (statements.push stmt)
    | none => return some statements

theorem block_succ (rounds depth : Nat) : block rounds (depth + 1) = do
    let statements ← iterate (blockRound rounds depth) rounds #[]
    let _ ← expect .rightBrace .blockEnd
    return statements.toList := by
  rw [block]
  unfold blockRound
  rfl

def classRound (rounds depth : Nat) (methods : Array FunctionDecl) :
    Reader (Option (Array FunctionDecl)) := do
  if ← closes then return none
  else return some (methods.push (← function rounds .method depth))

theorem classDeclaration_succ (rounds depth : Nat) : classDeclaration rounds (depth + 1) = do
    let name ← expect .identifier .className
    let superclass ← optionally (return !(← accepts .less)) (expect .identifier .superclassName)
    let _ ← expect .leftBrace .classBodyStart
    let methods ← iterate (classRound rounds depth) rounds #[]
    let _ ← expect .rightBrace .classBodyEnd
    return .class name (superclass.map .unmarked) methods.toList := by
  rw [classDeclaration]
  unfold classRound
  rfl

/-- The readers of statements read variations of what they read, as far as `depth` allows. -/
structure StatementMirrors (related : Token → Token → Prop) (rounds wide depth : Nat) : Prop where
  declaration : Reads (declaration rounds depth) 0 (Bounded rounds fun used result ahead =>
    ∃ stmt, result = some stmt ∧ used ≠ [] ∧ ∀ other, stmt.Like related other →
      Repeats related .branching used ahead (declaration wide depth) (some other))
  classDeclaration : Reads (classDeclaration rounds depth) 1
    (Mirrors related rounds .branching (Stmt.Like related) (classDeclaration wide depth))
  function (form : FunctionForm) : Reads (function rounds form depth) 1
    (Mirrors related rounds .branching (FunctionDecl.Like related) (function wide form depth))
  block : Reads (block rounds depth) 1
    (Mirrors related rounds .branching (List.Forall₂ (Stmt.Like related)) (block wide depth))
  statement : Reads (statement rounds depth) 1
    (Mirrors related rounds .branching (Stmt.Like related) (statement wide depth))
  forStatement : Reads (forStatement rounds depth) 1
    (Mirrors related rounds .branching (Stmt.Like related) (forStatement wide depth))
  ifStatement : Reads (ifStatement rounds depth) 1
    (Mirrors related rounds .branching (Stmt.Like related) (ifStatement wide depth))
  whileStatement : Reads (whileStatement rounds depth) 1
    (Mirrors related rounds .branching (Stmt.Like related) (whileStatement wide depth))

theorem Repeats.recovering {edge : Edge} {used ahead : List Token} {reader : Reader Stmt}
    {stmt : Stmt} (h : Repeats related edge used ahead reader stmt) :
    Repeats related edge used ahead (Grammar.recovering reader) (some stmt) := by
  obtain ⟨other, same, reads⟩ := h
  refine ⟨other, same, fun rest errors fits => ?_⟩
  unfold Grammar.recovering
  simp only [reads rest errors fits, Nat.lt_irrefl, if_false]

namespace StatementMirrors

variable (words : Substitution related) {rounds wide depth : Nat}
include words

theorem whileStatement_succ (bound : rounds ≤ wide)
    (mirrors : StatementMirrors related rounds wide depth) :
    Reads (Grammar.whileStatement rounds (depth + 1)) 1 (Mirrors related rounds .branching
      (Stmt.Like related) (Grammar.whileStatement wide (depth + 1))) := by
  rw [Grammar.whileStatement, Grammar.whileStatement]
  refine (Reads.expect .leftParen .whileStart (by decide)).bounded.bind_bounded (n := 0)
    fun opening => ?_
  refine (expressionMirrors words bound depth).expression.some_or_none.bind_bounded (n := 0)
    fun condition => ?_
  refine (Reads.expect .rightParen .whileConditionEnd (by decide)).some_or_none.bounded.bind_bounded
    (n := 0) fun closing => ?_
  refine mirrors.statement.some_or_none.map_bounded ?_
  rintro used body ahead goes before ⟨rfl, hclosing⟩ text means earlier ⟨rfl, hopening⟩ other
    ⟨levels, same⟩
  cases same with
  | «while» test inner step =>
      cases step
      rw [List.singleton_append]
      refine .expect_any words hopening (by decide) ?_
      refine (means _ ⟨levels, test⟩).before words (List.cons_ne_nil _ _) ?_
      exact .expect_any words hclosing (by decide) ((goes _ ⟨levels, inner⟩).map words)

theorem ifStatement_succ (bound : rounds ≤ wide)
    (mirrors : StatementMirrors related rounds wide depth) :
    Reads (Grammar.ifStatement rounds (depth + 1)) 1 (Mirrors related rounds .branching
      (Stmt.Like related) (Grammar.ifStatement wide (depth + 1))) := by
  rw [Grammar.ifStatement, Grammar.ifStatement]
  refine (Reads.expect .leftParen .ifStart (by decide)).bounded.bind_bounded (n := 0)
    fun opening => ?_
  refine (expressionMirrors words bound depth).expression.some_or_none.bind_bounded (n := 0)
    fun condition => ?_
  refine (Reads.expect .rightParen .ifConditionEnd (by decide)).some_or_none.bounded.bind_bounded
    (n := 0) fun closing => ?_
  refine mirrors.statement.some_or_none.bind_bounded (n := 0) fun thenBranch => ?_
  refine (optionally_accepts_mirrors words (by decide) Edge.branching_tells
    mirrors.statement).map_bounded ?_
  rintro used elseBranch ahead goesElse thenText goesThen before ⟨rfl, hclosing⟩ text means earlier
    ⟨rfl, hopening⟩ other ⟨levels, same⟩
  have alike {test : Expr} {thenOther : Stmt} {elseOther : Option Stmt}
      (test_like : condition.Like related test) (then_like : thenBranch.Like related thenOther)
      (else_like : Option.Rel (Stmt.Like related) elseBranch elseOther) :
      Repeats related .branching (opening :: (text ++ closing :: (thenText ++ used))) ahead (do
        let _ ← expect .leftParen .ifStart
        let condition ← Grammar.expression wide depth
        let _ ← expect .rightParen .ifConditionEnd
        let thenBranch ← Grammar.statement wide depth
        let elseBranch ← optionally (do return !(← accepts .else)) (Grammar.statement wide depth)
        return Stmt.if condition thenBranch elseBranch) (.if test thenOther elseOther) := by
    refine .expect_any words hopening (by decide) ?_
    refine (means _ test_like).before words (List.cons_ne_nil _ _) ?_
    refine .expect_any words hclosing (by decide) ?_
    exact (goesThen _ then_like).bind words ((goesElse _ else_like).map words)
  cases same with
  | «if» test thenSame => exact alike ⟨levels, test⟩ ⟨levels, thenSame⟩ .none
  | ifElse test thenSame elseSame =>
      exact alike ⟨levels, test⟩ ⟨levels, thenSame⟩ (.some ⟨levels, elseSame⟩)

theorem forStatement_succ (bound : rounds ≤ wide)
    (mirrors : StatementMirrors related rounds wide depth) :
    Reads (Grammar.forStatement rounds (depth + 1)) 1 (Mirrors related rounds .branching
      (Stmt.Like related) (Grammar.forStatement wide (depth + 1))) := by
  have expressions := (expressionMirrors words bound depth).expression
  rw [Grammar.forStatement, Grammar.forStatement]
  refine (Reads.expect .leftParen .forStart (by decide)).bounded.bind_bounded (n := 0)
    fun opening => ?_
  refine (forInitializer_mirrors words bound depth).bind_bounded (n := 0) fun initializer => ?_
  refine (optionally_isNext_mirrors words expressions).bind_bounded (n := 0) fun condition => ?_
  refine (Reads.expect .semicolon .forConditionEnd (by decide)).some_or_none.bounded.bind_bounded
    (n := 0) fun semicolon => ?_
  refine (optionally_isNext_mirrors words expressions).bind_bounded (n := 0) fun increment => ?_
  refine (Reads.expect .rightParen .forClausesEnd (by decide)).some_or_none.bounded.bind_bounded
    (n := 0) fun closing => ?_
  refine mirrors.statement.some_or_none.map_bounded ?_
  rintro used body ahead goes closingText ⟨rfl, hclosing⟩ incrementText goesIncrement semicolonText
    ⟨rfl, hsemicolon⟩ conditionText goesCondition initText goesInit openingText ⟨rfl, hopening⟩
    other same
  obtain ⟨init, test, step, inner, rfl, hinit, htest, hstep, hinner⟩ := same.of_forLoop
  simp only [List.singleton_append]
  refine .expect_any words hopening (by decide) ?_
  refine (goesInit _ hinit).before words (by simp) ?_
  refine (goesCondition _ htest).before words (List.cons_ne_nil _ _) ?_
  refine .expect_any words hsemicolon (by decide) ?_
  refine (goesIncrement _ hstep).before words (List.cons_ne_nil _ _) ?_
  exact .expect_any words hclosing (by decide) ((goes _ hinner).map words)

theorem blockRound_mirrors (mirrors : StatementMirrors related rounds wide depth)
    (statements : Array Stmt) :
    Reads (blockRound rounds depth statements) 0 (Bounded rounds
      (RoundMirrors related (Entries (Stmt.Like related)) (blockRound wide depth) statements)) := by
  refine Reads.closes.bounded.bind_bounded (n := 0) fun closed => ?_
  cases closed with
  | true =>
      refine Reads.pure fun ahead _ before ⟨nothing, closed⟩ => ?_
      subst nothing
      exact ⟨rfl, fun current _ => .closes words (.inl rfl) closed .pure⟩
  | false =>
      refine mirrors.declaration.bind_bounded (n := 0) fun result => ?_
      cases result with
      | none =>
          refine Reads.pure fun _ _ _ impossible => ?_
          obtain ⟨_, absurd, -⟩ := impossible
          cases absurd
      | some stmt =>
          refine Reads.pure ?_
          intro ahead _ used ⟨_, found, nonempty, goes⟩
          cases found
          rintro before ⟨rfl, closed⟩
          simp only [List.append_nil, List.nil_append] at closed goes ⊢
          refine ⟨nonempty, fun following same => ?_⟩
          obtain ⟨current, last, rfl, hcurrent, hlast⟩ := same.of_push
          refine ⟨current, hcurrent, .closes words (.inl rfl) closed ?_⟩
          exact (goes last hlast).of_branching.andThen words .pure

theorem block_succ (bound : rounds ≤ wide) (mirrors : StatementMirrors related rounds wide depth) :
    Reads (Grammar.block rounds (depth + 1)) 1 (Mirrors related rounds .branching
      (List.Forall₂ (Stmt.Like related)) (Grammar.block wide (depth + 1))) := by
  have idle (current : Array Stmt) :
      Repeats related .loose [] [] (blockRound wide depth current) none :=
    .closes words (.inl rfl) (by decide : true = _) .pure
  have loop := iterate_mirrors words (fun state => mirrors.blockRound_mirrors words state) idle
    rounds wide (Nat.le_refl rounds) bound #[]
  rw [Grammar.block_succ, Grammar.block_succ]
  refine loop.bind_bounded (n := 1) fun statements => ?_
  refine Reads.map_bounded (Reads.expect .rightBrace .blockEnd (by decide)).bounded ?_
  rintro used closing ahead ⟨rfl, hclosing⟩ text rest others same
  obtain ⟨current, alike, goes⟩ := rest others.toArray same
  cases Array.eq_empty_of_size_eq_zero alike.size
  exact goes.before words (List.cons_ne_nil _ _)
    (.expect_any words hclosing (by decide) .pure)

theorem function_succ (bound : rounds ≤ wide)
    (mirrors : StatementMirrors related rounds wide depth) (form : FunctionForm) :
    Reads (Grammar.function rounds form (depth + 1)) 1 (Mirrors related rounds .branching
      (FunctionDecl.Like related) (Grammar.function wide form (depth + 1))) := by
  rw [Grammar.function, Grammar.function]
  refine (Reads.expect .identifier _ (by decide)).bounded.bind_bounded (n := 0) fun name => ?_
  refine (Reads.expect .leftParen _ (by decide)).some_or_none.bounded.bind_bounded (n := 0)
    fun opening => ?_
  refine (parameters_mirrors words bound).bind_bounded (n := 0) fun params => ?_
  refine (Reads.expect .rightParen .parametersEnd (by decide)).some_or_none.bounded.bind_bounded
    (n := 0) fun closing => ?_
  refine (Reads.expect .leftBrace _ (by decide)).some_or_none.bounded.bind_bounded (n := 0)
    fun start => ?_
  refine mirrors.block.some_or_none.map_bounded ?_
  rintro used body ahead goes startText ⟨rfl, hstart⟩ closingText ⟨rfl, hclosing⟩ listing goesParams
    openingText ⟨rfl, hopening⟩ nameText ⟨rfl, hname⟩ ⟨nameOther, paramsOther, bodyOther⟩ same
  obtain ⟨name_stands, params_same, body_same⟩ := same.parts
  simp only [List.singleton_append]
  refine .expect words name_stands hname (by decide) ?_
  refine .expect_any words hopening (by decide) ?_
  refine (goesParams _ params_same).before words (List.cons_ne_nil _ _) ?_
  refine .expect_any words hclosing (by decide) (.expect_any words hstart (by decide) ?_)
  exact (goes _ body_same).map words

theorem classRound_mirrors (mirrors : StatementMirrors related rounds wide depth)
    (methods : Array FunctionDecl) :
    Reads (classRound rounds depth methods) 0 (Bounded rounds
      (RoundMirrors related (Entries (FunctionDecl.Like related)) (classRound wide depth)
        methods)) := by
  refine Reads.closes.bounded.bind_bounded (n := 0) fun closed => ?_
  cases closed with
  | true =>
      refine Reads.pure fun ahead _ before ⟨nothing, closed⟩ => ?_
      subst nothing
      exact ⟨rfl, fun current _ => .closes words (.inl rfl) closed .pure⟩
  | false =>
      refine (mirrors.function .method).some_used_bounded.map_bounded ?_
      rintro used method ahead ⟨some, goes⟩ before ⟨rfl, closed⟩
      refine ⟨some, fun following same => ?_⟩
      obtain ⟨current, last, rfl, hcurrent, hlast⟩ := same.of_push
      refine ⟨current, hcurrent, .closes words (.inl rfl) closed ?_⟩
      exact (goes last hlast).of_branching.map words

theorem classDeclaration_succ (bound : rounds ≤ wide)
    (mirrors : StatementMirrors related rounds wide depth) :
    Reads (Grammar.classDeclaration rounds (depth + 1)) 1 (Mirrors related rounds .branching
      (Stmt.Like related) (Grammar.classDeclaration wide (depth + 1))) := by
  have idle (current : Array FunctionDecl) :
      Repeats related .loose [] [] (classRound wide depth current) none :=
    .closes words (.inl rfl) (by decide : true = _) .pure
  have loop := iterate_mirrors words (fun state => mirrors.classRound_mirrors words state) idle
    rounds wide (Nat.le_refl rounds) bound #[]
  rw [Grammar.classDeclaration_succ, Grammar.classDeclaration_succ]
  refine (Reads.expect .identifier .className (by decide)).bounded.bind_bounded (n := 0)
    fun name => ?_
  refine (optionally_accepts_mirrors words (by decide) Edge.loose_tells
    (expect_mirrors words _ (by decide))).bind_bounded (n := 0) fun superclass => ?_
  refine (Reads.expect .leftBrace .classBodyStart (by decide)).some_or_none.bounded.bind_bounded
    (n := 0) fun start => ?_
  refine loop.bind_bounded (n := 0) fun methods => ?_
  refine Reads.map_bounded
    (Reads.expect .rightBrace .classBodyEnd (by decide)).some_or_none.bounded ?_
  rintro used stop ahead ⟨rfl, hstop⟩ text rest before ⟨rfl, hstart⟩ superText goesSuper earlier
    ⟨rfl, hname⟩ other ⟨levels, same⟩
  have alike {nameOther : Token} {superOther : Option Token} {others : List FunctionDecl}
      (name_stands : related name nameOther) (super_same : Option.Rel related superclass superOther)
      (methods_same : List.Forall₂ (FunctionDecl.Like related) methods.toList others) :
      Repeats related .branching (name :: (superText ++ start :: (text ++ [stop]))) ahead (do
        let name ← expect .identifier .className
        let superclass ← optionally (return !(← accepts .less)) (expect .identifier .superclassName)
        let _ ← expect .leftBrace .classBodyStart
        let methods ← iterate (classRound wide depth) wide #[]
        let _ ← expect .rightBrace .classBodyEnd
        return Stmt.class name (superclass.map .unmarked) methods.toList)
        (.class nameOther (superOther.map .unmarked) others) := by
    obtain ⟨current, empty, goes⟩ := rest others.toArray methods_same
    cases Array.eq_empty_of_size_eq_zero empty.size
    refine .expect words name_stands hname (by decide) ?_
    refine (goesSuper _ super_same).before words (List.cons_ne_nil _ _) ?_
    refine .expect_any words hstart (by decide) ?_
    exact goes.before words (List.cons_ne_nil _ _) (.expect_any words hstop (by decide) .pure)
  cases superclass with
  | none =>
      cases same with
      | «class» name count each =>
          exact alike name.plain .none (List.forall₂_iff_zip.mpr
            ⟨count, fun member => ⟨_, each _ _ member⟩⟩)
  | some superclass =>
      cases same with
      | subclass name use count each =>
          obtain ⟨word, rfl, stands⟩ := use.of_unmarked
          exact alike name.plain (.some stands) (List.forall₂_iff_zip.mpr
            ⟨count, fun member => ⟨_, each _ _ member⟩⟩)

/-- A statement that begins with a word of its own, of which the rest is read by a reader of its own. -/
theorem of_word {cursor : Cursor} {reader : Reader Stmt} (again : Token → Reader Stmt)
    (inside : cursor.peek.kind ≠ .endOfInput)
    (dispatch : ∀ word : Token, word.kind = cursor.peek.kind → ∀ rest errors,
      Grammar.statement wide (depth + 1) ⟨word :: rest, errors⟩ =
        (advance >>= fun _ => again word) ⟨word :: rest, errors⟩)
    (reads : Reads reader 0 (Bounded rounds fun used stmt ahead => ∀ other,
      stmt.Like related other → ∃ word, related cursor.peek word ∧
        Repeats related .branching used ahead (again word) other)) :
    Outcome cursor 1 (Mirrors related rounds .branching (Stmt.Like related)
      (Grammar.statement wide (depth + 1))) ((advance >>= fun _ => reader) cursor) := by
  refine Reads.advance_bounded (m := 0) inside (reads.bounded_mono (Nat.le_refl 0)
    (Nat.le_refl rounds) fun used stmt ahead means other same => ?_)
  obtain ⟨word, stands, goes⟩ := means other same
  refine .take words stands (fun same rest errors => ?_) goes
  rw [dispatch word same, bind_ok (advance_ok (same ▸ inside))]

theorem of_reader {cursor : Cursor} {reader : Reader Stmt} (again : Reader Stmt)
    (inside : cursor.peek.kind ≠ .endOfInput)
    (dispatch : ∀ word : Token, word.kind = cursor.peek.kind → ∀ rest errors,
      Grammar.statement wide (depth + 1) ⟨word :: rest, errors⟩ =
        (advance >>= fun _ => again) ⟨word :: rest, errors⟩)
    (reads : Reads reader 1 (Mirrors related rounds .branching (Stmt.Like related) again)) :
    Outcome cursor 1 (Mirrors related rounds .branching (Stmt.Like related)
      (Grammar.statement wide (depth + 1))) ((advance >>= fun _ => reader) cursor) := by
  obtain ⟨word, stands⟩ := words.total cursor.peek
  exact of_word words (fun _ => again) inside dispatch (reads.bounded_mono (Nat.zero_le 1)
    (Nat.le_refl rounds) fun _ _ _ means other same => ⟨word, stands, means other same⟩)

theorem statement_succ (bound : rounds ≤ wide)
    (mirrors : StatementMirrors related rounds wide depth) :
    Reads (Grammar.statement rounds (depth + 1)) 1 (Mirrors related rounds .branching
      (Stmt.Like related) (Grammar.statement wide (depth + 1))) := by
  rw [Grammar.statement]
  refine Reads.peek_bind fun cursor => ?_
  generalize hkind : cursor.peek.kind = kind
  cases kind with
  | «for» =>
      refine of_reader words _ (by simp [hkind]) (fun word same _ _ => ?_) mirrors.forStatement
      rw [Grammar.statement, bind_ok peek_cons]
      simp only [same, hkind]
  | «if» =>
      refine of_reader words _ (by simp [hkind]) (fun word same _ _ => ?_) mirrors.ifStatement
      rw [Grammar.statement, bind_ok peek_cons]
      simp only [same, hkind]
  | «while» =>
      refine of_reader words _ (by simp [hkind]) (fun word same _ _ => ?_) mirrors.whileStatement
      rw [Grammar.statement, bind_ok peek_cons]
      simp only [same, hkind]
  | print =>
      refine of_reader words _ (by simp [hkind]) (fun word same _ _ => ?_)
        (printStatement_mirrors words bound depth)
      rw [Grammar.statement, bind_ok peek_cons]
      simp only [same, hkind]
  | «return» =>
      refine of_word words (fun word => returnStatement wide word depth) (by simp [hkind])
        (fun word same _ _ => ?_)
        (returnStatement_mirrors words bound depth cursor.peek).some_or_none
      rw [Grammar.statement, bind_ok peek_cons]
      simp only [same, hkind]
  | «break» =>
      refine of_word words (fun word => do
        let _ ← expect .semicolon .breakEnd
        return .break word) (by simp [hkind]) (fun word same _ _ => ?_) (Reads.map_bounded
          (Reads.expect .semicolon .breakEnd (by decide)).some_or_none.bounded ?_)
      · rw [Grammar.statement, bind_ok peek_cons]
        simp only [same, hkind]
      · rintro used semicolon ahead ⟨rfl, hsemicolon⟩ other ⟨levels, same⟩
        cases same with
        | «break» stands =>
            exact ⟨_, stands, .expect_any words hsemicolon (by decide) .pure⟩
  | «continue» =>
      refine of_word words (fun word => do
        let _ ← expect .semicolon .continueEnd
        return .continue word) (by simp [hkind]) (fun word same _ _ => ?_) (Reads.map_bounded
          (Reads.expect .semicolon .continueEnd (by decide)).some_or_none.bounded ?_)
      · rw [Grammar.statement, bind_ok peek_cons]
        simp only [same, hkind]
      · rintro used semicolon ahead ⟨rfl, hsemicolon⟩ other ⟨levels, same⟩
        cases same with
        | «continue» stands =>
            exact ⟨_, stands, .expect_any words hsemicolon (by decide) .pure⟩
  | leftBrace =>
      refine of_reader words (do return .block (← Grammar.block wide depth)) (by simp [hkind])
        (fun word same _ _ => ?_) (mirrors.block.map_bounded ?_)
      · rw [Grammar.statement, bind_ok peek_cons]
        simp only [same, hkind]
      · rintro used statements ahead means other ⟨levels, same⟩
        cases same with
        | block same => exact (means _ same.like_stmts).map words
  | _ =>
      refine Outcome.here (((expressionStatement_mirrors words bound depth).some_used cursor).mono
        (Nat.le_refl 1) fun used stmt ahead means text short other same => ?_)
      refine .look words (.inr means.1) (fun next head => ?_) (means.2 short other same)
      have same : next.peek.kind = cursor.peek.kind := by
        rw [Cursor.kind_peek, Cursor.kind_peek, head, text]
      rw [Grammar.statement, bind_ok peek_eq]
      simp only [same, hkind]

theorem declarationBody (bound : rounds ≤ wide)
    (mirrors : StatementMirrors related rounds wide depth) :
    Reads (declarationBody rounds depth) 1 (Mirrors related rounds .branching
      (Stmt.Like related) (declarationBody wide depth)) := by
  unfold Grammar.declarationBody
  refine (Reads.accepts .class (by decide)).bounded.bind_bounded (n := 1) fun word => ?_
  cases word with
  | true =>
      refine mirrors.classDeclaration.bounded_mono (Nat.le_refl 1) (Nat.le_refl rounds) ?_
      rintro used stmt ahead means before ⟨word, rfl, hword⟩ other same
      exact .accepts words hword (by decide) (means other same)
  | false =>
  refine (Reads.accepts .fun (by decide)).bounded.bind_bounded (n := 1) fun word => ?_
  cases word with
  | true =>
      refine (mirrors.function .function).map_bounded ?_
      rintro used declaration ahead means before ⟨word, rfl, hword⟩ earlier ⟨rfl, noClass⟩ other
        ⟨levels, same⟩
      cases same with
      | function name same =>
          refine .refuses words (.inr (List.cons_ne_nil _ _)) noClass ?_
          exact .accepts words hword (by decide) ((means _ ⟨levels, same⟩).map words)
  | false =>
  refine (Reads.accepts .var (by decide)).bounded.bind_bounded (n := 1) fun word => ?_
  cases word with
  | true =>
      refine (varDeclaration_mirrors words bound depth).bounded_mono (Nat.le_refl 1)
        (Nat.le_refl rounds) ?_
      rintro used stmt ahead means before ⟨word, rfl, hword⟩ earlier ⟨rfl, noFun⟩ first
        ⟨rfl, noClass⟩ other same
      refine .refuses words (.inr (List.cons_ne_nil _ _)) noClass ?_
      refine .refuses words (.inr (List.cons_ne_nil _ _)) noFun ?_
      exact .accepts words hword (by decide) (means other same)
  | false =>
      refine mirrors.statement.some_used.mono (Nat.le_refl 1) ?_
      rintro used stmt ahead ⟨nonempty, means⟩ short before ⟨rfl, noVar⟩ earlier ⟨rfl, noFun⟩ first
        ⟨rfl, noClass⟩ other same
      refine .refuses words (.inr nonempty) noClass (.refuses words (.inr nonempty) noFun ?_)
      exact .refuses words (.inr nonempty) noVar (means short other same)

theorem declaration_succ (bound : rounds ≤ wide)
    (mirrors : StatementMirrors related rounds wide depth) :
    Reads (Grammar.declaration rounds (depth + 1)) 0 (Bounded rounds fun used result ahead =>
      ∃ stmt, result = some stmt ∧ used ≠ [] ∧ ∀ other, stmt.Like related other →
        Repeats related .branching used ahead (Grammar.declaration wide (depth + 1))
          (some other)) := by
  rw [Grammar.declaration, Grammar.declaration]
  refine (mirrors.declarationBody words bound).some_used.recovering.mono (Nat.le_refl 0) ?_
  rintro used result ahead ⟨stmt, rfl, nonempty, means⟩ short
  exact ⟨stmt, rfl, nonempty, fun other same => Repeats.recovering (means short other same)⟩

omit words in
theorem zero : StatementMirrors related rounds wide 0 where
  declaration := Reads.tooDeep
  classDeclaration := Reads.tooDeep
  function _ := Reads.tooDeep
  block := Reads.tooDeep
  statement := Reads.tooDeep
  forStatement := Reads.tooDeep
  ifStatement := Reads.tooDeep
  whileStatement := Reads.tooDeep

end StatementMirrors

theorem statementMirrors (words : Substitution related) {rounds wide : Nat}
    (bound : rounds ≤ wide) : ∀ depth, StatementMirrors related rounds wide depth
  | 0 => .zero
  | depth + 1 =>
      have mirrors := statementMirrors words bound depth
      { declaration := mirrors.declaration_succ words bound
        classDeclaration := mirrors.classDeclaration_succ words bound
        function := mirrors.function_succ words bound
        block := mirrors.block_succ words bound
        statement := mirrors.statement_succ words bound
        forStatement := mirrors.forStatement_succ words bound
        ifStatement := mirrors.ifStatement_succ words bound
        whileStatement := mirrors.whileStatement_succ words bound }

end Grammar

end LoxLang
