import LoxLang.Proofs.Grammar.ExpressionReading

/-!
Statements and declarations are read as the grammar derives them. A declaration in which an error was found
is left out, and skipped if it failed; what is kept is derived from exactly the tokens that were taken.
-/

namespace LoxLang.Grammar

/-! ## Statements without others in them -/

section

variable (rounds depth : Nat)

theorem reads_expressionStatement :
    Reads (expressionStatement rounds depth) 1 fun used stmt _ => ExpressionText used stmt := by
  cases depth with
  | zero => exact Reads.tooDeep
  | succ depth =>
      rw [expressionStatement]
      refine (expressionReads rounds depth).expression.bind (n := 0) fun value => ?_
      refine (Reads.expect .semicolon .expressionEnd (by decide)).some_or_none.map ?_
      rintro used semicolon _ ⟨rfl, hsemicolon⟩ text hvalue
      exact .expression hvalue hsemicolon

theorem reads_printStatement :
    Reads (printStatement rounds depth) 1 fun used stmt _ =>
      ∀ word, word.kind = .print → Clause (.statement false) (word :: used) stmt := by
  cases depth with
  | zero => exact Reads.tooDeep
  | succ depth =>
      rw [printStatement]
      refine (expressionReads rounds depth).expression.bind (n := 0) fun value => ?_
      refine (Reads.expect .semicolon .printEnd (by decide)).some_or_none.map ?_
      rintro used semicolon _ ⟨rfl, hsemicolon⟩ text hvalue word hword
      exact .print hword hvalue hsemicolon

theorem reads_optionalPhrase (kind : Token.Kind) :
    Reads (optionally (isNext kind) (expression rounds depth)) 0 fun used value _ =>
      OptionalPhrase used value := by
  refine (Reads.optionally_isNext kind (expressionReads rounds depth).expression).mono
    (Nat.le_refl _) fun used value _ means => ?_
  cases value with
  | some value => exact .present means.2
  | none => exact means.1 ▸ .absent

theorem reads_returnStatement (keyword : Token) :
    Reads (returnStatement rounds keyword depth) 1 fun used stmt _ =>
      keyword.kind = .return → Clause (.statement false) (keyword :: used) stmt := by
  cases depth with
  | zero => exact Reads.tooDeep
  | succ depth =>
      rw [returnStatement]
      refine (reads_optionalPhrase rounds depth .semicolon).bind (n := 1) fun value => ?_
      refine (Reads.expect .semicolon .returnEnd (by decide)).map ?_
      rintro used semicolon _ ⟨rfl, hsemicolon⟩ text hvalue hword
      exact .return hword hvalue hsemicolon

theorem reads_varDeclaration :
    Reads (varDeclaration rounds depth) 1 fun used stmt _ => VariableText used stmt := by
  cases depth with
  | zero => exact Reads.tooDeep
  | succ depth =>
      rw [varDeclaration]
      refine (Reads.expect .identifier .variableName (by decide)).bind (n := 0)
        fun name => ?_
      refine (Reads.optionally_accepts .equal (by decide)
        (expressionReads rounds depth).expression).bind (n := 0) fun initializer => ?_
      refine (Reads.expect .semicolon .variableEnd (by decide)).some_or_none.map ?_
      rintro used semicolon _ ⟨rfl, hsemicolon⟩ text hinitializer before ⟨rfl, hname⟩
      cases initializer with
      | none =>
          obtain ⟨rfl, -⟩ := hinitializer
          exact .plain hname hsemicolon
      | some value =>
          obtain ⟨equals, text, rfl, hequals, hvalue⟩ := hinitializer
          exact .initialized hname hequals hvalue hsemicolon

theorem reads_forInitializer :
    Reads (forInitializer rounds depth) 0 fun used initializer _ =>
      InitializerText used initializer := by
  unfold forInitializer
  refine (Reads.accepts .semicolon (by decide)).bind (n := 0) fun semicolon => ?_
  cases semicolon with
  | true =>
      refine Reads.pure fun _ before hsemicolon => ?_
      obtain ⟨semicolon, rfl, hsemicolon⟩ := hsemicolon
      exact .absent hsemicolon
  | false =>
      refine (Reads.accepts .var (by decide)).bind (n := 0) fun word => ?_
      cases word with
      | true =>
          refine (reads_varDeclaration rounds depth).some_or_none.map ?_
          rintro used stmt _ hstmt before ⟨word, rfl, hword⟩ earlier ⟨rfl, -⟩
          exact .variable hword hstmt
      | false =>
          refine (reads_expressionStatement rounds depth).some_or_none.map ?_
          rintro used stmt _ hstmt before ⟨rfl, -⟩ earlier ⟨rfl, -⟩
          exact .expression hstmt

theorem reads_parameters :
    Reads (parameters rounds) 0 fun used params _ =>
      Listing (params.map ([·])) used ∧ (∀ param ∈ params, param.kind = .identifier) ∧
        params.length ≤ maxArguments := by
  unfold parameters
  refine (Reads.isNext .rightParen).bind (n := 0) fun closed => ?_
  cases closed with
  | true =>
      refine Reads.pure fun _ before nothing => ?_
      rw [nothing.1]
      exact ⟨.none, by simp, by simp⟩
  | false =>
      refine (Reads.commaList (fun text param => text = [param] ∧ param.kind = .identifier)
        rounds .tooManyParameters
        (Reads.expect .identifier .parameterName (by decide))).some_or_none.mono
        (Nat.le_refl _) ?_
      rintro used params _ ⟨entries, listing, hentries, bound, rfl⟩ before ⟨rfl, -⟩
      have htexts : (entries.map Prod.snd).map ([·]) = entries.map Prod.fst := by
        rw [List.map_map]
        exact List.map_congr_left fun entry member => (hentries entry member).1.symm
      refine ⟨?_, ?_, ?_⟩
      · rw [htexts]
        exact listing
      · intro param member
        obtain ⟨entry, hentry, rfl⟩ := List.mem_map.mp member
        exact (hentries entry hentry).2
      · rw [List.length_map]
        exact bound

end

/-! ## Recovery -/

/-- Skipping drops tokens up to the next place where a statement may begin, at least one unless such a
place or the end is reached already. -/
theorem nextStatement_eq_drop (text : List Token) :
    ∃ skipped, text = skipped ++ nextStatement text ∧
      (∀ token ∈ skipped, token.kind ≠ .endOfInput) ∧
      (headKind text ≠ .endOfInput → headKind text ∉ statementWords → skipped ≠ []) := by
  induction text with
  | nil => exact ⟨[], rfl, by simp, fun h => absurd rfl h⟩
  | cons token rest ih =>
      rw [nextStatement]
      split
      · next hend => exact ⟨[], rfl, by simp, fun h => absurd hend h⟩
      next hend =>
      split
      · exact ⟨[token], rfl, by simpa using hend, by simp⟩
      split
      · next hword => exact ⟨[], rfl, by simp, fun _ h => absurd (by simpa using hword) h⟩
      · obtain ⟨skipped, hskipped, hinner, -⟩ := ih
        refine ⟨token :: skipped, by rw [List.cons_append, ← hskipped], ?_, by simp⟩
        intro other member
        rcases List.mem_cons.mp member with rfl | member
        · exact hend
        · exact hinner other member

theorem Cursor.moves_synchronize (cursor : Cursor) :
    ∃ skipped, cursor.Moves cursor.synchronize skipped [] ∧
      (headKind cursor.ahead ≠ .endOfInput → headKind cursor.ahead ∉ statementWords →
        skipped ≠ []) := by
  obtain ⟨ahead, errors⟩ := cursor
  obtain ⟨skipped, hskipped, hinner, hprogress⟩ := nextStatement_eq_drop ahead
  exact ⟨skipped, ⟨hskipped, (List.append_nil _).symm, hinner⟩, hprogress⟩

/-- A declaration is kept exactly if no error was found in it. -/
theorem recovering_ok {reader : Reader Stmt} {least : Nat} {meaning : Meaning Stmt}
    (reads : Reads reader least meaning)
    {cursor next : Cursor} {result : Option Stmt}
    (h : recovering reader cursor = .ok result next) :
    ∃ used found, cursor.Moves next used found ∧
      (found = [] → ∃ stmt, result = some stmt ∧ meaning used stmt next.ahead) ∧
      (found ≠ [] → result = none) := by
  have outcome := reads cursor
  unfold recovering at h
  cases hreader : reader cursor with
  | ok stmt middle =>
      rw [hreader] at outcome h
      obtain ⟨used, found, moves, -, hmeans⟩ := outcome
      have hsize : middle.errors.size = cursor.errors.size + found.length := by
        rw [← Array.length_toList, moves.errors, List.length_append, Array.length_toList]
      cases h
      refine ⟨used, found, moves, ?_, ?_⟩
      · rintro rfl
        refine ⟨stmt, if_neg ?_, hmeans rfl⟩
        rw [hsize]
        exact Nat.lt_irrefl _
      · intro hfound
        have := List.length_pos_iff.mpr hfound
        exact if_pos (by omega)
  | error stop middle =>
      rw [hreader] at outcome h
      cases stop with
      | tooDeep => cases h
      | failed =>
          obtain ⟨used, found, moves, hfound⟩ := outcome
          obtain ⟨skipped, hskipped, -⟩ := middle.moves_synchronize
          cases h
          refine ⟨used ++ skipped, found ++ [], moves.trans hskipped, ?_, fun _ => rfl⟩
          intro clean
          exact absurd (List.append_eq_nil_iff.mp clean).1 hfound

theorem Reads.recovering {reader : Reader Stmt} {least : Nat} {meaning : Meaning Stmt}
    (reads : Reads reader least meaning) :
    Reads (Grammar.recovering reader) 0 fun used result ahead =>
      ∃ stmt, result = some stmt ∧ meaning used stmt ahead := by
  intro cursor
  cases hresult : Grammar.recovering reader cursor with
  | ok result next =>
      obtain ⟨used, found, moves, hclean, -⟩ := recovering_ok reads hresult
      exact ⟨used, found, moves, Nat.zero_le _, hclean⟩
  | error stop next =>
      cases stop with
      | tooDeep => trivial
      | failed =>
          unfold Grammar.recovering at hresult
          dsimp only at hresult
          split at hresult <;> cases hresult

/-! ## Statements and declarations -/

/-- A text read as a statement. If it ends in an `if` without `else`, no `else` is ahead. -/
def statementMeaning : Meaning Stmt :=
  fun used stmt ahead => ∃ dangles, Clause (.statement dangles) used stmt ∧
    (dangles = true → headKind ahead ≠ .else)

/-- What a statement reads after its first word. -/
def wordMeaning (kind : Token.Kind) : Meaning Stmt :=
  fun used stmt ahead => ∀ word : Token, word.kind = kind →
    statementMeaning (word :: used) stmt ahead

theorem statementMeaning_of_closed {used : List Token} {stmt : Stmt} {ahead : List Token}
    (h : Clause (.statement false) used stmt) : statementMeaning used stmt ahead :=
  ⟨false, h, fun impossible => nomatch impossible⟩

/-- The readers of statements, as far as `depth` allows. -/
structure StatementReads (rounds depth : Nat) : Prop where
  declaration : Reads (declaration rounds depth) 0 fun used result _ =>
    ∃ stmt, result = some stmt ∧ Clause .declaration used stmt
  classDeclaration : Reads (classDeclaration rounds depth) 1 fun used stmt _ =>
    ∀ word : Token, word.kind = .class → Clause .declaration (word :: used) stmt
  function (form : FunctionForm) : Reads (function rounds form depth) 1 fun used result _ =>
    ∃ text : FunctionText, text.tokens = used ∧ text.declaration = result ∧
      ∀ piece ∈ text.body, Clause .declaration piece.1 piece.2
  block : Reads (block rounds depth) 1 fun used statements _ =>
    ∃ (pieces : List (List Token × Stmt)) (closing : Token),
      pieces.flatMap Prod.fst ++ [closing] = used ∧ closing.kind = .rightBrace ∧
        pieces.map Prod.snd = statements ∧
        ∀ piece ∈ pieces, Clause .declaration piece.1 piece.2
  statement : Reads (statement rounds depth) 1 statementMeaning
  forStatement : Reads (forStatement rounds depth) 1 (wordMeaning .for)
  ifStatement : Reads (ifStatement rounds depth) 1 (wordMeaning .if)
  whileStatement : Reads (whileStatement rounds depth) 1 (wordMeaning .while)

/-- A declaration, before its errors are counted. -/
def declarationBody (rounds depth : Nat) : Reader Stmt := do
  if ← accepts .class then classDeclaration rounds depth
  else if ← accepts .fun then return .function (← function rounds .function depth)
  else if ← accepts .var then varDeclaration rounds depth
  else statement rounds depth

namespace StatementReads

variable {rounds depth : Nat}

theorem declarationBody (reads : StatementReads rounds depth) :
    Reads (declarationBody rounds depth) 1 fun used stmt _ =>
      Clause .declaration used stmt := by
  unfold Grammar.declarationBody
  refine (Reads.accepts .class (by decide)).bind (n := 1) fun word => ?_
  cases word with
  | true =>
      refine reads.classDeclaration.mono (Nat.le_refl _) ?_
      rintro used stmt _ hstmt before ⟨word, rfl, hword⟩
      exact hstmt word hword
  | false =>
  refine (Reads.accepts .fun (by decide)).bind (n := 1) fun word => ?_
  cases word with
  | true =>
      refine (reads.function .function).map ?_
      rintro used declaration _ ⟨text, rfl, rfl, hbody⟩ before ⟨word, rfl, hword⟩ earlier
        ⟨rfl, -⟩
      exact .function hword hbody
  | false =>
  refine (Reads.accepts .var (by decide)).bind (n := 1) fun word => ?_
  cases word with
  | true =>
      refine (reads_varDeclaration rounds depth).mono (Nat.le_refl _) ?_
      rintro used stmt _ hstmt before ⟨word, rfl, hword⟩ earlier ⟨rfl, -⟩ first ⟨rfl, -⟩
      exact .variable hword hstmt
  | false =>
      refine reads.statement.mono (Nat.le_refl _) ?_
      rintro used stmt _ ⟨dangles, hstmt, -⟩ before ⟨rfl, -⟩ earlier ⟨rfl, -⟩ first ⟨rfl, -⟩
      exact .statement hstmt

theorem classDeclaration_succ (reads : StatementReads rounds depth) :
    Reads (Grammar.classDeclaration rounds (depth + 1)) 1 fun used stmt _ =>
      ∀ word : Token, word.kind = .class → Clause .declaration (word :: used) stmt := by
  rw [Grammar.classDeclaration]
  refine (Reads.expect .identifier .className (by decide)).bind (n := 0) fun name => ?_
  refine (Reads.optionally_accepts .less (by decide)
    (Reads.expect .identifier .superclassName (by decide))).bind (n := 0)
    fun superclass => ?_
  refine (Reads.expect .leftBrace .classBodyStart (by decide)).some_or_none.bind (n := 0)
    fun start => ?_
  let kept (text : List Token) (methods : Array FunctionDecl) : Prop :=
    ∃ texts : List FunctionText, texts.flatMap FunctionText.tokens = text ∧
      texts.map FunctionText.declaration = methods.toList ∧
      ∀ text ∈ texts, ∀ piece ∈ text.body, Clause .declaration piece.1 piece.2
  refine (Reads.iterate kept ?_ rounds #[]).bind (n := 0) fun methods => ?_
  · intro methods
    refine Reads.closes.bind (n := 0) fun closed => ?_
    cases closed with
    | true =>
        refine Reads.pure fun _ before nothing text given => ?_
        rw [nothing.1, List.append_nil, List.append_nil]
        exact given
    | false =>
        refine (reads.function .method).some_or_none.map ?_
        rintro used method _ ⟨text, rfl, rfl, hbody⟩ before ⟨rfl, -⟩ earlier
          ⟨texts, rfl, hmethods, hbodies⟩
        refine ⟨texts ++ [text], ?_, ?_, ?_⟩
        · simp
        · simp [hmethods]
        · intro other member
          rcases List.mem_append.mp member with member | member
          · exact hbodies other member
          · rw [List.mem_singleton.mp member]
            exact hbody
  · refine (Reads.expect .rightBrace .classBodyEnd (by decide)).some_or_none.map ?_
    rintro used stop _ ⟨rfl, hstop⟩ text hmethods before ⟨rfl, hstart⟩ superText hsuper
      earlier ⟨rfl, hname⟩ word hword
    obtain ⟨texts, rfl, htexts, hbodies⟩ := hmethods [] ⟨[], rfl, rfl, by simp⟩
    have hsuperclass : SuperclassText superText (superclass.map .unmarked) := by
      cases superclass with
      | none => exact hsuper.1 ▸ .absent
      | some superclass =>
          obtain ⟨less, text, rfl, hless, rfl, hkind⟩ := hsuper
          exact .present hless hkind
    rw [← htexts]
    exact .class hword hname hsuperclass hstart hbodies hstop

theorem function_succ (reads : StatementReads rounds depth) (form : FunctionForm) :
    Reads (Grammar.function rounds form (depth + 1)) 1 fun used result _ =>
      ∃ text : FunctionText, text.tokens = used ∧ text.declaration = result ∧
        ∀ piece ∈ text.body, Clause .declaration piece.1 piece.2 := by
  rw [Grammar.function]
  refine (Reads.expect .identifier _ (by decide)).bind (n := 0) fun name => ?_
  refine (Reads.expect .leftParen _ (by decide)).some_or_none.bind (n := 0)
    fun opening => ?_
  refine (reads_parameters rounds).bind (n := 0) fun params => ?_
  refine (Reads.expect .rightParen .parametersEnd (by decide)).some_or_none.bind (n := 0)
    fun closing => ?_
  refine (Reads.expect .leftBrace _ (by decide)).some_or_none.bind (n := 0)
    fun start => ?_
  refine reads.block.some_or_none.map ?_
  rintro used body _ ⟨pieces, stop, rfl, hstop, rfl, hpieces⟩ startText ⟨rfl, hstart⟩
    closingText ⟨rfl, hclosing⟩ listing ⟨hlisting, hparams, bound⟩ openingText
    ⟨rfl, hopening⟩ nameText ⟨rfl, hname⟩
  let text : FunctionText :=
    { name, opening, params, listing, closing, start, body := pieces, stop
      name_kind := hname
      opening_kind := hopening
      param_kind := hparams
      listing_params := hlisting
      length_params := bound
      closing_kind := hclosing
      start_kind := hstart
      stop_kind := hstop }
  exact ⟨text, rfl, rfl, hpieces⟩

theorem block_succ (reads : StatementReads rounds depth) :
    Reads (Grammar.block rounds (depth + 1)) 1 fun used statements _ =>
      ∃ (pieces : List (List Token × Stmt)) (closing : Token),
        pieces.flatMap Prod.fst ++ [closing] = used ∧ closing.kind = .rightBrace ∧
          pieces.map Prod.snd = statements ∧
          ∀ piece ∈ pieces, Clause .declaration piece.1 piece.2 := by
  rw [Grammar.block]
  let kept (text : List Token) (statements : Array Stmt) : Prop :=
    ∃ pieces : List (List Token × Stmt), pieces.flatMap Prod.fst = text ∧
      pieces.map Prod.snd = statements.toList ∧
      ∀ piece ∈ pieces, Clause .declaration piece.1 piece.2
  refine (Reads.iterate kept ?_ rounds #[]).bind (n := 1) fun statements => ?_
  · intro statements
    refine Reads.closes.bind (n := 0) fun closed => ?_
    cases closed with
    | true =>
        refine Reads.pure fun _ before nothing text given => ?_
        rw [nothing.1, List.append_nil, List.append_nil]
        exact given
    | false =>
        refine reads.declaration.bind (n := 0) fun result => ?_
        cases result with
        | none =>
            refine Reads.pure fun _ before impossible => ?_
            obtain ⟨_, habsurd, -⟩ := impossible
            cases habsurd
        | some stmt =>
            refine Reads.pure ?_
            rintro _ before ⟨_, heq, hstmt⟩ earlier ⟨rfl, -⟩ text
              ⟨pieces, rfl, hpieces, hclauses⟩
            cases heq
            refine ⟨pieces ++ [(before, stmt)], ?_, ?_, ?_⟩
            · simp
            · simp [hpieces]
            · intro piece member
              rcases List.mem_append.mp member with member | member
              · exact hclauses piece member
              · rw [List.mem_singleton.mp member]
                exact hstmt
  · refine (Reads.expect .rightBrace .blockEnd (by decide)).map ?_
    rintro used closing _ ⟨rfl, hclosing⟩ text hstatements
    obtain ⟨pieces, rfl, hpieces, hclauses⟩ := hstatements [] ⟨[], rfl, rfl, by simp⟩
    exact ⟨pieces, closing, rfl, hclosing, hpieces, hclauses⟩

theorem forStatement_succ (reads : StatementReads rounds depth) :
    Reads (Grammar.forStatement rounds (depth + 1)) 1 (wordMeaning .for) := by
  rw [Grammar.forStatement]
  refine (Reads.expect .leftParen .forStart (by decide)).bind (n := 0) fun opening => ?_
  refine (reads_forInitializer rounds depth).bind (n := 0) fun initializer => ?_
  refine (reads_optionalPhrase rounds depth .semicolon).bind (n := 0) fun condition => ?_
  refine (Reads.expect .semicolon .forConditionEnd (by decide)).some_or_none.bind (n := 0)
    fun semicolon => ?_
  refine (reads_optionalPhrase rounds depth .rightParen).bind (n := 0)
    fun increment => ?_
  refine (Reads.expect .rightParen .forClausesEnd (by decide)).some_or_none.bind (n := 0)
    fun closing => ?_
  refine reads.statement.some_or_none.map ?_
  rintro used body ahead ⟨dangles, hbody, helse⟩ closingText ⟨rfl, hclosing⟩ incrementText
    hincrement semicolonText ⟨rfl, hsemicolon⟩ conditionText hcondition initText hinit
    openingText ⟨rfl, hopening⟩ word hword
  exact ⟨dangles, .for hword hopening hinit hcondition hsemicolon hincrement hclosing hbody,
    helse⟩

theorem ifStatement_succ (reads : StatementReads rounds depth) :
    Reads (Grammar.ifStatement rounds (depth + 1)) 1 (wordMeaning .if) := by
  rw [Grammar.ifStatement]
  refine (Reads.expect .leftParen .ifStart (by decide)).bind (n := 0) fun opening => ?_
  refine (expressionReads rounds depth).expression.some_or_none.bind (n := 0)
    fun condition => ?_
  refine (Reads.expect .rightParen .ifConditionEnd (by decide)).some_or_none.bind (n := 0)
    fun closing => ?_
  refine reads.statement.some_or_none.bind (n := 0) fun thenBranch => ?_
  refine (Reads.optionally_accepts .else (by decide) reads.statement).map ?_
  rintro used elseBranch ahead helse thenText ⟨dangles, hthen, hahead⟩ closingText
    ⟨rfl, hclosing⟩ conditionText hcondition openingText ⟨rfl, hopening⟩ word hword
  cases elseBranch with
  | none =>
      obtain ⟨rfl, helse⟩ := helse
      rw [List.append_nil]
      exact ⟨true, .if hword hopening hcondition hclosing hthen, fun _ => helse⟩
  | some elseBranch =>
      obtain ⟨otherwise, elseText, rfl, hotherwise, dangling, hbranch, hdangling⟩ := helse
      -- An `else` is ahead of the first branch, which therefore does not dangle.
      have hclosed : dangles = false :=
        Bool.eq_false_iff.mpr fun hdangles => hahead hdangles hotherwise
      subst hclosed
      exact ⟨dangling, .ifElse hword hopening hcondition hclosing hthen hotherwise hbranch,
        hdangling⟩

theorem whileStatement_succ (reads : StatementReads rounds depth) :
    Reads (Grammar.whileStatement rounds (depth + 1)) 1 (wordMeaning .while) := by
  rw [Grammar.whileStatement]
  refine (Reads.expect .leftParen .whileStart (by decide)).bind (n := 0) fun opening => ?_
  refine (expressionReads rounds depth).expression.some_or_none.bind (n := 0)
    fun condition => ?_
  refine (Reads.expect .rightParen .whileConditionEnd (by decide)).some_or_none.bind
    (n := 0) fun closing => ?_
  refine reads.statement.some_or_none.map ?_
  rintro used body ahead ⟨dangles, hbody, helse⟩ closingText ⟨rfl, hclosing⟩ conditionText
    hcondition openingText ⟨rfl, hopening⟩ word hword
  exact ⟨dangles, .while hword hopening hcondition hclosing hbody, helse⟩

theorem statement_succ (reads : StatementReads rounds depth) :
    Reads (Grammar.statement rounds (depth + 1)) 1 statementMeaning := by
  rw [Grammar.statement]
  refine Reads.peek_bind fun cursor => ?_
  generalize hkind : cursor.peek.kind = kind
  have inside (hinside : kind ≠ .endOfInput) : cursor.peek.kind ≠ .endOfInput :=
    fun h => hinside (hkind.symm.trans h)
  cases kind with
  | «for» =>
      exact Reads.advance_bind (m := 0) (inside (by decide))
        (reads.forStatement.some_or_none.mono (Nat.le_refl _) fun _ _ _ h => h _ hkind)
  | «if» =>
      exact Reads.advance_bind (m := 0) (inside (by decide))
        (reads.ifStatement.some_or_none.mono (Nat.le_refl _) fun _ _ _ h => h _ hkind)
  | «while» =>
      exact Reads.advance_bind (m := 0) (inside (by decide))
        (reads.whileStatement.some_or_none.mono (Nat.le_refl _) fun _ _ _ h => h _ hkind)
  | print =>
      exact Reads.advance_bind (m := 0) (inside (by decide))
        ((reads_printStatement rounds depth).some_or_none.mono (Nat.le_refl _)
          fun _ _ _ h => statementMeaning_of_closed (h _ hkind))
  | «return» =>
      exact Reads.advance_bind (m := 0) (inside (by decide))
        ((reads_returnStatement rounds depth _).some_or_none.mono (Nat.le_refl _)
          fun _ _ _ h => statementMeaning_of_closed (h hkind))
  | «break» =>
      refine Reads.advance_bind (m := 0) (inside (by decide)) ?_
      refine (Reads.expect .semicolon .breakEnd (by decide)).some_or_none.map ?_
      rintro used semicolon _ ⟨rfl, hsemicolon⟩
      exact statementMeaning_of_closed (.break hkind hsemicolon)
  | «continue» =>
      refine Reads.advance_bind (m := 0) (inside (by decide)) ?_
      refine (Reads.expect .semicolon .continueEnd (by decide)).some_or_none.map ?_
      rintro used semicolon _ ⟨rfl, hsemicolon⟩
      exact statementMeaning_of_closed (.continue hkind hsemicolon)
  | leftBrace =>
      refine Reads.advance_bind (m := 0) (inside (by decide)) ?_
      refine reads.block.some_or_none.map ?_
      rintro used statements _ ⟨pieces, closing, rfl, hclosing, rfl, hpieces⟩
      exact statementMeaning_of_closed (.block hkind hpieces hclosing)
  | _ =>
      exact ((reads_expressionStatement rounds depth).mono (Nat.le_refl _)
        fun _ _ _ h => statementMeaning_of_closed (.expression h)) cursor

theorem zero : StatementReads rounds 0 where
  declaration := Reads.tooDeep
  classDeclaration := Reads.tooDeep
  function _ := Reads.tooDeep
  block := Reads.tooDeep
  statement := Reads.tooDeep
  forStatement := Reads.tooDeep
  ifStatement := Reads.tooDeep
  whileStatement := Reads.tooDeep

end StatementReads

theorem statementReads (rounds : Nat) : ∀ depth, StatementReads rounds depth
  | 0 => .zero
  | depth + 1 =>
      have reads := statementReads rounds depth
      { declaration := reads.declarationBody.recovering
        classDeclaration := reads.classDeclaration_succ
        function := reads.function_succ
        block := reads.block_succ
        statement := reads.statement_succ
        forStatement := reads.forStatement_succ
        ifStatement := reads.ifStatement_succ
        whileStatement := reads.whileStatement_succ }

end LoxLang.Grammar
