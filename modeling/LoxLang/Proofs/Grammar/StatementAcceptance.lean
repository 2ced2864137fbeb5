import LoxLang.Proofs.Grammar.ExpressionAcceptance
import LoxLang.Proofs.Grammar.StatementReading

/-!
Statements and whole programs that the grammar derives are accepted. What follows a statement that ends in an
`if` without `else` must not be an `else`; every other statement ends at a token of its own.
-/

namespace LoxLang.Grammar

/-! ## First tokens -/

/-- The words that only statements begin with, and the brace that opens a block. -/
def statementKinds : List Token.Kind :=
  [.for, .if, .print, .return, .while, .break, .continue, .leftBrace]

def Form.starters : Form → List Token.Kind
  | .declaration => [.class, .fun, .var] ++ (statementKinds ++ (signKinds ++ atomKinds))
  | .statement _ => statementKinds ++ (signKinds ++ atomKinds)

theorem Form.mem_starters {form : Form} {kind : Token.Kind} (h : kind ∈ form.starters) :
    kind ∈ Form.declaration.starters := by
  cases form with
  | declaration => exact h
  | statement => exact List.mem_append_right _ h

theorem Phrase.starts {rule : Rule} {text : List Token} {expr : Expr}
    (h : Phrase rule text expr) : headKind text ∈ signKinds ++ atomKinds :=
  Rule.mem_starters h.accepts.starts

theorem Phrase.ne_nil {rule : Rule} {text : List Token} {expr : Expr}
    (h : Phrase rule text expr) : text ≠ [] :=
  ne_nil_of_mem h.accepts.starts

theorem Phrase.headKind_append {rule : Rule} {text : List Token} {expr : Expr}
    (h : Phrase rule text expr) (rest : List Token) :
    headKind (text ++ rest) ∈ signKinds ++ atomKinds := by
  rw [Grammar.headKind_append h.ne_nil]
  exact h.starts

/-! ## Parts of statements -/

section

variable (rounds depth : Nat) (rest : List Token) (errors : Array SyntaxError)

theorem Phrase.yields {text : List Token} {expr : Expr} (h : Phrase .expression text expr)
    (bound : (text ++ rest).length ≤ rounds) (stops : tightness? (headKind rest) = none) :
    Yields (11 * text.length ≤ depth) expr ⟨rest, errors⟩
      (expression rounds depth ⟨text ++ rest, errors⟩) :=
  h.accepts.yields_expression rounds depth rest errors bound (Rule.stops_of_none stops)

theorem OptionalPhrase.yields {text : List Token} {value : Option Expr} {kind : Token.Kind}
    (h : OptionalPhrase text value) (bound : (text ++ rest).length ≤ rounds)
    (next : headKind rest = kind) (stops : tightness? kind = none)
    (starts : kind ∉ signKinds ++ atomKinds) :
    Yields (11 * text.length ≤ depth) value ⟨rest, errors⟩
      (optionally (isNext kind) (expression rounds depth) ⟨text ++ rest, errors⟩) := by
  cases h with
  | absent =>
      refine .ok (optionally_skipped (isNext_eq.trans ?_))
      rw [List.nil_append, next, decide_eq_true rfl]
  | present h =>
      have other : headKind (text ++ rest) ≠ kind := fun same =>
        starts (same ▸ h.headKind_append rest)
      refine .present (isNext_eq.trans ?_) (h.yields rounds depth rest errors bound ?_)
      · rw [decide_eq_false other]
      · rw [next]
        exact stops

theorem ExpressionText.yields {text : List Token} {stmt : Stmt} (h : ExpressionText text stmt)
    (bound : (text ++ rest).length ≤ rounds) :
    Yields (11 * text.length ≤ depth + 1) stmt ⟨rest, errors⟩
      (expressionStatement rounds depth ⟨text ++ rest, errors⟩) := by
  obtain @⟨text, expr, semicolon, h, hsemicolon⟩ := h
  cases depth with
  | zero =>
      refine .tooDeep ?_
      simp
      omega
  | succ depth =>
      rw [expressionStatement, List.append_assoc, List.singleton_append]
      refine (h.yields rounds depth (semicolon :: rest) errors ?_ ?_).bind (fun deep => ?_) ?_
      · simpa using bound
      · simp [hsemicolon, tightness?]
      · simp at deep
        omega
      · exact .after (expect_cons hsemicolon (by decide)) (.ok rfl)

theorem VariableText.yields {text : List Token} {stmt : Stmt} (h : VariableText text stmt)
    (bound : (text ++ rest).length ≤ rounds) :
    Yields (11 * text.length ≤ depth) stmt ⟨rest, errors⟩
      (varDeclaration rounds depth ⟨text ++ rest, errors⟩) := by
  cases depth with
  | zero => cases h <;> exact .tooDeep (by simp)
  | succ depth =>
      rw [varDeclaration]
      cases h with
      | @plain name semicolon hname hsemicolon =>
          have absent : headKind (semicolon :: rest) ≠ .equal := by simp [hsemicolon]
          refine .after (expect_cons hname (by decide)) ?_
          refine .after (optionally_skipped (skips_of_ne absent)) ?_
          exact .after (expect_cons hsemicolon (by decide)) (.ok rfl)
      | @initialized name equals semicolon text _ hname hequals h hsemicolon =>
          simp only [List.cons_append, List.append_assoc, List.nil_append]
          have value := h.yields rounds depth (semicolon :: rest) errors
            (by simp at bound ⊢; omega) (by simp [hsemicolon, tightness?])
          refine .after (expect_cons hname (by decide)) ?_
          refine (Yields.present (skips_cons hequals (by decide)) value).bind
            (fun deep => ?_) ?_
          · simp at deep
            omega
          · exact .after (expect_cons hsemicolon (by decide)) (.ok rfl)

theorem InitializerText.yields {text : List Token} {initializer : Option Stmt}
    (h : InitializerText text initializer) (bound : (text ++ rest).length ≤ rounds) :
    Yields (11 * text.length ≤ depth + 1) initializer ⟨rest, errors⟩
      (forInitializer rounds depth ⟨text ++ rest, errors⟩) := by
  unfold forInitializer
  cases h with
  | absent hsemicolon => exact .after (accepts_cons hsemicolon (by decide)) (.ok rfl)
  | @«variable» word text _ hword h =>
      have reads := h.yields rounds depth rest errors (by simp at bound ⊢; omega)
      refine .after (accepts_of_ne (by simp [hword])) ?_
      refine .after (accepts_cons hword (by decide)) ((reads.mono fun deep => ?_).map)
      simp at deep
      omega
  | expression h =>
      have reads := h.yields rounds depth rest errors bound
      have starts : headKind (text ++ rest) ∈ signKinds ++ atomKinds := by
        obtain @⟨text, _, semicolon, h, -⟩ := h
        rw [List.append_assoc]
        exact h.headKind_append _
      refine .after (accepts_of_ne ?_) (.after (accepts_of_ne ?_) reads.map)
      · exact fun same => absurd (same ▸ starts) (by decide)
      · exact fun same => absurd (same ▸ starts) (by decide)

theorem parameters_eq {params listing : List Token} (h : Listing (params.map ([·])) listing)
    (kinds : ∀ param ∈ params, param.kind = .identifier) (small : params.length ≤ maxArguments)
    (bound : (listing ++ rest).length ≤ rounds) (next : headKind rest = .rightParen) :
    parameters rounds ⟨listing ++ rest, errors⟩ = .ok params ⟨rest, errors⟩ := by
  suffices reads : Yields True params ⟨rest, errors⟩
      (parameters rounds ⟨listing ++ rest, errors⟩) from reads.eq_ok trivial
  unfold parameters
  refine .after isNext_eq ?_
  cases params with
  | nil =>
      cases h.eq_nil
      simp only [List.nil_append, next, decide_true, if_true]
      exact .ok rfl
  | cons param others =>
      have hnext : headKind (listing ++ rest) ≠ .rightParen := by
        obtain ⟨more, rfl⟩ := h.first
        simp [kinds param List.mem_cons_self]
      let pieces := (param :: others).map fun param => ([param], param)
      have htexts : pieces.map Prod.fst = (param :: others).map ([·]) := List.map_map
      have hparams : pieces.map Prod.snd = param :: others := by
        simp [pieces, Function.comp_def]
      simp only [hnext, decide_false, Bool.false_eq_true, if_false]
      rw [← hparams]
      refine Yields.commaList (htexts ▸ h) (by simp [pieces]) (by simpa [pieces] using small)
        (fun piece member after _ _ => ?_) bound next
      obtain ⟨param, hparam, rfl⟩ := List.mem_map.mp member
      exact .ok (expect_cons (kinds param hparam) (by decide))

theorem yields_printStatement {text : List Token} {expr : Expr} {semicolon : Token}
    (h : Phrase .expression text expr) (hsemicolon : semicolon.kind = .semicolon)
    (bound : (text ++ semicolon :: rest).length ≤ rounds) :
    Yields (11 * text.length + 1 ≤ depth) (.print expr) ⟨rest, errors⟩
      (printStatement rounds depth ⟨text ++ semicolon :: rest, errors⟩) := by
  cases depth with
  | zero => exact .tooDeep (by omega)
  | succ depth =>
      rw [printStatement]
      refine (h.yields rounds depth _ errors bound ?_).bind (fun deep => ?_) ?_
      · simp [hsemicolon, tightness?]
      · omega
      · exact .after (expect_cons hsemicolon (by decide)) (.ok rfl)

theorem yields_returnStatement {text : List Token} {value : Option Expr}
    {keyword semicolon : Token} (h : OptionalPhrase text value)
    (hsemicolon : semicolon.kind = .semicolon)
    (bound : (text ++ semicolon :: rest).length ≤ rounds) :
    Yields (11 * text.length + 1 ≤ depth) (.return keyword value) ⟨rest, errors⟩
      (returnStatement rounds keyword depth ⟨text ++ semicolon :: rest, errors⟩) := by
  cases depth with
  | zero => exact .tooDeep (by omega)
  | succ depth =>
      rw [returnStatement]
      refine (h.yields rounds depth _ errors bound hsemicolon rfl (by decide)).bind
        (fun deep => ?_) ?_
      · omega
      · exact .after (expect_cons hsemicolon (by decide)) (.ok rfl)

end

/-! ## Statements -/

/-- A text is accepted as a statement, whatever follows, but no `else` if it dangles. -/
structure AcceptsStatement (dangles : Bool) (text : List Token) (stmt : Stmt) : Prop where
  starts : headKind text ∈ (Form.statement dangles).starters
  yields (rounds depth : Nat) (rest : List Token) (errors : Array SyntaxError) :
    (text ++ rest).length ≤ rounds → (dangles = true → headKind rest ≠ .else) →
      Yields (11 * text.length ≤ depth) stmt ⟨rest, errors⟩
        (statement rounds depth ⟨text ++ rest, errors⟩)

structure AcceptsDeclaration (text : List Token) (stmt : Stmt) : Prop where
  starts : headKind text ∈ Form.declaration.starters
  yields (rounds depth : Nat) (rest : List Token) (errors : Array SyntaxError) :
    (text ++ rest).length ≤ rounds → headKind rest ≠ .else →
      Yields (11 * text.length + 1 ≤ depth) (some stmt) ⟨rest, errors⟩
        (declaration rounds depth ⟨text ++ rest, errors⟩)

theorem declarationStarters {kind : Token.Kind} (h : kind ∈ Form.declaration.starters) :
    kind ≠ .else ∧ kind ≠ .rightBrace ∧ kind ≠ .endOfInput := by
  revert h
  cases kind <;> decide

namespace AcceptsDeclaration

variable {text : List Token} {stmt : Stmt}

theorem ne_nil (h : AcceptsDeclaration text stmt) : text ≠ [] := by
  rintro rfl
  exact absurd h.starts (by decide)

theorem headKind_append (h : AcceptsDeclaration text stmt) (rest : List Token) :
    headKind (text ++ rest) = headKind text :=
  Grammar.headKind_append h.ne_nil rest

end AcceptsDeclaration

theorem yields_block (rounds depth : Nat) (rest : List Token) (errors : Array SyntaxError)
    {pieces : List (List Token × Stmt)} {closing : Token}
    (h : ∀ piece ∈ pieces, AcceptsDeclaration piece.1 piece.2)
    (hclosing : closing.kind = .rightBrace)
    (bound : (pieces.flatMap Prod.fst ++ closing :: rest).length ≤ rounds) :
    Yields (11 * (pieces.flatMap Prod.fst).length + 2 ≤ depth) (pieces.map Prod.snd)
      ⟨rest, errors⟩
      (Grammar.block rounds depth ⟨pieces.flatMap Prod.fst ++ closing :: rest, errors⟩) := by
  cases depth with
  | zero => exact .tooDeep (by omega)
  | succ depth =>
      rw [Grammar.block]
      refine Yields.bind (Yields.pieces rounds ?_ ?_ ?_ ?_ rounds #[] bound ?_) id ?_
      · intro piece member
        exact ⟨(h piece member).ne_nil, (declarationStarters (h piece member).starts).1⟩
      · intro piece member made after short hafter
        have starts := declarationStarters (h piece member).starts
        refine .after closes_eq ?_
        rw [(h piece member).headKind_append, decide_eq_false starts.2.1,
          decide_eq_false starts.2.2]
        have reads := (h piece member).yields rounds depth after errors short hafter
        refine reads.bind (fun deep => ?_) (.ok rfl)
        have shorter := length_le_flatMap Prod.fst member
        omega
      · simp [hclosing]
      · intro made
        rw [bind_ok closes_eq]
        simp only [headKind_cons, hclosing]
        rfl
      · rw [List.length_append] at bound
        omega
      · rw [Array.empty_append]
        exact .after (expect_cons hclosing (by decide)) (.ok rfl)

/-- A statement that begins with a word, of which the rest is read by a reader of its own. -/
theorem AcceptsStatement.of_word {dangles : Bool} {word : Token} {text : List Token} {stmt : Stmt}
    (starts : word.kind ∈ statementKinds) (reader : Nat → Nat → Reader Stmt)
    (dispatch : ∀ rounds depth cursor, Cursor.peek cursor = word →
      statement rounds (depth + 1) cursor = (advance >>= fun _ => reader rounds depth) cursor)
    (yields : ∀ rounds depth rest errors, (text ++ rest).length ≤ rounds →
      (dangles = true → headKind rest ≠ .else) →
      Yields (11 * text.length + 10 ≤ depth) stmt ⟨rest, errors⟩
        (reader rounds depth ⟨text ++ rest, errors⟩)) :
    AcceptsStatement dangles (word :: text) stmt where
  starts := List.mem_append_left _ starts
  yields rounds depth rest errors bound hrest := by
    have inside : word.kind ≠ .endOfInput := fun hend => absurd (hend ▸ starts) (by decide)
    cases depth with
    | zero => exact .tooDeep (by simp)
    | succ depth =>
        rw [List.cons_append, dispatch rounds depth _ rfl]
        refine .after (advance_ok inside) ?_
        refine (yields rounds depth rest errors ?_ hrest).mono fun deep => ?_
        · simp at bound ⊢
          omega
        · simp at deep
          omega

theorem statement_of_expression (rounds depth : Nat) (cursor : Cursor)
    (h : headKind cursor.ahead ∈ signKinds ++ atomKinds) :
    statement rounds (depth + 1) cursor = expressionStatement rounds depth cursor := by
  rw [statement, bind_ok peek_eq]
  rw [← Cursor.kind_peek] at h
  simp only [signKinds, atomKinds, List.cons_append, List.nil_append, List.mem_cons,
    List.not_mem_nil, or_false] at h
  rcases h with h | h | h | h | h | h | h | h | h | h | h <;> simp only [h]

namespace AcceptsStatement

theorem of_print {word semicolon : Token} {text : List Token} {expr : Expr}
    (hword : word.kind = .print) (h : Phrase .expression text expr)
    (hsemicolon : semicolon.kind = .semicolon) :
    AcceptsStatement false (word :: (text ++ [semicolon])) (.print expr) := by
  refine of_word (by simp [hword, statementKinds]) printStatement ?_ ?_
  · intro rounds depth cursor hpeek
    rw [statement, bind_ok peek_eq]
    simp only [hpeek, hword]
  · intro rounds depth rest errors bound _
    rw [List.append_assoc, List.singleton_append] at bound ⊢
    refine (yields_printStatement rounds depth rest errors h hsemicolon bound).mono fun deep => ?_
    simp at deep
    omega

theorem of_return {word semicolon : Token} {text : List Token} {value : Option Expr}
    (hword : word.kind = .return) (h : OptionalPhrase text value)
    (hsemicolon : semicolon.kind = .semicolon) :
    AcceptsStatement false (word :: (text ++ [semicolon])) (.return word value) := by
  refine of_word (by simp [hword, statementKinds])
    (fun rounds depth => returnStatement rounds word depth) ?_ ?_
  · intro rounds depth cursor hpeek
    rw [statement, bind_ok peek_eq]
    simp only [hpeek, hword]
  · intro rounds depth rest errors bound _
    rw [List.append_assoc, List.singleton_append] at bound ⊢
    refine (yields_returnStatement rounds depth rest errors h hsemicolon bound).mono
      fun deep => ?_
    simp at deep
    omega

theorem of_break {word semicolon : Token} (hword : word.kind = .break)
    (hsemicolon : semicolon.kind = .semicolon) :
    AcceptsStatement false [word, semicolon] (.break word) := by
  refine of_word (by simp [hword, statementKinds]) (fun _ _ => do
    let _ ← expect .semicolon .breakEnd
    return .break word) ?_ ?_
  · intro rounds depth cursor hpeek
    rw [statement, bind_ok peek_eq]
    simp only [hpeek, hword]
  · intro rounds depth rest errors _ _
    exact .after (expect_cons hsemicolon (by decide)) (.ok rfl)

theorem of_continue {word semicolon : Token} (hword : word.kind = .continue)
    (hsemicolon : semicolon.kind = .semicolon) :
    AcceptsStatement false [word, semicolon] (.continue word) := by
  refine of_word (by simp [hword, statementKinds]) (fun _ _ => do
    let _ ← expect .semicolon .continueEnd
    return .continue word) ?_ ?_
  · intro rounds depth cursor hpeek
    rw [statement, bind_ok peek_eq]
    simp only [hpeek, hword]
  · intro rounds depth rest errors _ _
    exact .after (expect_cons hsemicolon (by decide)) (.ok rfl)

theorem of_expression {text : List Token} {stmt : Stmt} (h : ExpressionText text stmt) :
    AcceptsStatement false text stmt := by
  have starts (rest : List Token) : headKind (text ++ rest) ∈ signKinds ++ atomKinds := by
    obtain @⟨text, _, semicolon, h, -⟩ := h
    rw [List.append_assoc]
    exact h.headKind_append _
  refine ⟨List.mem_append_right _ ?_, fun rounds depth rest errors bound _ => ?_⟩
  · simpa using starts []
  cases depth with
  | zero =>
      refine .tooDeep ?_
      have : 0 < text.length := by cases h; simp
      omega
  | succ depth =>
      have reads := h.yields rounds depth rest errors bound
      rw [statement_of_expression rounds depth _ (starts rest)]
      exact reads

theorem of_block {opening closing : Token} {pieces : List (List Token × Stmt)}
    (hopening : opening.kind = .leftBrace)
    (h : ∀ piece ∈ pieces, AcceptsDeclaration piece.1 piece.2)
    (hclosing : closing.kind = .rightBrace) :
    AcceptsStatement false (opening :: (pieces.flatMap Prod.fst ++ [closing]))
      (.block (pieces.map Prod.snd)) := by
  refine of_word (by simp [hopening, statementKinds])
    (fun rounds depth => do return .block (← Grammar.block rounds depth)) ?_ ?_
  · intro rounds depth cursor hpeek
    rw [statement, bind_ok peek_eq]
    simp only [hpeek, hopening]
  · intro rounds depth rest errors bound _
    rw [List.append_assoc, List.singleton_append] at bound ⊢
    refine ((yields_block rounds depth rest errors h hclosing bound).mono fun deep => ?_).map
    rw [List.length_append, List.length_singleton] at deep
    omega

theorem of_while {word opening closing : Token} {conditionText bodyText : List Token}
    {condition : Expr} {body : Stmt} {dangles : Bool} (hword : word.kind = .while)
    (hopening : opening.kind = .leftParen) (hcondition : Phrase .expression conditionText condition)
    (hclosing : closing.kind = .rightParen) (h : AcceptsStatement dangles bodyText body) :
    AcceptsStatement dangles (word :: opening :: (conditionText ++ closing :: bodyText))
      (.while condition body none) := by
  refine of_word (by simp [hword, statementKinds]) whileStatement ?_ ?_
  · intro rounds depth cursor hpeek
    rw [statement, bind_ok peek_eq]
    simp only [hpeek, hword]
  · intro rounds depth rest errors bound hrest
    simp only [List.cons_append, List.append_assoc] at bound ⊢
    cases depth with
    | zero => exact .tooDeep (by simp)
    | succ depth =>
        have reads := hcondition.yields rounds depth (closing :: (bodyText ++ rest)) errors
          (by simp at bound ⊢; omega) (by simp [hclosing, tightness?])
        have body := h.yields rounds depth rest errors (by simp at bound ⊢; omega) hrest
        rw [whileStatement]
        refine .after (expect_cons hopening (by decide)) ?_
        refine reads.bind (fun deep => ?_) (.after (expect_cons hclosing (by decide)) ?_)
        · simp at deep
          omega
        · refine (body.mono fun deep => ?_).map
          simp at deep
          omega

theorem of_for {word opening semicolon closing : Token}
    {initText conditionText incrementText bodyText : List Token} {initializer : Option Stmt}
    {condition increment : Option Expr} {body : Stmt} {dangles : Bool}
    (hword : word.kind = .for) (hopening : opening.kind = .leftParen)
    (hinit : InitializerText initText initializer)
    (hcondition : OptionalPhrase conditionText condition)
    (hsemicolon : semicolon.kind = .semicolon)
    (hincrement : OptionalPhrase incrementText increment)
    (hclosing : closing.kind = .rightParen) (h : AcceptsStatement dangles bodyText body) :
    AcceptsStatement dangles
      (word :: opening ::
        (initText ++ (conditionText ++ semicolon :: (incrementText ++ closing :: bodyText))))
      (forLoop initializer condition increment body) := by
  refine of_word (by simp [hword, statementKinds]) forStatement ?_ ?_
  · intro rounds depth cursor hpeek
    rw [statement, bind_ok peek_eq]
    simp only [hpeek, hword]
  · intro rounds depth rest errors bound hrest
    simp only [List.cons_append, List.append_assoc] at bound ⊢
    cases depth with
    | zero => exact .tooDeep (by simp)
    | succ depth =>
        simp only [List.length_cons, List.length_append] at bound
        have init := hinit.yields rounds depth
          (conditionText ++ semicolon :: (incrementText ++ closing :: (bodyText ++ rest)))
          errors (by simp only [List.length_cons, List.length_append]; omega)
        have conditionReads := hcondition.yields rounds depth
          (semicolon :: (incrementText ++ closing :: (bodyText ++ rest))) errors
          (by simp only [List.length_cons, List.length_append]; omega) hsemicolon rfl (by decide)
        have incrementReads := hincrement.yields rounds depth (closing :: (bodyText ++ rest))
          errors (by simp only [List.length_cons, List.length_append]; omega) hclosing rfl
          (by decide)
        have bodyReads := h.yields rounds depth rest errors
          (by rw [List.length_append]; omega) hrest
        rw [forStatement]
        refine .after (expect_cons hopening (by decide)) ?_
        refine init.bind (fun deep => ?_) (conditionReads.bind (fun deep => ?_) ?_)
        · simp only [List.length_cons, List.length_append] at deep
          omega
        · simp only [List.length_cons, List.length_append] at deep
          omega
        refine .after (expect_cons hsemicolon (by decide)) ?_
        refine incrementReads.bind (fun deep => ?_) ?_
        · simp only [List.length_cons, List.length_append] at deep
          omega
        refine .after (expect_cons hclosing (by decide)) ((bodyReads.mono fun deep => ?_).map)
        simp only [List.length_cons, List.length_append] at deep
        omega

theorem of_ifStart {word opening closing : Token} {conditionText thenText restText : List Token}
    {condition : Expr} {thenBranch : Stmt} {elseBranch : Option Stmt} {dangles wide : Bool}
    (hword : word.kind = .if) (hopening : opening.kind = .leftParen)
    (hcondition : Phrase .expression conditionText condition)
    (hclosing : closing.kind = .rightParen) (h : AcceptsStatement dangles thenText thenBranch)
    (follows : ∀ rest, (wide = true → headKind rest ≠ .else) →
      dangles = true → headKind (restText ++ rest) ≠ .else)
    (yields : ∀ rounds depth rest errors, (restText ++ rest).length ≤ rounds →
      (wide = true → headKind rest ≠ .else) →
      Yields (11 * restText.length ≤ depth) elseBranch ⟨rest, errors⟩
        (optionally (do return !(← accepts .else)) (statement rounds depth)
          ⟨restText ++ rest, errors⟩)) :
    AcceptsStatement wide
      (word :: opening :: (conditionText ++ closing :: (thenText ++ restText)))
      (.if condition thenBranch elseBranch) := by
  refine of_word (by simp [hword, statementKinds]) ifStatement ?_ ?_
  · intro rounds depth cursor hpeek
    rw [statement, bind_ok peek_eq]
    simp only [hpeek, hword]
  · intro rounds depth rest errors bound hrest
    simp only [List.cons_append, List.append_assoc] at bound ⊢
    cases depth with
    | zero => exact .tooDeep (by simp)
    | succ depth =>
        simp only [List.length_cons, List.length_append] at bound
        have reads := hcondition.yields rounds depth
          (closing :: (thenText ++ (restText ++ rest))) errors
          (by simp only [List.length_cons, List.length_append]; omega)
          (by simp [hclosing, tightness?])
        have thenReads := h.yields rounds depth (restText ++ rest) errors
          (by simp only [List.length_append]; omega) (follows rest hrest)
        have elseReads := yields rounds depth rest errors
          (by rw [List.length_append]; omega) hrest
        rw [ifStatement]
        refine .after (expect_cons hopening (by decide)) ?_
        refine reads.bind (fun deep => ?_) (.after (expect_cons hclosing (by decide)) ?_)
        · simp only [List.length_cons, List.length_append] at deep
          omega
        refine thenReads.bind (fun deep => ?_) ((elseReads.mono fun deep => ?_).map)
        · simp only [List.length_cons, List.length_append] at deep
          omega
        · simp only [List.length_cons, List.length_append] at deep
          omega

theorem of_if {word opening closing : Token} {conditionText thenText : List Token}
    {condition : Expr} {thenBranch : Stmt} {dangles : Bool} (hword : word.kind = .if)
    (hopening : opening.kind = .leftParen) (hcondition : Phrase .expression conditionText condition)
    (hclosing : closing.kind = .rightParen) (h : AcceptsStatement dangles thenText thenBranch) :
    AcceptsStatement true (word :: opening :: (conditionText ++ closing :: thenText))
      (.if condition thenBranch none) := by
  have whole : AcceptsStatement true
      (word :: opening :: (conditionText ++ closing :: (thenText ++ [])))
      (.if condition thenBranch none) := by
    refine of_ifStart hword hopening hcondition hclosing h ?_ ?_
    · exact fun rest hrest _ => hrest rfl
    · intro rounds depth rest errors _ hrest
      exact .ok (optionally_skipped (skips_of_ne (hrest rfl)))
  rwa [List.append_nil] at whole

theorem of_ifElse {word opening closing otherwise : Token}
    {conditionText thenText elseText : List Token} {condition : Expr}
    {thenBranch elseBranch : Stmt} {dangles : Bool} (hword : word.kind = .if)
    (hopening : opening.kind = .leftParen) (hcondition : Phrase .expression conditionText condition)
    (hclosing : closing.kind = .rightParen) (hthen : AcceptsStatement false thenText thenBranch)
    (hotherwise : otherwise.kind = .else) (h : AcceptsStatement dangles elseText elseBranch) :
    AcceptsStatement dangles
      (word :: opening :: (conditionText ++ closing :: (thenText ++ otherwise :: elseText)))
      (.if condition thenBranch (some elseBranch)) := by
  refine of_ifStart hword hopening hcondition hclosing hthen ?_ ?_
  · exact fun rest _ impossible => nomatch impossible
  · intro rounds depth rest errors bound hrest
    have shorter : (elseText ++ rest).length ≤ rounds := by
      simp at bound ⊢
      omega
    have reads := h.yields rounds depth rest errors shorter hrest
    refine .present (skips_cons hotherwise (by decide)) (reads.mono fun deep => ?_)
    simp only [List.length_cons] at deep
    omega

end AcceptsStatement

/-! ## Declarations -/

theorem yields_function (rounds depth : Nat) (rest : List Token) (errors : Array SyntaxError)
    (form : FunctionForm) (text : FunctionText)
    (h : ∀ piece ∈ text.body, AcceptsDeclaration piece.1 piece.2)
    (bound : (text.tokens ++ rest).length ≤ rounds) :
    Yields (11 * text.tokens.length ≤ depth) text.declaration ⟨rest, errors⟩
      (function rounds form depth ⟨text.tokens ++ rest, errors⟩) := by
  cases depth with
  | zero => exact .tooDeep (by simp [FunctionText.tokens])
  | succ depth =>
      simp only [FunctionText.tokens, List.cons_append, List.append_assoc,
        List.nil_append] at bound ⊢
      simp only [List.length_cons, List.length_append] at bound
      have params := parameters_eq rounds
        (text.closing :: text.start :: (text.body.flatMap Prod.fst ++ text.stop :: rest)) errors
        text.listing_params text.param_kind text.length_params
        (by simp only [List.length_cons, List.length_append]; omega) text.closing_kind
      have block := yields_block rounds depth rest errors h text.stop_kind
        (by simp only [List.length_cons, List.length_append]; omega)
      rw [function]
      refine .after (expect_cons text.name_kind (by decide)) ?_
      refine .after (expect_cons text.opening_kind (by decide)) (.after params ?_)
      refine .after (expect_cons text.closing_kind (by decide)) ?_
      refine .after (expect_cons text.start_kind (by decide)) ((block.mono fun deep => ?_).map)
      simp only [List.length_cons, List.length_append] at deep
      omega

theorem Yields.recovering {enough : Prop} {reader : Reader Stmt} {text rest : List Token}
    {errors : Array SyntaxError} {stmt : Stmt}
    (h : Yields enough stmt ⟨rest, errors⟩ (reader ⟨text, errors⟩)) :
    Yields enough (some stmt) ⟨rest, errors⟩ (Grammar.recovering reader ⟨text, errors⟩) := by
  unfold Grammar.recovering
  match hreader : reader ⟨text, errors⟩, h with
  | .ok _ _, h =>
      obtain ⟨rfl, rfl⟩ := h
      exact ⟨if_neg (Nat.lt_irrefl _), rfl⟩
  | .error .tooDeep _, h => exact h

namespace AcceptsDeclaration

theorem of_body {text : List Token} {stmt : Stmt}
    (starts : headKind text ∈ Form.declaration.starters)
    (yields : ∀ rounds depth rest errors, (text ++ rest).length ≤ rounds →
      headKind rest ≠ .else → Yields (11 * text.length ≤ depth) stmt ⟨rest, errors⟩
        (declarationBody rounds depth ⟨text ++ rest, errors⟩)) :
    AcceptsDeclaration text stmt where
  starts := starts
  yields rounds depth rest errors bound hrest := by
    cases depth with
    | zero => exact .tooDeep (by simp)
    | succ depth =>
        rw [declaration]
        exact (yields rounds depth rest errors bound hrest).recovering.mono fun deep => by omega

theorem of_statement {text : List Token} {stmt : Stmt} {dangles : Bool}
    (h : AcceptsStatement dangles text stmt) : AcceptsDeclaration text stmt := by
  have starts : headKind text ∈ (Form.statement false).starters := h.starts
  have some : text ≠ [] := by
    rintro rfl
    exact absurd starts (by decide)
  refine of_body (Form.mem_starters starts) fun rounds depth rest errors bound hrest => ?_
  rw [← Grammar.headKind_append some rest] at starts
  unfold declarationBody
  refine .after (accepts_of_ne fun same => ?_) ?_
  · exact absurd (same ▸ starts) (by decide)
  refine .after (accepts_of_ne fun same => ?_) ?_
  · exact absurd (same ▸ starts) (by decide)
  refine .after (accepts_of_ne fun same => ?_) ?_
  · exact absurd (same ▸ starts) (by decide)
  exact h.yields rounds depth rest errors bound fun _ => hrest

theorem of_variable {word : Token} {text : List Token} {stmt : Stmt} (hword : word.kind = .var)
    (h : VariableText text stmt) : AcceptsDeclaration (word :: text) stmt := by
  refine of_body (by simp [hword, Form.starters]) fun rounds depth rest errors bound _ => ?_
  unfold declarationBody
  refine .after (accepts_of_ne (by simp [hword])) (.after (accepts_of_ne (by simp [hword])) ?_)
  refine .after (accepts_cons hword (by decide)) ?_
  refine (h.yields rounds depth rest errors ?_).mono fun deep => ?_
  · simp at bound ⊢
    omega
  · rw [List.length_cons] at deep
    omega

theorem of_function {word : Token} {text : FunctionText} (hword : word.kind = .fun)
    (h : ∀ piece ∈ text.body, AcceptsDeclaration piece.1 piece.2) :
    AcceptsDeclaration (word :: text.tokens) (.function text.declaration) := by
  refine of_body (by simp [hword, Form.starters]) fun rounds depth rest errors bound _ => ?_
  unfold declarationBody
  refine .after (accepts_of_ne (by simp [hword])) (.after (accepts_cons hword (by decide)) ?_)
  have reads := yields_function rounds depth rest errors .function text h
    (by simp only [List.cons_append, List.length_cons] at bound; omega)
  refine (reads.mono fun deep => ?_).map
  rw [List.length_cons] at deep
  omega

end AcceptsDeclaration

theorem superclass_eq {superText : List Token} {superclass : Option NameUse} {start : Token}
    (h : SuperclassText superText superclass) (hstart : start.kind = .leftBrace)
    (rest : List Token) (errors : Array SyntaxError) :
    optionally (do return !(← accepts .less)) (expect .identifier .superclassName)
        ⟨superText ++ start :: rest, errors⟩ =
      .ok (superclass.map NameUse.name) ⟨start :: rest, errors⟩ := by
  cases h with
  | absent => exact optionally_skipped (skips_of_ne (by simp [hstart]))
  | @present less name hless hname =>
      have hread : expect .identifier .superclassName ⟨name :: start :: rest, errors⟩ =
        .ok name ⟨start :: rest, errors⟩ := expect_cons hname (by decide)
      have reads : Yields True name _ _ := .ok hread
      exact (reads.present (skips_cons hless (by decide))).eq_ok trivial

theorem yields_classDeclaration (rounds depth : Nat) (rest : List Token)
    (errors : Array SyntaxError) {name start stop : Token} {superText : List Token}
    {superclass : Option NameUse} {methods : List FunctionText}
    (hname : name.kind = .identifier) (hsuper : SuperclassText superText superclass)
    (hstart : start.kind = .leftBrace)
    (h : ∀ method ∈ methods, ∀ piece ∈ method.body, AcceptsDeclaration piece.1 piece.2)
    (hstop : stop.kind = .rightBrace)
    (bound : (methods.flatMap FunctionText.tokens ++ stop :: rest).length ≤ rounds) :
    Yields (11 * (methods.flatMap FunctionText.tokens).length + 1 ≤ depth)
      (.class name superclass (methods.map FunctionText.declaration)) ⟨rest, errors⟩
      (classDeclaration rounds depth
        ⟨name :: (superText ++ start :: (methods.flatMap FunctionText.tokens ++ stop :: rest)),
          errors⟩) := by
  cases depth with
  | zero => exact .tooDeep (by omega)
  | succ depth =>
      let pieces := methods.map fun method => (method.tokens, method.declaration)
      have htexts : pieces.flatMap Prod.fst = methods.flatMap FunctionText.tokens := by
        simp [pieces, List.flatMap_map]
      have htrees : pieces.map Prod.snd = methods.map FunctionText.declaration := by
        simp [pieces]
      have hunmarked : (superclass.map NameUse.name).map NameUse.unmarked = superclass := by
        cases hsuper <;> rfl
      rw [classDeclaration]
      refine .after (expect_cons hname (by decide)) ?_
      refine .after (superclass_eq hsuper hstart _ errors) ?_
      refine .after (expect_cons hstart (by decide)) ?_
      rw [← htexts] at bound ⊢
      refine Yields.bind (Yields.pieces rounds ?_ ?_ ?_ ?_ rounds #[] bound ?_) id ?_
      · intro piece member
        obtain ⟨method, -, rfl⟩ := List.mem_map.mp member
        exact ⟨List.cons_ne_nil _ _, by simp [FunctionText.tokens, method.name_kind]⟩
      · intro piece member made after short _
        obtain ⟨method, hmethod, rfl⟩ := List.mem_map.mp member
        have head : headKind (method.tokens ++ after) = .identifier := method.name_kind
        refine .after closes_eq ?_
        have reads := yields_function rounds depth after errors .method method
          (h method hmethod) short
        simp only [head]
        refine (reads.mono fun deep => ?_).map
        have shorter : method.tokens.length ≤ _ := length_le_flatMap Prod.fst member
        change 11 * method.tokens.length ≤ depth
        omega
      · simp [hstop]
      · intro made
        rw [bind_ok closes_eq]
        simp only [headKind_cons, hstop]
        rfl
      · rw [List.length_append] at bound
        omega
      · rw [Array.empty_append, htrees]
        refine .after (expect_cons hstop (by decide)) ?_
        rw [hunmarked]
        exact .ok rfl

theorem AcceptsDeclaration.of_class {word name start stop : Token} {superText : List Token}
    {superclass : Option NameUse} {methods : List FunctionText} (hword : word.kind = .class)
    (hname : name.kind = .identifier) (hsuper : SuperclassText superText superclass)
    (hstart : start.kind = .leftBrace)
    (h : ∀ method ∈ methods, ∀ piece ∈ method.body, AcceptsDeclaration piece.1 piece.2)
    (hstop : stop.kind = .rightBrace) :
    AcceptsDeclaration
      (word :: name :: (superText ++ start :: (methods.flatMap FunctionText.tokens ++ [stop])))
      (.class name superclass (methods.map FunctionText.declaration)) := by
  refine of_body (by simp [hword, Form.starters]) fun rounds depth rest errors bound _ => ?_
  simp only [List.cons_append, List.append_assoc, List.nil_append] at bound ⊢
  simp only [List.length_cons, List.length_append] at bound
  unfold declarationBody
  refine .after (accepts_cons hword (by decide)) ?_
  refine (yields_classDeclaration rounds depth rest errors hname hsuper hstart h hstop
    ?_).mono fun deep => ?_
  · simp only [List.length_cons, List.length_append]
    omega
  · simp only [List.length_cons, List.length_append] at deep
    omega

/-- How a text of a form is accepted. -/
def Form.Accepts (form : Form) (text : List Token) (stmt : Stmt) : Prop :=
  match form with
  | .declaration => AcceptsDeclaration text stmt
  | .statement dangles => AcceptsStatement dangles text stmt

/-- Every clause of the grammar is accepted as the tree that it stands for. -/
theorem Clause.accepts {form : Form} {text : List Token} {stmt : Stmt}
    (h : Clause form text stmt) : form.Accepts text stmt := by
  induction h with
  | «class» hword hname hsuper hstart _ hstop ih =>
      exact AcceptsDeclaration.of_class hword hname hsuper hstart ih hstop
  | function hword _ ih => exact AcceptsDeclaration.of_function hword ih
  | «variable» hword h => exact AcceptsDeclaration.of_variable hword h
  | statement _ ih => exact AcceptsDeclaration.of_statement ih
  | «for» hword hopening hinit hcondition hsemicolon hincrement hclosing _ ih =>
      exact AcceptsStatement.of_for hword hopening hinit hcondition hsemicolon hincrement
        hclosing ih
  | «if» hword hopening hcondition hclosing _ ih =>
      exact AcceptsStatement.of_if hword hopening hcondition hclosing ih
  | ifElse hword hopening hcondition hclosing _ hotherwise _ hthen helse =>
      exact AcceptsStatement.of_ifElse hword hopening hcondition hclosing hthen hotherwise helse
  | print hword h hsemicolon => exact AcceptsStatement.of_print hword h hsemicolon
  | «return» hword h hsemicolon => exact AcceptsStatement.of_return hword h hsemicolon
  | «while» hword hopening hcondition hclosing _ ih =>
      exact AcceptsStatement.of_while hword hopening hcondition hclosing ih
  | «break» hword hsemicolon => exact AcceptsStatement.of_break hword hsemicolon
  | «continue» hword hsemicolon => exact AcceptsStatement.of_continue hword hsemicolon
  | block hopening _ hclosing ih => exact AcceptsStatement.of_block hopening ih hclosing
  | expression h => exact AcceptsStatement.of_expression h

/-! ## Whole programs -/

/-- A sequence of declarations is read one after the other, unless one of them is nested too deeply. -/
theorem declarations_eq {pieces : List (List Token × Stmt)} {final : Token}
    (h : ∀ piece ∈ pieces, AcceptsDeclaration piece.1 piece.2)
    (final_kind : final.kind = .endOfInput) (rounds depth remaining : Nat)
    (statements : Array Stmt) (errors : Array SyntaxError)
    (bound : (pieces.flatMap Prod.fst ++ [final]).length ≤ rounds)
    (enough : (pieces.flatMap Prod.fst).length ≤ remaining) :
    declarations rounds depth remaining statements ⟨pieces.flatMap Prod.fst ++ [final], errors⟩ =
        (statements ++ (pieces.map Prod.snd).toArray, ⟨[final], errors⟩) ∨
      ¬11 * (pieces.flatMap Prod.fst).length + 1 ≤ depth ∧
        ∃ error ∈ (declarations rounds depth remaining statements
          ⟨pieces.flatMap Prod.fst ++ [final], errors⟩).2.errors, error.cause = .nesting := by
  induction pieces generalizing remaining statements with
  | nil =>
      refine .inl ?_
      cases remaining with
      | zero => simp [declarations]
      | succ remaining => simp [declarations, Cursor.atEnd, Cursor.peek, final_kind]
  | cons piece others ih =>
      have accepted := h piece List.mem_cons_self
      have starts := declarationStarters accepted.starts
      have positive := List.length_pos_iff.mpr accepted.ne_nil
      rw [List.flatMap_cons, List.append_assoc] at bound ⊢
      rw [List.flatMap_cons, List.length_append] at enough
      rw [List.length_append]
      obtain ⟨remaining, rfl⟩ : ∃ fewer, remaining = fewer + 1 := ⟨remaining - 1, by omega⟩
      have inside : Cursor.atEnd
          ⟨piece.1 ++ (others.flatMap Prod.fst ++ [final]), errors⟩ = false := by
        rw [Cursor.atEnd_eq_false, accepted.headKind_append]
        exact starts.2.2
      have hafter : headKind (others.flatMap Prod.fst ++ [final]) ≠ .else := by
        cases others with
        | nil => simp [final_kind]
        | cons other more =>
            have next := h other (by simp)
            rw [List.flatMap_cons, List.append_assoc, next.headKind_append]
            exact (declarationStarters next.starts).1
      have reads := accepted.yields rounds depth (others.flatMap Prod.fst ++ [final]) errors
        bound hafter
      rw [declarations, inside]
      simp only [Bool.false_eq_true, if_false]
      generalize declaration rounds depth _ = outcome at reads ⊢
      cases outcome with
      | ok _ _ =>
          obtain ⟨rfl, rfl⟩ := reads
          have rest := ih (fun other member => h other (List.mem_cons_of_mem _ member)) remaining
            (statements.push piece.2) (by rw [List.length_append] at bound; omega) (by omega)
          have hmade : statements ++ ((piece :: others).map Prod.snd).toArray =
              statements.push piece.2 ++ (others.map Prod.snd).toArray := by simp
          rw [hmade]
          refine rest.imp id ?_
          rintro ⟨shallow, nested⟩
          exact ⟨by omega, nested⟩
      | error failure next =>
          cases failure with
          | tooDeep =>
              refine .inr ⟨fun deep => reads (by omega), ⟨.nesting, next.peek⟩, ?_, rfl⟩
              simp [Cursor.report]
          | _ => exact reads.elim

end LoxLang.Grammar

namespace LoxLang

open Grammar

/-- A sentence is read as its statements, unless it is nested too deeply, which it is not if the depth is eleven
for each token and one more. -/
theorem Program.ofTokens_of_sentence {text : List Token} {statements : List Stmt} {final : Token}
    (h : Sentence text statements) (final_kind : final.kind = .endOfInput) (depth : Nat) :
    ofTokens depth (text ++ [final]) = ⟨statements, []⟩ ∨
      ¬11 * text.length + 1 ≤ depth ∧
        ∃ error ∈ (ofTokens depth (text ++ [final])).errors, error.cause = .nesting := by
  obtain ⟨pieces, hpieces, rfl, rfl⟩ := h
  have accepted : ∀ piece ∈ pieces, AcceptsDeclaration piece.1 piece.2 :=
    fun piece member => (hpieces piece member).accepts
  have reads := declarations_eq accepted final_kind (pieces.flatMap Prod.fst ++ [final]).length
    depth (pieces.flatMap Prod.fst ++ [final]).length #[] #[] (Nat.le_refl _) (by simp)
  unfold ofTokens
  refine reads.imp (fun same => ?_) fun ⟨shallow, error, member, cause⟩ => ?_
  · simp only [same, Array.empty_append]
  · exact ⟨shallow, error, Array.mem_toList_iff.mpr member, cause⟩

end LoxLang
