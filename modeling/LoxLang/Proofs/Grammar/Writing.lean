import LoxLang.Proofs.Grammar.Surface

/-!
A proper program, written out in whatever way, is a sentence that stands for its tree, and so it is read as
that tree.
-/

namespace LoxLang

open Grammar

/-! ## Texts -/

namespace Spells

variable {mark : Mark} {marks first second : List Mark} {text : List Token}

theorem of_nil (h : Spells [] text) : text = [] := by
  cases h
  rfl

theorem of_cons (h : Spells (mark :: marks) text) :
    ∃ token rest, text = token :: rest ∧ mark.Allows token ∧ Spells marks rest := by
  cases h with
  | cons allowed h => exact ⟨_, _, rfl, allowed, h⟩

theorem of_one (h : Spells [mark] text) : ∃ token, text = [token] ∧ mark.Allows token := by
  obtain ⟨token, rest, rfl, allowed, h⟩ := h.of_cons
  cases h.of_nil
  exact ⟨token, rfl, allowed⟩

theorem of_append (h : Spells (first ++ second) text) :
    ∃ before after, text = before ++ after ∧ Spells first before ∧ Spells second after := by
  induction first generalizing text with
  | nil => exact ⟨[], text, rfl, List.Forall₂.nil, h⟩
  | cons mark first ih =>
      obtain ⟨token, rest, rfl, allowed, h⟩ := h.of_cons
      obtain ⟨before, after, rfl, hfirst, hsecond⟩ := ih h
      exact ⟨token :: before, after, rfl, List.Forall₂.cons allowed hfirst, hsecond⟩

end Spells

theorem Mark.exists_token (mark : Mark) : ∃ token, mark.Allows token := by
  cases mark with
  | own token => exact ⟨token, rfl⟩
  | symbol kind => exact ⟨⟨kind, "", .none, 1⟩, rfl⟩
  | constant value =>
      cases value with
      | nil => exact ⟨⟨.nil, "nil", .none, 1⟩, rfl⟩
      | bool value =>
          cases value with
          | false => exact ⟨⟨.false, "false", .none, 1⟩, rfl⟩
          | true => exact ⟨⟨.true, "true", .none, 1⟩, rfl⟩
      | number value => exact ⟨⟨.number, "", .number value, 1⟩, rfl⟩
      | text value => exact ⟨⟨.string, "", .text value, 1⟩, rfl⟩

theorem Spells.exists_text (marks : List Mark) : ∃ text, Spells marks text := by
  induction marks with
  | nil => exact ⟨[], List.Forall₂.nil⟩
  | cons mark marks ih =>
      obtain ⟨token, allowed⟩ := mark.exists_token
      obtain ⟨text, h⟩ := ih
      exact ⟨token :: text, List.Forall₂.cons allowed h⟩

/-! ## Expressions -/

namespace Grammar

/-- The rules from the loosest to the tightest. -/
def Rule.ofTightness : Nat → Rule
  | 0 => .expression
  | 1 => .operation .or
  | 2 => .operation .and
  | 3 => .operation .equality
  | 4 => .operation .comparison
  | 5 => .operation .term
  | 6 => .operation .factor
  | 7 => .unary
  | 8 => .call
  | _ => .primary

theorem Rule.ofTightness_tightness (rule : Rule) : Rule.ofTightness rule.tightness = rule := by
  cases rule with
  | operation level => cases level <;> rfl
  | _ => rfl

theorem Phrase.loosen_one {tightness : Nat} {text : List Token} {expr : Expr}
    (h : Phrase (Rule.ofTightness (tightness + 1)) text expr) :
    Phrase (Rule.ofTightness tightness) text expr := by
  match tightness, h with
  | 0, h => exact .operation h
  | 1, h => exact .operand h
  | 2, h => exact .operand h
  | 3, h => exact .operand h
  | 4, h => exact .operand h
  | 5, h => exact .operand h
  | 6, h => exact .operand h
  | 7, h => exact .unsigned h
  | 8, h => exact .atom h
  | _ + 9, h => exact h

/-- What a rule derives, every looser rule derives. -/
theorem Phrase.loosen {rule looser : Rule} {text : List Token} {expr : Expr}
    (h : Phrase rule text expr) (bound : looser.tightness ≤ rule.tightness) :
    Phrase looser text expr := by
  rw [← Rule.ofTightness_tightness rule] at h
  rw [← Rule.ofTightness_tightness looser]
  generalize rule.tightness = tight at h bound
  induction tight with
  | zero => rwa [Nat.le_zero.mp bound]
  | succ tight ih =>
      rcases Nat.le_or_eq_of_le_succ bound with smaller | same
      · exact ih h.loosen_one smaller
      · rwa [same]

theorem Listing.cons {entries : List (List Token)} {text entry : List Token} {comma : Token}
    (h : Listing entries text) (some : entries ≠ []) (hcomma : comma.kind = .comma) :
    Listing (entry :: entries) (entry ++ comma :: text) := by
  induction h with
  | none => exact absurd rfl some
  | one => exact .more (List.cons_ne_nil _ _) .one hcomma
  | more earlier _ hother ih =>
      rw [← List.cons_append, ← List.cons_append, ← List.append_assoc]
      exact .more (List.cons_ne_nil _ _) (ih earlier) hother

end Grammar

theorem Level.tightness_combine {level : Level} {operator : Token} (left right : Expr)
    (h : operator.kind ∈ level.operators) :
    (level.combine left operator right).tightness = level.tightness := by
  have binds := Level.mem_operators.mp h
  have hbinds : (tightness? operator.kind).getD 0 = level.tightness := by
    rw [binds]
    rfl
  cases level <;> exact hbinds

theorem Level.marks_combine (level : Level) (left right : Expr) (operator : Token) :
    (level.combine left operator right).marks = left.marks ++ .own operator :: right.marks := by
  cases level <;> exact Expr.marks.eq_def _

theorem exists_listing {arguments : List Expr} {derives : List Token → Expr → Prop}
    (h : ∀ argument ∈ arguments, ∀ text, Spells argument.marks text → derives text argument)
    {text : List Token} (spelled : Spells (marksOfArguments arguments) text) :
    ∃ pieces : List (List Token × Expr), pieces.map Prod.snd = arguments ∧
      Listing (pieces.map Prod.fst) text ∧ ∀ piece ∈ pieces, derives piece.1 piece.2 := by
  cases arguments with
  | nil =>
      cases spelled.of_nil
      exact ⟨[], rfl, .none, by simp⟩
  | cons first rest =>
      rw [marksOfArguments] at spelled
      induction rest generalizing first text with
      | nil =>
          rw [marksOfFurtherArguments, List.append_nil] at spelled
          exact ⟨[(text, first)], rfl, .one, by simpa using h first (by simp) text spelled⟩
      | cons second rest ih =>
          rw [marksOfFurtherArguments] at spelled
          obtain ⟨firstText, _, rfl, hfirst, tail⟩ := spelled.of_append
          obtain ⟨comma, others, rfl, hcomma, tail₂⟩ := tail.of_cons
          obtain ⟨pieces, hpieces, hlisting, hderives⟩ :=
            ih second (fun other member => h other (List.mem_cons_of_mem _ member)) tail₂
          refine ⟨(firstText, first) :: pieces, by rw [List.map_cons, hpieces], ?_, ?_⟩
          · refine hlisting.cons ?_ hcomma
            rintro none
            rw [List.map_eq_nil_iff.mp none] at hpieces
            cases hpieces
          · intro piece member
            rcases List.mem_cons.mp member with rfl | member
            · exact h first List.mem_cons_self firstText hfirst
            · exact hderives piece member

/-- A proper expression is written as a phrase of every rule that is not tighter. -/
theorem Expr.Proper.phrase {expr : Expr} (h : expr.Proper) :
    ∀ text, Spells expr.marks text → ∀ rule : Rule, rule.tightness ≤ expr.tightness →
      Phrase rule text expr := by
  induction h with
  | assign hname _ ih =>
      intro text spelled rule bound
      rw [Expr.marks] at spelled
      obtain ⟨_, _, rfl, rfl, tail⟩ := spelled.of_cons
      obtain ⟨_, valueText, rfl, hequals, tail₂⟩ := tail.of_cons
      have value := ih valueText tail₂ .expression (Nat.zero_le _)
      exact (Phrase.assign hname hequals value).loosen bound
  | operation hkind _ hleft _ hright left right =>
      intro text spelled rule bound
      rw [Level.marks_combine] at spelled
      rw [Level.tightness_combine _ _ hkind] at bound
      obtain ⟨leftText, _, rfl, spelledLeft, tail⟩ := spelled.of_append
      obtain ⟨_, rightText, rfl, rfl, tail₂⟩ := tail.of_cons
      have first := left leftText spelledLeft (.operation _) hleft
      have second := right rightText tail₂ _ (by rwa [Level.tightness_operand])
      exact (Phrase.operator first hkind second).loosen bound
  | call _ hcallee hparen _ small callee arguments =>
      intro text spelled rule bound
      rw [Expr.marks] at spelled
      obtain ⟨calleeText, _, rfl, spelledCallee, tail⟩ := spelled.of_append
      obtain ⟨_, _, rfl, hopening, tail₂⟩ := tail.of_cons
      obtain ⟨listing, _, rfl, spelledArguments, tail₃⟩ := tail₂.of_append
      obtain ⟨_, rfl, rfl⟩ := tail₃.of_one
      obtain ⟨pieces, rfl, hlisting, hpieces⟩ := exists_listing
        (fun argument member text spelled =>
          arguments argument member text spelled .expression (Nat.zero_le _)) spelledArguments
      rw [List.length_map] at small
      have first := callee calleeText spelledCallee .call hcallee
      exact (Phrase.application first hopening hlisting hpieces small hparen).loosen bound
  | get _ hobject hname object =>
      intro text spelled rule bound
      rw [Expr.marks] at spelled
      obtain ⟨objectText, _, rfl, spelledObject, tail⟩ := spelled.of_append
      obtain ⟨_, _, rfl, hdot, tail₂⟩ := tail.of_cons
      obtain ⟨_, rfl, rfl⟩ := tail₂.of_one
      have first := object objectText spelledObject .call hobject
      exact (Phrase.property first hdot hname).loosen bound
  | grouping _ ih =>
      intro text spelled rule bound
      rw [Expr.marks] at spelled
      obtain ⟨_, _, rfl, hopening, tail⟩ := spelled.of_cons
      obtain ⟨innerText, _, rfl, spelledInner, tail₂⟩ := tail.of_append
      obtain ⟨_, rfl, hclosing⟩ := tail₂.of_one
      have inner := ih innerText spelledInner .expression (Nat.zero_le _)
      exact (Phrase.grouping hopening inner hclosing).loosen bound
  | literal =>
      intro text spelled rule bound
      rw [Expr.marks] at spelled
      obtain ⟨_, rfl, hvalue⟩ := spelled.of_one
      exact (Phrase.literal hvalue).loosen bound
  | set _ hobject hname _ object value =>
      intro text spelled rule bound
      rw [Expr.marks] at spelled
      obtain ⟨objectText, _, rfl, spelledObject, tail⟩ := spelled.of_append
      obtain ⟨_, _, rfl, hdot, tail₂⟩ := tail.of_cons
      obtain ⟨_, _, rfl, rfl, tail₃⟩ := tail₂.of_cons
      obtain ⟨_, valueText, rfl, hequals, tail₄⟩ := tail₃.of_cons
      have first := object objectText spelledObject .call hobject
      have second := value valueText tail₄ .expression (Nat.zero_le _)
      exact (Phrase.set first hdot hname hequals second).loosen bound
  | super hkind hmethod =>
      intro text spelled rule bound
      rw [Expr.marks] at spelled
      obtain ⟨_, _, rfl, rfl, tail⟩ := spelled.of_cons
      obtain ⟨_, _, rfl, hdot, tail₂⟩ := tail.of_cons
      obtain ⟨_, rfl, rfl⟩ := tail₂.of_one
      exact (Phrase.super hkind hdot hmethod).loosen bound
  | this hkind =>
      intro text spelled rule bound
      rw [Expr.marks] at spelled
      obtain ⟨_, rfl, rfl⟩ := spelled.of_one
      exact (Phrase.this hkind).loosen bound
  | unary hkind _ hright ih =>
      intro text spelled rule bound
      rw [Expr.marks] at spelled
      obtain ⟨_, rightText, rfl, rfl, tail⟩ := spelled.of_cons
      exact (Phrase.sign hkind (ih rightText tail .unary hright)).loosen bound
  | «variable» hname =>
      intro text spelled rule bound
      rw [Expr.marks] at spelled
      obtain ⟨_, rfl, rfl⟩ := spelled.of_one
      exact (Phrase.name hname).loosen bound

/-! ## Statements -/

namespace Surface

theorem ProperExpr?.phrase {expr : Option Expr} (h : ProperExpr? expr) {text : List Token}
    (spelled : Spells (marksOfExpr? expr) text) : OptionalPhrase text expr := by
  cases expr with
  | none =>
      cases spelled.of_nil
      exact .absent
  | some expr => exact .present ((h expr rfl).phrase text spelled .expression (Nat.zero_le _))

theorem variableText {name : Token} {value : Option Expr} (hname : name.kind = .identifier)
    (h : ProperExpr? value) {text : List Token} (spelled : Spells (variableMarks name value) text) :
    VariableText text (.var name value) := by
  cases value with
  | none =>
      obtain ⟨_, _, rfl, rfl, tail⟩ := spelled.of_cons
      obtain ⟨_, rfl, hsemicolon⟩ := tail.of_one
      exact .plain hname hsemicolon
  | some value =>
      obtain ⟨_, _, rfl, rfl, tail⟩ := spelled.of_cons
      obtain ⟨_, _, rfl, hequals, tail₂⟩ := tail.of_cons
      obtain ⟨valueText, _, rfl, spelledValue, tail₃⟩ := tail₂.of_append
      obtain ⟨_, rfl, hsemicolon⟩ := tail₃.of_one
      have hvalue := (h value rfl).phrase valueText spelledValue .expression (Nat.zero_le _)
      exact .initialized hname hequals hvalue hsemicolon

theorem expressionText {value : Expr} (h : value.Proper) {text : List Token}
    (spelled : Spells (value.marks ++ [.symbol .semicolon]) text) :
    ExpressionText text (.expression value) := by
  obtain ⟨valueText, _, rfl, spelledValue, tail⟩ := spelled.of_append
  obtain ⟨_, rfl, hsemicolon⟩ := tail.of_one
  exact .expression (h.phrase valueText spelledValue .expression (Nat.zero_le _)) hsemicolon

theorem Initializer.Proper.text {initializer : Initializer} (h : initializer.Proper)
    {text : List Token} (spelled : Spells initializer.marks text) :
    InitializerText text initializer.tree := by
  cases initializer with
  | absent =>
      obtain ⟨_, rfl, hsemicolon⟩ := Spells.of_one spelled
      exact .absent hsemicolon
  | «variable» name value =>
      obtain ⟨_, _, rfl, hword, tail⟩ := Spells.of_cons spelled
      exact .variable hword (variableText h.1 h.2 tail)
  | expression value => exact .expression (expressionText h spelled)

theorem listing_params {params : List Token} {text : List Token}
    (spelled : Spells (marksOfParams params) text) : Listing (params.map ([·])) text := by
  cases params with
  | nil =>
      cases spelled.of_nil
      exact .none
  | cons first rest =>
      induction rest generalizing first text with
      | nil =>
          obtain ⟨_, rfl, rfl⟩ := Spells.of_one spelled
          exact .one
      | cons second rest ih =>
          obtain ⟨_, _, rfl, rfl, tail⟩ := Spells.of_cons spelled
          obtain ⟨_, _, rfl, hcomma, tail₂⟩ := Spells.of_cons tail
          exact (ih second tail₂).cons (List.cons_ne_nil _ _) hcomma

theorem SuperclassText.of_marks {superclass : Option Token}
    (h : ∀ found, superclass = some found → found.kind = .identifier) {text : List Token}
    (spelled : Spells (superclassMarks superclass) text) :
    SuperclassText text (superclass.map .unmarked) := by
  cases superclass with
  | none =>
      cases spelled.of_nil
      exact .absent
  | some superclass =>
      obtain ⟨_, _, rfl, hless, tail⟩ := Spells.of_cons spelled
      obtain ⟨_, rfl, rfl⟩ := tail.of_one
      exact .present hless (h _ rfl)

theorem exists_pieces {statements : List Statement}
    (h : ∀ statement ∈ statements, ∀ text, Spells statement.marks text →
      Clause .declaration text statement.tree) {text : List Token}
    (spelled : Spells (marksOfStatements statements) text) :
    ∃ pieces : List (List Token × Stmt), pieces.flatMap Prod.fst = text ∧
      pieces.map Prod.snd = treesOfStatements statements ∧
      ∀ piece ∈ pieces, Clause .declaration piece.1 piece.2 := by
  induction statements generalizing text with
  | nil =>
      cases spelled.of_nil
      exact ⟨[], rfl, rfl, by simp⟩
  | cons statement rest ih =>
      rw [marksOfStatements] at spelled
      obtain ⟨before, after, rfl, spelledFirst, spelledRest⟩ := spelled.of_append
      obtain ⟨pieces, rfl, htrees, hpieces⟩ :=
        ih (fun other member => h other (List.mem_cons_of_mem _ member)) spelledRest
      refine ⟨(before, statement.tree) :: pieces, rfl, ?_, ?_⟩
      · rw [List.map_cons, htrees, treesOfStatements]
      · intro piece member
        rcases List.mem_cons.mp member with rfl | member
        · exact h statement List.mem_cons_self before spelledFirst
        · exact hpieces piece member

theorem Function.ProperHead.text {declaration : Function} (head : declaration.ProperHead)
    (h : ∀ statement ∈ declaration.body, ∀ text, Spells statement.marks text →
      Clause .declaration text statement.tree) {text : List Token}
    (spelled : Spells declaration.marks text) :
    ∃ function : FunctionText, function.tokens = text ∧
      function.declaration = declaration.tree ∧
      ∀ piece ∈ function.body, Clause .declaration piece.1 piece.2 := by
  obtain ⟨name, params, body⟩ := declaration
  rw [Function.marks] at spelled
  obtain ⟨_, _, rfl, rfl, tail⟩ := spelled.of_cons
  obtain ⟨opening, _, rfl, hopening, tail₂⟩ := tail.of_cons
  obtain ⟨listing, _, rfl, spelledParams, tail₃⟩ := tail₂.of_append
  obtain ⟨closing, _, rfl, hclosing, tail₄⟩ := tail₃.of_cons
  obtain ⟨start, _, rfl, hstart, tail₅⟩ := tail₄.of_cons
  obtain ⟨bodyText, _, rfl, spelledBody, tail₆⟩ := tail₅.of_append
  obtain ⟨stop, rfl, hstop⟩ := tail₆.of_one
  obtain ⟨pieces, rfl, htrees, hpieces⟩ := exists_pieces h spelledBody
  let function : FunctionText :=
    { name := _, opening, params, listing, closing, start, body := pieces, stop
      name_kind := head.name_kind
      opening_kind := hopening
      param_kind := head.param_kind
      listing_params := listing_params spelledParams
      length_params := head.length_params
      closing_kind := hclosing
      start_kind := hstart
      stop_kind := hstop }
  refine ⟨function, rfl, ?_, hpieces⟩
  rw [Function.tree, ← htrees]
  rfl

theorem exists_methods {methods : List Function} (heads : ∀ method ∈ methods, method.ProperHead)
    (h : ∀ method ∈ methods, ∀ statement ∈ method.body, ∀ text, Spells statement.marks text →
      Clause .declaration text statement.tree) {text : List Token}
    (spelled : Spells (marksOfFunctions methods) text) :
    ∃ texts : List FunctionText, texts.flatMap FunctionText.tokens = text ∧
      texts.map FunctionText.declaration = treesOfFunctions methods ∧
      ∀ function ∈ texts, ∀ piece ∈ function.body, Clause .declaration piece.1 piece.2 := by
  induction methods generalizing text with
  | nil =>
      cases spelled.of_nil
      exact ⟨[], rfl, rfl, by simp⟩
  | cons method rest ih =>
      rw [marksOfFunctions] at spelled
      obtain ⟨before, after, rfl, spelledFirst, spelledRest⟩ := spelled.of_append
      obtain ⟨function, rfl, htree, hbody⟩ := (heads method List.mem_cons_self).text
        (h method List.mem_cons_self) spelledFirst
      obtain ⟨texts, rfl, htrees, hbodies⟩ :=
        ih (fun other member => heads other (List.mem_cons_of_mem _ member))
          (fun other member => h other (List.mem_cons_of_mem _ member)) spelledRest
      refine ⟨function :: texts, rfl, ?_, ?_⟩
      · rw [List.map_cons, htree, htrees, treesOfFunctions]
      · intro other member
        rcases List.mem_cons.mp member with rfl | member
        · exact hbody
        · exact hbodies other member

/-- The rule of the grammar for a written statement. -/
def Statement.form (statement : Statement) : Form :=
  if statement.declares then .declaration else .statement statement.dangles

theorem Statement.form_of_inner {statement : Statement} (h : statement.declares = false) :
    statement.form = .statement statement.dangles := by
  rw [Statement.form, h]
  rfl

theorem Statement.declaration_of_form {statement : Statement} {text : List Token} {tree : Stmt}
    (h : Clause statement.form text tree) : Clause .declaration text tree := by
  rw [Statement.form] at h
  split at h
  · exact h
  · exact .statement h

/-- A word and a condition in brackets are at the head of what is spelled. -/
theorem exists_condition {word : Token.Kind} {condition : Expr} (h : condition.Proper) {behind : List Mark}
    {text : List Token} (spelled : Spells (.symbol word :: .symbol .leftParen ::
      (condition.marks ++ .symbol .rightParen :: behind)) text) :
    ∃ keyword opening closing conditionText rest,
      text = keyword :: opening :: (conditionText ++ closing :: rest) ∧ keyword.kind = word ∧
      opening.kind = .leftParen ∧ Phrase .expression conditionText condition ∧
      closing.kind = .rightParen ∧ Spells behind rest := by
  obtain ⟨keyword, _, rfl, hword, tail⟩ := spelled.of_cons
  obtain ⟨opening, _, rfl, hopening, tail₂⟩ := tail.of_cons
  obtain ⟨conditionText, _, rfl, spelledCondition, tail₃⟩ := tail₂.of_append
  obtain ⟨closing, rest, rfl, hclosing, spelledRest⟩ := tail₃.of_cons
  have phrase := h.phrase conditionText spelledCondition .expression (Nat.zero_le _)
  exact ⟨keyword, opening, closing, conditionText, rest, rfl, hword, hopening, phrase, hclosing, spelledRest⟩

/-- A proper statement is written as a clause that stands for its tree. -/
theorem Statement.Proper.clause {statement : Statement} (h : statement.Proper) :
    ∀ text, Spells statement.marks text → Clause statement.form text statement.tree := by
  induction h with
  | block _ ih =>
      intro text spelled
      rw [Statement.marks] at spelled
      obtain ⟨_, _, rfl, hopening, tail⟩ := spelled.of_cons
      obtain ⟨bodyText, _, rfl, spelledBody, tail₂⟩ := tail.of_append
      obtain ⟨_, rfl, hclosing⟩ := tail₂.of_one
      obtain ⟨pieces, rfl, htrees, hpieces⟩ := exists_pieces
        (fun statement member text spelled =>
          declaration_of_form (ih statement member text spelled)) spelledBody
      rw [Statement.tree, ← htrees]
      exact .block hopening hpieces hclosing
  | «break» hword =>
      intro text spelled
      rw [Statement.marks] at spelled
      obtain ⟨_, _, rfl, rfl, tail⟩ := spelled.of_cons
      obtain ⟨_, rfl, hsemicolon⟩ := tail.of_one
      exact .break hword hsemicolon
  | «class» hname hsuper heads _ ih =>
      intro text spelled
      rw [Statement.marks] at spelled
      obtain ⟨_, _, rfl, hword, tail⟩ := spelled.of_cons
      obtain ⟨_, _, rfl, rfl, tail₂⟩ := tail.of_cons
      obtain ⟨superText, _, rfl, spelledSuper, tail₃⟩ := tail₂.of_append
      obtain ⟨_, _, rfl, hstart, tail₄⟩ := tail₃.of_cons
      obtain ⟨methodsText, _, rfl, spelledMethods, tail₅⟩ := tail₄.of_append
      obtain ⟨_, rfl, hstop⟩ := tail₅.of_one
      obtain ⟨texts, rfl, htrees, hbodies⟩ := exists_methods heads
        (fun method hmethod statement member text spelled =>
          declaration_of_form (ih method hmethod statement member text spelled)) spelledMethods
      rw [Statement.tree, ← htrees]
      exact .class hword hname (SuperclassText.of_marks hsuper spelledSuper) hstart hbodies hstop
  | «continue» hword =>
      intro text spelled
      rw [Statement.marks] at spelled
      obtain ⟨_, _, rfl, rfl, tail⟩ := spelled.of_cons
      obtain ⟨_, rfl, hsemicolon⟩ := tail.of_one
      exact .continue hword hsemicolon
  | expression h =>
      intro text spelled
      exact .expression (expressionText h spelled)
  | «for» hinit hcondition hincrement inner _ ih =>
      intro text spelled
      rw [Statement.marks] at spelled
      obtain ⟨_, _, rfl, hword, tail⟩ := spelled.of_cons
      obtain ⟨_, _, rfl, hopening, tail₂⟩ := tail.of_cons
      obtain ⟨initText, _, rfl, spelledInit, tail₃⟩ := tail₂.of_append
      obtain ⟨conditionText, _, rfl, spelledCondition, tail₄⟩ := tail₃.of_append
      obtain ⟨_, _, rfl, hsemicolon, tail₅⟩ := tail₄.of_cons
      obtain ⟨incrementText, _, rfl, spelledIncrement, tail₆⟩ := tail₅.of_append
      obtain ⟨_, bodyText, rfl, hclosing, spelledBody⟩ := tail₆.of_cons
      have body := ih bodyText spelledBody
      rw [form_of_inner inner] at body
      exact .for hword hopening (hinit.text spelledInit) (hcondition.phrase spelledCondition)
        hsemicolon (hincrement.phrase spelledIncrement) hclosing body
  | function head _ ih =>
      intro text spelled
      rw [Statement.marks] at spelled
      obtain ⟨_, _, rfl, hword, tail⟩ := spelled.of_cons
      obtain ⟨function, rfl, htree, hbody⟩ := head.text
        (fun statement member text spelled =>
          declaration_of_form (ih statement member text spelled)) tail
      rw [Statement.tree, ← htree]
      exact .function hword hbody
  | «if» hcondition inner _ ih =>
      intro text spelled
      rw [Statement.marks] at spelled
      obtain ⟨_, _, _, _, thenText, rfl, hword, hopening, condition, hclosing, spelledThen⟩ :=
        exists_condition hcondition spelled
      have branch := ih thenText spelledThen
      rw [form_of_inner inner] at branch
      exact .if hword hopening condition hclosing branch
  | ifElse hcondition inner closed _ innerElse _ hthen helse =>
      intro text spelled
      rw [Statement.marks] at spelled
      obtain ⟨_, _, _, _, _, rfl, hword, hopening, condition, hclosing, tail⟩ :=
        exists_condition hcondition spelled
      obtain ⟨thenText, _, rfl, spelledThen, tail₂⟩ := tail.of_append
      obtain ⟨_, elseText, rfl, hotherwise, spelledElse⟩ := tail₂.of_cons
      have thenBranch := hthen thenText spelledThen
      rw [form_of_inner inner, closed] at thenBranch
      have elseBranch := helse elseText spelledElse
      rw [form_of_inner innerElse] at elseBranch
      exact .ifElse hword hopening condition hclosing thenBranch hotherwise elseBranch
  | print h =>
      intro text spelled
      rw [Statement.marks] at spelled
      obtain ⟨_, _, rfl, hword, tail⟩ := spelled.of_cons
      obtain ⟨valueText, _, rfl, spelledValue, tail₂⟩ := tail.of_append
      obtain ⟨_, rfl, hsemicolon⟩ := tail₂.of_one
      exact .print hword (h.phrase valueText spelledValue .expression (Nat.zero_le _)) hsemicolon
  | «return» hword h =>
      intro text spelled
      rw [Statement.marks] at spelled
      obtain ⟨_, _, rfl, rfl, tail⟩ := spelled.of_cons
      obtain ⟨valueText, _, rfl, spelledValue, tail₂⟩ := tail.of_append
      obtain ⟨_, rfl, hsemicolon⟩ := tail₂.of_one
      exact .return hword (h.phrase spelledValue) hsemicolon
  | var hname h =>
      intro text spelled
      rw [Statement.marks] at spelled
      obtain ⟨_, _, rfl, hword, tail⟩ := spelled.of_cons
      exact .variable hword (variableText hname h tail)
  | «while» hcondition inner _ ih =>
      intro text spelled
      rw [Statement.marks] at spelled
      obtain ⟨_, _, _, _, bodyText, rfl, hword, hopening, condition, hclosing, spelledBody⟩ :=
        exists_condition hcondition spelled
      have body := ih bodyText spelledBody
      rw [form_of_inner inner] at body
      exact .while hword hopening condition hclosing body

theorem sentence_of_proper {program : List Statement}
    (h : ∀ statement ∈ program, statement.Proper) {text : List Token}
    (spelled : Spells (marksOfStatements program) text) :
    Sentence text (treesOfStatements program) := by
  obtain ⟨pieces, htexts, htrees, hpieces⟩ := exists_pieces
    (fun statement member text spelled =>
      Statement.declaration_of_form ((h statement member).clause text spelled)) spelled
  exact ⟨pieces, hpieces, htexts, htrees⟩

end Surface

/-- A proper program can be written out, and whichever way it is written out, it is read without errors as its
tree, unless it is nested too deeply, which it never is for a depth of eleven for each token and one more. -/
theorem Program.ofTokens_write (program : List Surface.Statement)
    (proper : ∀ statement ∈ program, statement.Proper) (final : Token)
    (final_kind : final.kind = .endOfInput) (depth : Nat) :
    (∃ text, Spells (Surface.marksOfStatements program) text) ∧
    ∀ text, Spells (Surface.marksOfStatements program) text →
      ((∀ error ∈ (ofTokens depth (text ++ [final])).errors, error.cause ≠ .nesting) →
        ofTokens depth (text ++ [final]) = ⟨Surface.treesOfStatements program, []⟩) ∧
      (11 * text.length + 1 ≤ depth →
        ofTokens depth (text ++ [final]) = ⟨Surface.treesOfStatements program, []⟩) := by
  refine ⟨Spells.exists_text _, fun text spelled => ?_⟩
  have sentence := Surface.sentence_of_proper proper spelled
  rcases ofTokens_of_sentence sentence final_kind depth with same | ⟨shallow, error, member, cause⟩
  · exact ⟨fun _ => same, fun _ => same⟩
  · refine ⟨fun none => absurd cause (none error member), fun deep => absurd deep shallow⟩

/-- A loop of which every clause is left out. -/
def Surface.endlessLoop : List Surface.Statement :=
  [.for .absent none none (.print (.literal .nil))]

def Surface.endlessText : List Token :=
  [⟨.for, "for", .none, 1⟩, ⟨.leftParen, "(", .none, 1⟩, ⟨.semicolon, ";", .none, 1⟩,
    ⟨.semicolon, ";", .none, 2⟩, ⟨.rightParen, ")", .none, 2⟩, ⟨.print, "print", .none, 3⟩,
    ⟨.nil, "nil", .none, 3⟩, ⟨.semicolon, ";", .none, 3⟩]

theorem Program.ofTokens_write_endlessLoop :
    ofTokens 100 (Surface.endlessText ++ [.final 3]) =
      ⟨[.while (.literal (.bool true)) (.print (.literal .nil)) none], []⟩ := by
  have proper : ∀ statement ∈ Surface.endlessLoop, statement.Proper := by
    intro statement member
    rw [List.mem_singleton.mp member]
    exact .for trivial nofun nofun rfl (.print .literal)
  have spelled : Spells (Surface.marksOfStatements Surface.endlessLoop) Surface.endlessText :=
    .cons rfl (.cons rfl (.cons rfl (.cons rfl (.cons rfl (.cons rfl (.cons rfl (.cons rfl
      .nil)))))))
  exact ((ofTokens_write Surface.endlessLoop proper (.final 3) rfl 100).2 _ spelled).2 (by decide)

end LoxLang
