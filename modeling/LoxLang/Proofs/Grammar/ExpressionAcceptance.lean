import LoxLang.Proofs.Grammar.Acceptance

/-!
Expressions that the grammar derives are accepted. What follows an expression must not bind to it, which a
table of the tightness of operators settles; a chain of operators or calls is followed through its loop.
-/

namespace LoxLang.Grammar

/-! ## Tightness -/

def Level.tightness : Level → Nat
  | .or => 1
  | .and => 2
  | .equality => 3
  | .comparison => 4
  | .term => 5
  | .factor => 6

def Rule.tightness : Rule → Nat
  | .expression => 0
  | .operation level => level.tightness
  | .unary => 7
  | .call => 8
  | .primary => 9

/-- How tightly a token of this kind binds to an expression that stands before it, if it does. -/
def tightness? : Token.Kind → Option Nat
  | .equal => some 0
  | .or => some 1
  | .and => some 2
  | .bangEqual | .equalEqual => some 3
  | .greater | .greaterEqual | .less | .lessEqual => some 4
  | .minus | .plus => some 5
  | .slash | .star => some 6
  | .leftParen | .dot => some 8
  | _ => none

theorem Level.mem_operators {level : Level} {kind : Token.Kind} :
    kind ∈ level.operators ↔ tightness? kind = some level.tightness := by
  cases level <;> cases kind <;> decide

@[simp] theorem Rule.tightness_expression : Rule.expression.tightness = 0 := rfl

@[simp] theorem Rule.tightness_operation (level : Level) :
    (Rule.operation level).tightness = level.tightness := rfl

@[simp] theorem Rule.tightness_unary : Rule.unary.tightness = 7 := rfl

@[simp] theorem Rule.tightness_call : Rule.call.tightness = 8 := rfl

@[simp] theorem Rule.tightness_primary : Rule.primary.tightness = 9 := rfl

@[simp] theorem Level.tightness_operand (level : Level) :
    level.operand.tightness = level.tightness + 1 := by
  cases level <;> rfl

theorem Rule.tightness_le (rule : Rule) : rule.tightness ≤ 9 := by
  cases rule with
  | operation level => cases level <;> decide
  | _ => decide

/-- What follows does not bind to an expression of the rule. -/
def Rule.Stops (rule : Rule) (rest : List Token) : Prop :=
  ∀ tightness, tightness? (headKind rest) = some tightness → tightness < rule.tightness

theorem Rule.Stops.mono {rule tighter : Rule} {rest : List Token} (h : rule.Stops rest)
    (bound : rule.tightness ≤ tighter.tightness) : tighter.Stops rest :=
  fun tightness given => Nat.lt_of_lt_of_le (h tightness given) bound

theorem Rule.Stops.ne {rule : Rule} {rest : List Token} {kind : Token.Kind} {tightness : Nat}
    (h : rule.Stops rest) (binds : tightness? kind = some tightness)
    (bound : rule.tightness ≤ tightness) : headKind rest ≠ kind := by
  intro same
  have := h tightness (same ▸ binds)
  omega

theorem Rule.stops_of_none {rule : Rule} {rest : List Token}
    (h : tightness? (headKind rest) = none) : rule.Stops rest := by
  intro tightness given
  rw [h] at given
  cases given

theorem Rule.stops_of_some {rule : Rule} {rest : List Token} (tightness : Nat)
    (h : tightness? (headKind rest) = some tightness) (bound : tightness < rule.tightness) :
    rule.Stops rest := by
  intro other given
  rw [h] at given
  cases given
  exact bound

/-! ## First tokens -/

/-- What begins an expression without a sign. -/
def atomKinds : List Token.Kind :=
  [.false, .true, .nil, .number, .string, .identifier, .this, .super, .leftParen]

def signKinds : List Token.Kind :=
  [.bang, .minus]

def Rule.starters : Rule → List Token.Kind
  | .primary | .call => atomKinds
  | _ => signKinds ++ atomKinds

theorem Rule.mem_starters {rule : Rule} {kind : Token.Kind} (h : kind ∈ rule.starters) :
    kind ∈ signKinds ++ atomKinds := by
  cases rule with
  | primary | call => exact List.mem_append_right _ h
  | _ => exact h

theorem ne_nil_of_mem {rule : Rule} {text : List Token} (h : headKind text ∈ rule.starters) :
    text ≠ [] := by
  rintro rfl
  exact absurd (Rule.mem_starters h) (by decide)

/-! ## Loops of expressions -/

def Rule.reader (rounds depth : Nat) : Rule → Reader Expr
  | .expression => Grammar.assignment rounds depth
  | .operation level => Grammar.operation rounds level depth
  | .unary => Grammar.unary rounds depth
  | .call => Grammar.call rounds depth
  | .primary => Grammar.primary rounds depth

def operationRound (rounds : Nat) (level : Level) (depth : Nat) (left : Expr) :
    Reader (Option Expr) := do
  match ← acceptAny level.operators with
  | some operator =>
      return some (level.combine left operator (← level.operand.reader rounds depth))
  | none => return none

theorem operation_succ (rounds : Nat) (level : Level) (depth : Nat) :
    operation rounds level (depth + 1) =
      level.operand.reader rounds depth >>= iterate (operationRound rounds level depth) rounds := by
  cases level <;> (rw [operation]; rfl)

def callRound (rounds depth : Nat) (callee : Expr) : Reader (Option Expr) := do
  if ← accepts .leftParen then
    return some (← finishCall rounds callee depth)
  else if ← accepts .dot then
    return some (.get callee (← expect .identifier .propertyName))
  else
    return none

theorem call_succ (rounds depth : Nat) :
    call rounds (depth + 1) = primary rounds depth >>= iterate (callRound rounds depth) rounds := by
  rw [call]
  rfl

/-- The depth is enough for a text of that length. -/
def Rule.Fits (rule : Rule) (text : List Token) (depth : Nat) : Prop :=
  11 * text.length ≤ depth + rule.tightness + 1

/-- The reader of a rule takes a text, up to the end of its loop if it has one. -/
def Rule.Takes (rule : Rule) (rounds depth : Nat) (cursor : Cursor) (enough : Prop)
    (expr : Expr) (next : Cursor) : Prop :=
  match rule with
  | .operation level => level.operand.Stops next.ahead →
      Arrives enough (Grammar.operation rounds level (depth + 1)) (operationRound rounds level depth)
        cursor expr next
  | .call => Arrives enough (Grammar.call rounds (depth + 1)) (callRound rounds depth) cursor expr next
  | rule => rule.Stops next.ahead →
      Yields enough expr next (rule.reader rounds (depth + 1) cursor)

/-- A text is accepted by the reader of a rule, whatever follows that does not bind to it. -/
structure Rule.Accepts (rule : Rule) (text : List Token) (expr : Expr) : Prop where
  starts : headKind text ∈ rule.starters
  takes (rounds depth : Nat) (rest : List Token) (errors : Array SyntaxError) :
    (text ++ rest).length ≤ rounds →
      rule.Takes rounds depth ⟨text ++ rest, errors⟩ (rule.Fits text (depth + 1)) expr
        ⟨rest, errors⟩

namespace Rule.Accepts

variable {rule : Rule} {text : List Token} {expr : Expr}

theorem length_pos (h : rule.Accepts text expr) : 0 < text.length :=
  List.length_pos_iff.mpr (ne_nil_of_mem h.starts)

theorem yields (h : rule.Accepts text expr) (rounds depth : Nat) (rest : List Token)
    (errors : Array SyntaxError) (bound : (text ++ rest).length ≤ rounds)
    (stops : rule.Stops rest) :
    Yields (rule.Fits text depth) expr ⟨rest, errors⟩
      (rule.reader rounds depth ⟨text ++ rest, errors⟩) := by
  cases depth with
  | zero =>
      have shallow : ¬rule.Fits text 0 := by
        have := h.length_pos
        have := rule.tightness_le
        unfold Rule.Fits
        omega
      cases rule <;> exact Yields.tooDeep shallow
  | succ depth =>
      have takes := h.takes rounds depth rest errors bound
      cases rule with
      | operation level =>
          refine (takes (stops.mono (by simp))).finish ?_
          have hother : headKind rest ∉ level.operators := by
            intro member
            exact stops.ne (Level.mem_operators.mp member) (Nat.le_refl _) rfl
          rw [operationRound, bind_ok (acceptAny_of_notMem hother)]
          rfl
      | call =>
          refine takes.finish ?_
          have hparen : headKind rest ≠ .leftParen := stops.ne rfl (by decide)
          have hdot : headKind rest ≠ .dot := stops.ne rfl (by decide)
          rw [callRound, bind_ok (accepts_of_ne hparen)]
          exact bind_ok (accepts_of_ne hdot)
      | expression => exact takes stops
      | unary => exact takes stops
      | primary => exact takes stops

theorem yields_expression (h : Rule.expression.Accepts text expr) (rounds depth : Nat)
    (rest : List Token) (errors : Array SyntaxError)
    (bound : (text ++ rest).length ≤ rounds) (stops : Rule.expression.Stops rest) :
    Yields (11 * text.length ≤ depth) expr ⟨rest, errors⟩
      (Grammar.expression rounds depth ⟨text ++ rest, errors⟩) := by
  cases depth with
  | zero =>
      have := h.length_pos
      exact .tooDeep (by omega)
  | succ depth => exact (h.yields rounds depth rest errors bound stops).mono fun deep => deep

/-! ## Looser rules -/

theorem atom (h : Rule.primary.Accepts text expr) : Rule.call.Accepts text expr where
  starts := h.starts
  takes rounds depth rest errors bound := by
    have stops : Rule.primary.Stops rest := by
      intro tightness given
      cases hkind : headKind rest <;> rw [hkind] at given <;> cases given <;> decide
    change Arrives _ _ _ _ _ _
    rw [call_succ]
    refine .start id ((h.yields rounds depth rest errors bound stops).mono fun deep => ?_) ?_
    · simp [Rule.Fits] at deep ⊢
      omega
    · simp at bound ⊢
      omega

theorem unsigned (h : Rule.call.Accepts text expr) : Rule.unary.Accepts text expr where
  starts := List.mem_append_right _ h.starts
  takes rounds depth rest errors bound := by
    intro stops
    have noSign : headKind (text ++ rest) ∉ signKinds := by
      rw [headKind_append (ne_nil_of_mem h.starts)]
      intro sign
      have := h.starts
      revert this sign
      generalize headKind text = kind
      cases kind <;> decide
    have reads := h.yields rounds depth rest errors bound (stops.mono (by simp))
    change Yields _ _ _ (Grammar.unary rounds (depth + 1) _)
    rw [Grammar.unary]
    refine .after (acceptAny_of_notMem noSign) (reads.mono fun deep => ?_)
    simp [Rule.Fits] at deep ⊢
    omega

theorem sign {operator : Token} (hkind : operator.kind ∈ signKinds)
    (h : Rule.unary.Accepts text expr) :
    Rule.unary.Accepts (operator :: text) (.unary operator expr) where
  starts := List.mem_append_left _ hkind
  takes rounds depth rest errors bound := by
    intro stops
    have inside : operator.kind ≠ .endOfInput := fun hend =>
      absurd (hend ▸ hkind) (by decide)
    have shorter : (text ++ rest).length ≤ rounds := by
      simp at bound ⊢
      omega
    change Yields _ _ _ (Grammar.unary rounds (depth + 1) _)
    rw [Grammar.unary]
    refine .after (acceptAny_cons hkind inside) ?_
    refine ((h.yields rounds depth rest errors shorter stops).mono fun deep => ?_).map
    simp [Rule.Fits] at deep ⊢
    omega

theorem operand (level : Level) (h : level.operand.Accepts text expr) :
    (Rule.operation level).Accepts text expr where
  starts := Rule.mem_starters h.starts
  takes rounds depth rest errors bound := by
    intro stops
    rw [operation_succ]
    refine .start id ((h.yields rounds depth rest errors bound stops).mono fun deep => ?_) ?_
    · simp [Rule.Fits] at deep ⊢
      omega
    · simp at bound ⊢
      omega

theorem operation (h : (Rule.operation .or).Accepts text expr) :
    Rule.expression.Accepts text expr where
  starts := h.starts
  takes rounds depth rest errors bound := by
    intro stops
    have hequal : headKind rest ≠ .equal := stops.ne rfl (by simp)
    have reads := h.yields rounds depth rest errors bound (stops.mono (by simp))
    change Yields _ _ _ (Grammar.assignment rounds (depth + 1) _)
    rw [Grammar.assignment]
    refine reads.bind (fun deep => ?_) (.after (accept_of_ne hequal) (.ok rfl))
    simp [Rule.Fits, Level.tightness] at deep ⊢
    omega

theorem operations (h : Rule.call.Accepts text expr) : (Rule.operation .or).Accepts text expr := by
  have factor : (Rule.operation .factor).Accepts text expr := operand .factor h.unsigned
  have term : (Rule.operation .term).Accepts text expr := operand .term factor
  have comparison : (Rule.operation .comparison).Accepts text expr :=
    operand .comparison term
  have equality : (Rule.operation .equality).Accepts text expr :=
    operand .equality comparison
  have and : (Rule.operation .and).Accepts text expr := operand .and equality
  exact operand .or and

/-! ## Chains -/

theorem operator {level : Level} {operator : Token} {rightText : List Token} {right : Expr}
    (left : (Rule.operation level).Accepts text expr)
    (hkind : operator.kind ∈ level.operators) (h : level.operand.Accepts rightText right) :
    (Rule.operation level).Accepts (text ++ operator :: rightText)
      (level.combine expr operator right) where
  starts := by
    rw [headKind_append (ne_nil_of_mem left.starts)]
    exact left.starts
  takes rounds depth rest errors bound := by
    intro stops
    have binds := Level.mem_operators.mp hkind
    have inside : operator.kind ≠ .endOfInput := by
      intro hend
      rw [hend] at binds
      cases binds
    have reads := left.takes rounds depth (operator :: (rightText ++ rest)) errors
      (by simpa using bound) (Rule.stops_of_some _ binds (by simp))
    rw [List.append_assoc, List.cons_append]
    refine reads.step (fun deep => ?_) (.after (acceptAny_cons hkind inside) ?_) ?_
    · simp [Rule.Fits] at deep ⊢
      omega
    · have shorter : (rightText ++ rest).length ≤ rounds := by
        simp at bound ⊢
        omega
      refine ((h.yields rounds depth rest errors shorter stops).mono fun deep => ?_).map
      simp [Rule.Fits] at deep ⊢
      omega
    · simp only [List.length_append, List.length_cons]
      omega

theorem property {dot name : Token} (h : Rule.call.Accepts text expr) (hdot : dot.kind = .dot)
    (hname : name.kind = .identifier) :
    Rule.call.Accepts (text ++ [dot, name]) (.get expr name) where
  starts := by
    rw [headKind_append (ne_nil_of_mem h.starts)]
    exact h.starts
  takes rounds depth rest errors bound := by
    have reads := h.takes rounds depth (dot :: name :: rest) errors (by simpa using bound)
    rw [List.append_assoc]
    refine reads.step (fun deep => ?_) ?_ ?_
    · simp [Rule.Fits] at deep ⊢
      omega
    · refine .after (accepts_of_ne (by simp [hdot])) ?_
      refine .after (accepts_cons hdot (by decide)) ?_
      exact .after (expect_cons hname (by decide)) (.ok rfl)
    · simp only [List.length_cons]
      omega

end Rule.Accepts

/-! ## Lists -/

theorem Listing.length_le {entries : List (List Token)} {text : List Token}
    (h : Listing entries text) : ∀ entry ∈ entries, entry.length ≤ text.length := by
  induction h with
  | none => exact fun _ member => nomatch member
  | one =>
      intro entry member
      cases List.mem_singleton.mp member
      exact Nat.le_refl _
  | more _ _ _ ih =>
      intro entry member
      rw [List.length_append, List.length_cons]
      rcases List.mem_append.mp member with member | member
      · have := ih entry member
        omega
      · rw [List.mem_singleton.mp member]
        omega

theorem Listing.eq_nil {text : List Token} (h : Listing [] text) : text = [] := by
  generalize hentries : ([] : List (List Token)) = entries at h
  cases h with
  | none => rfl
  | one => cases hentries
  | more _ _ _ => exact absurd hentries.symm (by simp)

theorem Listing.first {first : List Token} {others : List (List Token)} {text : List Token}
    (h : Listing (first :: others) text) : ∃ more, text = first ++ more := by
  generalize hentries : first :: others = entries at h
  induction h generalizing others with
  | none => cases hentries
  | one =>
      cases hentries
      exact ⟨[], (List.append_nil _).symm⟩
  | @more entries _ _ _ some _ _ ih =>
      cases entries with
      | nil => exact absurd rfl some
      | cons other entries =>
          obtain ⟨rfl, -⟩ := List.cons.inj hentries
          obtain ⟨more, rfl⟩ := ih rfl
          exact ⟨_, List.append_assoc _ _ _⟩

section

variable {α : Type} {entry : Reader α} {enough : Prop} {rounds : Nat}
  {tooMany : SyntaxError.Cause} {rest : List Token} {errors : Array SyntaxError}

theorem arrives_commaList (tooMany : SyntaxError.Cause) {pieces : List (List Token × α)} {texts : List (List Token)}
    {text : List Token} (listing : Listing texts text) (htexts : pieces.map Prod.fst = texts)
    (nonempty : pieces ≠ []) (small : pieces.length ≤ maxArguments)
    (reads : ∀ piece ∈ pieces, ∀ after, (piece.1 ++ after).length ≤ rounds →
      tightness? (headKind after) = none →
      Yields enough piece.2 ⟨after, errors⟩ (entry ⟨piece.1 ++ after, errors⟩))
    (bound : (text ++ rest).length ≤ rounds) (stops : tightness? (headKind rest) = none) :
    Arrives enough (entry >>= fun first => iterate (commaRound entry tooMany) rounds #[first])
      (commaRound entry tooMany) ⟨text ++ rest, errors⟩ (pieces.map Prod.snd).toArray
      ⟨rest, errors⟩ := by
  induction listing generalizing pieces rest with
  | none => exact absurd (List.map_eq_nil_iff.mp htexts) nonempty
  | one =>
      obtain ⟨piece, rfl, rfl⟩ := List.map_eq_singleton_iff.mp htexts
      refine .start (fun first => #[first])
        (reads piece (List.mem_singleton.mpr rfl) rest bound stops) ?_
      simp at bound ⊢
      omega
  | @more texts text entryText comma hsome _ hcomma ih =>
      obtain ⟨earlier, final, rfl, hearlier, hfinal⟩ := List.map_eq_append_iff.mp htexts
      obtain ⟨piece, rfl, rfl⟩ := List.map_eq_singleton_iff.mp hfinal
      have hnonempty : earlier ≠ [] := by
        rintro rfl
        exact hsome hearlier.symm
      have hsmall : earlier.length < maxArguments := by
        simp at small
        omega
      have shorter : (text ++ comma :: (piece.1 ++ rest)).length ≤ rounds := by
        simpa using bound
      have arrives := ih hearlier hnonempty (Nat.le_of_lt hsmall)
        (fun other member => reads other (List.mem_append_left _ member)) shorter
        (by simp [hcomma, tightness?])
      rw [List.append_assoc, List.cons_append, List.map_append, List.map_singleton]
      refine arrives.step id (.after (accepts_cons hcomma (by decide)) ?_) ?_
      · have entries := reads piece (List.mem_append_right _ (List.mem_singleton.mpr rfl)) rest
          (by simp at bound ⊢; omega) stops
        have few : ¬maxArguments ≤ (earlier.map Prod.snd).toArray.size := by simpa using hsmall
        have hpush : (earlier.map Prod.snd ++ [piece.2]).toArray =
            (earlier.map Prod.snd).toArray.push piece.2 := by simp
        simp only [if_true, if_neg few]
        rw [hpush]
        exact entries.map
      · simp only [List.length_append, List.length_cons]
        omega

theorem commaList_eq : commaList rounds entry tooMany = (do
    return (← entry >>= fun first =>
      iterate (commaRound entry tooMany) rounds #[first]).toList) :=
  (bind_assoc entry _ _).symm

theorem Yields.commaList {pieces : List (List Token × α)} {text : List Token}
    (listing : Listing (pieces.map Prod.fst) text) (nonempty : pieces ≠ [])
    (small : pieces.length ≤ maxArguments)
    (reads : ∀ piece ∈ pieces, ∀ after, (piece.1 ++ after).length ≤ rounds →
      tightness? (headKind after) = none →
      Yields enough piece.2 ⟨after, errors⟩ (entry ⟨piece.1 ++ after, errors⟩))
    (bound : (text ++ rest).length ≤ rounds) (stops : headKind rest = .rightParen) :
    Yields enough (pieces.map Prod.snd) ⟨rest, errors⟩
      (Grammar.commaList rounds entry tooMany ⟨text ++ rest, errors⟩) := by
  have ends : commaRound entry tooMany (pieces.map Prod.snd).toArray ⟨rest, errors⟩ =
      .ok none ⟨rest, errors⟩ := by
    rw [commaRound, bind_ok (accepts_of_ne (by simp [stops]))]
    rfl
  have arrives := arrives_commaList tooMany listing rfl nonempty small reads bound
    (by rw [stops]; rfl)
  rw [commaList_eq]
  exact (arrives.finish ends).map

end

/-! ## The other rules -/

namespace Rule.Accepts

variable {text rest : List Token} {expr : Expr}

theorem single {token : Token} (starts : token.kind ∈ atomKinds)
    (reads : ∀ rounds depth cursor, Cursor.peek cursor = token →
      Grammar.primary rounds (depth + 1) cursor =
        (advance >>= fun _ => (pure expr : Reader Expr)) cursor) :
    Rule.primary.Accepts [token] expr where
  starts := starts
  takes rounds depth rest errors _ := by
    intro _
    have inside : token.kind ≠ .endOfInput := fun hend => absurd (hend ▸ starts) (by decide)
    exact .ok ((reads rounds depth _ rfl).trans (bind_ok (advance_ok inside)))

theorem literal {token : Token} {value : Constant} (h : constant? token = some value) :
    Rule.primary.Accepts [token] (.literal value) := by
  unfold constant? at h
  cases hkind : token.kind <;> rw [hkind] at h <;> cases h <;>
    refine single (by simp [hkind, atomKinds]) fun rounds depth cursor hpeek => ?_ <;>
    rw [Grammar.primary, bind_ok peek_eq] <;>
    simp only [hpeek, hkind]

theorem name {token : Token} (hkind : token.kind = .identifier) :
    Rule.primary.Accepts [token] (.variable (.unmarked token)) := by
  refine single (by simp [hkind, atomKinds]) fun rounds depth cursor hpeek => ?_
  rw [Grammar.primary, bind_ok peek_eq]
  simp only [hpeek, hkind]

theorem this {keyword : Token} (hkind : keyword.kind = .this) :
    Rule.primary.Accepts [keyword] (.this (.unmarked keyword)) := by
  refine single (by simp [hkind, atomKinds]) fun rounds depth cursor hpeek => ?_
  rw [Grammar.primary, bind_ok peek_eq]
  simp only [hpeek, hkind]

theorem super {keyword dot method : Token} (hkind : keyword.kind = .super)
    (hdot : dot.kind = .dot) (hmethod : method.kind = .identifier) :
    Rule.primary.Accepts [keyword, dot, method] (.super (.unmarked keyword) method) where
  starts := by simp [hkind, Rule.starters, atomKinds]
  takes rounds depth rest errors _ := by
    intro _
    change Yields _ _ _ (Grammar.primary rounds (depth + 1) _)
    rw [Grammar.primary]
    refine .after peek_cons ?_
    simp only [hkind]
    refine .after (advance_ok (by simp [hkind])) (.after (expect_cons hdot (by decide)) ?_)
    exact .after (expect_cons hmethod (by decide)) (.ok rfl)

theorem grouping {opening closing : Token} (hopening : opening.kind = .leftParen)
    (h : Rule.expression.Accepts text expr) (hclosing : closing.kind = .rightParen) :
    Rule.primary.Accepts (opening :: (text ++ [closing])) (.grouping expr) where
  starts := by simp [hopening, Rule.starters, atomKinds]
  takes rounds depth rest errors bound := by
    intro _
    rw [List.cons_append, List.append_assoc, List.singleton_append]
    have shorter : (text ++ closing :: rest).length ≤ rounds := by
      simp at bound ⊢
      omega
    have stops : Rule.expression.Stops (closing :: rest) :=
      Rule.stops_of_none (by simp [hclosing, tightness?])
    change Yields _ _ _ (Grammar.primary rounds (depth + 1) _)
    rw [Grammar.primary]
    refine .after peek_cons ?_
    simp only [hopening]
    refine .after (advance_ok (by simp [hopening])) ?_
    refine (h.yields_expression rounds depth _ errors shorter stops).bind (fun deep => ?_) ?_
    · simp [Rule.Fits] at deep ⊢
      omega
    · exact .after (expect_cons hclosing (by decide)) (.ok rfl)

theorem yields_finishCall (rounds depth : Nat) (rest : List Token)
    (errors : Array SyntaxError) {closing : Token} {pieces : List (List Token × Expr)} {listing : List Token} (callee : Expr)
    (hlisting : Listing (pieces.map Prod.fst) listing)
    (hpieces : ∀ piece ∈ pieces, Rule.expression.Accepts piece.1 piece.2)
    (small : pieces.length ≤ maxArguments) (hclosing : closing.kind = .rightParen)
    (bound : (listing ++ closing :: rest).length ≤ rounds) :
    Yields (11 * listing.length + 1 ≤ depth) (.call callee closing (pieces.map Prod.snd))
      ⟨rest, errors⟩ (finishCall rounds callee depth ⟨listing ++ closing :: rest, errors⟩) := by
  cases depth with
  | zero => exact .tooDeep (by omega)
  | succ depth =>
      rw [finishCall]
      refine .after isNext_eq ?_
      cases pieces with
      | nil =>
          cases hlisting.eq_nil
          have none : (pure [] : Reader (List Expr)) ⟨closing :: rest, errors⟩ =
            .ok [] ⟨closing :: rest, errors⟩ := rfl
          simp only [List.nil_append, headKind_cons, hclosing, decide_true, if_true]
          exact .after none (.after (expect_cons hclosing (by decide)) (.ok rfl))
      | cons piece others =>
          have hnext : headKind (listing ++ closing :: rest) ≠ .rightParen := by
            obtain ⟨more, rfl⟩ := hlisting.first
            have starts := (hpieces piece List.mem_cons_self).starts
            rw [List.append_assoc, headKind_append (ne_nil_of_mem starts)]
            exact fun same => absurd (same ▸ starts) (by decide)
          simp only [hnext, decide_false, Bool.false_eq_true, if_false]
          refine Yields.bind (Yields.commaList hlisting (List.cons_ne_nil _ _) small
            (fun piece member after short stops => ?_) bound hclosing) (fun deep => deep) ?_
          · refine ((hpieces piece member).yields_expression rounds depth after errors short
              (Rule.stops_of_none stops)).mono fun deep => ?_
            have := hlisting.length_le _ (List.mem_map_of_mem member)
            omega
          · exact .after (expect_cons hclosing (by decide)) (.ok rfl)

theorem application {opening closing : Token} {pieces : List (List Token × Expr)}
    {listing : List Token} (h : Rule.call.Accepts text expr)
    (hopening : opening.kind = .leftParen) (hlisting : Listing (pieces.map Prod.fst) listing)
    (hpieces : ∀ piece ∈ pieces, Rule.expression.Accepts piece.1 piece.2)
    (small : pieces.length ≤ maxArguments) (hclosing : closing.kind = .rightParen) :
    Rule.call.Accepts (text ++ opening :: (listing ++ [closing]))
      (.call expr closing (pieces.map Prod.snd)) where
  starts := by
    rw [headKind_append (ne_nil_of_mem h.starts)]
    exact h.starts
  takes rounds depth rest errors bound := by
    have reads := h.takes rounds depth (opening :: (listing ++ closing :: rest)) errors
      (by simpa using bound)
    rw [List.append_assoc, List.cons_append, List.append_assoc, List.singleton_append]
    refine reads.step (fun deep => ?_) (.after (accepts_cons hopening (by decide)) ?_) ?_
    · simp [Rule.Fits] at deep ⊢
      omega
    · have shorter : (listing ++ closing :: rest).length ≤ rounds := by
        simp at bound ⊢
        omega
      have finish := yields_finishCall rounds depth rest errors expr hlisting hpieces small
        hclosing shorter
      refine (finish.mono fun deep => ?_).map
      have := h.length_pos
      simp [Rule.Fits] at deep ⊢
      omega
    · simp only [List.length_append, List.length_cons]
      omega

/-! ## Assignments -/

theorem assign {name equals : Token} (hname : name.kind = .identifier)
    (hequals : equals.kind = .equal) (h : Rule.expression.Accepts text expr) :
    Rule.expression.Accepts (name :: equals :: text) (.assign (.unmarked name) expr) where
  starts := by simp [hname, Rule.starters, atomKinds]
  takes rounds depth rest errors bound := by
    intro stops
    have target := (Rule.Accepts.name hname).atom.operations
    have shorter : (text ++ rest).length ≤ rounds := by
      simp at bound ⊢
      omega
    have reads := target.yields rounds depth (equals :: (text ++ rest)) errors
      (by simpa using bound)
      (Rule.stops_of_some 0 (by simp [hequals, tightness?]) (by decide))
    change Yields _ _ _ (Grammar.assignment rounds (depth + 1) _)
    rw [Grammar.assignment]
    refine reads.bind (fun deep => ?_) ?_
    · simp [Rule.Fits, Level.tightness] at deep ⊢
      omega
    refine .after (acceptAny_cons (by simp [hequals]) (by simp [hequals])) ?_
    refine (h.yields rounds depth rest errors shorter stops).bind (fun deep => ?_) (.ok rfl)
    simp [Rule.Fits] at deep ⊢
    omega

theorem set {dot name equals : Token} {valueText : List Token} {value : Expr}
    (object : Rule.call.Accepts text expr) (hdot : dot.kind = .dot)
    (hname : name.kind = .identifier) (hequals : equals.kind = .equal)
    (h : Rule.expression.Accepts valueText value) :
    Rule.expression.Accepts (text ++ dot :: name :: equals :: valueText)
      (.set expr name value) where
  starts := by
    rw [headKind_append (ne_nil_of_mem object.starts)]
    exact List.mem_append_right _ object.starts
  takes rounds depth rest errors bound := by
    intro stops
    have target := (object.property hdot hname).operations
    have shorter : (valueText ++ rest).length ≤ rounds := by
      simp at bound ⊢
      omega
    have reads := target.yields rounds depth (equals :: (valueText ++ rest)) errors
      (by simpa using bound)
      (Rule.stops_of_some 0 (by simp [hequals, tightness?]) (by decide))
    rw [List.append_assoc] at reads ⊢
    change Yields _ _ _ (Grammar.assignment rounds (depth + 1) _)
    rw [Grammar.assignment]
    refine reads.bind (fun deep => ?_) ?_
    · simp [Rule.Fits, Level.tightness] at deep ⊢
      omega
    refine .after (acceptAny_cons (by simp [hequals]) (by simp [hequals])) ?_
    refine (h.yields rounds depth rest errors shorter stops).bind (fun deep => ?_) (.ok rfl)
    simp [Rule.Fits] at deep ⊢
    omega

end Rule.Accepts

/-- Every phrase of the grammar is accepted as the tree that it stands for. -/
theorem Phrase.accepts {rule : Rule} {text : List Token} {expr : Expr}
    (h : Phrase rule text expr) : rule.Accepts text expr := by
  induction h with
  | assign hname hequals _ ih => exact .assign hname hequals ih
  | set _ hdot hname hequals _ object value => exact object.set hdot hname hequals value
  | operation _ ih => exact ih.operation
  | operator _ hkind _ left right => exact left.operator hkind right
  | operand _ ih => exact .operand _ ih
  | sign hkind _ ih => exact ih.sign hkind
  | unsigned _ ih => exact ih.unsigned
  | application _ hopening hlisting _ small hclosing callee ih =>
      exact callee.application hopening hlisting ih small hclosing
  | property _ hdot hname ih => exact ih.property hdot hname
  | atom _ ih => exact ih.atom
  | literal h => exact .literal h
  | name hkind => exact .name hkind
  | this hkind => exact .this hkind
  | super hkind hdot hmethod => exact .super hkind hdot hmethod
  | grouping hopening _ hclosing ih => exact ih.grouping hopening hclosing

end LoxLang.Grammar
