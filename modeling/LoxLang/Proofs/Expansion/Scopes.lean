import LoxLang.Proofs.Bindings
import LoxLang.Proofs.Expansion.Trees
import LoxLang.Scoping.Scopes

/-!
Scopes of an expansion's text. They are those of the other text with some empty ones between them; a name that is found
in both is found in the same scope.
-/

namespace LoxLang.Scoping.Scopes

variable {gaps : Gaps} {scopes scopes' : Scopes} {name : String} {hops : Nat}

/-- A statement can stand in the scopes: no declaration is going on, and the innermost one is not that of `super`. -/
structure Ready (scopes : Scopes) : Prop where
  settled : ∀ name, scopes.isDeclaring name = false
  isOpen : (scopes.headD .empty).contains "super" = false

inductive Expands : Gaps → Scopes → Scopes → Prop
  | global {scope : Scope} : Expands [0] [scope] [scope]
  | inner {gaps : Gaps} {scope : Scope} {outer outer' : Scopes} :
      Expands gaps outer outer' → Expands (0 :: gaps) (scope :: outer) (scope :: outer')
  | empty {gap : Nat} {outer : Gaps} {scopes scopes' : Scopes} :
      scopes.Ready → Expands (gap :: outer) scopes scopes' →
      Expands ((gap + 1) :: outer) scopes (.empty :: scopes')

namespace Expands

theorem exists_cons (h : Expands gaps scopes scopes') :
    ∃ scope outer scope' outer', scopes = scope :: outer ∧ scopes' = scope' :: outer' := by
  induction h with
  | global => exact ⟨_, _, _, _, rfl, rfl⟩
  | inner _ _ => exact ⟨_, _, _, _, rfl, rfl⟩
  | empty _ _ ih =>
      obtain ⟨scope, outer, -, -, rfl, -⟩ := ih
      exact ⟨_, _, _, _, rfl, rfl⟩

theorem hops?_cons (scope : Scope) {outer : Scopes} (more : outer ≠ []) (name : String) :
    hops? (scope :: outer) name =
      if scope.contains name then some 0 else (hops? outer name).map (· + 1) := by
  cases outer with
  | nil => exact absurd rfl more
  | cons next rest => rfl

theorem hops?_empty (name : String) : hops? (.empty :: scopes) name = (hops? scopes name).map (· + 1) := by
  cases scopes with
  | nil => rfl
  | cons next rest => rfl

theorem ne_nil (h : Expands gaps scopes scopes') : scopes ≠ [] ∧ scopes' ≠ [] := by
  obtain ⟨_, _, _, _, rfl, rfl⟩ := h.exists_cons
  exact ⟨List.cons_ne_nil _ _, List.cons_ne_nil _ _⟩

/-- A name is found as many scopes further out as there are empty ones on the way. -/
theorem hops? (h : Expands gaps scopes scopes') (name : String) :
    scopes'.hops? name = (scopes.hops? name).map gaps.shift := by
  induction h with
  | global => rfl
  | @inner gaps scope outer outer' h ih =>
      obtain ⟨more, more'⟩ := h.ne_nil
      rw [hops?_cons scope more, hops?_cons scope more', ih]
      split
      · rfl
      · rw [Option.map_map, Option.map_map]
        refine congrArg (Option.map · _) (funext fun hops => ?_)
        change gaps.shift hops + 1 = 0 + gaps.shift hops + 1
        rw [Nat.zero_add]
  | @empty gap outer _ _ _ _ ih =>
      rw [hops?_empty, ih, Option.map_map]
      exact congrArg (Option.map · _) (funext fun hops => (Gaps.shift_gap gap outer hops).symm)

/-- No scope is empty within that of `super`. -/
theorem tight (h : Expands gaps scopes scopes') (found : scopes.hops? "super" = some hops) :
    gaps.Tight hops := by
  induction h generalizing hops with
  | global => cases found
  | inner h ih =>
      rw [hops?_cons _ h.ne_nil.1] at found
      split at found
      · cases found
        rfl
      · obtain ⟨further, inside, rfl⟩ := Option.map_eq_some_iff.mp found
        exact ih inside
  | empty ready h ih =>
      cases hops with
      | zero =>
          obtain ⟨scope, outer, _, _, rfl, -⟩ := h.exists_cons
          have nothing : scope.contains "super" = false := ready.isOpen
          cases outer with
          | nil => cases found
          | cons next rest =>
              rw [hops?_cons _ (List.cons_ne_nil _ _), nothing] at found
              obtain ⟨_, _, absurd⟩ := Option.map_eq_some_iff.mp found
              cases absurd
      | succ hops => exact ih found

theorem isDeclaring (h : Expands gaps scopes scopes') (name : String) :
    scopes'.isDeclaring name = scopes.isDeclaring name := by
  cases h with
  | global | inner _ => rfl
  | empty ready _ =>
      rw [ready.settled]
      rfl

theorem redeclares (h : Expands (0 :: gaps) scopes scopes') (name : String) :
    scopes'.redeclares name = scopes.redeclares name := by
  cases h with
  | global => rfl
  | inner h =>
      obtain ⟨_, _, _, _, rfl, rfl⟩ := h.exists_cons
      rfl

theorem mark (h : Expands (0 :: gaps) scopes scopes') (name : String) (complete : Bool) :
    Expands (0 :: gaps) (scopes.mark name complete) (scopes'.mark name complete) := by
  cases h with
  | global => exact .global
  | inner h => exact .inner h

theorem enter (h : Expands gaps scopes scopes') (names : List String) :
    Expands (0 :: gaps) (scopes.enter names) (scopes'.enter names) :=
  .inner h

/-- Where braces are put, the scope in them is empty. -/
theorem enter_empty {gap : Nat} {outer : Gaps} (h : Expands (gap :: outer) scopes scopes')
    (ready : scopes.Ready) : Expands ((gap + 1) :: outer) scopes (scopes'.enter []) :=
  .empty ready h

end Expands

/-! ## Scopes behind declarations -/

/-- The scopes behind the declaration of a name. -/
def declare (scopes : Scopes) (name : Token) : Scopes :=
  (scopes.mark name.lexeme false).mark name.lexeme true

def declareAll (scopes : Scopes) (names : List Token) : Scopes :=
  names.foldl declare scopes

/-- The scopes behind a statement. -/
def after (scopes : Scopes) (stmt : Stmt) : Scopes :=
  match stmt.declared? with
  | some name => scopes.declare name
  | none => scopes

def afterAll (scopes : Scopes) (statements : List Stmt) : Scopes :=
  statements.foldl after scopes

theorem after_of_none {stmt : Stmt} (h : stmt.declared? = none) (scopes : Scopes) :
    scopes.after stmt = scopes := by
  rw [after, h]

theorem leave_mark (scopes : Scopes) (name : String) (complete : Bool) :
    (scopes.mark name complete).leave = scopes.leave := by
  cases scopes <;> rfl

theorem leave_declare (scopes : Scopes) (name : Token) :
    (scopes.declare name).leave = scopes.leave := by
  rw [declare, leave_mark, leave_mark]

theorem leave_declareAll (scopes : Scopes) (names : List Token) :
    (scopes.declareAll names).leave = scopes.leave := by
  induction names generalizing scopes with
  | nil => rfl
  | cons name names ih => exact (ih (scopes.declare name)).trans (scopes.leave_declare name)

theorem leave_afterAll (scopes : Scopes) (statements : List Stmt) :
    (scopes.afterAll statements).leave = scopes.leave := by
  induction statements generalizing scopes with
  | nil => rfl
  | cons stmt rest ih =>
      refine (ih (scopes.after stmt)).trans ?_
      unfold after
      split
      · exact scopes.leave_declare _
      · rfl

theorem Ready.declare (h : scopes.Ready) {name : Token} (names : name.Names) :
    (scopes.declare name).Ready := by
  cases scopes with
  | nil => exact h
  | cons scope outer =>
      obtain ⟨settled, isOpen⟩ := h
      refine ⟨fun other => ?_, ?_⟩
      · have before : decide (scope.get? other = some false) = false := settled other
        change decide (((scope.set name.lexeme false).set name.lexeme true).get? other = some false) =
          false
        rw [Bindings.get?_set, Bindings.get?_set]
        by_cases same : other = name.lexeme
        · rw [if_pos same]
          rfl
        · rw [if_neg same, if_neg same]
          exact before
      · refine Bool.eq_false_iff.mpr fun found => ?_
        change ((scope.set name.lexeme false).set name.lexeme true).contains "super" = true at found
        rw [Bindings.contains_set, Bindings.contains_set] at found
        rcases found with same | same | found
        · exact names.ne_super same.symm
        · exact names.ne_super same.symm
        · exact Bool.eq_false_iff.mp isOpen found

theorem Ready.declareAll (h : scopes.Ready) {params : List Token}
    (names : ∀ param ∈ params, param.Names) : (scopes.declareAll params).Ready := by
  induction params generalizing scopes with
  | nil => exact h
  | cons param params ih =>
      obtain ⟨first, rest⟩ := List.forall_mem_cons.mp names
      exact ih (h.declare first) rest

theorem Ready.after (h : scopes.Ready) {stmt : Stmt}
    (names : ∀ name, stmt.declared? = some name → name.Names) : (scopes.after stmt).Ready := by
  unfold Scopes.after
  split
  · next name declared => exact h.declare (names name declared)
  · exact h

theorem ready_enter (scopes : Scopes) : (scopes.enter []).Ready :=
  ⟨fun _ => rfl, rfl⟩

theorem Expands.declare (h : Expands (0 :: gaps) scopes scopes') (name : Token) :
    Expands (0 :: gaps) (scopes.declare name) (scopes'.declare name) :=
  (h.mark name.lexeme false).mark name.lexeme true

theorem Expands.declareAll (h : Expands (0 :: gaps) scopes scopes') (names : List Token) :
    Expands (0 :: gaps) (scopes.declareAll names) (scopes'.declareAll names) := by
  induction names generalizing scopes scopes' with
  | nil => exact h
  | cons name names ih => exact ih (h.declare name)

end LoxLang.Scoping.Scopes
