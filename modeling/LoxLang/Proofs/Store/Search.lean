import LoxLang.Machine.Step
import LoxLang.Proofs.Store.Globals
import Mathlib.Order.Bounds.Basic

/-!
Names are found alike by search and at a distance. Scopes are made, names are bound in them and bound again, in any
order; at each stage, a search ends in the scope at the least distance at which the name is held. The scopes may
share their outer ones, so what is bound again is seen from each scope whose nearest one that holds the name it is.
-/

namespace LoxLang.Forest

variable {forest changed : Forest} {id outer holder : ScopeId} {name : String} {value : Value}
  {distance : Nat}

/-! ## Operations -/

inductive Operation where
  | create (enclosing : Option ScopeId)
  | define (id : ScopeId) (name : String) (value : Value)
  | assign (id : ScopeId) (name : Token) (value : Value)
  | assignAt (id : ScopeId) (distance : Int) (name : Token) (value : Value)

/-- The scopes that the operation is about are there. -/
def Operation.Fits (forest : Forest) : Operation → Prop
  | .create enclosing => ∀ outer ∈ enclosing, outer < forest.next
  | .define id .. | .assign id .. | .assignAt id .. => id < forest.next

def perform (forest : Forest) : Operation → Except Interruption Forest
  | .create enclosing => .ok (forest.add enclosing .empty)
  | .define id name value => .ok (forest.define id name value)
  | .assign id name value => forest.assign id name value
  | .assignAt id distance name value => forest.assignAt id distance name value

/-- The scopes once the operation has ended, in an error or not. -/
def after (forest : Forest) (operation : Operation) : Forest :=
  match forest.perform operation with
  | .ok changed => changed
  | .error _ => forest

/-- Made from no scopes by operations alone. -/
inductive Built : Forest → Prop where
  | none : Built ⟨#[]⟩
  | after {forest : Forest} {operation : Operation} (built : Built forest) (fits : operation.Fits forest) :
      Built (forest.after operation)

/-- A scope is enclosed by an earlier one, and holds no name twice. -/
structure Ordered (forest : Forest) : Prop where
  earlier : ∀ id outer, forest.enclosing? id = some outer → outer < id
  nodup : ∀ id, (forest.bindings id).names.Nodup

theorem ordered_none : Ordered ⟨#[]⟩ where
  earlier := fun id outer link => by simp [enclosing?] at link
  nodup := fun id => by simp [bindings, Bindings.names, Bindings.empty]

theorem Ordered.add (h : forest.Ordered) {enclosing : Option ScopeId}
    (fits : ∀ outer ∈ enclosing, outer < forest.next) : (forest.add enclosing .empty).Ordered where
  earlier := by
    intro id outer link
    rw [enclosing?_add] at link
    split at link
    · next new => exact new ▸ fits outer link
    · exact h.earlier id outer link
  nodup := by
    intro id
    rw [bindings_add]
    split
    · exact List.nodup_nil
    · exact h.nodup id

theorem Ordered.define (h : forest.Ordered) (id : ScopeId) (name : String) (value : Value) :
    (forest.define id name value).Ordered where
  earlier := fun inner outer link => h.earlier inner outer (by rwa [enclosing?_define] at link)
  nodup := by
    intro other
    rw [bindings_define]
    split
    · exact Bindings.nodup_names_set (h.nodup id) name value
    · exact h.nodup other

theorem exists_of_defined {found : Except Interruption ScopeId}
    (defined : (do return forest.define (← found) name value : Except Interruption Forest) = .ok changed) :
    ∃ holder, found = .ok holder ∧ changed = forest.define holder name value := by
  cases found with
  | error interruption => cases defined
  | ok holder =>
      cases defined
      exact ⟨holder, rfl, rfl⟩

theorem exists_define_of_assign {token : Token} (assigned : forest.assign id token value = .ok changed) :
    ∃ holder, forest.find id token = .ok holder ∧ changed = forest.define holder token.lexeme value :=
  exists_of_defined assigned

theorem exists_define_of_assignAt {hops : Int} {token : Token}
    (assigned : forest.assignAt id hops token value = .ok changed) :
    ∃ holder, forest.findAt id hops token = .ok holder ∧ changed = forest.define holder token.lexeme value :=
  exists_of_defined assigned

theorem Ordered.after (h : forest.Ordered) {operation : Operation} (fits : operation.Fits forest) :
    (forest.after operation).Ordered := by
  unfold Forest.after
  split
  · next changed done =>
    cases operation with
    | create enclosing =>
        cases done
        exact h.add fits
    | define id name value =>
        cases done
        exact h.define id name value
    | assign id name value =>
        obtain ⟨holder, -, rfl⟩ := exists_define_of_assign done
        exact h.define holder name.lexeme value
    | assignAt id distance name value =>
        obtain ⟨holder, -, rfl⟩ := exists_define_of_assignAt done
        exact h.define holder name.lexeme value
  · exact h

theorem Built.ordered (h : forest.Built) : forest.Ordered := by
  induction h with
  | none => exact ordered_none
  | after _ fits ih => exact ih.after fits

/-! ## Searching -/

/-- The scope at the distance holds the name. -/
def HoldsAt (forest : Forest) (id : ScopeId) (name : String) (distance : Nat) : Prop :=
  ∃ holder, forest.ancestor? id distance = some holder ∧ forest.Holds holder name

/-- The least number of links outwards to a scope that holds the name. -/
def Nearest (forest : Forest) (id : ScopeId) (name : String) (distance : Nat) : Prop :=
  IsLeast {distance | forest.HoldsAt id name distance} distance

def NearestHolder (forest : Forest) (id : ScopeId) (name : String) (holder : ScopeId) : Prop :=
  ∃ distance, forest.Nearest id name distance ∧ forest.ancestor? id distance = some holder

theorem holdsAt_zero_iff : forest.HoldsAt id name 0 ↔ forest.Holds id name := by
  constructor
  · rintro ⟨holder, here, held⟩
    cases here
    exact held
  · exact fun held => ⟨id, rfl, held⟩

theorem holdsAt_succ_iff (link : forest.enclosing? id = some outer) :
    forest.HoldsAt id name (distance + 1) ↔ forest.HoldsAt outer name distance := by
  rw [HoldsAt, HoldsAt, ancestor?, link]

theorem not_holdsAt_succ (link : forest.enclosing? id = none) : ¬ forest.HoldsAt id name (distance + 1) := by
  rintro ⟨holder, walk, -⟩
  rw [ancestor?, link] at walk
  cases walk

theorem nearestHolder_self (held : forest.Holds id name) : forest.NearestHolder id name id :=
  ⟨0, ⟨holdsAt_zero_iff.mpr held, fun _ _ => Nat.zero_le _⟩, rfl⟩

theorem NearestHolder.outwards (lacking : ¬ forest.Holds id name) (link : forest.enclosing? id = some outer)
    (h : forest.NearestHolder outer name holder) : forest.NearestHolder id name holder := by
  obtain ⟨distance, ⟨held, least⟩, walk⟩ := h
  refine ⟨distance + 1, ⟨(holdsAt_succ_iff link).mpr held, ?_⟩, by rwa [ancestor?, link]⟩
  intro other held
  cases other with
  | zero => exact absurd (holdsAt_zero_iff.mp held) lacking
  | succ other => exact Nat.succ_le_succ (least ((holdsAt_succ_iff link).mp held))

/-- A search ends in the nearest scope that holds the name. -/
theorem nearestHolder_of_holder? (found : forest.holder? name id = some holder) :
    forest.NearestHolder id name holder := by
  induction id using Nat.strongRecOn with
  | ind id ih =>
      rw [holder?] at found
      split at found
      · next held =>
        cases found
        exact nearestHolder_self held
      · next lacking =>
        split at found
        · cases found
        · next outer link =>
          split at found
          · next smaller => exact (ih outer smaller found).outwards lacking link
          · cases found

/-- A search finds nothing only where no scope holds the name. -/
theorem not_holdsAt_of_holder? (ordered : forest.Ordered) (missing : forest.holder? name id = none) :
    ¬ forest.HoldsAt id name distance := by
  induction id using Nat.strongRecOn generalizing distance with
  | ind id ih =>
      rw [holder?] at missing
      split at missing
      · cases missing
      · next lacking =>
        cases distance with
        | zero => exact fun held => lacking (holdsAt_zero_iff.mp held)
        | succ distance =>
            cases link : forest.enclosing? id with
            | none => exact not_holdsAt_succ link
            | some outer =>
                -- Links lead to earlier scopes, so the search is not given up here.
                have smaller := ordered.earlier id outer link
                rw [link] at missing
                simp only [if_pos smaller] at missing
                rw [holdsAt_succ_iff link]
                exact ih outer smaller missing

theorem NearestHolder.unique {other : ScopeId} (first : forest.NearestHolder id name holder)
    (second : forest.NearestHolder id name other) : holder = other := by
  obtain ⟨distance, nearest, walk⟩ := first
  obtain ⟨distance', nearest', walk'⟩ := second
  rw [nearest'.unique nearest] at walk'
  exact Option.some.inj (walk.symm.trans walk')

theorem holder?_eq_some_iff (ordered : forest.Ordered) :
    forest.holder? name id = some holder ↔ forest.NearestHolder id name holder := by
  refine ⟨nearestHolder_of_holder?, fun nearest => ?_⟩
  cases found : forest.holder? name id with
  | none =>
      obtain ⟨distance, least, -⟩ := nearest
      exact absurd least.1 (not_holdsAt_of_holder? ordered found)
  | some other => rw [(nearestHolder_of_holder? found).unique nearest]

theorem holder?_eq_none_iff (ordered : forest.Ordered) :
    forest.holder? name id = none ↔ ¬ ∃ distance, forest.Nearest id name distance := by
  constructor
  · rintro missing ⟨distance, nearest⟩
    exact not_holdsAt_of_holder? ordered missing nearest.1
  · intro lacking
    cases found : forest.holder? name id with
    | none => rfl
    | some holder =>
        obtain ⟨distance, nearest, -⟩ := nearestHolder_of_holder? found
        exact absurd ⟨distance, nearest⟩ lacking

/-! ## Reading and writing -/

section Results

variable {token : Token} {hops : Int}

theorem find_of_holder? (found : forest.holder? token.lexeme id = some holder) :
    forest.find id token = .ok holder := by
  rw [find, found]

theorem nearestHolder_of_find (found : forest.find id token = .ok holder) :
    forest.NearestHolder id token.lexeme holder := by
  unfold find at found
  split at found
  · next search =>
    cases found
    exact nearestHolder_of_holder? search
  · cases found

theorem find_of_missing (missing : forest.holder? token.lexeme id = none) :
    forest.find id token = .error (undefinedVariable token) := by
  rw [find, missing]

theorem get_of_holder? (found : forest.holder? token.lexeme id = some holder)
    (bound : (forest.bindings holder).get? token.lexeme = some value) : forest.get id token = .ok value := by
  rw [get, find_of_holder? found]
  simp only [bind, Except.bind, bound]
  rfl

theorem get_of_missing (missing : forest.holder? token.lexeme id = none) :
    forest.get id token = .error (undefinedVariable token) := by
  rw [get, find_of_missing missing]
  rfl

theorem assign_of_holder? (found : forest.holder? token.lexeme id = some holder) (value : Value) :
    forest.assign id token value = .ok (forest.define holder token.lexeme value) := by
  rw [assign, find_of_holder? found]
  rfl

theorem assign_of_missing (missing : forest.holder? token.lexeme id = none) (value : Value) :
    forest.assign id token value = .error (undefinedVariable token) := by
  rw [assign, find_of_missing missing]
  rfl

theorem findAt_of_holds (walk : forest.ancestor? id hops.toNat = some holder)
    (held : forest.Holds holder token.lexeme) : forest.findAt id hops token = .ok holder := by
  rw [findAt, ancestor_of_ancestor? walk]
  exact if_pos held

theorem ancestor?_of_findAt (found : forest.findAt id hops token = .ok holder) :
    forest.ancestor? id hops.toNat = some holder := by
  unfold findAt ancestor at found
  split at found
  · next outer walk =>
    change (if (forest.bindings outer).contains token.lexeme = true then Except.ok outer
      else .error (undefinedVariable token)) = .ok holder at found
    split at found
    · cases found
      exact walk
    · cases found
  · cases found

theorem assignAt_of_holds (walk : forest.ancestor? id hops.toNat = some holder)
    (held : forest.Holds holder token.lexeme) (value : Value) :
    forest.assignAt id hops token value = .ok (forest.define holder token.lexeme value) := by
  rw [assignAt, findAt_of_holds walk held]
  rfl

/-- By search and at the least distance, the same value is read and the same scopes come out. -/
structure Searches (forest : Forest) (id : ScopeId) (name : Token) : Prop where
  reads : ∀ distance, forest.Nearest id name.lexeme distance →
    ∃ value, forest.get id name = .ok value ∧ forest.getAt id distance name.lexeme = .ok value
  writes : ∀ distance, forest.Nearest id name.lexeme distance →
    ∀ value, ∃ after, forest.assign id name value = .ok after ∧ forest.assignAt id distance name value = .ok after
  unread : forest.get id name = .error (undefinedVariable name) ↔
    ¬ ∃ distance, forest.Nearest id name.lexeme distance
  unwritten : ∀ value, forest.assign id name value = .error (undefinedVariable name) ↔
    ¬ ∃ distance, forest.Nearest id name.lexeme distance

theorem Ordered.searches (ordered : forest.Ordered) (id : ScopeId) (name : Token) : forest.Searches id name := by
  cases found : forest.holder? name.lexeme id with
  | none =>
      have lacking := (holder?_eq_none_iff ordered).mp found
      exact ⟨fun distance nearest => absurd ⟨distance, nearest⟩ lacking,
        fun distance nearest => absurd ⟨distance, nearest⟩ lacking,
        iff_of_true (get_of_missing found) lacking,
        fun value => iff_of_true (assign_of_missing found value) lacking⟩
  | some holder =>
      obtain ⟨distance, nearest, walk⟩ := nearestHolder_of_holder? found
      have held := holds_holder? found
      obtain ⟨value, bound⟩ := Bindings.contains_iff.mp held
      have known : ∃ distance, forest.Nearest id name.lexeme distance := ⟨distance, nearest⟩
      have read := get_of_holder? found bound
      refine ⟨?_, ?_, ?_, ?_⟩
      · intro other nearest'
        rw [nearest'.unique nearest]
        exact ⟨value, read, getAt_of_get? (ancestor_of_ancestor? walk) bound⟩
      · intro other nearest' written
        rw [nearest'.unique nearest]
        exact ⟨_, assign_of_holder? found written, assignAt_of_holds walk held written⟩
      · exact iff_of_false (by rw [read]; nofun) (not_not_intro known)
      · exact fun written => iff_of_false (by rw [assign_of_holder? found]; nofun) (not_not_intro known)

/-- What comes of access at a distance: the scope there is read or written. It is an error if that scope lacks the
name, and another one if there is no scope so far out. -/
structure Walks (forest : Forest) (id : ScopeId) (hops : Int) (name : Token) : Prop where
  held : ∀ outer, forest.ancestor? id hops.toNat = some outer → forest.Holds outer name.lexeme →
    (∃ value, (forest.bindings outer).get? name.lexeme = some value ∧
      forest.getAt id hops name.lexeme = .ok value) ∧
    ∀ value, forest.assignAt id hops name value = .ok (forest.define outer name.lexeme value)
  lacking : ∀ outer, forest.ancestor? id hops.toNat = some outer → ¬ forest.Holds outer name.lexeme →
    forest.getAt id hops name.lexeme = .error (.fault (.notDefinedThere name.lexeme hops)) ∧
    ∀ value, forest.assignAt id hops name value = .error (undefinedVariable name)
  short : forest.ancestor? id hops.toNat = none →
    forest.getAt id hops name.lexeme = .error (.fault (.chainTooShort hops)) ∧
    ∀ value, forest.assignAt id hops name value = .error (.fault (.chainTooShort hops))

theorem walks (forest : Forest) (id : ScopeId) (hops : Int) (name : Token) : forest.Walks id hops name where
  held := by
    intro outer walk held
    obtain ⟨value, bound⟩ := Bindings.contains_iff.mp held
    exact ⟨⟨value, bound, getAt_of_get? (ancestor_of_ancestor? walk) bound⟩, assignAt_of_holds walk held⟩
  lacking := by
    intro outer walk lacking
    have unbound : (forest.bindings outer).get? name.lexeme = none :=
      Option.not_isSome_iff_eq_none.mp lacking
    have unfound : forest.findAt id hops name = .error (undefinedVariable name) := by
      rw [findAt, ancestor_of_ancestor? walk]
      exact if_neg lacking
    refine ⟨?_, fun value => ?_⟩
    · rw [getAt, ancestor_of_ancestor? walk]
      simp only [bind, Except.bind, unbound]
      rfl
    · rw [assignAt, unfound]
      rfl
  short := by
    intro walk
    have short : forest.ancestor id hops = .error (.fault (.chainTooShort hops)) := by rw [ancestor, walk]
    refine ⟨?_, fun value => ?_⟩
    · rw [getAt, short]
      rfl
    · rw [assignAt, findAt, short]
      rfl

end Results

/-! ## Changes -/

/-- A name is bound in one scope, and no other scope changes. -/
structure Defines (id : ScopeId) (name : String) (value : Value) (before after : Forest) : Prop where
  next : after.next = before.next
  enclosing : ∀ other, after.enclosing? other = before.enclosing? other
  others : ∀ other, other ≠ id → after.bindings other = before.bindings other
  again : before.Holds id name → Bindings.Replaces name value (before.bindings id) (after.bindings id)
  anew : ¬ before.Holds id name →
    (after.bindings id).entries = (before.bindings id).entries ++ [(name, value)]

/-- One binding of one scope has another value, which is what is read from each scope whose nearest one that holds
the name it is. Whatever else is read is what it was. -/
structure Rebinds (holder : ScopeId) (name : String) (value : Value) (before after : Forest) : Prop where
  next : after.next = before.next
  enclosing : ∀ id, after.enclosing? id = before.enclosing? id
  others : ∀ id, id ≠ holder → after.bindings id = before.bindings id
  replaces : Bindings.Replaces name value (before.bindings holder) (after.bindings holder)
  names : ∀ id, (after.bindings id).names = (before.bindings id).names
  nearest : ∀ id other scope, after.NearestHolder id other scope ↔ before.NearestHolder id other scope
  seen : ∀ id token, token.lexeme = name → before.NearestHolder id name holder → after.get id token = .ok value
  unseen : ∀ id token, ¬ (token.lexeme = name ∧ before.NearestHolder id name holder) →
    after.get id token = before.get id token

theorem bindings_define_self (inside : id < forest.next) (name : String) (value : Value) :
    (forest.define id name value).bindings id = (forest.bindings id).set name value := by
  rw [bindings_define, if_pos ⟨rfl, inside⟩]

theorem bindings_define_of_ne {other : ScopeId} (different : other ≠ id) (name : String) (value : Value) :
    (forest.define id name value).bindings other = forest.bindings other := by
  rw [bindings_define, if_neg fun same => different same.1]

theorem Ordered.defines (ordered : forest.Ordered) (inside : id < forest.next) (name : String) (value : Value) :
    Defines id name value forest (forest.define id name value) where
  next := next_define _ _ _ _
  enclosing := fun _ => enclosing?_define _ _ _ _ _
  others := fun _ different => bindings_define_of_ne different name value
  again := fun held => bindings_define_self inside name value ▸
    Bindings.replaces_set (ordered.nodup id) held value
  anew := fun lacking => bindings_define_self inside name value ▸
    Bindings.setEntry_of_notMem (mt Bindings.contains_iff_mem_names.mpr lacking) value

theorem names_define_of_holds (held : forest.Holds holder name) (value : Value) (id : ScopeId) :
    ((forest.define holder name value).bindings id).names = (forest.bindings id).names := by
  by_cases same : id = holder
  · rw [same, bindings_define_self held.lt_next, Bindings.names_set,
      if_pos (Bindings.contains_iff_mem_names.mp held)]
  · rw [bindings_define_of_ne same]

theorem holds_define_iff_of_holds (held : forest.Holds holder name) {other : String} :
    (forest.define holder name value).Holds id other ↔ forest.Holds id other := by
  rw [Holds, Bindings.contains_iff_mem_names, names_define_of_holds held, ← Bindings.contains_iff_mem_names,
    Holds]

@[simp] theorem ancestor?_define (forest : Forest) (holder id : ScopeId) (name : String) (value : Value)
    (distance : Nat) :
    (forest.define holder name value).ancestor? id distance = forest.ancestor? id distance := by
  induction distance generalizing id with
  | zero => rfl
  | succ distance ih =>
      rw [ancestor?, ancestor?, enclosing?_define]
      cases forest.enclosing? id with
      | none => rfl
      | some outer => exact ih outer

theorem nearestHolder_define_iff (held : forest.Holds holder name) (value : Value) (id : ScopeId) (other : String)
    (scope : ScopeId) :
    (forest.define holder name value).NearestHolder id other scope ↔ forest.NearestHolder id other scope := by
  simp only [NearestHolder, Nearest, HoldsAt, ancestor?_define, holds_define_iff_of_holds held]

theorem Ordered.rebinds (ordered : forest.Ordered) (held : forest.Holds holder name) (value : Value) :
    Rebinds holder name value forest (forest.define holder name value) where
  next := next_define _ _ _ _
  enclosing := fun _ => enclosing?_define _ _ _ _ _
  others := fun id different => bindings_define_of_ne different name value
  replaces := (ordered.defines held.lt_next name value).again held
  names := names_define_of_holds held value
  nearest := nearestHolder_define_iff held value
  seen := by
    rintro id token rfl nearest
    have found := (holder?_eq_some_iff (ordered.define holder token.lexeme value)).mpr
      ((nearestHolder_define_iff held value id token.lexeme holder).mpr nearest)
    apply get_of_holder? found
    rw [bindings_define_self held.lt_next, Bindings.get?_set, if_pos rfl]
  unseen := by
    intro id token elsewhere
    have later := ordered.define holder name value
    have same : (forest.define holder name value).holder? token.lexeme id = forest.holder? token.lexeme id := by
      apply Option.ext
      intro scope
      rw [holder?_eq_some_iff later, holder?_eq_some_iff ordered,
        nearestHolder_define_iff held]
    cases found : forest.holder? token.lexeme id with
    | none => rw [get_of_missing found, get_of_missing (same.trans found)]
    | some scope =>
        obtain ⟨old, bound⟩ := Bindings.contains_iff.mp (holds_holder? found)
        rw [get_of_holder? found bound]
        apply get_of_holder? (same.trans found)
        by_cases here : scope = holder
        · subst here
          have different : token.lexeme ≠ name := by
            rintro rfl
            exact elsewhere ⟨rfl, nearestHolder_of_holder? found⟩
          rwa [bindings_define_self held.lt_next, Bindings.get?_set, if_neg different]
        · rwa [bindings_define_of_ne here]

/-! ## Running programs -/

/-- What an assignment does to the scopes: a marked name is assigned at its distance, another one by search from the
global scope. -/
def assignUse (forest : Forest) (id : ScopeId) (use : NameUse) (value : Value) : Except Interruption Forest :=
  match use.hops with
  | some hops => forest.assignAt id hops use.name value
  | none => forest.assign globals use.name value

/-- A running program assigns just so; an assignment that fails leaves all of the store as it was. -/
theorem resumeValue_assign (host : Host) (use : NameUse) (value : Value) (frames : List Frame) (scope : ScopeId)
    (height : Nat) (store : Store) :
    Machine.resumeValue host (.assign use) value frames scope height store =
      match store.forest.assignUse scope use value with
      | .ok changed => ⟨.value value, frames, scope, height, { store with forest := changed }⟩
      | .error interruption => ⟨.failed interruption, frames, scope, height, store⟩ := by
  simp only [Machine.resumeValue, Machine.target, assignUse]
  cases use.hops with
  | none =>
      simp only [assign]
      cases store.forest.find globals use.name <;> rfl
  | some hops =>
      simp only [assignAt]
      cases store.forest.findAt scope hops use.name <;> rfl

/-! ## Both together -/

/-- However the scopes were made, search and access at a distance agree. What is assigned changes one binding of one
scope, what is defined changes one scope, and what fails changes nothing. -/
theorem search_agrees (built : forest.Built) :
    (∀ id name, forest.Searches id name) ∧
    (∀ id hops name, forest.Walks id hops name) ∧
    (∀ id name value changed, forest.assign id name value = .ok changed →
      ∃ holder, forest.NearestHolder id name.lexeme holder ∧
        Rebinds holder name.lexeme value forest changed) ∧
    (∀ id hops name value changed, forest.assignAt id hops name value = .ok changed →
      ∃ holder, forest.ancestor? id hops.toNat = some holder ∧
        Rebinds holder name.lexeme value forest changed) ∧
    (∀ id < forest.next, ∀ name value, Defines id name value forest (forest.define id name value)) ∧
    ∀ operation interruption, forest.perform operation = .error interruption →
      forest.after operation = forest := by
  have ordered := built.ordered
  refine ⟨ordered.searches, forest.walks, ?_, ?_, fun id inside => ordered.defines inside, ?_⟩
  · intro id name value changed assigned
    obtain ⟨holder, found, rfl⟩ := exists_define_of_assign assigned
    exact ⟨holder, nearestHolder_of_find found, ordered.rebinds (holds_find found) value⟩
  · intro id hops name value changed assigned
    obtain ⟨holder, found, rfl⟩ := exists_define_of_assignAt assigned
    exact ⟨holder, ancestor?_of_findAt found, ordered.rebinds (holds_findAt found) value⟩
  · intro operation interruption failed
    rw [Forest.after, failed]

/-- Two scopes inside the same one, in which a name is bound that the first of the two binds as well. -/
def sharing : Forest :=
  Forest.mk #[] |>.after (.create none) |>.after (.create (some 0)) |>.after (.create (some 0))
    |>.after (.define 0 "x" (.bool true)) |>.after (.define 1 "x" .nil)

theorem search_agrees_sharing :
    let name : Token := ⟨.identifier, "x", .none, 1⟩
    sharing.Built ∧ ∃ changed, sharing.assign 2 name (.bool false) = .ok changed ∧
      changed.get 0 name = .ok (.bool false) ∧ changed.get 2 name = .ok (.bool false) ∧
      changed.get 1 name = sharing.get 1 name := by
  intro name
  have built : sharing.Built := by
    refine .after (.after (.after (.after (.after .none ?_) ?_) ?_) ?_) ?_ <;>
      simp [Operation.Fits, Forest.after, perform, next, add, define]
  obtain ⟨searches, -, assigns, -⟩ := search_agrees built
  have here : sharing.NearestHolder 0 "x" 0 := nearestHolder_self rfl
  obtain ⟨distance, nearest, walk⟩ : sharing.NearestHolder 2 "x" 0 := here.outwards Bool.false_ne_true rfl
  have within : sharing.NearestHolder 2 "x" 0 := ⟨distance, nearest, walk⟩
  have shadowed : sharing.NearestHolder 1 "x" 1 := nearestHolder_self rfl
  obtain ⟨changed, assigned, -⟩ := (searches 2 name).writes distance nearest (.bool false)
  obtain ⟨holder, found, rebinds⟩ := assigns 2 name (.bool false) changed assigned
  obtain rfl : holder = 0 := found.unique within
  refine ⟨built, changed, assigned, rebinds.seen 0 name rfl here, rebinds.seen 2 name rfl within, ?_⟩
  exact rebinds.unseen 1 name fun seen => absurd (seen.2.unique shadowed) Nat.zero_ne_one

end LoxLang.Forest
