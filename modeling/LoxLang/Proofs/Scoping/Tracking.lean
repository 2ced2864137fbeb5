import LoxLang.Proofs.Scoping.Regions
import LoxLang.Scoping.Marking

/-!
Scopes and regions. While a program is marked, its scopes are the regions around the current place, and
hold the names that the regions declare there.
-/

namespace LoxLang.Scoping

variable {regions outer : Regions} {region : Region} {scopes : Scopes} {name : String}

/-! ## The states of names -/

/-- Whether the declaration of a name is complete, if there is one. -/
def Names.state? (names : Names) (name : String) : Option Bool :=
  if names.begun = some name then some false
  else if name ∈ names.held then some true
  else none

def Region.state? (region : Region) (name : String) : Option Bool :=
  match region with
  | .block names => names.state? name
  | .receiver => if name = "this" then some true else none
  | .superclass => if name = "super" then some true else none

theorem Region.isSome_state? : (region.state? name).isSome = true ↔ region.Declares name := by
  cases region with
  | block names =>
      by_cases begun : names.begun = some name <;> by_cases held : name ∈ names.held <;>
        simp [state?, Names.state?, Declares, begun, held]
  | receiver => by_cases h : name = "this" <;> simp [state?, Declares, h]
  | superclass => by_cases h : name = "super" <;> simp [state?, Declares, h]

theorem Region.state?_receiver (name : String) :
    Region.receiver.state? name = if name ∈ ["this"] then some true else none := by
  simp [state?]

theorem Region.state?_superclass (name : String) :
    Region.superclass.state? name = if name ∈ ["super"] then some true else none := by
  simp [state?]

theorem Names.state?_begin {names : Names} (settled : names.begun = none) (name other : String) :
    (names.begin name).state? other =
      if other = name then some false else names.state? other := by
  by_cases h : other = name
  · simp only [state?, Names.begin, h, if_true]
  · have fresh : (names.begin name).begun ≠ some other := fun same => h (Option.some.inj same).symm
    have none : names.begun ≠ some other := by
      rw [settled]
      exact nofun
    rw [if_neg h, state?, if_neg fresh, state?, if_neg none]
    rfl

theorem Names.state?_hold_begin (names : Names) (name other : String) :
    (names.hold name).state? other =
      if other = name then some true else (names.begin name).state? other := by
  by_cases h : other = name
  · simp [state?, hold, h]
  · have fresh : (names.begin name).begun ≠ some other := fun same => h (Option.some.inj same).symm
    rw [if_neg h, state?, state?, if_neg fresh]
    by_cases held : other ∈ names.held <;> simp [hold, Names.begin, h, held]

/-! ## Regions as scopes -/

inductive Tracks : Regions → Scopes → Prop
  | global {names : Names} {scope : Scope} :
      (∀ name, scope.get? name = names.state? name) → Tracks (.global names) [scope]
  | inside {region : Region} {outer : Regions} {scope : Scope} {scopes : Scopes} :
      (∀ name, scope.get? name = region.state? name) → Tracks outer scopes →
      Tracks (.inside region outer) (scope :: scopes)

namespace Tracks

theorem nonempty (tracks : Tracks regions scopes) : scopes ≠ [] := by
  cases tracks <;> exact List.cons_ne_nil _ _

theorem hops?_cons {scope : Scope} (h : scopes ≠ []) :
    Scopes.hops? (scope :: scopes) name =
      if scope.contains name then some 0 else (Scopes.hops? scopes name).map (· + 1) := by
  cases scopes with
  | nil => exact absurd rfl h
  | cons => rfl

/-- The scopes are gone through as the regions are. -/
theorem hops?_iff (tracks : Tracks regions scopes) (hops : Nat) :
    scopes.hops? name = some hops ↔ regions.Finds name hops := by
  induction tracks generalizing hops with
  | global _ =>
      constructor
      · intro found
        cases found
      · intro finds
        cases finds
  | @inside region outer scope scopes states tracks ih =>
      have contains : scope.contains name = true ↔ region.Declares name := by
        rw [Bindings.contains, states, Region.isSome_state?]
      rw [hops?_cons tracks.nonempty]
      by_cases declares : region.Declares name
      · rw [if_pos (contains.mpr declares)]
        constructor
        · intro found
          cases found
          exact .here declares
        · intro finds
          cases finds with
          | here => rfl
          | further absent _ => exact absurd declares absent
      · rw [if_neg fun found => declares (contains.mp found)]
        constructor
        · intro found
          obtain ⟨within, inner, rfl⟩ := Option.map_eq_some_iff.mp found
          exact .further declares ((ih within).mp inner)
        · intro finds
          cases finds with
          | here found => exact absurd found declares
          | further _ finds => rw [(ih _).mpr finds, Option.map_some]

theorem admits (tracks : Tracks regions scopes) (new : scopes.redeclares name = false) :
    regions.Admits name := by
  cases tracks with
  | global _ => trivial
  | @inside region outer scope scopes states tracks =>
      cases region with
      | block names =>
          cases scopes with
          | nil => exact absurd rfl tracks.nonempty
          | cons =>
              intro held
              have declares : (Region.block names).Declares name := .inl held
              rw [← Region.isSome_state?, ← states] at declares
              exact Bool.false_ne_true (new.symm.trans declares)
      | receiver | superclass => trivial

end Tracks

/-! ## Regular regions -/

/-- The name of the declaration in whose initializer the place is. -/
def Regions.begun? : Regions → Option String
  | .global names => names.begun
  | .inside (.block names) _ => names.begun
  | .inside _ _ => none

theorem Tracks.isDeclaring_iff {scopes : Scopes} (tracks : Tracks regions scopes) (name : String) :
    scopes.isDeclaring name = true ↔ regions.begun? = some name := by
  cases tracks with
  | @global names scope states =>
      rw [Scopes.isDeclaring, decide_eq_true_iff, states, Names.state?]
      by_cases begun : names.begun = some name
      · simp [begun, Regions.begun?]
      · by_cases held : name ∈ names.held <;> simp [begun, held, Regions.begun?]
  | @inside region outer scope scopes states _ =>
      rw [Scopes.isDeclaring, decide_eq_true_iff, states]
      cases region with
      | block names =>
          by_cases begun : names.begun = some name
          · simp [begun, Regions.begun?, Region.state?, Names.state?]
          · by_cases held : name ∈ names.held <;>
              simp [begun, held, Regions.begun?, Region.state?, Names.state?]
      | receiver => by_cases h : name = "this" <;> simp [Regions.begun?, Region.state?, h]
      | superclass => by_cases h : name = "super" <;> simp [Regions.begun?, Region.state?, h]

/-- A statement can stand in the regions: the innermost one takes declarations, and no initializer is around. -/
def Regions.Settled : Regions → Prop
  | .global names => names.begun = none
  | .inside (.block names) _ => names.begun = none
  | .inside _ _ => False

/-- Only the regions of methods and subclasses declare `this` and `super`. -/
def Region.Regular : Region → Prop
  | .block names =>
      ∀ name, (name ∈ names.held ∨ names.begun = some name) → name ≠ "this" ∧ name ≠ "super"
  | _ => True

def Regions.Regular : Regions → Prop
  | .global _ => True
  | .inside region outer => region.Regular ∧ outer.begun? = none ∧ outer.Regular

/-- The innermost class around a place. -/
def Regions.inClass : Regions → ClassContext
  | .global _ => .none
  | .inside (.block _) outer => outer.inClass
  | .inside .receiver (.inside .superclass _) => .derived
  | .inside _ _ => .base

namespace Regions

theorem Settled.begun? (h : regions.Settled) : regions.begun? = none := by
  match regions, h with
  | .global _, h => exact h
  | .inside (.block _) _, h => exact h

theorem Settled.hold (h : regions.Settled) (name : String) : (regions.hold name).Settled := by
  match regions, h with
  | .global _, _ => rfl
  | .inside (.block _) _, _ => rfl

theorem Settled.after (h : regions.Settled) (stmt : Stmt) : (regions.after stmt).Settled := by
  unfold Regions.after
  split
  · exact h.hold _
  · exact h

@[simp] theorem inClass_hold (regions : Regions) (name : String) :
    (regions.hold name).inClass = regions.inClass := by
  match regions with
  | .global _ => rfl
  | .inside (.block _) _ => rfl
  | .inside .receiver _ => rfl
  | .inside .superclass _ => rfl

@[simp] theorem inClass_begin (regions : Regions) (name : String) :
    (regions.begin name).inClass = regions.inClass := by
  match regions with
  | .global _ => rfl
  | .inside (.block _) _ => rfl
  | .inside .receiver _ => rfl
  | .inside .superclass _ => rfl

theorem begun?_hold (h : regions.Settled) (name : String) :
    (regions.hold name).begun? = none :=
  (h.hold name).begun?

theorem Finds.congr {other : Region} {hops : Nat}
    (same : ∀ name, region.Declares name ↔ other.Declares name)
    (h : (Regions.inside region outer).Finds name hops) :
    (Regions.inside other outer).Finds name hops := by
  cases h with
  | here declares => exact .here ((same name).mp declares)
  | further absent finds => exact .further (fun declares => absent ((same name).mpr declares)) finds

/-- Within a declaration its name is found as it is behind it. -/
theorem finds_begin (settled : regions.Settled) (declared : String) (hops : Nat) :
    (regions.begin declared).Finds name hops ↔ (regions.hold declared).Finds name hops := by
  match regions, settled with
  | .global _, _ =>
      constructor
      · intro finds
        cases finds
      · intro finds
        cases finds
  | .inside (.block names) _, _ =>
      have same (name : String) : (Region.block (names.begin declared)).Declares name ↔
          (Region.block (names.hold declared)).Declares name := by
        simp [Region.Declares, Names.begin, Names.hold, or_comm, eq_comm]
      constructor
      · exact Finds.congr same
      · exact Finds.congr fun name => (same name).symm

theorem reaches_begin (settled : regions.Settled) {declared : String} {use : NameUse}
    (different : use.name.lexeme ≠ declared) (h : (regions.hold declared).Reaches use) :
    (regions.begin declared).Reaches use := by
  intro hops marked
  obtain ⟨region, found, holds⟩ := h hops marked
  match regions, settled, hops with
  | .global _, _, _ => cases found
  | .inside (.block names) _, _, 0 =>
      cases found
      refine ⟨_, rfl, ?_⟩
      rcases List.mem_cons.mp holds with same | held
      · exact absurd same different
      · exact held
  | .inside (.block names) _, _, hops + 1 => exact ⟨region, found, holds⟩

theorem inClass_receiver (settled : regions.Settled) :
    (Regions.inside .receiver regions).inClass = .base := by
  match regions, settled with
  | .global _, _ => rfl
  | .inside (.block _) _, _ => rfl

theorem regular_ofList {held : List String} (h : ∀ name ∈ held, name ≠ "this" ∧ name ≠ "super") :
    (Region.block (.ofList held)).Regular := by
  intro name declared
  rcases declared with declared | begun
  · exact h name declared
  · cases begun

theorem regular_params {params : List Token} (names : ∀ param ∈ params, param.Names) :
    (Region.block (.ofList (params.map Token.lexeme))).Regular := by
  refine regular_ofList fun held member => ?_
  obtain ⟨param, hparam, rfl⟩ := List.mem_map.mp member
  exact ⟨(names param hparam).ne_this, (names param hparam).ne_super⟩

theorem Regular.hold (h : regions.Regular) (hname : name ≠ "this" ∧ name ≠ "super") :
    (regions.hold name).Regular := by
  match regions, h with
  | .global _, _ => trivial
  | .inside (.block names) outer, ⟨own, rest⟩ =>
      refine ⟨fun other declared => ?_, rest⟩
      rcases declared with declared | begun
      · rcases List.mem_cons.mp declared with rfl | declared
        · exact hname
        · exact own other (.inl declared)
      · cases begun
  | .inside .receiver _, h => exact h
  | .inside .superclass _, h => exact h

theorem Regular.begin (h : regions.Regular) (hname : name ≠ "this" ∧ name ≠ "super") :
    (regions.begin name).Regular := by
  match regions, h with
  | .global _, _ => trivial
  | .inside (.block names) outer, ⟨own, rest⟩ =>
      refine ⟨fun other declared => ?_, rest⟩
      rcases declared with declared | begun
      · exact own other (.inl declared)
      · cases begun
        exact hname
  | .inside .receiver _, h => exact h
  | .inside .superclass _, h => exact h

/-- A name that is not being declared is held where it is found. -/
theorem Regular.holds {hops : Nat} (h : regions.Regular) (settled : regions.begun? ≠ some name)
    (finds : regions.Finds name hops) :
    ∃ region, regions.at? hops = some region ∧ region.Holds name := by
  induction finds with
  | @here region _ name declares =>
      refine ⟨region, rfl, ?_⟩
      cases region with
      | block names =>
          rcases declares with held | begun
          · exact held
          · exact absurd begun settled
      | receiver => exact declares
      | superclass => exact declares
  | further _ _ ih =>
      obtain ⟨-, outerSettled, outerRegular⟩ := h
      exact ih outerRegular (by rw [outerSettled]; exact nofun)

theorem Regular.at? {hops : Nat} (h : regions.Regular) (inner : regions.at? hops = some region) :
    region.Regular := by
  induction regions generalizing hops with
  | global _ => cases inner
  | inside first outer ih =>
      cases hops with
      | zero =>
          cases inner
          exact h.1
      | succ hops => exact ih h.2.2 inner

theorem Regular.reaches_this {use : NameUse} (h : regions.Regular) (located : regions.Locates use)
    (spelling : use.name.lexeme = "this") : regions.Reaches use := by
  intro hops marked
  obtain ⟨region, inner, declares⟩ := ((located hops).mp marked).at?
  rw [spelling] at declares ⊢
  refine ⟨region, inner, ?_⟩
  cases region with
  | block names => exact absurd rfl (h.at? inner "this" declares).1
  | receiver => rfl
  | superclass =>
      have same : "this" = "super" := declares
      exact absurd same (by decide)

/-- No region outside all classes declares `this`. -/
theorem Regular.not_finds_this (h : regions.Regular) (outside : regions.inClass = .none)
    (hops : Nat) : ¬ regions.Finds "this" hops := by
  intro finds
  induction regions generalizing hops with
  | global _ => cases finds
  | inside region outer ih =>
      cases region with
      | block names =>
          cases finds with
          | here declares => exact (h.1 _ declares).1 rfl
          | further _ finds => exact ih h.2.2 outside _ finds
      | receiver =>
          cases outer with
          | global _ => cases outside
          | inside next _ => cases next <;> cases outside
      | superclass => cases outside

/-- In a subclass `super` is found just outside the region of its methods. -/
theorem Regular.finds_super (h : regions.Regular) (derived : regions.inClass = .derived) :
    ∃ hops, regions.Finds "super" (hops + 1) ∧ regions.at? hops = some .receiver ∧
      regions.at? (hops + 1) = some .superclass := by
  induction regions with
  | global _ => cases derived
  | inside region outer ih =>
      cases region with
      | block names =>
          obtain ⟨hops, finds, inner, found⟩ := ih h.2.2 derived
          refine ⟨hops + 1, .further ?_ finds, inner, found⟩
          exact fun declares => (h.1 _ declares).2 rfl
      | receiver =>
          cases outer with
          | global _ => cases derived
          | inside next _ =>
              cases next with
              | superclass =>
                  have notThis : ¬ Region.receiver.Declares "super" :=
                    fun (same : "super" = "this") => absurd same (by decide)
                  exact ⟨0, .further notThis (.here rfl), rfl, rfl⟩
              | block _ | receiver => cases derived
      | superclass => cases derived

end Regions

end LoxLang.Scoping
