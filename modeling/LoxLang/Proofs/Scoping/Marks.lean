import Mathlib.Data.List.Forall2
import LoxLang.Proofs.Bindings
import LoxLang.Proofs.Scoping.Tracking
import LoxLang.Proofs.Sequence

/-!
What markers do to scopes and errors, whatever these are. `Marks` says which regions the scopes are before
and after, and what the result means when no error was added, or, where `clean` is false, in any case. A
marker made of others is treated in the same order as it marks.
-/

namespace LoxLang.Scoping

variable {α β : Type}

/-- Errors are only added, and what the result means may depend on there being none if `clean` holds. -/
def Marks (clean : Prop) (marker : Marker α) (before after : Regions) (means : α → Prop) : Prop :=
  ∀ scopes errors value state, Tracks before scopes → marker ⟨scopes, errors⟩ = .ok value state →
    Tracks after state.scopes ∧
      ∃ found, state.errors.toList = errors.toList ++ found ∧ ((clean → found = []) → means value)

namespace Marks

variable {clean : Prop} {marker : Marker α} {next : α → Marker β} {before middle after : Regions}
  {means stronger : α → Prop} {further : β → Prop}

/-! ## Combining -/

theorem mono (marks : Marks clean marker before after stronger)
    (weaken : ∀ value, stronger value → means value) :
    Marks clean marker before after means := by
  intro scopes errors value state tracks h
  obtain ⟨tracked, found, herrors, hmeans⟩ := marks scopes errors value state tracks h
  exact ⟨tracked, found, herrors, fun hclean => weaken value (hmeans hclean)⟩

theorem bind (first : Marks clean marker before middle means)
    (second : ∀ value, Marks clean (next value) middle after
      fun result => means value → further result) :
    Marks clean (marker >>= next) before after further := by
  intro scopes errors result last tracks h
  obtain ⟨value, state, begins, ends⟩ := exists_of_bind_ok h
  obtain ⟨tracked, found, herrors, hmeans⟩ := first _ _ _ _ tracks begins
  obtain ⟨tracked, more, hmore, hfurther⟩ := second value _ _ _ _ tracked ends
  refine ⟨tracked, found ++ more, by rw [hmore, herrors, List.append_assoc], fun hclean => ?_⟩
  have hfound : clean → found = [] :=
    fun holds => (List.append_eq_nil_iff.mp (hclean holds)).1
  have hlater : clean → more = [] :=
    fun holds => (List.append_eq_nil_iff.mp (hclean holds)).2
  exact hfurther hlater (hmeans hfound)

theorem pure {value : α} (hmeans : means value) :
    Marks clean (Pure.pure value) before before means := by
  intro scopes errors result state tracks h
  cases h
  exact ⟨tracks, [], (List.append_nil _).symm, fun _ => hmeans⟩

theorem map {make : α → β} (first : Marks clean marker before after means)
    (hmeans : ∀ value, means value → further (make value)) :
    Marks clean (do return make (← marker)) before after further :=
  first.bind fun value => pure (hmeans value)

theorem tooDeep : Marks clean (Scoping.tooDeep : Marker α) before after means := by
  intro scopes errors value state tracks h
  cases h

theorem get_bind {next : State → Marker α}
    (rest : ∀ state, Tracks before state.scopes → Marks clean (next state) before after means) :
    Marks clean (get >>= next) before after means :=
  fun scopes errors value state tracks h =>
    rest ⟨scopes, errors⟩ tracks scopes errors value state tracks h

theorem updateScopes {update : Scopes → Scopes}
    (h : ∀ scopes, Tracks before scopes → Tracks after (update scopes)) :
    Marks clean (Scoping.updateScopes update) before after fun _ => True := by
  intro scopes errors value state tracks heq
  cases heq
  exact ⟨h scopes tracks, [], (List.append_nil _).symm, fun _ => trivial⟩

theorem report (token : Token) (cause : ResolutionError.Cause) :
    Marks clean (Scoping.report token cause) before before fun _ => ¬ clean := by
  intro scopes errors value state tracks h
  cases h
  refine ⟨tracks, [⟨cause, token⟩], Array.toList_push, fun hclean holds => ?_⟩
  cases hclean holds

theorem reportIf (condition : Bool) (token : Token) (cause : ResolutionError.Cause) :
    Marks clean (Scoping.reportIf condition token cause) before before
      fun _ => clean → condition = false := by
  cases condition with
  | false => exact pure fun _ => rfl
  | true => exact (report token cause).mono fun _ unclean holds => absurd holds unclean

theorem option {mark : α → Marker α} {item : Option α} {means : Option α → Prop}
    (absent : item = none → means none)
    (present : ∀ inner, item = some inner →
      Marks clean (mark inner) before before fun marked => means (some marked)) :
    Marks clean (markOption mark item) before before means := by
  cases item with
  | none => exact pure (absent rfl)
  | some inner => exact (present inner rfl).map fun _ => id

theorem mapM {mark : α → Marker β} {means : α → β → Prop} {items : List α}
    (each : ∀ item ∈ items, Marks clean (mark item) before before (means item)) :
    Marks clean (items.mapM mark) before before (List.Forall₂ means items) := by
  induction items with
  | nil => exact pure .nil
  | cons item items ih =>
      rw [List.mapM_cons]
      refine (each item List.mem_cons_self).bind fun marked => ?_
      refine (ih fun other member => each other (List.mem_cons_of_mem _ member)).bind fun rest => ?_
      exact pure fun hrest hmarked => .cons hmarked hrest

/-! ## Scopes -/

theorem get?_enter (names : List String) (name : String) :
    (Bindings.ofList (names.map (·, true))).get? name =
      if name ∈ names then some true else none := by
  cases found : (Bindings.ofList (names.map (·, true))).get? name with
  | none =>
      have absent : name ∉ names := by
        intro member
        have held : (Bindings.ofList (names.map (·, true))).contains name = true :=
          Bindings.contains_ofList (by simpa using member)
        rw [Bindings.contains, found] at held
        cases held
      rw [if_neg absent]
  | some state =>
      obtain ⟨other, member, same⟩ := List.mem_map.mp (Bindings.mem_of_get?_ofList found)
      cases same
      rw [if_pos member]

theorem withScope {names : List String} {region left : Region} {body : Marker α}
    (hregion : ∀ name, region.state? name = if name ∈ names then some true else none)
    (hbody : Marks clean body (.inside region before) (.inside left after) means) :
    Marks clean (Scoping.withScope names body) before after means := by
  have enter : Marks clean (Scoping.updateScopes (·.enter names)) before (.inside region before)
      fun _ => True :=
    updateScopes fun scopes tracks => .inside (fun name => by rw [get?_enter, hregion]) tracks
  have leave : Marks clean (Scoping.updateScopes .leave) (.inside left after) after
      fun _ => True := by
    apply updateScopes
    intro scopes tracks
    cases tracks with
    | inside _ outer => exact outer
  refine enter.bind fun _ => hbody.bind fun result => leave.bind fun _ => ?_
  exact pure fun _ hresult _ => hresult

/-- A block begins without names, and whatever names it ends with are gone behind it. -/
theorem withBlock {names : Names} {body : Marker α}
    (hbody : Marks clean body (.inside (.block (.ofList [])) before) (.inside (.block names) after)
      means) :
    Marks clean (Scoping.withScope [] body) before after means :=
  withScope (fun _ => rfl) hbody

theorem declare {name : Token} (settled : before.Settled) :
    Marks clean (Scoping.declare name) before (before.begin name.lexeme)
      fun _ => clean → before.Admits name.lexeme := by
  have mark : Marks clean (Scoping.updateScopes (·.mark name.lexeme false)) before
      (before.begin name.lexeme) fun _ => True := by
    apply updateScopes
    intro scopes tracks
    match before, settled, tracks with
    | .global _, settled, .global states =>
        exact .global fun other => by
          rw [Bindings.get?_set, states, Names.state?_begin settled]
    | .inside (.block _) _, settled, .inside states outer =>
        refine .inside (fun other => ?_) outer
        rw [Bindings.get?_set, states]
        exact (Names.state?_begin settled name.lexeme other).symm
  exact get_bind fun state tracks => (reportIf _ _ _).bind fun _ => mark.mono fun _ _ new holds =>
    tracks.admits (new holds)

theorem complete {name : Token} (settled : before.Settled) :
    Marks clean (Scoping.complete name) (before.begin name.lexeme) (before.hold name.lexeme)
      fun _ => True := by
  apply updateScopes
  intro scopes tracks
  match before, settled, tracks with
  | .global _, _, .global states =>
      exact .global fun other => by
        rw [Bindings.get?_set, states, Names.state?_hold_begin]
  | .inside (.block _) _, _, .inside states outer =>
      refine .inside (fun other => ?_) outer
      rw [Bindings.get?_set, states]
      exact (Names.state?_hold_begin _ name.lexeme other).symm

theorem declareFully {name : Token} (settled : before.Settled) :
    Marks clean (Scoping.declareFully name) before (before.hold name.lexeme)
      fun _ => clean → before.Admits name.lexeme :=
  (declare settled).bind fun _ => (complete settled).mono fun _ _ new => new

/-- The order of the names that a block holds does not matter. -/
theorem reorder {region other : Region}
    (marks : Marks clean marker before (.inside region after) means)
    (same : ∀ name, region.state? name = other.state? name) :
    Marks clean marker before (.inside other after) means := by
  intro scopes errors value state tracks h
  obtain ⟨tracked, rest⟩ := marks scopes errors value state tracks h
  obtain ⟨scopes, errors⟩ := state
  cases tracked with
  | inside states outer =>
      exact ⟨.inside (fun name => (states name).trans (same name)) outer, rest⟩

theorem declareAll (outer : Regions) (params : List Token) (held : List String) :
    Marks clean (params.forM Scoping.declareFully) (.inside (.block (.ofList held)) outer)
      (.inside (.block (.ofList (params.map Token.lexeme ++ held))) outer) fun _ => True := by
  induction params generalizing held with
  | nil => exact pure trivial
  | cons param params ih =>
      have settled : (Regions.inside (.block (.ofList held)) outer).Settled := rfl
      have same (name : String) :
          (Region.block (.ofList (params.map Token.lexeme ++ param.lexeme :: held))).state? name =
            (Region.block (.ofList ((param :: params).map Token.lexeme ++ held))).state? name := by
        simp [Region.state?, Names.state?, Names.ofList, or_left_comm]
      refine (declareFully settled).bind fun _ => ?_
      exact ((ih (param.lexeme :: held)).reorder same).mono fun _ _ _ => trivial

theorem declareParams (outer : Regions) (params : List Token) :
    Marks clean (params.forM Scoping.declareFully) (.inside (.block (.ofList [])) outer)
      (.inside (.block (.ofList (params.map Token.lexeme))) outer) fun _ => True := by
  have declared : Marks clean (params.forM Scoping.declareFully) _ _ _ := declareAll outer params []
  rwa [List.append_nil] at declared

/-! ## Uses of names -/

theorem locate (name : Token) :
    Marks clean (Scoping.locate name) before before
      fun use => use.name = name ∧ before.Locates use :=
  get_bind fun _ tracks => pure ⟨rfl, fun hops => tracks.hops?_iff hops⟩

theorem markVariable (regular : before.Regular) (name : Token) :
    Marks clean (Scoping.markVariable name) before before
      fun use => use.name = name ∧ before.Locates use ∧ (clean → before.Reaches use) := by
  apply get_bind
  intro state tracks
  refine (reportIf _ _ _).bind fun _ => (locate name).mono fun use ⟨same, located⟩ declared => ?_
  refine ⟨same, located, fun holds hops marked => ?_⟩
  refine regular.holds ?_ ((located hops).mp marked)
  rw [same, ne_eq, ← tracks.isDeclaring_iff, declared holds]
  exact nofun

theorem markThis {around : Surroundings} {keyword : NameUse} (regular : before.Regular)
    (inClass : before.inClass = around.inClass) (unmarked : keyword.hops = none)
    (spelling : keyword.name.lexeme = "this") :
    Marks clean (Scoping.markThis around keyword) before before
      fun use => use.name = keyword.name ∧ before.Locates use ∧ (clean → before.Reaches use) := by
  unfold Scoping.markThis
  by_cases outside : around.inClass = .none
  · rw [if_pos outside]
    refine (report _ _).bind fun _ => pure fun unclean => ⟨rfl, fun hops => ?_, fun holds => ?_⟩
    · rw [unmarked, spelling]
      constructor
      · intro absurd
        cases absurd
      · intro finds
        exact absurd finds (regular.not_finds_this (inClass.trans outside) hops)
    · exact absurd holds unclean
  · rw [if_neg outside]
    refine (locate keyword.name).mono fun use ⟨same, located⟩ => ⟨same, located, fun _ => ?_⟩
    exact regular.reaches_this located (same ▸ spelling)

theorem markSuper {around : Surroundings} {keyword : Token} (regular : before.Regular)
    (inClass : before.inClass = around.inClass) (spelling : keyword.lexeme = "super") :
    Marks clean (Scoping.markSuper around keyword) before before
      fun use => use.name = keyword ∧ before.Locates use ∧
        (clean → ∃ hops, use.hops = some (hops + 1) ∧ before.at? hops = some .receiver ∧
          before.at? (hops + 1) = some .superclass) := by
  have located (derived : clean → around.inClass = .derived) (use : NameUse)
      (h : use.name = keyword ∧ before.Locates use) :
      use.name = keyword ∧ before.Locates use ∧
        (clean → ∃ hops, use.hops = some (hops + 1) ∧ before.at? hops = some .receiver ∧
          before.at? (hops + 1) = some .superclass) := by
    refine ⟨h.1, h.2, fun holds => ?_⟩
    obtain ⟨hops, finds, inner, outer⟩ := regular.finds_super (inClass.trans (derived holds))
    rw [← spelling, ← h.1] at finds
    exact ⟨hops, (h.2 _).mpr finds, inner, outer⟩
  unfold Scoping.markSuper
  cases hclass : around.inClass with
  | none | base =>
      refine (report _ _).bind fun _ => (locate keyword).mono fun use h unclean => ?_
      exact located (fun holds => absurd holds unclean) use h
  | derived => exact (locate keyword).mono fun use h => located (fun _ => hclass) use h

end Marks

end LoxLang.Scoping
