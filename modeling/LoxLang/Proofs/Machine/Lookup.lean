import LoxLang.Proofs.Machine.Soundness

/-!
What looking up marked names and binding methods yield: sound values, or errors of the program, never faults.
-/

namespace LoxLang

open Scoping

/-- An error of the program, not a fault. -/
def Interruption.IsError (interruption : Interruption) : Prop :=
  ∃ error, interruption = .error error

theorem Interruption.located_isError (token : Token) (cause : RuntimeError.Cause) :
    (located token cause).IsError :=
  ⟨_, rfl⟩

theorem Interruption.stackOverflow_isError : stackOverflow.IsError :=
  ⟨_, rfl⟩

/-- A result that is as expected, or an error of the program. -/
def Settles {α : Type} (result : Except Interruption α) (means : α → Prop) : Prop :=
  match result with
  | .ok value => means value
  | .error interruption => interruption.IsError

variable {programs : List (List Stmt)} {store : Store} {scope : ScopeId} {regions : Regions}

/-! ## Names -/

theorem Store.Sound.settles_get (h : store.Sound programs) (id : ScopeId) (name : Token) :
    Settles (store.forest.get id name) (·.Sound programs store.forest) := by
  unfold Forest.get Forest.find
  cases store.forest.holder? name.lexeme id with
  | none => exact Interruption.located_isError _ _
  | some holder =>
      simp only [Bind.bind, Except.bind]
      cases hvalue : (store.forest.bindings holder).get? name.lexeme with
      | none => exact Interruption.located_isError _ _
      | some value => exact h.values holder name.lexeme value hvalue

theorem ClassValue.Sound.method {kind : ClassValue} {forest : Forest}
    (h : kind.Sound programs forest) {name : String} {method : Closure}
    (found : kind.method? name = some method) : method.SoundMethod programs forest := by
  obtain ⟨layer, member, hmethod⟩ := List.exists_of_findSome?_eq_some found
  exact h layer member name method hmethod

/-- A stage of the store later in the same programs. -/
structure Follows (programs : List (List Stmt)) (before after : Store) : Prop where
  sound : after.Sound programs
  grows : before.forest.Grows after.forest

theorem Follows.refl (h : store.Sound programs) : Follows programs store store :=
  ⟨h, .refl _⟩

theorem Follows.trans {middle after : Store} (first : Follows programs store middle)
    (second : Follows programs middle after) : Follows programs store after :=
  ⟨second.sound, first.grows.trans second.grows⟩

/-- What a part of an expression ends as. -/
def Control.Yields (programs : List (List Stmt)) (forest : Forest) : Control → Prop
  | .value result => result.Sound programs forest
  | .failed interruption => interruption.IsError
  | _ => False

namespace Machine

theorem settles_lookup (h : store.Sound programs) (agrees : store.forest.Agrees scope regions)
    {use : NameUse} (reaches : regions.Reaches use) :
    Settles (lookup store.forest scope use) (·.Sound programs store.forest) := by
  unfold lookup
  cases hhops : use.hops with
  | none => exact h.settles_get Forest.globals use.name
  | some hops =>
      obtain ⟨region, found, held⟩ := reaches hops hhops
      obtain ⟨holder, value, hget, hvalue⟩ := agrees.getAt found held
      change Settles (store.forest.getAt scope hops use.name.lexeme) _
      rw [hget]
      exact h.values holder use.name.lexeme value hvalue

theorem settles_target (agrees : store.forest.Agrees scope regions) {use : NameUse}
    (inside : ∀ hops, use.hops = some hops → ∃ region, regions.at? hops = some region) :
    Settles (target store.forest scope use) fun _ => True := by
  unfold target
  cases hhops : use.hops with
  | none =>
      change Settles (store.forest.find Forest.globals use.name) _
      unfold Forest.find
      cases store.forest.holder? use.name.lexeme Forest.globals with
      | none => exact Interruption.located_isError _ _
      | some holder => trivial
  | some hops =>
      obtain ⟨region, found⟩ := inside hops hhops
      obtain ⟨outer, walk, -⟩ := agrees.ancestor found
      change Settles (store.forest.findAt scope hops use.name) _
      unfold Forest.findAt
      rw [walk]
      change Settles (if (store.forest.bindings outer).contains use.name.lexeme = true then
        Except.ok outer else .error (Forest.undefinedVariable use.name)) _
      split
      · trivial
      · exact Interruption.located_isError _ _

theorem settles_superReceiver (h : store.Sound programs)
    (agrees : store.forest.Agrees scope regions) {keyword : NameUse} {hops : Nat}
    (marked : keyword.hops = some (hops + 1)) (inner : regions.at? hops = some .receiver)
    (outer : regions.at? (hops + 1) = some .superclass) :
    Settles (superReceiver store.forest scope keyword) fun found =>
      found.1.Sound programs store.forest ∧ found.2.Sound programs store.forest := by
  obtain ⟨superScope, superWalk, kind, hkind⟩ := agrees.ancestor outer
  obtain ⟨thisScope, receiver, hthis, hreceiver⟩ := agrees.getAt inner rfl
  have hsuper : store.forest.getAt scope ((hops + 1 : Nat) : Int) "super" = .ok (.class kind) :=
    Forest.getAt_of_get? superWalk hkind
  have distance : (((hops + 1 : Nat) : Int) - 1) = hops := by omega
  unfold superReceiver
  rw [marked]
  dsimp only
  rw [distance, hthis, hsuper]
  exact ⟨h.values superScope "super" _ hkind, h.values thisScope "this" receiver hreceiver⟩

/-! ## Methods -/

/-- A method is bound in a scope of its own, which agrees with the region of `this`. -/
theorem bind_sound (h : store.Sound programs) {method : Closure}
    (hmethod : method.SoundMethod programs store.forest) {receiver : Value}
    (hreceiver : receiver.Sound programs store.forest) :
    Follows programs store (bind store method receiver).2 ∧
      (bind store method receiver).1.Sound programs (bind store method receiver).2.forest := by
  obtain ⟨regions, stands, agrees⟩ := hmethod
  have carries : (store.forest.add (some method.scope) (.ofList [("this", receiver)])).Holds
      store.forest.next "this" :=
    Forest.holds_add (Bindings.contains_ofList List.mem_cons_self) _
  refine ⟨⟨.takeStamps (h.addScope ?_), Forest.grows_add _ _ _⟩, ?_⟩
  · intro entry member
    rw [List.mem_singleton.mp member]
    exact hreceiver
  · exact ⟨.inside .receiver regions, stands, agrees.add carries, fun _ => carries⟩

theorem yields_ofResult {forest : Forest} {result : Except Interruption Value}
    (h : Settles result (·.Sound programs forest)) :
    (ofResult result).Yields programs forest := by
  cases result with
  | ok value => exact h
  | error interruption => exact h

theorem bindMethod_sound (h : store.Sound programs) (host : Host) (height : Nat)
    {kind : ClassValue} (hkind : kind.Sound programs store.forest) (name : Token)
    {receiver : Value} (hreceiver : receiver.Sound programs store.forest) :
    Follows programs store (bindMethod host height store kind name receiver).2 ∧
      (bindMethod host height store kind name receiver).1.Yields programs
        (bindMethod host height store kind name receiver).2.forest := by
  unfold bindMethod
  split
  · exact ⟨⟨h, .refl _⟩, Interruption.stackOverflow_isError⟩
  · split
    · exact ⟨⟨h, .refl _⟩, Interruption.located_isError _ _⟩
    · next method found => exact bind_sound h (hkind.method found) hreceiver

end Machine

/-! ## Operators -/

namespace Value

variable {forest : Forest}

theorem settles_applyUnary {operator : Token} (known : operator.kind ∈ unaryKinds)
    (right : Value) : Settles (right.applyUnary operator) (·.Sound programs forest) := by
  unfold applyUnary
  split
  · trivial
  · split
    · trivial
    · exact Interruption.located_isError _ _
  · next notBang notMinus =>
    simp only [unaryKinds, List.mem_cons, List.not_mem_nil, or_false] at known
    rcases known with bang | minus
    · exact absurd bang notBang
    · exact absurd minus notMinus

theorem settles_onNumbers (operator : Token) (left right : Value)
    {apply : Float → Float → Value} (plain : ∀ x y, (apply x y).Sound programs forest) :
    Settles (onNumbers operator left right apply) (·.Sound programs forest) := by
  unfold onNumbers
  split
  · exact plain _ _
  · exact Interruption.located_isError _ _

theorem settles_applyBinary {operator : Token} (known : operator.kind ∈ binaryKinds)
    (left right : Value) : Settles (left.applyBinary operator right) (·.Sound programs forest) := by
  unfold applyBinary
  simp only [binaryKinds, List.mem_cons, List.not_mem_nil, or_false] at known
  rcases known with h | h | h | h | h | h | h | h | h | h
  all_goals rw [h]
  case inl | inr.inl => trivial
  case inr.inr.inr.inr.inr.inr.inr.inl =>
    change Settles (plus operator left right) _
    unfold plus
    split
    · trivial
    · trivial
    · exact Interruption.located_isError _ _
  all_goals exact settles_onNumbers operator left right fun _ _ => trivial

end Value

end LoxLang
