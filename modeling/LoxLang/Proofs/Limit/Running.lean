import LoxLang.Proofs.Machine.Events
import LoxLang.Proofs.Variation.Runs

/-!
Running with more room. A machine takes the same steps where its frames may take more places, up to the step at which
it runs out of places. From there on it fails, whatever frames it has, until it ends with that failure.
-/

namespace LoxLang

/-- The same natives and at least as much room; the time may be another. -/
structure Host.Widens (host wider : Host) : Prop where
  natives : wider.natives = host.natives
  heightLimit : host.heightLimit ≤ wider.heightLimit

namespace Machine

/-- There was no place for what was to be begun. -/
def Overflowed (machine : Machine) : Prop :=
  machine.control = .failed .stackOverflow

/-- A native that is called next answers the same at both times. -/
def Answered (host wider : Host) (machine : Machine) : Prop :=
  ∀ index arguments native, machine.call? = some (.native index, arguments) →
    host.natives[index]? = some native →
    native.answer host.now arguments = native.answer wider.now arguments

variable {host wider : Host} (widens : host.Widens wider) {frames : List Frame} {scope : ScopeId}
  {height : Nat} {store : Store}

section

include widens

theorem bindMethod_widens (height : Nat) (store : Store) (kind : ClassValue) (name : Token)
    (receiver : Value) :
    (bindMethod host height store kind name receiver).1 = .failed .stackOverflow ∨
      bindMethod wider height store kind name receiver =
        bindMethod host height store kind name receiver := by
  unfold bindMethod
  by_cases full : host.heightLimit < height + kind.searched name.lexeme
  · rw [if_pos full]
    exact .inl rfl
  · have room : ¬ wider.heightLimit < height + kind.searched name.lexeme :=
      fun absurd => full (Nat.lt_of_le_of_lt widens.heightLimit absurd)
    rw [if_neg full, if_neg room]
    exact .inr rfl

/-- A search for which there are places has them under a wider limit. -/
theorem exceeds_widens {callable : Callable} (room : callable.exceeds host height = false) :
    callable.exceeds wider height = false := by
  cases callable with
  | function | native => rfl
  | «class» kind =>
      rw [Bool.eq_false_iff, ne_eq, exceeds_class] at room ⊢
      exact fun full => room (Nat.lt_of_le_of_lt widens.heightLimit full)

theorem call_widens {callee : Value} {arguments : List Value}
    (answers : ∀ index native, callee = .native index → host.natives[index]? = some native →
      native.answer host.now arguments = native.answer wider.now arguments) (paren : Token) :
    (call host callee paren arguments frames scope height store).Overflowed ∨
      call wider callee paren arguments frames scope height store =
        call host callee paren arguments frames scope height store := by
  unfold call
  rw [ofValue?_congr widens.natives callee]
  cases found : Callable.ofValue? host callee with
  | none => exact .inr rfl
  | some callable =>
      dsimp only
      cases full : callable.exceeds host height with
      | true => exact .inl rfl
      | false =>
          right
          have entered : enter wider callable arguments frames scope height store =
              enter host callable arguments frames scope height store := by
            cases callable with
            | function | «class» => rfl
            | native native =>
                cases callee with
                | native index =>
                    obtain ⟨known, member, same⟩ := exists_of_ofValue?_native found
                    cases same
                    rw [enter, enter, answers index native rfl member]
                | _ => cases found
          rw [exceeds_widens widens full, entered]

theorem callWith_widens {callee : Value} {before : List Value} {after : List Expr}
    (answers : ∀ index native, after = [] → callee = .native index →
      host.natives[index]? = some native →
      native.answer host.now before.reverse = native.answer wider.now before.reverse)
    (paren : Token) :
    (callWith host callee paren before after frames scope height store).Overflowed ∨
      callWith wider callee paren before after frames scope height store =
        callWith host callee paren before after frames scope height store := by
  cases after with
  | cons argument after => exact .inr rfl
  | nil => exact call_widens widens (fun index native => answers index native rfl) paren

theorem eval_widens (expr : Expr) :
    (eval host expr frames scope height store).Overflowed ∨
      eval wider expr frames scope height store = eval host expr frames scope height store := by
  cases expr with
  | super keyword method =>
      rw [eval, eval]
      cases superReceiver store.forest scope keyword with
      | error interruption => exact .inr rfl
      | ok found =>
          obtain ⟨superclass, receiver⟩ := found
          dsimp only
          rcases bindMethod_widens widens height store superclass method receiver
            with full | same
          · exact .inl full
          · rw [same]
            exact .inr rfl
  | _ => exact .inr rfl

theorem resumeValue_widens {frame : Frame} {value : Value} {places : Nat}
    (answers : Answered host wider ⟨.value value, frame :: frames, scope, places, store⟩) :
    (resumeValue host frame value frames scope height store).Overflowed ∨
      resumeValue wider frame value frames scope height store =
        resumeValue host frame value frames scope height store := by
  cases frame with
  | callee paren arguments =>
      refine callWith_widens widens (fun index native none isNative member => ?_) paren
      subst none isNative
      exact answers index [] native rfl member
  | argument callee paren before after =>
      refine callWith_widens widens (fun index native none isNative member => ?_) paren
      subst none isNative
      exact answers index _ native rfl member
  | get name =>
      cases value with
      | «instance» object =>
          rw [resumeValue, resumeValue]
          cases store.field? object.index name.lexeme with
          | some field => exact .inr rfl
          | none =>
              dsimp only
              rcases bindMethod_widens widens height store object.kind name (.instance object)
                with full | same
              · exact .inl full
              · rw [same]
                exact .inr rfl
      | _ => exact .inr rfl
  | _ => exact .inr rfl

/-- A step is the same with more room, unless it is the one for which there is none. -/
theorem step_widens {machine : Machine} (answers : Answered host wider machine) :
    (step host machine).Overflowed ∨ step wider machine = step host machine := by
  obtain ⟨control, frames, scope, height, store⟩ := machine
  cases control with
  | eval expr =>
      simp only [step]
      by_cases full : host.heightLimit ≤ height
      · rw [if_pos full]
        exact .inl rfl
      · rw [if_neg full, if_neg fun absurd => full (Nat.le_trans widens.heightLimit absurd)]
        exact eval_widens widens expr
  | exec stmt =>
      simp only [step]
      by_cases full : host.heightLimit ≤ height
      · rw [if_pos full]
        exact .inl rfl
      · rw [if_neg full, if_neg fun absurd => full (Nat.le_trans widens.heightLimit absurd)]
        exact .inr rfl
  | value value =>
      cases frames with
      | nil => exact .inr rfl
      | cons frame frames => exact resumeValue_widens widens answers
  | done completion => cases frames <;> exact .inr rfl
  | failed interruption => cases frames <;> exact .inr rfl

end

/-- While a machine is as `ready` says, natives answer alike at both times. -/
theorem iterate_widens (widens : host.Widens wider) (ready : Machine → Prop)
    (kept : ∀ machine, ready machine → ready (step host machine))
    (answers : ∀ machine, ready machine → Answered host wider machine) {machine : Machine}
    (hready : ready machine) (steps : Nat) :
    ((step host)^[steps] machine).Overflowed ∨
      (step wider)^[steps] machine = (step host)^[steps] machine := by
  induction steps generalizing machine with
  | zero => exact .inr rfl
  | succ steps ih =>
      rw [Function.iterate_succ_apply, Function.iterate_succ_apply]
      rcases step_widens widens (answers machine hready) with full | same
      · exact .inl (interruption?_iterate full host steps)
      · rw [same]
        exact ih (kept machine hready)

/-! ## Failing -/

/-- The machine goes on, or it has failed and the store is this one. -/
def FailsAt (store : Store) (machine : Machine) : Prop :=
  ∀ interruption, machine.control = .failed interruption → machine.store = store

theorem failsAt_bindMethod (room : Nat) (kind : ClassValue) (name : Token) (receiver : Value) :
    FailsAt store ⟨(bindMethod host room store kind name receiver).1, frames, scope, height,
      (bindMethod host room store kind name receiver).2⟩ := by
  intro interruption failed
  rcases bindMethod_cases host room store kind name receiver with ⟨other, made⟩ | ⟨method, -, made⟩
  · rw [made]
  · rw [made] at failed
    cases failed

theorem failsAt_callWith (callee : Value) (paren : Token) (before : List Value) (after : List Expr) :
    FailsAt store (callWith host callee paren before after frames scope height store) := by
  intro interruption failed
  cases after with
  | cons argument after => cases failed
  | nil =>
      have called := called_call host callee paren before.reverse frames scope height store
      change (call host callee paren before.reverse frames scope height store).control = _ at failed
      change (call host callee paren before.reverse frames scope height store).store = store
      generalize call host callee paren before.reverse frames scope height store = next at called failed ⊢
      cases called with
      | fails error => rfl
      | function | native => cases failed
      | «class» =>
          unfold construct at failed
          dsimp only at failed
          split at failed <;> cases failed

/-- Where a step fails, it has changed nothing. -/
theorem failsAt_step (host : Host) (machine : Machine) : FailsAt machine.store (step host machine) := by
  obtain ⟨control, frames, scope, height, store⟩ := machine
  intro interruption failed
  cases control with
  | eval expr =>
      simp only [step] at failed ⊢
      split at failed
      · next full => rw [if_pos full]
      · next room =>
        rw [if_neg room]
        cases expr with
        | super keyword method =>
            simp only [eval] at failed ⊢
            split at failed
            · rfl
            · exact failsAt_bindMethod _ _ _ _ _ failed
        | _ => rfl
  | exec stmt =>
      simp only [step] at failed ⊢
      split at failed
      · next full => rw [if_pos full]
      · cases stmt with
        | «class» _ superclass _ => cases superclass <;> cases failed
        | «return» _ value | var _ value => cases value <;> cases failed
        | _ => cases failed
  | value value =>
      cases frames with
      | nil => rfl
      | cons frame frames =>
          cases frame with
          | callee | argument => exact failsAt_callWith _ _ _ _ _ failed
          | assign use =>
              simp only [step, resumeValue] at failed ⊢
              split at failed
              · rfl
              · cases failed
          | get name =>
              cases value with
              | «instance» object =>
                  simp only [step, resumeValue] at failed ⊢
                  split at failed
                  · cases failed
                  · exact failsAt_bindMethod _ _ _ _ _ failed
              | _ => rfl
          | setObject name part => cases value <;> rfl
          | superclass name token methods => cases value <;> first | rfl | cases failed
          | logicalLeft operator right =>
              simp only [step, resumeValue] at failed
              split at failed <;> cases failed
          | whileCondition condition body increment =>
              simp only [step, resumeValue] at failed
              split at failed <;> cases failed
          | ifCondition thenBranch elseBranch =>
              simp only [step, resumeValue] at failed
              split at failed
              · cases failed
              · cases elseBranch <;> cases failed
          | _ => first | rfl | cases failed
  | done completion =>
      cases frames with
      | nil => rfl
      | cons frame frames =>
          cases frame with
          | block rest outer => cases rest <;> cases completion <;> cases failed
          | program rest => cases rest <;> cases failed
          | whileBody condition body increment =>
              cases completion <;> cases increment <;> cases failed
          | _ => rfl
  | failed other => cases frames <;> rfl

/-- A machine that has failed drops its frames, and then is at its end. -/
theorem exists_dropped (host : Host) (interruption : Interruption) (frames : List Frame)
    (scope : ScopeId) (height : Nat) (store : Store) :
    ∃ last lowest, (step host)^[frames.length] ⟨.failed interruption, frames, scope, height, store⟩ =
      ⟨.failed interruption, [], last, lowest, store⟩ := by
  induction frames generalizing scope height with
  | nil => exact ⟨scope, height, rfl⟩
  | cons frame frames ih =>
      rw [List.length_cons, Function.iterate_succ_apply]
      exact ih _ _

end Machine

end LoxLang
