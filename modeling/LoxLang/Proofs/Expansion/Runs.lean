import LoxLang.Proofs.Expansion.Steps

/-!
Whole runs of a machine and of its expansion. Where neither runs out of places, each comes to its end if the other does.
-/

namespace LoxLang

variable {free : Prop} {layout : Layout} {host host' : Host} {machine other : Machine}

theorem Machine.Expands.store (h : machine.Expands free layout other) :
    machine.store.Expands free layout other.store := by
  cases h with
  | running _ _ stores | ended stores | failed _ stores => exact stores

theorem FramesExpand.ne_nil {scope scope' : ScopeId} {due : Due} {frames frames' : List Frame}
    (h : FramesExpand free layout scope scope' due frames frames') : frames ≠ [] ∧ frames' ≠ [] := by
  induction h with
  | brace _ _ ih => exact ⟨ih.1, List.cons_ne_nil _ _⟩
  | program _ | cons _ _ _ _ | unrolledCondition _ _ _ _ | unrolledBody _ _ _ _ _
  | unrolledIncrement _ _ _ _ => exact ⟨List.cons_ne_nil _ _, List.cons_ne_nil _ _⟩

namespace Machine

/-- After any number of steps of the machine the expansion gets there as well, with some more steps. -/
theorem iterate_expands (shares : host.Shares host')
    (indifferent : ∀ native ∈ host.natives, native.Indifferent) (h : machine.Expands free layout other)
    (room : ∀ steps, ¬ ((step host)^[steps] machine).Overflowed)
    (room' : ∀ steps, ¬ ((step host')^[steps] other).Overflowed) (steps : Nat) :
    ∃ more later, layout.Grows later ∧
      ((step host)^[steps] machine).Expands free later ((step host')^[steps + more] other) := by
  induction steps with
  | zero => exact ⟨0, layout, .refl layout, h⟩
  | succ steps ih =>
      obtain ⟨more, later, grows, expands⟩ := ih
      obtain ⟨further, -, abreast⟩ := meets_step shares indifferent expands
      have count : steps + 1 + (more + further) = further + 1 + (steps + more) := by omega
      rw [Function.iterate_succ_apply']
      refine ⟨more + further, ?_⟩
      rw [count, Function.iterate_add_apply]
      cases abreast with
      | overflowed full =>
          rw [← Function.iterate_succ_apply' (step host)] at full
          exact absurd full (room _)
      | overflowed' full =>
          rw [← Function.iterate_add_apply] at full
          exact absurd full (room' _)
      | expands growing expands => exact ⟨_, grows.trans growing, expands⟩

theorem isFinal_eq_false (control : Control) {frames : List Frame} (some : frames ≠ [])
    (scope : ScopeId) (height : Nat) (store : Store) :
    (Machine.mk control frames scope height store).isFinal = false := by
  cases frames with
  | nil => exact absurd rfl some
  | cons frame frames => cases control <;> rfl

/-- When the machine is at its end, the expansion gets there too. -/
theorem Expands.ends (h : machine.Expands free layout other) (final : machine.isFinal = true)
    (host' : Host) :
    ∃ steps, ((step host')^[steps] other).isFinal = true ∧
      machine.Expands free layout ((step host')^[steps] other) := by
  cases h with
  | running _ frames _ =>
      rw [isFinal_eq_false _ frames.ne_nil.1] at final
      cases final
  | ended stores => exact ⟨0, rfl, .ended stores⟩
  | @failed _ interruption' _ frames' _ scope' _ height' _ store' interruption stores =>
      obtain ⟨last, lowest, dropped⟩ := exists_dropped host' interruption' frames' scope' height' store'
      refine ⟨frames'.length, ?_⟩
      rw [dropped]
      exact ⟨rfl, .failed interruption stores⟩

/-- When the expansion is at its end, the machine gets there too. -/
theorem Expands.ends_of_final (h : machine.Expands free layout other) (final : other.isFinal = true)
    (host : Host) :
    ∃ steps, ((step host)^[steps] machine).isFinal = true ∧
      ((step host)^[steps] machine).Expands free layout other := by
  cases h with
  | running _ frames _ =>
      rw [isFinal_eq_false _ frames.ne_nil.2] at final
      cases final
  | ended stores => exact ⟨0, rfl, .ended stores⟩
  | @failed interruption _ frames _ scope _ height _ store _ interruptions stores =>
      obtain ⟨last, lowest, dropped⟩ := exists_dropped host interruption frames scope height store
      refine ⟨frames.length, ?_⟩
      rw [dropped]
      exact ⟨rfl, .failed interruptions stores⟩

section

variable (shares : host.Shares host') (indifferent : ∀ native ∈ host.natives, native.Indifferent)
  (h : machine.Expands free layout other) (room : ∀ steps, ¬ ((step host)^[steps] machine).Overflowed)
  (room' : ∀ steps, ¬ ((step host')^[steps] other).Overflowed)

include shares indifferent h room room'

theorem exists_end {steps : Nat} (final : ((step host)^[steps] machine).isFinal = true) :
    ∃ more later, ((step host')^[more] other).isFinal = true ∧
      ((step host)^[steps] machine).Expands free later ((step host')^[more] other) := by
  obtain ⟨more, later, -, expands⟩ := iterate_expands shares indifferent h room room' steps
  obtain ⟨further, final', last⟩ := expands.ends final host'
  rw [← Function.iterate_add_apply] at final' last
  exact ⟨_, _, final', last⟩

theorem exists_end_of_final {steps : Nat} (final : ((step host')^[steps] other).isFinal = true) :
    ∃ fewer later, ((step host)^[fewer] machine).isFinal = true ∧
      ((step host)^[fewer] machine).Expands free later ((step host')^[steps] other) := by
  obtain ⟨more, later, -, expands⟩ := iterate_expands shares indifferent h room room' steps
  rw [Nat.add_comm, Function.iterate_add_apply, iterate_of_isFinal host' final] at expands
  obtain ⟨further, final', last⟩ := expands.ends_of_final final host
  rw [← Function.iterate_add_apply] at final' last
  exact ⟨_, _, final', last⟩

end

end Machine

end LoxLang
