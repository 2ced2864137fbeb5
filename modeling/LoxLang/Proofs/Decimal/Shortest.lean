import LoxLang.Decimal.Shortest
import LoxLang.Proofs.Binary64.Rounding
import Mathlib.Tactic.LinearCombination

/-!
The shortest decimal of a magnitude lies in its interval, so it is rounded back to the magnitude. It is one of
the two decimals of its place that are nearest, so it leaves no power of ten between itself and the magnitude.
-/

namespace LoxLang

open Binary64 (Magnitude unitsPerOne)

namespace Decimal

variable {magnitude : Magnitude} {units : Nat}

theorem fivePower_pos : 0 < fivePower := by
  delta fivePower
  generalize 1074 = exponent
  exact Nat.pow_pos (by decide)

theorem one_pos : 0 < unitsPerOne * fivePower := by
  refine Nat.mul_pos ?_ fivePower_pos
  delta unitsPerOne
  generalize 1074 = exponent
  exact Nat.two_pow_pos _

/-- One is a whole number of units of either kind. -/
theorem one_eq_pow_mul_pow {place : Nat} (le : place ≤ 1074) :
    unitsPerOne * fivePower = 10 ^ place * 10 ^ (1074 - place) := by
  delta unitsPerOne fivePower
  generalize 1074 = exponent at *
  rw [← Nat.pow_add, Nat.add_sub_cancel' le]
  exact (Nat.mul_pow 2 5 exponent).symm

theorem one_mul_pow_eq_pow {place : Nat} (le : 1074 ≤ place) :
    unitsPerOne * fivePower * 10 ^ (place - 1074) = 10 ^ place := by
  delta unitsPerOne fivePower
  generalize 1074 = exponent at *
  have product : Nat.pow 2 exponent * Nat.pow 5 exponent = 10 ^ exponent := (Nat.mul_pow 2 5 exponent).symm
  rw [product, ← Nat.pow_add, Nat.add_sub_cancel' le]

/-! ## Intervals -/

/-- What is in the interval of a magnitude. -/
structure Fits (magnitude : Magnitude) (units : Nat) : Prop where
  lower : 4 * (magnitude.units * fivePower) ≤ 4 * units + magnitude.below * fivePower
  upper : 4 * units ≤ 4 * (magnitude.units * fivePower) + 2 * (2 ^ magnitude.shift * fivePower)
  even : 4 * (magnitude.units * fivePower) = 4 * units + magnitude.below * fivePower ∨
    4 * units = 4 * (magnitude.units * fivePower) + 2 * (2 ^ magnitude.shift * fivePower) →
    magnitude.significand % 2 = 0

theorem lower_ofMagnitude (magnitude : Magnitude) :
    (Interval.ofMagnitude magnitude).lower = 4 * (magnitude.units * fivePower) - magnitude.below * fivePower := by
  unfold Interval.ofMagnitude Magnitude.below
  simp only [Nat.pow_eq]
  split
  · rfl
  · rw [Nat.mul_assoc]

theorem fits_of_contains (contains : (Interval.ofMagnitude magnitude).contains units = true) :
    Fits magnitude units := by
  have lower_eq := lower_ofMagnitude magnitude
  have upper_eq : (Interval.ofMagnitude magnitude).upper =
      4 * (magnitude.units * fivePower) + 2 * (2 ^ magnitude.shift * fivePower) := rfl
  unfold Interval.contains at contains
  rw [lower_eq, upper_eq] at contains
  split at contains
  · next closed =>
    obtain ⟨lower, upper⟩ := (Bool.and_eq_true_iff.mp contains).imp of_decide_eq_true of_decide_eq_true
    exact ⟨by omega, upper, fun _ => eq_of_beq closed⟩
  · obtain ⟨lower, upper⟩ := (Bool.and_eq_true_iff.mp contains).imp of_decide_eq_true of_decide_eq_true
    exact ⟨by omega, upper.le, by omega⟩

theorem contains_centre (magnitude : Magnitude) :
    (Interval.ofMagnitude magnitude).contains (magnitude.units * fivePower) = true := by
  have gap_pos : 0 < 2 ^ magnitude.shift * fivePower := Nat.mul_pos (Nat.two_pow_pos _) fivePower_pos
  have lower_eq := lower_ofMagnitude magnitude
  have upper_eq : (Interval.ofMagnitude magnitude).upper =
      4 * (magnitude.units * fivePower) + 2 * (2 ^ magnitude.shift * fivePower) := rfl
  unfold Interval.contains
  rw [lower_eq, upper_eq]
  split
  · exact Bool.and_eq_true_iff.mpr ⟨decide_eq_true (by omega), decide_eq_true (by omega)⟩
  · next other =>
    -- an odd significand is not zero, so something is taken away
    have below_pos : 0 < magnitude.below * fivePower := by
      refine Nat.mul_pos ?_ fivePower_pos
      unfold Magnitude.below
      split
      · exact Nat.two_pow_pos _
      · exact Nat.mul_pos (by decide) (Nat.two_pow_pos _)
    have centre_pos : 0 < magnitude.units * fivePower := by
      refine Nat.mul_pos (Nat.mul_pos (Nat.pos_of_ne_zero fun zero => other ?_) (Nat.two_pow_pos _)) fivePower_pos
      change (magnitude.significand % 2 == 0) = true
      rw [zero]
      rfl
    exact Bool.and_eq_true_iff.mpr ⟨decide_eq_true (by omega), decide_eq_true (by omega)⟩

/-- A decimal in the interval of a magnitude is attracted by the magnitude. -/
theorem Fits.attracts (h : Fits magnitude units) {dividend divisor : Nat} (pos : 0 < divisor)
    (same : dividend * (unitsPerOne * fivePower) = units * divisor) :
    magnitude.Attracts (dividend * unitsPerOne) divisor := by
  have scaled : dividend * unitsPerOne * fivePower = units * divisor := by rw [Nat.mul_assoc, same]
  obtain ⟨lower, upper, even⟩ := h
  have centre : 4 * (magnitude.units * divisor) * fivePower = 4 * (magnitude.units * fivePower) * divisor := by ring
  have least : (4 * (dividend * unitsPerOne) + magnitude.below * divisor) * fivePower =
      (4 * units + magnitude.below * fivePower) * divisor := by
    linear_combination 4 * scaled
  have most : (4 * (magnitude.units * divisor) + 2 * 2 ^ magnitude.shift * divisor) * fivePower =
      (4 * (magnitude.units * fivePower) + 2 * (2 ^ magnitude.shift * fivePower)) * divisor := by ring
  have whole : 4 * (dividend * unitsPerOne) * fivePower = 4 * units * divisor := by linear_combination 4 * scaled
  refine ⟨?_, ?_, fun tie => ?_⟩
  · refine Nat.le_of_mul_le_mul_right ?_ fivePower_pos
    rw [centre, least]
    exact Nat.mul_le_mul_right _ lower
  · refine Nat.le_of_mul_le_mul_right ?_ fivePower_pos
    rw [whole, most]
    exact Nat.mul_le_mul_right _ upper
  · refine even (tie.imp (fun lowest => ?_) fun highest => ?_)
    · refine Nat.eq_of_mul_eq_mul_right pos ?_
      rw [← centre, ← least, lowest]
    · refine Nat.eq_of_mul_eq_mul_right pos ?_
      rw [← whole, ← most, highest]

/-! ## Search -/

theorem contains_of_candidate {interval : Interval} {value place digits : Nat}
    (found : candidate interval value place = some digits) : interval.contains (digits * 10 ^ place) = true := by
  unfold candidate at found
  simp only [Nat.pow_eq] at found
  split at found
  · cases found
  · next below _ =>
    cases found
    exact below
  · next above =>
    cases found
    exact above
  · next below above =>
    split at found
    · cases found
      exact below
    · cases found
      rcases Nat.mod_two_eq_zero_or_one (value / 10 ^ place) with even | odd
      · rw [even]
        exact below
      · rw [odd]
        exact above
    · cases found
      exact above

theorem digits_of_candidate {interval : Interval} {value place digits : Nat}
    (found : candidate interval value place = some digits) : value / 10 ^ place ≤ digits := by
  unfold candidate at found
  simp only [Nat.pow_eq] at found
  split at found
  · cases found
  · exact (Option.some.inj found).le
  · exact (Nat.le_succ _).trans_eq (Option.some.inj found)
  · split at found
    · exact (Option.some.inj found).le
    · exact (Nat.le_add_right _ _).trans_eq (Option.some.inj found)
    · exact (Nat.le_succ _).trans_eq (Option.some.inj found)

theorem contains_search {interval : Interval} {value : Nat} (centre : interval.contains value = true) (place : Nat) :
    interval.contains (search interval value place).units = true := by
  induction place with
  | zero => simpa [search, Decimal.units] using centre
  | succ place ih =>
      unfold search
      split
      · next found => exact contains_of_candidate found
      · exact ih

theorem digits_search (interval : Interval) (value place : Nat) :
    value / 10 ^ (search interval value place).place ≤ (search interval value place).digits := by
  induction place with
  | zero => simp [search]
  | succ place ih =>
      unfold search
      split
      · next found => exact digits_of_candidate found
      · exact ih

theorem fits_shortest (magnitude : Magnitude) : Fits magnitude (shortest magnitude).units :=
  fits_of_contains (contains_search (contains_centre magnitude) _)

/-! ## Sizes -/

/-- Nothing but zero fits zero. -/
theorem Fits.significand_eq_zero (h : Fits magnitude 0) : magnitude.significand = 0 := by
  have least : 4 * magnitude.units * fivePower ≤ magnitude.below * fivePower := by
    have := h.lower
    rwa [← Nat.mul_assoc, Nat.mul_zero, Nat.zero_add] at this
  have small := (Nat.le_of_mul_le_mul_right least fivePower_pos).trans magnitude.below_le
  have product : 4 * magnitude.units = 4 * magnitude.significand * 2 ^ magnitude.shift := (Nat.mul_assoc _ _ _).symm
  rw [product] at small
  have := Nat.le_of_mul_le_mul_right small (Nat.two_pow_pos _)
  omega

/-- A power of ten that a magnitude has reached its shortest decimal has reached. -/
theorem pow_le_units_shortest {place : Nat} (reached : 10 ^ place ≤ magnitude.units * fivePower) :
    10 ^ place ≤ (shortest magnitude).units := by
  have digits : magnitude.units * fivePower / 10 ^ (shortest magnitude).place ≤ (shortest magnitude).digits :=
    digits_search _ _ _
  have fits := fits_shortest magnitude
  generalize shortest magnitude = decimal at *
  change 10 ^ place ≤ decimal.digits * 10 ^ decimal.place
  rcases le_or_gt decimal.place place with fine | coarse
  · have quotient : 10 ^ (place - decimal.place) ≤ magnitude.units * fivePower / 10 ^ decimal.place := by
      rw [Nat.le_div_iff_mul_le (Nat.pow_pos (by decide)), ← Nat.pow_add, Nat.sub_add_cancel fine]
      exact reached
    calc 10 ^ place = 10 ^ (place - decimal.place) * 10 ^ decimal.place := by
          rw [← Nat.pow_add, Nat.sub_add_cancel fine]
      _ ≤ decimal.digits * 10 ^ decimal.place := Nat.mul_le_mul_right _ (quotient.trans digits)
  · have nonzero : decimal.digits ≠ 0 := by
      intro zero
      have nothing : decimal.units = 0 := by rw [Decimal.units, zero, Nat.zero_mul]
      rw [nothing] at fits
      rw [Magnitude.units, fits.significand_eq_zero, Nat.zero_mul, Nat.zero_mul] at reached
      exact absurd reached (Nat.not_le.mpr (Nat.pow_pos (by decide)))
    calc 10 ^ place ≤ 10 ^ decimal.place := Nat.pow_le_pow_right (by decide) coarse.le
      _ ≤ decimal.digits * 10 ^ decimal.place := Nat.le_mul_of_pos_left _ (Nat.pos_of_ne_zero nonzero)

theorem two_mul_pow_le_of_broken (broken : magnitude.whole? = none) :
    2 * 2 ^ magnitude.shift ≤ unitsPerOne := by
  have rest : magnitude.units % unitsPerOne ≠ 0 := by
    intro whole
    rw [Magnitude.whole?, if_pos whole] at broken
    cases broken
  have small : magnitude.shift < 1074 := by
    refine Nat.lt_of_not_le fun large => rest (Nat.mod_eq_zero_of_dvd ?_)
    delta unitsPerOne
    generalize 1074 = exponent at *
    exact (Nat.pow_dvd_pow 2 large).mul_left _
  delta unitsPerOne
  generalize 1074 = exponent at *
  calc 2 * 2 ^ magnitude.shift = 2 ^ (magnitude.shift + 1) := (Nat.pow_succ').symm
    _ ≤ 2 ^ exponent := Nat.pow_le_pow_right (by decide) small

/-- The shortest decimal of a magnitude that is not whole has no more than sixteen digits before the point. -/
theorem units_shortest_lt (proper : magnitude.Proper) (broken : magnitude.whole? = none) :
    (shortest magnitude).units < 10 ^ 16 * (unitsPerOne * fivePower) := by
  have upper := (fits_shortest magnitude).upper
  have gap : 2 * (2 ^ magnitude.shift * fivePower) ≤ unitsPerOne * fivePower := by
    rw [← Nat.mul_assoc]
    exact Nat.mul_le_mul_right _ (two_mul_pow_le_of_broken broken)
  have room := Nat.mul_le_mul_right (2 ^ magnitude.shift * fivePower) (Nat.succ_le_of_lt proper.bounded)
  have product : magnitude.units * fivePower = magnitude.significand * (2 ^ magnitude.shift * fivePower) :=
    Nat.mul_assoc _ _ _
  have pos : 0 < 2 ^ magnitude.shift * fivePower := Nat.mul_pos (Nat.two_pow_pos _) fivePower_pos
  rw [Nat.succ_mul] at room
  rw [product] at upper
  omega

end Decimal

end LoxLang
