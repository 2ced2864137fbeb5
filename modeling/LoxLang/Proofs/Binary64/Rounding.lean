import LoxLang.Binary64
import Mathlib.Tactic.Ring
import Mathlib.Tactic.Linarith

/-!
Rounding. Each magnitude has an interval of quotients that are rounded to it: they lie no further from it than half
way to its neighbours, the ends included where the significand is even. The lower neighbour of a power of two
is nearer than the upper one; what lies just below is rounded within the next lower shift and carried up.
-/

namespace LoxLang.Binary64

/-- A whole number that is nearest to a quotient, and even if another one is as near. -/
structure IsNearest (dividend divisor result : Nat) : Prop where
  lower : 2 * (result * divisor) ≤ 2 * dividend + divisor
  upper : 2 * dividend ≤ 2 * (result * divisor) + divisor
  even : 2 * (result * divisor) = 2 * dividend + divisor ∨ 2 * dividend = 2 * (result * divisor) + divisor →
    result % 2 = 0

/-- There are two whole numbers around a quotient. -/
theorem IsNearest.around {quotient rest divisor result : Nat} (h : IsNearest (quotient * divisor + rest) divisor result)
    (small : rest < divisor) : result = quotient ∨ result = quotient + 1 := by
  obtain ⟨lower, upper, -⟩ := h
  rcases Nat.lt_or_ge result quotient with less | least
  · have := Nat.mul_le_mul_right divisor less
    rw [Nat.succ_mul] at this
    omega
  rcases Nat.lt_or_ge (quotient + 1) result with more | most
  · have := Nat.mul_le_mul_right divisor more
    rw [Nat.succ_mul, Nat.succ_mul] at this
    omega
  · omega

theorem roundHalfEven_of_isNearest {dividend divisor result : Nat} (pos : 0 < divisor)
    (h : IsNearest dividend divisor result) : roundHalfEven dividend divisor = result := by
  have small := Nat.mod_lt dividend pos
  have split : dividend = dividend / divisor * divisor + dividend % divisor := by
    rw [Nat.mul_comm]
    exact (Nat.div_add_mod _ _).symm
  unfold roundHalfEven
  generalize dividend / divisor = quotient at *
  generalize dividend % divisor = rest at *
  subst split
  have around := h.around small
  obtain ⟨lower, upper, even⟩ := h
  have next : (quotient + 1) * divisor = quotient * divisor + divisor := Nat.succ_mul _ _
  cases order : compare (2 * rest) divisor with
  | lt =>
      have := Nat.compare_eq_lt.mp order
      rcases around with rfl | rfl
      · rfl
      · omega
  | eq =>
      have half := Nat.compare_eq_eq.mp order
      simp only
      rcases around with rfl | rfl
      · have := even (.inr (by omega))
        omega
      · have := even (.inl (by omega))
        omega
  | gt =>
      have := Nat.compare_eq_gt.mp order
      rcases around with rfl | rfl
      · omega
      · rfl

namespace Magnitude

/-- A magnitude of a number of the format: the leading bit is there unless the shift is the least one. -/
structure Proper (magnitude : Magnitude) : Prop where
  bounded : magnitude.significand < 2 ^ 53
  leading : magnitude.shift = 0 ∨ 2 ^ 52 ≤ magnitude.significand
  finite : magnitude.word < infinityWord

/-- Four times the way to what is half way to the lower neighbour. -/
def below (magnitude : Magnitude) : Nat :=
  if magnitude.significand = 2 ^ 52 ∧ 0 < magnitude.shift then 2 ^ magnitude.shift else 2 * 2 ^ magnitude.shift

/-- A quotient, in units, that is to be rounded to the magnitude. -/
structure Attracts (magnitude : Magnitude) (dividend divisor : Nat) : Prop where
  lower : 4 * (magnitude.units * divisor) ≤ 4 * dividend + magnitude.below * divisor
  upper : 4 * dividend ≤ 4 * (magnitude.units * divisor) + 2 * 2 ^ magnitude.shift * divisor
  even : 4 * (magnitude.units * divisor) = 4 * dividend + magnitude.below * divisor ∨
    4 * dividend = 4 * (magnitude.units * divisor) + 2 * 2 ^ magnitude.shift * divisor →
    magnitude.significand % 2 = 0

end Magnitude

theorem log2_sub_eq {quotient shift : Nat} (upper : quotient < 2 ^ (shift + 53))
    (lower : shift = 0 ∨ 2 ^ (shift + 52) ≤ quotient) : quotient.log2 - 52 = shift := by
  rcases lower with rfl | lower
  · rcases Nat.eq_zero_or_pos quotient with rfl | pos
    · rfl
    · have := (Nat.log2_lt pos.ne').mpr upper
      omega
  · have pos : quotient ≠ 0 := (Nat.two_pow_pos _).trans_le lower |>.ne'
    rw [(Nat.log2_eq_iff pos).mpr ⟨lower, upper⟩]
    omega

theorem nearestMagnitude_eq {dividend divisor shift : Nat} (pos : 0 < divisor)
    (upper : dividend * unitsPerOne < 2 ^ 53 * (divisor * 2 ^ shift))
    (lower : shift = 0 ∨ 2 ^ 52 * (divisor * 2 ^ shift) ≤ dividend * unitsPerOne) :
    nearestMagnitude dividend divisor =
      ⟨roundHalfEven (dividend * unitsPerOne) (divisor * 2 ^ shift), shift⟩ := by
  have same : (dividend * unitsPerOne / divisor).log2 - 52 = shift := by
    refine log2_sub_eq ?_ (lower.imp_right fun lower => ?_)
    · rw [Nat.div_lt_iff_lt_mul pos, Nat.pow_add]
      exact upper.trans_eq (by ring)
    · rw [Nat.le_div_iff_mul_le pos, Nat.pow_add]
      exact (by ring : _ = _).trans_le lower
  unfold nearestMagnitude
  simp only [same]
  rfl

namespace Magnitude

variable {value divisor significand shift : Nat}

theorem below_le (magnitude : Magnitude) : magnitude.below ≤ 2 * 2 ^ magnitude.shift := by
  unfold below
  split
  · omega
  · exact Nat.le_refl _

theorem below_mul_le (divisor : Nat) : below ⟨significand, shift⟩ * divisor ≤ 2 * (divisor * 2 ^ shift) :=
  calc below ⟨significand, shift⟩ * divisor ≤ 2 * 2 ^ shift * divisor := Nat.mul_le_mul_right _ (below_le _)
    _ = 2 * (divisor * 2 ^ shift) := by ring

/-- The interval of a magnitude, measured in the units that its significand counts. -/
theorem Attracts.scaled (h : (⟨significand, shift⟩ : Magnitude).Attracts value divisor) :
    4 * (significand * (divisor * 2 ^ shift)) ≤ 4 * value + below ⟨significand, shift⟩ * divisor ∧
      4 * value ≤ 4 * (significand * (divisor * 2 ^ shift)) + 2 * (divisor * 2 ^ shift) ∧
      (4 * (significand * (divisor * 2 ^ shift)) = 4 * value + below ⟨significand, shift⟩ * divisor ∨
        4 * value = 4 * (significand * (divisor * 2 ^ shift)) + 2 * (divisor * 2 ^ shift) →
        significand % 2 = 0) := by
  obtain ⟨lower, upper, even⟩ := h
  have units_eq : (⟨significand, shift⟩ : Magnitude).units * divisor = significand * (divisor * 2 ^ shift) := by
    change significand * 2 ^ shift * divisor = _
    ring
  have above_eq : 2 * 2 ^ shift * divisor = 2 * (divisor * 2 ^ shift) := by ring
  simp only at upper even
  rw [units_eq, above_eq] at upper even
  rw [units_eq] at lower
  exact ⟨lower, upper, even⟩

theorem Attracts.isNearest (h : (⟨significand, shift⟩ : Magnitude).Attracts value divisor) :
    IsNearest value (divisor * 2 ^ shift) significand := by
  obtain ⟨lower, upper, even⟩ := h.scaled
  have below_le : below ⟨significand, shift⟩ * divisor ≤ 2 * (divisor * 2 ^ shift) := below_mul_le divisor
  refine ⟨by omega, by omega, fun tie => even ?_⟩
  rcases tie with lowest | highest
  · exact .inl (by omega)
  · exact .inr (by omega)

/-- Nothing that is attracted is rounded up to the next power of two. -/
theorem Attracts.under (h : (⟨significand, shift⟩ : Magnitude).Attracts value divisor) (bounded : significand < 2 ^ 53)
    (pos : 0 < divisor * 2 ^ shift) : value < 2 ^ 53 * (divisor * 2 ^ shift) := by
  obtain ⟨-, upper, -⟩ := h.scaled
  have room := Nat.mul_le_mul_right (divisor * 2 ^ shift) (Nat.succ_le_of_lt bounded)
  rw [Nat.succ_mul] at room
  omega

/-- Only a power of two attracts what is less than the least significand of its shift. -/
theorem Attracts.eq_of_lt (h : (⟨significand, shift⟩ : Magnitude).Attracts value divisor)
    (leading : 2 ^ 52 ≤ significand) (less : value < 2 ^ 52 * (divisor * 2 ^ shift)) : significand = 2 ^ 52 := by
  obtain ⟨lower, -, -⟩ := h.scaled
  have below_le : below ⟨significand, shift⟩ * divisor ≤ 2 * (divisor * 2 ^ shift) := below_mul_le divisor
  rcases Nat.lt_or_ge (2 ^ 52) significand with more | most
  · have room := Nat.mul_le_mul_right (divisor * 2 ^ shift) (Nat.succ_le_of_lt more)
    rw [Nat.succ_mul] at room
    omega
  · exact Nat.le_antisymm most leading

/-- What a power of two attracts from below is carried up to it from the next lower shift. -/
theorem Attracts.carried (h : (⟨2 ^ 52, shift + 1⟩ : Magnitude).Attracts value divisor)
    (less : value < 2 ^ 53 * (divisor * 2 ^ shift)) :
    IsNearest value (divisor * 2 ^ shift) (2 ^ 53) ∧ 2 ^ 52 * (divisor * 2 ^ shift) ≤ value := by
  obtain ⟨lower, -, -⟩ := h.scaled
  have double : divisor * 2 ^ (shift + 1) = 2 * (divisor * 2 ^ shift) := by ring
  have below_eq : below ⟨2 ^ 52, shift + 1⟩ * divisor = 2 * (divisor * 2 ^ shift) := by
    rw [← double, below, if_pos ⟨rfl, Nat.succ_pos _⟩, Nat.mul_comm]
  exact ⟨⟨by omega, by omega, fun _ => by decide⟩, by omega⟩

/-- What a magnitude attracts is rounded to it. -/
theorem word_nearestMagnitude {magnitude : Magnitude} {dividend : Nat} (proper : magnitude.Proper) (pos : 0 < divisor)
    (h : magnitude.Attracts (dividend * unitsPerOne) divisor) :
    (nearestMagnitude dividend divisor).word = magnitude.word := by
  obtain ⟨bounded, leading, -⟩ := proper
  obtain ⟨significand, shift⟩ := magnitude
  have gap_pos (shift : Nat) : 0 < divisor * 2 ^ shift := Nat.mul_pos pos (Nat.two_pow_pos _)
  by_cases within : shift = 0 ∨ 2 ^ 52 * (divisor * 2 ^ shift) ≤ dividend * unitsPerOne
  · have under := h.under bounded (gap_pos shift)
    rw [nearestMagnitude_eq pos under within, roundHalfEven_of_isNearest (gap_pos shift) h.isNearest]
  · obtain ⟨nonzero, small⟩ := not_or.mp within
    have less := Nat.lt_of_not_le small
    obtain rfl := h.eq_of_lt (leading.resolve_left nonzero) less
    obtain ⟨shift, rfl⟩ := Nat.exists_eq_add_one_of_ne_zero nonzero
    have double : 2 ^ 52 * (divisor * 2 ^ (shift + 1)) = 2 ^ 53 * (divisor * 2 ^ shift) := by ring
    have under := less.trans_eq double
    obtain ⟨nearest, least⟩ := h.carried under
    rw [nearestMagnitude_eq pos under (.inr least), roundHalfEven_of_isNearest (gap_pos shift) nearest]
    change shift * 2 ^ 52 + 2 ^ 53 = (shift + 1) * 2 ^ 52 + 2 ^ 52
    ring

end Magnitude

end LoxLang.Binary64
