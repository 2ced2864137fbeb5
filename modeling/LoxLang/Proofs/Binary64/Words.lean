import LoxLang.Proofs.Binary64.Rounding
import Mathlib

/-!
Words of numbers. A finite number is told by its sign and its magnitude, and negation changes the sign alone; a
quotient that its magnitude attracts is rounded to it bit for bit.
-/

namespace LoxLang.Binary64

open Float.Model

/-! ## Fields -/

theorem Magnitude.word_ofFields (exponent fraction : Nat) :
    (ofFields exponent fraction).word = exponent * 2 ^ 52 + fraction := by
  unfold ofFields
  split
  · next zero =>
    rw [zero]
    rfl
  · next nonzero =>
    change (exponent - 1) * 2 ^ 52 + (2 ^ 52 + fraction) = _
    omega

theorem Magnitude.proper_ofFields {exponent fraction : Nat} (finite : exponent < 2047) (small : fraction < 2 ^ 52) :
    (ofFields exponent fraction).Proper := by
  refine ⟨?_, ?_, ?_⟩
  · unfold ofFields
    split
    · exact small.trans (by decide)
    · change 2 ^ 52 + fraction < 2 ^ 53
      omega
  · unfold ofFields
    split
    · exact .inl rfl
    · exact .inr (Nat.le_add_right _ _)
  · rw [word_ofFields]
    change _ < 2047 * 2 ^ 52
    omega

/-- What a word tells of a finite number: the highest bit is the sign, and the others are the magnitude. -/
theorem Parts.finite_ofWord {word : Nat} {negative : Bool} {magnitude : Magnitude}
    (finite : ofWord word = .finite negative magnitude) :
    magnitude.Proper ∧ negative = decide (2 ^ 63 ≤ word) ∧ magnitude.word = word % 2 ^ 63 := by
  unfold ofWord at finite
  simp only at finite
  split at finite
  · split at finite <;> cases finite
  next other =>
  change ¬ word / 2 ^ 52 % 2 ^ 11 = 2047 at other
  obtain ⟨rfl, rfl⟩ := Parts.finite.inj finite
  refine ⟨Magnitude.proper_ofFields ?_ (Nat.mod_lt _ (Nat.two_pow_pos _)), rfl, ?_⟩
  · change word / 2 ^ 52 % 2 ^ 11 < 2047
    omega
  · rw [Magnitude.word_ofFields]
    change word / 2 ^ 52 % 2 ^ 11 * 2 ^ 52 + word % 2 ^ 52 = word % 2 ^ 63
    omega

/-! ## Numbers -/

theorem toNat_unpackExponent (bits : BitVec 64) :
    (@UnpackedFloat.unpackExponent Format.binary64 bits).toNat = bits.toNat / 2 ^ 52 % 2 ^ 11 := by
  rw [UnpackedFloat.unpackExponent_def, BitVec.extractLsb'_toNat, Nat.shiftRight_eq_div_pow]

theorem valid_of_finite {bits : BitVec 64} (finite : bits.toNat / 2 ^ 52 % 2 ^ 11 ≠ 2047) :
    Format.binary64.Valid bits := by
  refine ⟨fun ones _ => (finite ?_).elim⟩
  rw [← toNat_unpackExponent, ones]
  rfl

theorem toBits_ofBits {bits : UInt64} (finite : bits.toNat / 2 ^ 52 % 2 ^ 11 ≠ 2047) :
    (Float.ofBits bits).toBits = bits := by
  have valid : Format.binary64.Valid bits.toBitVec := valid_of_finite finite
  exact UInt64.toBitVec_inj.mp (UnpackedFloat.pack_unpack_of_valid valid)

theorem unpack_eq_neg {positive negative : BitVec Format.binary64.numBits}
    (sign : negative.toNat = 2 ^ 63 + positive.toNat) :
    UnpackedFloat.unpack Format.binary64 negative = (UnpackedFloat.unpack Format.binary64 positive).neg := by
  have small : positive.toNat < 2 ^ 63 := by
    have whole : negative.toNat < 2 ^ 64 := negative.isLt
    omega
  have mantissa : UnpackedFloat.unpackMantissa negative = UnpackedFloat.unpackMantissa positive := by
    apply BitVec.eq_of_toNat_eq
    simp only [UnpackedFloat.unpackMantissa_def, BitVec.extractLsb'_toNat, Nat.shiftRight_eq_div_pow]
    omega
  have exponent : UnpackedFloat.unpackExponent negative = UnpackedFloat.unpackExponent positive := by
    apply BitVec.eq_of_toNat_eq
    simp only [UnpackedFloat.unpackExponent_def, BitVec.extractLsb'_toNat, Nat.shiftRight_eq_div_pow]
    omega
  have negativeSign : UnpackedFloat.unpackSign negative = 1#1 := by
    apply BitVec.eq_of_toNat_eq
    simp only [UnpackedFloat.unpackSign_def, BitVec.extractLsb'_toNat, Nat.shiftRight_eq_div_pow]
    change negative.toNat / 2 ^ 63 % 2 ^ 1 = 1
    omega
  have positiveSign : UnpackedFloat.unpackSign positive = 0#1 := by
    apply BitVec.eq_of_toNat_eq
    simp only [UnpackedFloat.unpackSign_def, BitVec.extractLsb'_toNat, Nat.shiftRight_eq_div_pow]
    change positive.toNat / 2 ^ 63 % 2 ^ 1 = 0
    omega
  simp only [UnpackedFloat.unpack, mantissa, exponent, negativeSign, positiveSign]
  split
  · split <;> rfl
  · split
    · split <;> rfl
    · rfl

/-- A negative number is the one whose word lacks the highest bit, negated. -/
theorem neg_eq {positive negative : Float} (sign : negative.toBits.toNat = 2 ^ 63 + positive.toBits.toNat) :
    -positive = negative := by
  apply Float.toBits_inj.mp
  apply UInt64.toBitVec_inj.mp
  have opposite : UnpackedFloat.unpack Format.binary64 negative.toBits.toBitVec =
      (UnpackedFloat.unpack Format.binary64 positive.toBits.toBitVec).neg := unpack_eq_neg sign
  change UnpackedFloat.pack Format.binary64 (UnpackedFloat.unpack Format.binary64 positive.toBits.toBitVec).neg = _
  rw [← opposite]
  exact UnpackedFloat.pack_unpack_of_valid negative.toModel.valid

/-- A quotient, in units, that the magnitude of a finite number attracts is rounded to the number but for its
sign. -/
theorem nearest_eq {number : Float} {negative : Bool} {magnitude : Magnitude}
    (finite : Parts.ofFloat number = .finite negative magnitude) {dividend divisor : Nat} (pos : 0 < divisor)
    (attracts : magnitude.Attracts (dividend * unitsPerOne) divisor) :
    (if negative then -nearest dividend divisor else nearest dividend divisor) = number := by
  obtain ⟨proper, sign, word⟩ := Parts.finite_ofWord finite
  have rounded := Magnitude.word_nearestMagnitude proper pos attracts
  have nearest_eq : nearest dividend divisor = .ofBits (UInt64.ofNat magnitude.word) := by
    rw [nearest, rounded, Nat.min_eq_left proper.finite.le]
  have bound : number.toBits.toNat < 2 ^ 64 := number.toBits.toNat_lt
  rw [nearest_eq, word]
  cases negative with
  | false =>
      have small := of_decide_eq_false sign.symm
      rw [Nat.mod_eq_of_lt (Nat.lt_of_not_le small), UInt64.ofNat_toNat]
      exact Float.ofBits_toBits number
  | true =>
      have large := of_decide_eq_true sign.symm
      have below : number.toBits.toNat % 2 ^ 63 < 2047 * 2 ^ 52 := word ▸ proper.finite
      have same : (UInt64.ofNat (number.toBits.toNat % 2 ^ 63)).toNat = number.toBits.toNat % 2 ^ 63 :=
        UInt64.toNat_ofNat_of_lt' (below.trans (by decide))
      refine neg_eq ?_
      rw [toBits_ofBits (by rw [same]; omega), same]
      change 2 ^ 63 ≤ number.toBits.toNat at large
      omega

/-! ## Numbers that are not finite -/

theorem Parts.word_of_infinite {word : Nat} {negative : Bool} (infinite : ofWord word = .infinite negative)
    (bound : word < 2 ^ 64) : word = 2047 * 2 ^ 52 + if negative then 2 ^ 63 else 0 := by
  unfold ofWord at infinite
  simp only at infinite
  split at infinite
  · next ones =>
    split at infinite
    · next zeros =>
      obtain rfl := Parts.infinite.inj infinite
      change word / 2 ^ 52 % 2 ^ 11 = 2047 at ones
      change word % 2 ^ 52 = 0 at zeros
      change word = 2047 * 2 ^ 52 + if decide (2 ^ 63 ≤ word) = true then 2 ^ 63 else 0
      split
      · next large =>
        have := of_decide_eq_true large
        omega
      · next small =>
        have : ¬ 2 ^ 63 ≤ word := fun large => small (decide_eq_true large)
        omega
    · cases infinite
  · cases infinite

theorem Parts.fields_of_nan {word : Nat} (nan : ofWord word = .nan) :
    word / 2 ^ 52 % 2 ^ 11 = 2047 ∧ word % 2 ^ 52 ≠ 0 := by
  unfold ofWord at nan
  simp only at nan
  split at nan
  · next ones =>
    split at nan
    · cases nan
    · next some => exact ⟨ones, some⟩
  · cases nan

/-- There are two infinite numbers. -/
theorem eq_of_infinite {number other : Float} {negative : Bool} (first : Parts.ofFloat number = .infinite negative)
    (second : Parts.ofFloat other = .infinite negative) : number = other := by
  apply Float.toBits_inj.mp
  apply UInt64.toNat_inj.mp
  rw [Parts.word_of_infinite first number.toBits.toNat_lt, Parts.word_of_infinite second other.toBits.toNat_lt]

theorem bits_of_nan {number : Float} (nan : Parts.ofFloat number = .nan) :
    number.toBits.toBitVec = UnpackedFloat.packedNaN Format.binary64 := by
  obtain ⟨ones, some⟩ := Parts.fields_of_nan nan
  refine number.toModel.valid.eq_packedNaN ?_ ?_
  · apply BitVec.eq_of_toNat_eq
    rw [toNat_unpackExponent]
    exact ones
  · intro zeros
    have fraction := congrArg BitVec.toNat zeros
    rw [UnpackedFloat.unpackMantissa_def, BitVec.extractLsb'_toNat, Nat.shiftRight_zero] at fraction
    exact some fraction

/-- All words that stand for no number are one. -/
theorem eq_of_nan {number other : Float} (first : Parts.ofFloat number = .nan)
    (second : Parts.ofFloat other = .nan) : number = other := by
  apply Float.toBits_inj.mp
  apply UInt64.toBitVec_inj.mp
  rw [bits_of_nan first, bits_of_nan second]

end LoxLang.Binary64
