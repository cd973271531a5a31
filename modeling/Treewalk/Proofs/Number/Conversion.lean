import Treewalk.Proofs.Number.Nearest

/-!
# Decimals as machine numbers

A decimal is turned into a machine number by one product or quotient with a
power of ten, which is rounded once: **what is in the interval of a machine
number becomes that number** (`shape_toFloat`). There are two ways to go about
it. With few digits and a small exponent, the coefficient and the power are
machine numbers themselves, and both are exact; otherwise the machine works on
mantissas of any length. The exponents that are settled without a power of ten
are those of no machine number.
-/

namespace Treewalk

namespace Number

open Float.Model Float.Model.UnpackedFloat

variable {b : Binary} {x : ℚ}

/-! ## Whole numbers and powers of ten -/

/-- A whole number below `2 ^ 53` with the first of 53 bits set. -/
theorem normal_natCast {m : ℕ} (hpos : 0 < m) (hlt : m < 2 ^ 53) :
    m.log2 ≤ 52 ∧ 2 ^ 52 ≤ m * 2 ^ (52 - m.log2) ∧ m * 2 ^ (52 - m.log2) < 2 ^ 53 := by
  have hlog : m.log2 ≤ 52 := by
    have hlog := (Nat.log2_lt hpos.ne').2 hlt
    omega
  have hlow : 2 ^ m.log2 * 2 ^ (52 - m.log2) = 2 ^ 52 := by
    rw [← pow_add]
    congr 1
    omega
  have hhigh : 2 ^ (m.log2 + 1) * 2 ^ (52 - m.log2) = 2 ^ 53 := by
    rw [← pow_add]
    congr 1
    omega
  refine ⟨hlog, ?_, ?_⟩
  · rw [← hlow]
    exact Nat.mul_le_mul_right _ (Nat.log2_self_le hpos.ne')
  · rw [← hhigh]
    exact Nat.mul_lt_mul_of_pos_right Nat.lt_log2_self (by positivity)

/-- **A whole number below `2 ^ 53` is a machine number.** -/
theorem unpack_natCast {m : ℕ} (hpos : 0 < m) (hlt : m < 2 ^ 53) :
    ∃ mantissa exponent hmantissa,
      m.toUInt64.toFloat.toModel.unpack = .finite .positive mantissa exponent hmantissa ∧
        (mantissa : ℚ) * 2 ^ exponent = m ∧ 2 ^ 52 ≤ mantissa := by
  obtain ⟨hlog, hfull, hsmall⟩ := normal_natCast hpos hlt
  have hpos' : 0 < m * 2 ^ (52 - m.log2) := by positivity
  have hregular : (Binary.ofParts (m * 2 ^ (52 - m.log2)) (m.log2 - 52)).Regular :=
    Binary.regular_ofParts hpos' hsmall (by omega) (.inr hfull)
  have hvalue : ((m * 2 ^ (52 - m.log2) : ℕ) : ℚ) * 2 ^ ((m.log2 : ℤ) - 52) = m := by
    have hexponent : (m.log2 : ℤ) - 52 = -((52 - m.log2 : ℕ) : ℤ) := by omega
    rw [hexponent, zpow_neg, zpow_natCast]
    push_cast
    field_simp
  have hround : UnpackedFloat.ofNat .binary64 m =
      .finite .positive (m * 2 ^ (52 - m.log2)) (m.log2 - 52) hpos' := by
    have hscale : (0 - scaleOf m 0).toNat = 52 - m.log2 := by
      rw [scaleOf]
      omega
    have hexponent : (0 : ℤ) - (52 - m.log2 : ℕ) = m.log2 - 52 := by omega
    rw [UnpackedFloat.ofNat, UnpackedFloat.ofInt, UnpackedFloat.normalize,
      compare_gt_iff_gt.2 (Int.natCast_pos.2 hpos)]
    dsimp only
    rw [Int.toNat_natCast, UnpackedFloat.round]
    simp only [targetExponent_eq, decreaseExponent, hscale, Nat.shiftLeft_eq, hexponent]
    exact roundWithAccuracy_of_rounds hregular hregular.rounds_value .positive
      (locates_exact _ _) (.inl ((Nat.le_log2 hpos'.ne').2 hfull))
  have hword : m.toUInt64.toNat = m := by
    rw [Nat.toUInt64_eq, UInt64.toNat_ofNat']
    omega
  refine ⟨_, _, hpos', ?_, hvalue, hfull⟩
  change (Float.Model.pack (UnpackedFloat.ofNat .binary64 m.toUInt64.toNat)).unpack = _
  rw [hword, hround]
  exact unpack_pack ⟨hregular, by omega⟩

/-- A machine number taken apart that is a power of ten. -/
def IsPowerOfTen (k : ℕ) : UnpackedFloat → Prop
  | .finite .positive mantissa exponent _ =>
    mantissa * 2 ^ exponent.toNat = 10 ^ k * 2 ^ (-exponent).toNat
  | _ => False

instance (k : ℕ) : DecidablePred (IsPowerOfTen k)
  | .finite .positive .. => inferInstanceAs (Decidable (_ = _))
  | .finite .negative .. | .infinity _ | .zero _ | .notANumber => .isFalse id

theorem isPowerOfTen_table : ∀ k : Fin Float.exactlyRepresentablePowersOfTen.size,
    IsPowerOfTen k Float.exactlyRepresentablePowersOfTen[k].toModel.unpack := by
  decide +kernel

theorem IsPowerOfTen.exists {k : ℕ} {u : UnpackedFloat} (h : IsPowerOfTen k u) :
    ∃ mantissa exponent hmantissa, u = .finite .positive mantissa exponent hmantissa ∧
      (mantissa : ℚ) * 2 ^ exponent = 10 ^ k := by
  unfold IsPowerOfTen at h
  split at h
  case h_1 mantissa exponent hpos =>
    refine ⟨mantissa, exponent, hpos, rfl, ?_⟩
    have hsplit := Binary.pow_toNat_eq (two_ne_zero (α := ℚ)) exponent
    have hpower : (0 : ℚ) < 2 ^ (-exponent).toNat := by positivity
    have h' : (mantissa : ℚ) * 2 ^ exponent.toNat = 10 ^ k * 2 ^ (-exponent).toNat := by
      exact_mod_cast h
    rw [hsplit, ← mul_assoc] at h'
    exact mul_right_cancel₀ hpower.ne' h'
  case h_2 => exact h.elim

/-! ## Decimals -/

theorem shape_pack_of_regular (hb : b.Regular) (hmax : b.exponent ≤ 971) :
    shape (.ofModel (Float.Model.pack (.finite .positive b.mantissa b.exponent hb.pos))) =
      .finite false b := by
  have hparts := hb.eq_ofParts
  have hcanonical : Canonical (.finite .positive b.mantissa b.exponent hb.pos) :=
    ⟨hparts ▸ hb, hmax⟩
  rw [shape_pack hcanonical, Shape.ofUnpacked, ← hparts]
  rfl

variable {d : Decimal}

theorem coefficient_pos_of_rounds (hb : b.Regular) (hx : b.Rounds d.value) : 0 < d.coefficient := by
  have hpos := hx.pos hb
  by_contra hzero
  rw [Decimal.value, Nat.eq_zero_of_not_pos hzero, Nat.cast_zero, zero_mul] at hpos
  exact lt_irrefl 0 hpos

/-- Ten is more than the third power of two. -/
theorem two_zpow_le_ten_zpow {e : ℤ} (he : 0 ≤ e) : (2 : ℚ) ^ (3 * e) ≤ 10 ^ e := by
  rw [zpow_mul]
  exact zpow_le_zpow_left₀ he (by norm_num) (by norm_num)

theorem ten_zpow_le_two_zpow {e : ℤ} (he : e ≤ 0) : (10 : ℚ) ^ e ≤ 2 ^ (3 * e) := by
  have hle := two_zpow_le_ten_zpow (Int.neg_nonneg_of_nonpos he)
  rw [mul_neg, zpow_neg, zpow_neg] at hle
  exact (inv_le_inv₀ (zpow_pos two_pos _) (zpow_pos (by norm_num) _)).1 hle

/-- The exponents of decimals that become machine numbers. -/
theorem exponent_bounds (hb : b.Regular) (hmax : b.exponent ≤ 971) (hx : b.Rounds d.value) :
    d.exponent ≤ 400 ∧ -1200 ≤ d.coefficient.log2 + 3 * d.exponent := by
  have hpos := coefficient_pos_of_rounds hb hx
  have hcoefficient : (1 : ℚ) ≤ d.coefficient := by exact_mod_cast hpos
  constructor
  · by_contra! hlarge
    have hlt := hx.lt_two_zpow hb hmax
    have hge : (2 : ℚ) ^ (1024 : ℤ) ≤ d.value := by
      calc (2 : ℚ) ^ (1024 : ℤ) ≤ 2 ^ (3 * d.exponent) := zpow_le_zpow_right₀ one_le_two (by omega)
        _ ≤ 10 ^ d.exponent := two_zpow_le_ten_zpow (by omega)
        _ ≤ d.coefficient * 10 ^ d.exponent :=
          le_mul_of_one_le_left (zpow_pos (by norm_num) _).le hcoefficient
    exact hlt.not_ge hge
  · by_contra! hsmall
    have hlt := hx.two_zpow_lt hb
    have hcoefficient' : (d.coefficient : ℚ) ≤ 2 ^ ((d.coefficient.log2 : ℤ) + 1) := by
      have hle : d.coefficient ≤ 2 ^ (d.coefficient.log2 + 1) := Nat.lt_log2_self.le
      exact_mod_cast hle
    have hpower : (10 : ℚ) ^ d.exponent ≤ 2 ^ (3 * d.exponent) := ten_zpow_le_two_zpow (by omega)
    have hle : d.value ≤ 2 ^ (-1075 : ℤ) := by
      calc d.value ≤ 2 ^ ((d.coefficient.log2 : ℤ) + 1) * 2 ^ (3 * d.exponent) :=
            mul_le_mul hcoefficient' hpower (zpow_pos (by norm_num) _).le (by positivity)
        _ = 2 ^ ((d.coefficient.log2 : ℤ) + 1 + 3 * d.exponent) := (zpow_add₀ two_ne_zero _ _).symm
        _ ≤ 2 ^ (-1075 : ℤ) := zpow_le_zpow_right₀ one_le_two (by omega)
    exact hlt.not_ge hle

/-- With few digits and a small exponent, coefficient and power are exact. -/
theorem shape_ofScientific_small (hb : b.Regular) (hmax : b.exponent ≤ 971)
    (hx : b.Rounds d.value) (hsmall : d.coefficient < 2 ^ 53 ∧ d.exponent.natAbs ≤ 22) :
    shape (Float.ofScientific d.coefficient (decide (d.exponent < 0)) d.exponent.natAbs) =
      .finite false b := by
  have hpos := coefficient_pos_of_rounds hb hx
  obtain ⟨m, e, hm, hunpack, hvalue, hfull⟩ := unpack_natCast hpos hsmall.1
  have hindex : d.exponent.natAbs < Float.exactlyRepresentablePowersOfTen.size := by
    simp [Float.exactlyRepresentablePowersOfTen]
    omega
  obtain ⟨m', e', hm', hunpack', hvalue'⟩ := (isPowerOfTen_table ⟨_, hindex⟩).exists
  have hvalue' : (m' : ℚ) * 2 ^ e' = 10 ^ d.exponent.natAbs := hvalue'
  rw [Float.ofScientific, dif_pos hsmall]
  by_cases hnegative : d.exponent < 0
  · have hquotient : d.value = m * 2 ^ e / (m' * 2 ^ e') := by
      have hexponent : d.exponent = -(d.exponent.natAbs : ℤ) := by omega
      rw [Decimal.value, hvalue, hvalue', div_eq_mul_inv, hexponent, zpow_neg, zpow_natCast,
        ← hexponent]
    rw [hquotient] at hx
    have hdiv := div_of_rounds hm hm' hb hx
    rw [← hunpack, ← hunpack'] at hdiv
    rw [if_pos (decide_eq_true hnegative), ← shape_pack_of_regular hb hmax, ← hdiv]
    rfl
  · have hproduct : d.value = m * 2 ^ e * (m' * 2 ^ e') := by
      have hexponent : d.exponent = (d.exponent.natAbs : ℤ) := by omega
      rw [Decimal.value, hvalue, hvalue', hexponent, zpow_natCast, ← hexponent]
    rw [hproduct] at hx
    have hfine : 52 ≤ (m * m').log2 := by
      rw [Nat.le_log2 (by positivity)]
      calc 2 ^ 52 ≤ m := hfull
        _ ≤ m * m' := Nat.le_mul_of_pos_right m hm'
    have hmul := mul_of_rounds hm hm' hb hx hfine
    rw [← hunpack, ← hunpack'] at hmul
    rw [if_neg (by simpa using hnegative), ← shape_pack_of_regular hb hmax, ← hmul]
    rfl

/-- Otherwise the machine works on long mantissas. -/
theorem shape_ofScientific_large (hb : b.Regular) (hmax : b.exponent ≤ 971)
    (hx : b.Rounds d.value) :
    shape (.ofModel (Float.Model.ofScientific d.coefficient d.exponent)) = .finite false b := by
  have hpos := coefficient_pos_of_rounds hb hx
  obtain ⟨hlarge, hsmall⟩ := exponent_bounds hb hmax hx
  have hnotLarge : ¬ d.exponent > 2 ^ Format.binary64.exponentBits := by
    change ¬ d.exponent > 2048
    omega
  have hnotSmall : ¬ d.exponent < -((2 ^ Format.binary64.exponentBits : ℤ) + d.coefficient.log2) := by
    change ¬ d.exponent < -(2048 + (d.coefficient.log2 : ℤ))
    omega
  have hpower : 0 < 10 ^ d.exponent.toNat := by positivity
  rw [← shape_pack_of_regular hb hmax, Float.Model.ofScientific, UnpackedFloat.ofScientific,
    dif_neg hpos.ne', if_neg hnotLarge, if_neg hnotSmall]
  congr 3
  split
  case isTrue hnonneg =>
    have hexponent : d.exponent = (d.exponent.toNat : ℤ) := (Int.toNat_of_nonneg hnonneg).symm
    have hproduct : d.value = (d.coefficient <<< Format.binary64.mantissaBits : ℕ) *
        2 ^ (-(Format.binary64.mantissaBits : ℤ)) * ((10 ^ d.exponent.toNat : ℕ) * 2 ^ (0 : ℤ)) := by
      rw [Decimal.value, hexponent, zpow_natCast, ← hexponent, Nat.shiftLeft_eq, zpow_neg,
        zpow_natCast, zpow_zero]
      push_cast
      field_simp
    have hfine : 52 ≤ (d.coefficient <<< Format.binary64.mantissaBits * 10 ^ d.exponent.toNat).log2 := by
      rw [Nat.shiftLeft_eq, Nat.le_log2 (by positivity)]
      calc 2 ^ 52 ≤ d.coefficient * 2 ^ 53 := by omega
        _ ≤ d.coefficient * 2 ^ 53 * 10 ^ d.exponent.toNat := Nat.le_mul_of_pos_right _ hpower
    rw [hproduct] at hx
    exact mul_of_rounds _ _ hb hx hfine
  case isFalse hnegative =>
    have hexponent : d.exponent = -((-d.exponent).toNat : ℤ) := by omega
    have hquotient : d.value = (d.coefficient : ℕ) * 2 ^ (0 : ℤ) /
        ((10 ^ (-d.exponent).toNat : ℕ) * 2 ^ (0 : ℤ)) := by
      rw [Decimal.value, hexponent, zpow_neg, zpow_natCast, ← hexponent, zpow_zero]
      push_cast
      field_simp
    rw [hquotient] at hx
    exact div_of_rounds _ _ hb hx

/-- **A decimal becomes the machine number whose interval it is in.** -/
theorem shape_toFloat (hb : b.Regular) (hmax : b.exponent ≤ 971) (hx : b.Rounds d.value) :
    shape d.toFloat = .finite false b := by
  have hpos := coefficient_pos_of_rounds hb hx
  obtain ⟨hlarge, hsmall⟩ := exponent_bounds hb hmax hx
  rw [Decimal.toFloat, if_neg hpos.ne', if_neg (by omega), if_neg (by omega)]
  by_cases hfast : d.coefficient < 2 ^ 53 ∧ d.exponent.natAbs ≤ 22
  · exact shape_ofScientific_small hb hmax hx hfast
  · rw [Float.ofScientific, dif_neg hfast]
    have hexponent : (if decide (d.exponent < 0) = true then Int.negOfNat d.exponent.natAbs
        else Int.ofNat d.exponent.natAbs) = d.exponent := by
      simp only [decide_eq_true_eq, Int.negOfNat_eq, Int.ofNat_eq_natCast]
      split <;> omega
    dsimp only
    rw [hexponent]
    exact shape_ofScientific_large hb hmax hx

end Number

end Treewalk
