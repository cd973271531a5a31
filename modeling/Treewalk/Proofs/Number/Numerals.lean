import Treewalk.Proofs.Number.Packing

/-!
# What numerals denote

A numeral has no sign, and the machine number nearest to it has none either:
it may be zero or infinite, but it is a number. Rounding, multiplying and
dividing sizes without a sign gives such sizes again, as long as what is
multiplied or divided by is finite; a power of ten is.
-/

namespace Treewalk

namespace Number

open Float.Model Float.Model.UnpackedFloat

/-- A machine number taken apart, that has no sign and is a number. -/
def IsSize : UnpackedFloat → Prop
  | .infinity sign => sign = .positive
  | .notANumber => False
  | .zero sign => sign = .positive
  | .finite sign .. => sign = .positive

/-- A finite one. -/
def IsFiniteSize : UnpackedFloat → Prop
  | .finite .positive .. => True
  | _ => False

instance : DecidablePred IsFiniteSize
  | .finite .positive .. => .isTrue trivial
  | .finite .negative .. | .infinity _ | .zero _ | .notANumber => .isFalse id

/-! ## Operations on sizes -/

theorem isSize_roundWithAccuracy (spec : Format) (mantissa : ℕ) (exponent : ℤ)
    (accuracy : Accuracy) : IsSize (roundWithAccuracy spec .positive mantissa exponent accuracy) := by
  unfold roundWithAccuracy
  dsimp only
  split
  · rfl
  · rfl

theorem isSize_ofNat (spec : Format) (n : ℕ) : IsSize (UnpackedFloat.ofNat spec n) := by
  unfold UnpackedFloat.ofNat UnpackedFloat.ofInt UnpackedFloat.normalize
  split
  · exact absurd (compare_lt_iff_lt.1 ‹_›) (Int.natCast_nonneg n).not_gt
  · rfl
  · exact isSize_roundWithAccuracy ..

/-- **A size times or over a finite one** is a size: the products and
quotients that are no numbers all need a second infinity or zero. -/
theorem isSize_mul_div (spec : Format) {u v : UnpackedFloat} (hu : IsSize u)
    (hv : IsFiniteSize v) :
    IsSize (UnpackedFloat.mul spec u v) ∧ IsSize (UnpackedFloat.div spec u v) := by
  unfold IsFiniteSize at hv
  split at hv
  · cases u with
    | notANumber => exact hu.elim
    | infinity sign =>
      obtain rfl : sign = .positive := hu
      exact ⟨rfl, rfl⟩
    | zero sign =>
      obtain rfl : sign = .positive := hu
      exact ⟨rfl, rfl⟩
    | finite sign =>
      obtain rfl : sign = .positive := hu
      exact ⟨isSize_roundWithAccuracy .., isSize_roundWithAccuracy ..⟩
  · exact hv.elim

theorem isSize_ofScientific (spec : Format) (m : ℕ) (e : ℤ) :
    IsSize (UnpackedFloat.ofScientific spec m e) := by
  unfold UnpackedFloat.ofScientific
  split
  · rfl
  split
  · rfl
  split
  · rfl
  split
  · exact (isSize_mul_div spec (by exact rfl) (by exact trivial)).1
  · exact (isSize_mul_div spec (by exact rfl) (by exact trivial)).2

/-! ## Packing -/

theorem toNat_packComponents (exponent : BitVec 11) (mantissa : BitVec 52) :
    (packComponents .binary64 .positive exponent mantissa).toNat =
      exponent.toNat * 2 ^ 52 + mantissa.toNat := by
  have hm := mantissa.isLt
  simp only [packComponents, Sign.toBitVec, BitVec.toNat_append]
  rw [← Nat.shiftLeft_add_eq_or_of_lt hm, ← Nat.shiftLeft_add_eq_or_of_lt exponent.isLt]
  simp [Nat.shiftLeft_eq]

theorem toNat_pack_le {u : UnpackedFloat} (hu : IsSize u) :
    (UnpackedFloat.pack .binary64 u).toNat ≤ 2047 * 2 ^ 52 := by
  have hinfinity : (packedInfinity .binary64 .positive).toNat ≤ 2047 * 2 ^ 52 := by decide
  cases u with
  | notANumber => exact hu.elim
  | infinity sign =>
    obtain rfl : sign = .positive := hu
    exact hinfinity
  | zero sign =>
    obtain rfl : sign = .positive := hu
    decide
  | finite sign m e hm =>
    obtain rfl : sign = .positive := hu
    unfold UnpackedFloat.pack
    dsimp only
    split
    · exact hinfinity
    rename_i hexponent
    change ¬2 ^ 11 ≤ _ + 1 at hexponent
    split
    · rw [toNat_packComponents, BitVec.toNat_ofNat, BitVec.toNat_ofNat]
      omega
    · rw [toNat_packComponents, BitVec.toNat_ofNat, BitVec.toNat_ofNat]
      omega

theorem isSize_unpack {b : BitVec 64} (hb : b.toNat ≤ 2047 * 2 ^ 52) :
    IsSize (UnpackedFloat.unpack .binary64 b) := by
  have hsign : @unpackSign .binary64 b = 0#1 := by
    apply BitVec.eq_of_toNat_eq
    rw [toNat_unpackSign, BitVec.toNat_zero]
    omega
  have hexponent := toNat_unpackExponent b
  have hmantissa := toNat_unpackMantissa b
  unfold UnpackedFloat.unpack
  simp only [hsign]
  split
  · rename_i hlast
    rw [hlast] at hexponent
    -- the largest exponent leaves room for infinity only
    have hall : 2047 = b.toNat / 2 ^ 52 % 2 ^ 11 := hexponent
    have hnone : @unpackMantissa .binary64 b = 0#52 :=
      BitVec.eq_of_toNat_eq (hmantissa.trans (by rw [BitVec.toNat_zero]; omega))
    rw [if_pos hnone]
    rfl
  split
  · split
    · rfl
    · rfl
  · rfl

theorem unsigned_pack {u : UnpackedFloat} (hu : IsSize u) :
    Unsigned (.ofModel (Float.Model.pack u)) :=
  toNat_pack_le hu

theorem Unsigned.isSize {x : Float} (h : Unsigned x) : IsSize x.toModel.unpack :=
  isSize_unpack h

theorem isFiniteSize_powersOfTen :
    ∀ x ∈ Float.exactlyRepresentablePowersOfTen.toList, IsFiniteSize x.toModel.unpack := by
  decide +kernel

theorem unsigned_ofScientific (m : ℕ) (negative : Bool) (e : ℕ) :
    Unsigned (Float.ofScientific m negative e) := by
  have hwhole : IsSize m.toUInt64.toFloat.toModel.unpack :=
    (unsigned_pack (isSize_ofNat .binary64 _)).isSize
  unfold Float.ofScientific
  split
  · have hpower (h : e < Float.exactlyRepresentablePowersOfTen.size) :=
      isFiniteSize_powersOfTen _ (Array.getElem_mem_toList h)
    dsimp only
    split
    · exact unsigned_pack (isSize_mul_div .binary64 hwhole (hpower _)).2
    · exact unsigned_pack (isSize_mul_div .binary64 hwhole (hpower _)).1
  · exact unsigned_pack (isSize_ofScientific .binary64 _ _)

/-- **The machine number of a decimal** is unsigned. -/
theorem unsigned_toFloat (d : Decimal) : Unsigned d.toFloat := by
  have hzero : Unsigned 0 := unsigned_ofScientific 0 false 0
  have hinfinity : Unsigned (1 / 0) := by
    unfold Unsigned
    decide +kernel
  unfold Decimal.toFloat
  split
  · exact hzero
  split
  · exact hinfinity
  split
  · exact hzero
  · exact unsigned_ofScientific ..

end Number

end Treewalk
