import Mathlib
import Treewalk.Proofs.Number.Spelling

/-!
# Taking machine numbers apart

The machine computes on numbers taken apart into sign, mantissa and exponent,
and packs the result into bits again. What it takes a number apart into is what
the bits of the number say (`ofUnpacked_unpack`), and **packing loses nothing**
of a number in the form that the bits have (`unpack_pack`). So the shape of a
result can be read off from the numbers taken apart; for the opposite of a
number, it is the shape of the number with the other sign (`shape_neg`).
-/

namespace Treewalk

namespace Binary

/-- The binary number with a given mantissa and exponent. -/
def ofParts (mantissa : ℕ) (exponent : ℤ) : Binary :=
  ⟨mantissa, exponent, decide (mantissa = 2 ^ 52 ∧ -1074 < exponent)⟩

theorem Regular.eq_ofParts {b : Binary} (h : b.Regular) : b = ofParts b.mantissa b.exponent := by
  obtain ⟨mantissa, exponent, narrow⟩ := b
  have hnarrow := h.narrow
  simp only [ofParts, mk.injEq, true_and]
  rw [Bool.eq_iff_iff, hnarrow, decide_eq_true_eq]

theorem regular_ofParts {mantissa : ℕ} {exponent : ℤ} (hpos : 0 < mantissa)
    (hlt : mantissa < 2 ^ 53) (hleast : -1074 ≤ exponent)
    (hfull : exponent = -1074 ∨ 2 ^ 52 ≤ mantissa) : (ofParts mantissa exponent).Regular :=
  ⟨hpos, hlt, hleast, hfull, decide_eq_true_iff⟩

end Binary

namespace Number

open Float.Model Float.Model.UnpackedFloat

/-! ## Unpacking -/

section

variable (bits : BitVec 64)

theorem toNat_unpackExponent :
    (@unpackExponent .binary64 bits).toNat = bits.toNat / 2 ^ 52 % 2 ^ 11 := by
  simp [unpackExponent, BitVec.extractLsb, Nat.shiftRight_eq_div_pow]

theorem toNat_unpackMantissa :
    (@unpackMantissa .binary64 bits).toNat = bits.toNat % 2 ^ 52 := by
  simp [unpackMantissa, BitVec.extractLsb]

theorem toNat_unpackSign :
    (@unpackSign .binary64 bits).toNat = bits.toNat / 2 ^ 63 % 2 := by
  simp [unpackSign, BitVec.extractLsb, Nat.shiftRight_eq_div_pow]

theorem ofBitVec_unpackSign :
    (Sign.ofBitVec (@unpackSign .binary64 bits) == .negative) = decide (2 ^ 63 ≤ bits.toNat) := by
  have hsign := toNat_unpackSign bits
  have hbits := bits.isLt
  by_cases hzero : @unpackSign .binary64 bits = 0#1
  · rw [hzero, BitVec.toNat_zero] at hsign
    rw [hzero, decide_eq_false (by omega)]
    rfl
  · have hne : (@unpackSign .binary64 bits).toNat ≠ 0 := fun heq =>
      hzero (BitVec.eq_of_toNat_eq heq)
    rw [Sign.ofBitVec, if_neg hzero, decide_eq_true (by omega)]
    rfl

end

/-- The shape of a machine number taken apart. -/
def Shape.ofUnpacked : UnpackedFloat → Shape
  | .notANumber => .undefined
  | .infinity sign => .infinite (sign == .negative)
  | .zero sign => .zero (sign == .negative)
  | .finite sign mantissa exponent _ => .finite (sign == .negative) (.ofParts mantissa exponent)

/-- The mantissa with the bit in front of it that is not stored. -/
theorem toNat_append_implicit (mantissa : BitVec 52) :
    (1#1 ++ mantissa).toNat = mantissa.toNat + 2 ^ 52 := by
  rw [BitVec.toNat_append, ← Nat.shiftLeft_add_eq_or_of_lt mantissa.isLt, Nat.add_comm]
  rfl

/-- **Taking a machine number apart** says the same as its bits. -/
theorem ofUnpacked_unpack (x : Float) : Shape.ofUnpacked x.toModel.unpack = shape x := by
  have hbits : x.toModel.toBits.toBitVec.toNat = x.toBits.toNat := rfl
  unfold Float.Model.unpack
  rw [shape_eq, ← hbits]
  generalize x.toModel.toBits.toBitVec = bits
  have hall :
      @unpackExponent .binary64 bits = -1#11 ↔ bits.toNat / 2 ^ 52 % 2 ^ 11 = 2 ^ 11 - 1 := by
    rw [← toNat_unpackExponent, ← BitVec.toNat_inj]
    rfl
  have hnone : @unpackExponent .binary64 bits = 0#11 ↔ bits.toNat / 2 ^ 52 % 2 ^ 11 = 0 := by
    rw [← toNat_unpackExponent, ← BitVec.toNat_inj]
    rfl
  have hmantissa : @unpackMantissa .binary64 bits = 0#52 ↔ bits.toNat % 2 ^ 52 = 0 := by
    rw [← toNat_unpackMantissa, ← BitVec.toNat_inj]
    rfl
  have hbias : ((Format.binary64.exponentBias : ℕ) : ℤ) + (52 : ℕ) = 1075 := by decide
  unfold UnpackedFloat.unpack
  dsimp only
  rw [← ofBitVec_unpackSign, hbias]
  simp only [hall, hnone, hmantissa]
  split
  · split <;> rfl
  split
  case isTrue hscale =>
    split
    · rfl
    · have hexponent : ((0 : ℕ) : ℤ) - 1075 + 1 = -1074 := by decide
      simp only [Shape.ofUnpacked, Binary.ofParts, toNat_unpackMantissa, toNat_unpackExponent,
        hscale, hexponent, lt_irrefl, and_false, decide_false]
  case isFalse hscale =>
    have hnarrow (scale fraction : ℕ) :
        decide (fraction + 2 ^ 52 = 2 ^ 52 ∧ -1074 < (scale : ℤ) - 1075) =
          (decide (fraction = 0) && decide (1 < scale)) := by
      rw [Bool.eq_iff_iff]
      simp only [Bool.and_eq_true, decide_eq_true_eq]
      omega
    simp only [Shape.ofUnpacked, Binary.ofParts, toNat_append_implicit, toNat_unpackMantissa,
      toNat_unpackExponent, hnarrow]

/-! ## Packing -/

/-- Machine numbers taken apart in the way that their bits say. -/
def Canonical : UnpackedFloat → Prop
  | .finite _ mantissa exponent _ => (Binary.ofParts mantissa exponent).Regular ∧ exponent ≤ 971
  | _ => True

theorem finite_congr {sign : Sign} {m m' : ℕ} {e e' : ℤ} {hm : 0 < m} {hm' : 0 < m'}
    (hmantissa : m = m') (hexponent : e = e') :
    UnpackedFloat.finite sign m e hm = .finite sign m' e' hm' := by
  subst hmantissa hexponent
  rfl

theorem unpack_packComponents_normal (sign : Sign) {scale : BitVec 11} (fraction : BitVec 52)
    (hall : scale ≠ -1#11) (hnone : scale ≠ 0#11) :
    UnpackedFloat.unpack .binary64 (packComponents .binary64 sign scale fraction) =
      .finite sign (fraction.toNat + 2 ^ 52) (scale.toNat - 1075) (by omega) := by
  unfold UnpackedFloat.unpack
  simp only [unpackMantissa_packComponents, unpackExponent_packComponents,
    unpackSign_packComponents, Sign.ofBitVec_toBitVec, if_neg hall, if_neg hnone]
  exact finite_congr (toNat_append_implicit fraction) rfl

theorem unpack_packComponents_subnormal (sign : Sign) {fraction : BitVec 52}
    (hpos : 0 < fraction.toNat) :
    UnpackedFloat.unpack .binary64 (packComponents .binary64 sign 0#11 fraction) =
      .finite sign fraction.toNat (-1074) hpos := by
  have hsome : fraction ≠ 0#52 := fun heq => by simp [heq] at hpos
  have hall : 0#11 ≠ -1#11 := by decide
  unfold UnpackedFloat.unpack
  simp only [unpackMantissa_packComponents, unpackExponent_packComponents,
    unpackSign_packComponents, Sign.ofBitVec_toBitVec, if_neg hall, dif_neg hsome]
  exact finite_congr rfl rfl

theorem unpack_pack_finite (sign : Sign) {mantissa : ℕ} {exponent : ℤ} (hpos : 0 < mantissa)
    (h : (Binary.ofParts mantissa exponent).Regular) (hle : exponent ≤ 971) :
    UnpackedFloat.unpack .binary64
      (UnpackedFloat.pack .binary64 (.finite sign mantissa exponent hpos)) =
        .finite sign mantissa exponent hpos := by
  have hlt : mantissa < 2 ^ 53 := h.lt
  have hleast : -1074 ≤ exponent := h.least
  have hfull : exponent = -1074 ∨ 2 ^ 52 ≤ mantissa := h.full
  have hbias : ((Format.binary64.exponentBias : ℕ) : ℤ) = 1023 := by decide
  have hbits : Format.binary64.mantissaBits = 53 := rfl
  have hroom : ¬ 2 ^ 11 ≤ (exponent + 1023 + 52).toNat + 1 := by omega
  unfold UnpackedFloat.pack
  simp only [hbias, hbits, Nat.cast_ofNat, if_neg hroom]
  by_cases hnormal : 2 ^ 52 ≤ mantissa
  · have hlog : mantissa.log2 + 1 = 53 := by
      have hlow := (Nat.le_log2 hpos.ne').2 hnormal
      have hhigh := (Nat.log2_lt hpos.ne').2 hlt
      omega
    have hscale :
        (BitVec.ofNat 11 (exponent + 1023 + 52).toNat).toNat = (exponent + 1075).toNat := by
      rw [BitVec.toNat_ofNat]
      omega
    have hall : BitVec.ofNat 11 (exponent + 1023 + 52).toNat ≠ -1#11 := fun heq => by
      rw [heq] at hscale
      have hmax : (-1#11).toNat = 2047 := rfl
      omega
    have hnone : BitVec.ofNat 11 (exponent + 1023 + 52).toNat ≠ 0#11 := fun heq => by
      rw [heq, BitVec.toNat_zero] at hscale
      omega
    rw [if_pos hlog, unpack_packComponents_normal sign _ hall hnone]
    refine finite_congr ?_ ?_
    · rw [BitVec.toNat_ofNat]
      omega
    · rw [hscale]
      omega
  · have hlog : mantissa.log2 + 1 ≠ 53 := by
      have hhigh := (Nat.log2_lt hpos.ne').2 (not_le.1 hnormal)
      omega
    have hfraction : (BitVec.ofNat 52 mantissa).toNat = mantissa := by
      rw [BitVec.toNat_ofNat]
      omega
    rw [if_neg hlog, unpack_packComponents_subnormal sign (hfraction.symm ▸ hpos)]
    exact finite_congr hfraction (by omega)

/-- **Packing loses nothing.** -/
theorem unpack_pack {u : UnpackedFloat} (h : Canonical u) :
    (Float.Model.pack u).unpack = u := by
  change UnpackedFloat.unpack .binary64 (UnpackedFloat.pack .binary64 u) = u
  cases u with
  | notANumber => exact unpack_packedNaN
  | infinity sign => simp [UnpackedFloat.pack, packedInfinity, UnpackedFloat.unpack]
  | zero sign => exact unpack_packedZero
  | finite sign mantissa exponent hpos => exact unpack_pack_finite sign hpos h.1 h.2

theorem shape_pack {u : UnpackedFloat} (h : Canonical u) :
    shape (.ofModel (Float.Model.pack u)) = Shape.ofUnpacked u := by
  rw [← ofUnpacked_unpack]
  exact congrArg Shape.ofUnpacked (unpack_pack h)

/-! ## Signs -/

theorem exponent_le_of_shape {x : Float} {negative : Bool} {b : Binary}
    (h : shape x = .finite negative b) : b.exponent ≤ 971 := by
  rw [shape_eq] at h
  dsimp only at h
  have hscale : x.toBits.toNat / 2 ^ 52 % 2 ^ 11 < 2 ^ 11 := Nat.mod_lt _ (by decide)
  split at h
  · split at h <;> cases h
  split at h
  · split at h
    · cases h
    · obtain ⟨-, rfl⟩ := Shape.finite.inj h
      dsimp only
      omega
  · obtain ⟨-, rfl⟩ := Shape.finite.inj h
    dsimp only
    omega

theorem canonical_unpack (x : Float) : Canonical x.toModel.unpack := by
  have hshape := ofUnpacked_unpack x
  cases hunpack : x.toModel.unpack with
  | finite sign mantissa exponent hpos =>
    rw [hunpack] at hshape
    exact ⟨regular_of_shape hshape.symm, exponent_le_of_shape hshape.symm⟩
  | _ => trivial

/-- The shape of the opposite number. -/
def Shape.neg : Shape → Shape
  | undefined => undefined
  | infinite negative => infinite !negative
  | zero negative => zero !negative
  | finite negative b => finite (!negative) b

theorem ofUnpacked_neg (u : UnpackedFloat) :
    Shape.ofUnpacked u.neg = (Shape.ofUnpacked u).neg := by
  cases u with
  | notANumber => rfl
  | infinity sign => cases sign <;> rfl
  | zero sign => cases sign <;> rfl
  | finite sign => cases sign <;> rfl

/-- **Negation changes the sign and nothing else.** -/
theorem shape_neg (x : Float) : shape (-x) = (shape x).neg := by
  have hcanonical : Canonical x.toModel.unpack.neg := by
    have h := canonical_unpack x
    cases hunpack : x.toModel.unpack <;> rw [hunpack] at h <;> exact h
  rw [← ofUnpacked_unpack x, ← ofUnpacked_neg]
  exact shape_pack hcanonical

theorem isNaN_iff_shape {x : Float} : x.isNaN = true ↔ shape x = .undefined := by
  have hnan : x.isNaN = x.toModel.unpack.isNaN := rfl
  rw [hnan, ← ofUnpacked_unpack x]
  cases x.toModel.unpack <;> simp [UnpackedFloat.isNaN, Shape.ofUnpacked]

end Number

end Treewalk
