import Treewalk.Proofs.Number.Packing

/-!
# The machine rounds to the nearest

A result of the machine is found on a fine scale, and rounding takes it to the
scale of the machine numbers: it drops bits of the mantissa and remembers of
them only whether the first one is set and whether any other is. That is enough
to know in which half between two machine numbers the exact result lies
(`Locates`), and **shifting keeps it known** (`Locates.shiftRight`). So where the
exact result is in the interval of a machine number, that number is what the
machine gives (`roundWithAccuracy_of_rounds`). For products and quotients this
needs one more fact: the scale on which they are found is fine enough.
-/

namespace Treewalk

namespace Number

open Float.Model Float.Model.UnpackedFloat

variable {em : ExtendedMantissa} {e : ℤ} {x : ℚ}

/-- A number between two neighbours on the scale `2 ^ e`: the mantissa of the
lower one, the half it lies in, and whether it lies behind the start of that
half. -/
def Locates (em : ExtendedMantissa) (e : ℤ) (x : ℚ) : Prop :=
  ∃ rest : ℚ, 0 ≤ rest ∧ rest < 1 ∧ (em.stickyBit = true ↔ 0 < rest) ∧
    x = (4 * em.mantissa + 2 * em.roundBit.toNat + 2 * rest) * 2 ^ (e - 2)

/-! ## Dropping bits -/

/-- On the next coarser scale, a quarter of a step is twice as long. -/
theorem quarter_succ (e : ℤ) : (2 : ℚ) ^ (e + 1 - 2) = 2 * 2 ^ (e - 2) := by
  rw [← zpow_one_add₀ two_ne_zero]
  congr 1
  omega

theorem Locates.shiftRightOne (h : Locates em e x) : Locates em.shiftRightOne (e + 1) x := by
  obtain ⟨mantissa, round, sticky⟩ := em
  obtain ⟨rest, hnonneg, hlt, hsticky, rfl⟩ := h
  have hbit : (round.toNat : ℚ) ≤ 1 := by exact_mod_cast Bool.toNat_le round
  have hbit' : (0 : ℚ) ≤ round.toNat := Nat.cast_nonneg _
  have hhalves : (4 * (mantissa / 2 : ℕ) + 2 * (mantissa % 2 : ℕ) : ℚ) = 2 * mantissa := by
    have hsplit : 4 * (mantissa / 2) + 2 * (mantissa % 2) = 2 * mantissa := by omega
    exact_mod_cast hsplit
  have hlast : (mantissa % 2 != 0).toNat = mantissa % 2 := by
    rcases Nat.mod_two_eq_zero_or_one mantissa with hmod | hmod <;> rw [hmod] <;> rfl
  refine ⟨(round.toNat + rest) / 2, by positivity, by linarith, ?_, ?_⟩
  · show (round || sticky) = true ↔ 0 < ((round.toNat : ℚ) + rest) / 2
    rw [Bool.or_eq_true, hsticky]
    cases round with
    | true =>
      have hpos : 0 < 1 + rest := by linarith
      simp [hpos]
    | false => simp
  · show (4 * (mantissa : ℚ) + 2 * round.toNat + 2 * rest) * 2 ^ (e - 2) =
      (4 * (mantissa / 2 : ℕ) + 2 * (mantissa % 2 != 0).toNat + 2 * ((round.toNat + rest) / 2)) *
        2 ^ (e + 1 - 2)
    rw [hlast, hhalves, quarter_succ]
    ring

/-- **Dropping bits** keeps it known where the number is. -/
theorem Locates.shiftRight (h : Locates em e x) (n : ℕ) : Locates (em >>> n) (e + n) x := by
  change Locates (n.repeat ExtendedMantissa.shiftRightOne em) (e + n) x
  induction n with
  | zero => simpa [Nat.repeat] using h
  | succ n ih =>
    rw [Nat.repeat, Nat.cast_succ, ← add_assoc]
    exact ih.shiftRightOne

theorem mantissa_shiftRight (em : ExtendedMantissa) (n : ℕ) :
    (em >>> n).mantissa = em.mantissa / 2 ^ n := by
  change (n.repeat ExtendedMantissa.shiftRightOne em).mantissa = _
  induction n with
  | zero => rw [pow_zero, Nat.div_one]; rfl
  | succ n ih =>
    rw [pow_succ, ← Nat.div_div_eq_div_mul, ← ih]
    rfl

theorem mantissa_ofMantissaAndAccuracy (mantissa : ℕ) (accuracy : Accuracy) :
    (ExtendedMantissa.ofMantissaAndAccuracy mantissa accuracy).mantissa = mantissa := by
  cases accuracy with
  | exact => rfl
  | inexact half => cases half <;> rfl

/-- A number with its fraction of a step: twice the fraction is the half it lies
in, and the rest. -/
theorem locates_add {q : ℕ} {round sticky : Bool} {f : ℚ} (hnonneg : 0 ≤ 2 * f - round.toNat)
    (hlt : 2 * f - round.toNat < 1) (hsticky : sticky = true ↔ 0 < 2 * f - round.toNat) (e : ℤ) :
    Locates ⟨q, round, sticky⟩ e ((q + f) * 2 ^ e) := by
  have hstep : (2 : ℚ) ^ e = 4 * 2 ^ (e - 2) := by
    rw [zpow_sub₀ two_ne_zero]
    ring
  refine ⟨2 * f - round.toNat, hnonneg, hlt, hsticky, ?_⟩
  rw [hstep]
  ring

/-- An exact mantissa is where it says. -/
theorem locates_exact (mantissa : ℕ) (e : ℤ) :
    Locates (.ofMantissaAndAccuracy mantissa .exact) e (mantissa * 2 ^ e) := by
  have hlocates : Locates ⟨mantissa, false, false⟩ e (((mantissa : ℚ) + 0) * 2 ^ e) :=
    locates_add (by simp) (by simp) (by simp) e
  rwa [add_zero] at hlocates

/-! ## Rounding the mantissa -/

theorem mantissa_le_rounded (em : ExtendedMantissa) :
    em.mantissa ≤ em.roundedMantissa ∧ em.roundedMantissa ≤ em.mantissa + 1 := by
  obtain ⟨mantissa, round, sticky⟩ := em
  cases round <;> cases sticky <;>
    simp only [ExtendedMantissa.roundedMantissa, ExtendedMantissa.accuracy,
      Accuracy.roundToNearestEven] <;> omega

/-- **The rounded mantissa is the nearest one**, and the even one of two. -/
theorem Locates.rounded (h : Locates em e x) :
    ∃ y : ℚ, x = y * 2 ^ (e - 2) ∧ 4 * (em.mantissa : ℚ) ≤ y ∧
      4 * (em.roundedMantissa : ℚ) - 2 ≤ y ∧ y ≤ 4 * em.roundedMantissa + 2 ∧
      (em.roundedMantissa % 2 = 1 →
        4 * (em.roundedMantissa : ℚ) - 2 < y ∧ y < 4 * em.roundedMantissa + 2) := by
  obtain ⟨mantissa, round, sticky⟩ := em
  obtain ⟨rest, hnonneg, hlt, hsticky, hx⟩ := h
  refine ⟨_, hx, ?_⟩
  dsimp only at hsticky ⊢
  cases sticky with
  | true =>
    -- inside one half: the start of it, or its end, is the nearest
    have hpos : 0 < rest := hsticky.1 rfl
    cases round <;>
      simp only [ExtendedMantissa.roundedMantissa, ExtendedMantissa.accuracy,
        Accuracy.roundToNearestEven, Bool.toNat_true, Bool.toNat_false] <;>
      push_cast
    · exact ⟨by linarith, by linarith, by linarith, fun _ => ⟨by linarith, by linarith⟩⟩
    · exact ⟨by linarith, by linarith, by linarith, fun _ => ⟨by linarith, by linarith⟩⟩
  | false =>
    obtain rfl : rest = 0 := by
      by_contra hne
      exact Bool.false_ne_true (hsticky.2 (lt_of_le_of_ne hnonneg (Ne.symm hne)))
    cases round <;>
      simp only [ExtendedMantissa.roundedMantissa, ExtendedMantissa.accuracy,
        Accuracy.roundToNearestEven, Bool.toNat_true, Bool.toNat_false]
    · push_cast
      exact ⟨by linarith, by linarith, by linarith, fun _ => ⟨by linarith, by linarith⟩⟩
    · -- in the middle: both are near, and the even one is taken
      rcases Nat.mod_two_eq_zero_or_one mantissa with hmod | hmod <;> rw [hmod] <;> push_cast
      · exact ⟨by linarith, by linarith, by linarith, fun hodd => by omega⟩
      · exact ⟨by linarith, by linarith, by linarith, fun hodd => by omega⟩

/-! ## The scale of the machine numbers -/

/-- The exponent of the machine numbers next to a mantissa on a scale. -/
def scaleOf (mantissa : ℕ) (exponent : ℤ) : ℤ := max (mantissa.log2 + exponent - 52) (-1074)

theorem targetExponent_eq (mantissa : ℕ) (exponent : ℤ) :
    Format.binary64.targetExponent (totalExponent mantissa exponent) =
      scaleOf mantissa exponent := by
  have hbits : (Format.binary64.mantissaBits : ℤ) = 53 := rfl
  have hleast : Format.binary64.minExponent = -1074 := rfl
  rw [Format.targetExponent, totalExponent, scaleOf, hbits, hleast]
  omega

theorem shiftToTargetExponent_eq (mantissa : ℕ) (exponent : ℤ) (accuracy : Accuracy) :
    shiftToTargetExponent .binary64 mantissa exponent accuracy =
      (ExtendedMantissa.ofMantissaAndAccuracy mantissa accuracy >>>
          (scaleOf mantissa exponent - exponent).toNat,
        exponent + (scaleOf mantissa exponent - exponent).toNat) := by
  rw [shiftToTargetExponent, targetExponent_eq, shiftToExponent]

/-- What is on the scale stays there. -/
theorem shiftToTargetExponent_of_lt {mantissa : ℕ} {exponent : ℤ} (hlt : mantissa < 2 ^ 53)
    (hleast : -1074 ≤ exponent) :
    shiftToTargetExponent .binary64 mantissa exponent .exact =
      (⟨mantissa, false, false⟩, exponent) := by
  have hlog : mantissa.log2 ≤ 52 := by
    by_cases hzero : mantissa = 0
    · simp [hzero]
    · have := (Nat.log2_lt hzero).2 hlt
      omega
  have hshift : (scaleOf mantissa exponent - exponent).toNat = 0 := by
    rw [scaleOf]
    omega
  rw [shiftToTargetExponent_eq, hshift, Nat.cast_zero, add_zero]
  rfl

/-- A mantissa that has become too large is halved. -/
theorem shiftToTargetExponent_carry {exponent : ℤ} (hleast : -1074 ≤ exponent) :
    shiftToTargetExponent .binary64 (2 ^ 53) exponent .exact =
      (⟨2 ^ 52, false, false⟩, exponent + 1) := by
  have hshift : (scaleOf (2 ^ 53) exponent - exponent).toNat = 1 := by
    rw [scaleOf, Nat.log2_two_pow]
    omega
  rw [shiftToTargetExponent_eq, hshift]
  rfl

/-- On the scale, no mantissa has more than 53 bits. -/
theorem div_shift_lt (mantissa : ℕ) (exponent : ℤ) :
    mantissa / 2 ^ (scaleOf mantissa exponent - exponent).toNat < 2 ^ 53 := by
  have hlog : mantissa.log2 + 1 ≤ 53 + (scaleOf mantissa exponent - exponent).toNat := by
    rw [scaleOf]
    omega
  rw [Nat.div_lt_iff_lt_mul (by positivity), ← pow_add]
  calc mantissa < 2 ^ (mantissa.log2 + 1) := Nat.lt_log2_self
    _ ≤ 2 ^ (53 + (scaleOf mantissa exponent - exponent).toNat) :=
      Nat.pow_le_pow_right two_pos hlog

/-- And above the least scale, it has all of them, if the scale it comes from
is fine enough. -/
theorem le_div_shift {mantissa : ℕ} {exponent : ℤ} (hfine : 52 ≤ mantissa.log2 ∨ exponent ≤ -1074)
    (habove : -1074 < scaleOf mantissa exponent) :
    2 ^ 52 ≤ mantissa / 2 ^ (scaleOf mantissa exponent - exponent).toNat := by
  have hlog : mantissa.log2 = 52 + (scaleOf mantissa exponent - exponent).toNat := by
    rw [scaleOf] at habove ⊢
    omega
  have hne : mantissa ≠ 0 := by
    rintro rfl
    rw [Nat.log2_zero] at hlog
    omega
  rw [Nat.le_div_iff_mul_le (by positivity), ← pow_add, ← hlog]
  exact Nat.log2_self_le hne

/-! ## Rounding a number -/

/-- Rounding a mantissa on the scale of the machine numbers, and halving what
has become too large. -/
theorem roundWithAccuracy_eq (sign : Sign) (mantissa : ℕ) (exponent : ℤ) (accuracy : Accuracy) :
    let shift := (scaleOf mantissa exponent - exponent).toNat
    let rounded :=
      (ExtendedMantissa.ofMantissaAndAccuracy mantissa accuracy >>> shift).roundedMantissa
    roundWithAccuracy .binary64 sign mantissa exponent accuracy =
      if h : rounded = 0 then .zero sign
      else if rounded < 2 ^ 53 then .finite sign rounded (exponent + shift) (Nat.pos_of_ne_zero h)
      else .finite sign (2 ^ 52) (exponent + shift + 1) (by decide) := by
  intro shift rounded
  have hleast : -1074 ≤ exponent + shift := by
    simp only [shift, scaleOf]
    omega
  have hrounded : rounded ≤ 2 ^ 53 := by
    have hle := (mantissa_le_rounded
      (ExtendedMantissa.ofMantissaAndAccuracy mantissa accuracy >>> shift)).2
    have hlt : mantissa / 2 ^ shift < 2 ^ 53 := div_shift_lt mantissa exponent
    rw [mantissa_shiftRight, mantissa_ofMantissaAndAccuracy] at hle
    omega
  have hfirst : roundWithAccuracy .binary64 sign mantissa exponent accuracy =
      let final := shiftToTargetExponent .binary64 rounded (exponent + shift) .exact
      if h : final.1.mantissa = 0 then .zero sign
      else .finite sign final.1.mantissa final.2 (Nat.pos_of_ne_zero h) := by
    rw [roundWithAccuracy, shiftToTargetExponent_eq]
  rw [hfirst]
  by_cases hlt : rounded < 2 ^ 53
  · simp only [shiftToTargetExponent_of_lt hlt hleast, if_pos hlt]
  · obtain hcarry : rounded = 2 ^ 53 := by omega
    simp only [hcarry, shiftToTargetExponent_carry hleast]
    rfl

theorem cast_low_ofParts {n : ℕ} (hpos : 0 < n) (e : ℤ) :
    ((Binary.ofParts n e).low : ℚ) = 4 * n - if n = 2 ^ 52 ∧ -1074 < e then 1 else 2 := by
  have hlow : (Binary.ofParts n e).low =
      4 * n - if n = 2 ^ 52 ∧ -1074 < e then 1 else 2 := by
    simp only [Binary.low, Binary.ofParts, decide_eq_true_eq]
  rw [hlow]
  split
  · rw [Nat.cast_sub (by omega)]
    push_cast
    rfl
  · rw [Nat.cast_sub (by omega)]
    push_cast
    rfl

/-- The interval of a machine number from the bounds on a rounded mantissa. A
power of two has the nearer neighbour below it. -/
theorem rounds_ofParts {n : ℕ} {y : ℚ} (hpos : 0 < n) (hlow : 4 * (n : ℚ) - 2 ≤ y)
    (hhigh : y ≤ 4 * n + 2) (hodd : n % 2 = 1 → 4 * (n : ℚ) - 2 < y ∧ y < 4 * n + 2)
    (hpower : n = 2 ^ 52 → -1074 < e → 4 * (n : ℚ) - 1 ≤ y) :
    (Binary.ofParts n e).Rounds (y * 2 ^ (e - 2)) := by
  have hstep : (0 : ℚ) < (Binary.ofParts n e).step := Binary.step_pos _
  have hlow' := cast_low_ofParts hpos e
  have hhigh' : ((Binary.ofParts n e).high : ℚ) = 4 * n + 2 := by
    simp [Binary.high, Binary.ofParts]
  refine ⟨?_, ?_, fun hn => ?_⟩
  · refine mul_le_mul_of_nonneg_right ?_ hstep.le
    rw [hlow']
    split
    case isTrue hnarrow => exact hpower hnarrow.1 hnarrow.2
    case isFalse => exact hlow
  · refine mul_le_mul_of_nonneg_right ?_ hstep.le
    rw [hhigh']
    exact hhigh
  · -- a power of two is even, so the interval is the wide one
    have hn' : n % 2 = 1 := hn
    obtain ⟨hlt, hlt'⟩ := hodd hn'
    rw [if_neg (by omega)] at hlow'
    rw [← hlow'] at hlt
    rw [← hhigh'] at hlt'
    exact ⟨(mul_lt_mul_of_pos_right hlt hstep).ne', (mul_lt_mul_of_pos_right hlt' hstep).ne⟩

variable {b : Binary} {kept rounded : ℕ} {scale : ℤ} {y : ℚ}

/-- What is known on the scale of the machine numbers: the mantissa that was
kept, the one it was rounded to, and the exact result in quarters of a step. -/
structure Settled (kept rounded : ℕ) (scale : ℤ) (y : ℚ) : Prop where
  least : -1074 ≤ scale
  full : -1074 < scale → 2 ^ 52 ≤ kept
  lt : kept < 2 ^ 53
  le_rounded : kept ≤ rounded
  rounded_le : rounded ≤ kept + 1
  below : 4 * (kept : ℚ) ≤ y
  low : 4 * (rounded : ℚ) - 2 ≤ y
  high : y ≤ 4 * rounded + 2
  odd : rounded % 2 = 1 → 4 * (rounded : ℚ) - 2 < y ∧ y < 4 * rounded + 2

/-- What rounds to a machine number is not rounded to zero. -/
theorem Settled.rounded_ne_zero (h : Settled kept rounded scale y) (hb : b.Regular)
    (hx : b.Rounds (y * 2 ^ (scale - 2))) : rounded ≠ 0 := by
  rintro rfl
  have hscale : scale = -1074 := by
    have hfull := h.full
    have hleast := h.least
    have hkept := h.le_rounded
    omega
  have hhigh : y ≤ 2 := by
    have hhigh := h.high
    rwa [Nat.cast_zero, mul_zero, zero_add] at hhigh
  have hsmall : y * 2 ^ (scale - 2) ≤ 2 ^ (-1075 : ℤ) := by
    calc y * 2 ^ (scale - 2) ≤ 2 * 2 ^ (scale - 2) :=
          mul_le_mul_of_nonneg_right hhigh (zpow_pos two_pos _).le
      _ = 2 ^ (-1075 : ℤ) := by
        rw [hscale, ← zpow_one_add₀ two_ne_zero]
        rfl
  exact absurd (hx.two_zpow_lt hb) hsmall.not_gt

/-- A rounded mantissa with at most 53 bits is that of the machine number. -/
theorem Settled.eq_of_lt (h : Settled kept rounded scale y) (hb : b.Regular)
    (hx : b.Rounds (y * 2 ^ (scale - 2))) (hlt : rounded < 2 ^ 53) :
    b = Binary.ofParts rounded scale := by
  have hpos : 0 < rounded := Nat.pos_of_ne_zero (h.rounded_ne_zero hb hx)
  have hfull : scale = -1074 ∨ 2 ^ 52 ≤ rounded := by
    have hfull := h.full
    have hleast := h.least
    have hkept := h.le_rounded
    omega
  have hpower : rounded = 2 ^ 52 → -1074 < scale → 4 * (rounded : ℚ) - 1 ≤ y := by
    intro heq habove
    have hkept : (rounded : ℚ) ≤ kept := by
      rw [heq]
      exact_mod_cast h.full habove
    have hbelow := h.below
    linarith
  exact hx.unique hb (Binary.regular_ofParts hpos hlt h.least hfull)
    (rounds_ofParts hpos h.low h.high h.odd hpower)

/-- One with more is the next power of two. -/
theorem Settled.eq_of_carry (h : Settled kept rounded scale y) (hb : b.Regular)
    (hx : b.Rounds (y * 2 ^ (scale - 2))) (hcarry : ¬ rounded < 2 ^ 53) :
    b = Binary.ofParts (2 ^ 52) (scale + 1) := by
  obtain rfl : rounded = 2 ^ 53 := by
    have hlt := h.lt
    have hle := h.rounded_le
    omega
  have hlow := h.low
  have hhigh := h.high
  have hleast := h.least
  push_cast at hlow hhigh
  have hhalf : y * 2 ^ (scale - 2) = y / 2 * 2 ^ (scale + 1 - 2) := by
    rw [quarter_succ]
    ring
  have hrounds : (Binary.ofParts (2 ^ 52) (scale + 1)).Rounds (y / 2 * 2 ^ (scale + 1 - 2)) := by
    refine rounds_ofParts (by decide) ?_ ?_ (fun hodd => by omega) (fun _ _ => ?_) <;> push_cast
    · linarith
    · linarith
    · linarith
  rw [hhalf] at hx
  exact hx.unique hb (Binary.regular_ofParts (by decide) (by decide) (by omega) (.inr le_rfl)) hrounds

/-- **The machine gives the number whose interval the exact result is in**, if
the exact result is known on a scale that is fine enough. -/
theorem roundWithAccuracy_of_rounds (hb : b.Regular) (hx : b.Rounds x) (sign : Sign)
    {mantissa : ℕ} {exponent : ℤ} {accuracy : Accuracy}
    (hlocates : Locates (.ofMantissaAndAccuracy mantissa accuracy) exponent x)
    (hfine : 52 ≤ mantissa.log2 ∨ exponent ≤ -1074) :
    roundWithAccuracy .binary64 sign mantissa exponent accuracy =
      .finite sign b.mantissa b.exponent hb.pos := by
  rw [roundWithAccuracy_eq]
  have hfull := le_div_shift hfine
  have hlt := div_shift_lt mantissa exponent
  generalize hshift : (scaleOf mantissa exponent - exponent).toNat = shift at *
  have hscale : exponent + shift = scaleOf mantissa exponent := by
    rw [← hshift, scaleOf]
    omega
  have hleast : -1074 ≤ scaleOf mantissa exponent := le_max_right _ _
  rw [← hscale] at hfull hleast
  obtain ⟨y, rfl, hbelow, hlow, hhigh, hodd⟩ := (hlocates.shiftRight shift).rounded
  have hrounded := mantissa_le_rounded
    (ExtendedMantissa.ofMantissaAndAccuracy mantissa accuracy >>> shift)
  rw [mantissa_shiftRight, mantissa_ofMantissaAndAccuracy] at hbelow hrounded
  have hsettled : Settled (mantissa / 2 ^ shift) _ (exponent + shift) y :=
    ⟨hleast, hfull, hlt, hrounded.1, hrounded.2, hbelow, hlow, hhigh, hodd⟩
  rw [dif_neg (hsettled.rounded_ne_zero hb hx)]
  split
  case isTrue hsmall =>
    have heq := hsettled.eq_of_lt hb hx hsmall
    exact finite_congr (by rw [heq]; rfl) (by rw [heq]; rfl)
  case isFalse hcarry =>
    have heq := hsettled.eq_of_carry hb hx hcarry
    exact finite_congr (by rw [heq]; rfl) (by rw [heq]; rfl)

/-! ## Products and quotients -/

section

variable {m₁ m₂ : ℕ} {e₁ e₂ : ℤ} (h₁ : 0 < m₁) (h₂ : 0 < m₂)

/-- A product is exact before it is rounded. -/
theorem mul_of_rounds (hb : b.Regular) (hx : b.Rounds (m₁ * 2 ^ e₁ * (m₂ * 2 ^ e₂)))
    (hfine : 52 ≤ (m₁ * m₂).log2) :
    UnpackedFloat.mul .binary64 (.finite .positive m₁ e₁ h₁) (.finite .positive m₂ e₂ h₂) =
      .finite .positive b.mantissa b.exponent hb.pos := by
  have hproduct : ((m₁ * m₂ : ℕ) : ℚ) * 2 ^ (e₁ + e₂) = m₁ * 2 ^ e₁ * (m₂ * 2 ^ e₂) := by
    rw [Nat.cast_mul, zpow_add₀ two_ne_zero]
    ring
  have hlocates := locates_exact (m₁ * m₂) (e₁ + e₂)
  rw [hproduct] at hlocates
  exact roundWithAccuracy_of_rounds hb hx .positive hlocates (.inl hfine)

/-- A remainder says where the quotient is. -/
theorem locates_accuracyOfFraction {q r d : ℕ} (hr : r < d) (e : ℤ) :
    Locates (.ofMantissaAndAccuracy q (accuracyOfFraction r d)) e ((q + r / d) * 2 ^ e) := by
  have hd : (0 : ℚ) < d := Nat.cast_pos.2 (by omega)
  have hlt : (r : ℚ) / d < 1 := by
    rw [div_lt_one hd]
    exact_mod_cast hr
  unfold accuracyOfFraction
  by_cases hzero : r = 0
  · rw [if_pos hzero, hzero, Nat.cast_zero, zero_div, add_zero]
    exact locates_exact q e
  have hpos : 0 < (r : ℚ) / d := div_pos (Nat.cast_pos.2 (Nat.pos_of_ne_zero hzero)) hd
  have htwice : 2 * ((r : ℚ) / d) = (2 * r : ℕ) / d := by
    push_cast
    ring
  rw [if_neg hzero]
  rcases lt_trichotomy (2 * r) d with hbefore | hmiddle | hbehind
  · have hhalf : 2 * ((r : ℚ) / d) < 1 := by
      rw [htwice, div_lt_one hd]
      exact_mod_cast hbefore
    rw [compare_lt_iff_lt.2 hbefore]
    refine locates_add ?_ ?_ ?_ e <;> rw [Bool.toNat_false, Nat.cast_zero, sub_zero]
    · linarith
    · exact hhalf
    · exact iff_of_true rfl (by linarith)
  · have hhalf : 2 * ((r : ℚ) / d) = 1 := by
      rw [htwice, hmiddle, div_self hd.ne']
    rw [compare_eq_iff_eq.2 hmiddle]
    refine locates_add ?_ ?_ ?_ e <;> rw [hhalf, Bool.toNat_true, Nat.cast_one, sub_self]
    · exact one_pos
    · exact iff_of_false Bool.false_ne_true (lt_irrefl 0)
  · have hhalf : 1 < 2 * ((r : ℚ) / d) := by
      rw [htwice, one_lt_div hd]
      exact_mod_cast hbehind
    rw [compare_gt_iff_gt.2 hbehind]
    refine locates_add ?_ ?_ ?_ e <;> rw [Bool.toNat_true, Nat.cast_one]
    · linarith
    · linarith
    · exact iff_of_true rfl (by linarith)

/-- The scale on which a quotient is found. -/
def quotientScale (m₁ : ℕ) (e₁ : ℤ) (m₂ : ℕ) (e₂ : ℤ) : ℤ :=
  min (e₁ - e₂) (max (m₁.log2 + e₁ - (m₂.log2 + e₂) - 53) (-1074))

theorem divCore_eq (m₁ : ℕ) (e₁ : ℤ) (m₂ : ℕ) (e₂ : ℤ) :
    let scale := quotientScale m₁ e₁ m₂ e₂
    let dividend := m₁ * 2 ^ (e₁ - e₂ - scale).toNat
    divCore .binary64 m₁ e₁ m₂ e₂ =
      (dividend / m₂, scale, accuracyOfFraction (dividend % m₂) m₂) := by
  have hbits : (Format.binary64.mantissaBits : ℤ) = 53 := rfl
  have hleast : Format.binary64.minExponent = -1074 := rfl
  have hscale : min (e₁ - e₂) (Format.binary64.targetExponent
      (totalExponent m₁ e₁ - totalExponent m₂ e₂)) = quotientScale m₁ e₁ m₂ e₂ := by
    rw [Format.targetExponent, totalExponent, totalExponent, quotientScale, hbits, hleast]
    omega
  simp only [divCore, hscale, Nat.shiftLeft_eq]

/-- **The scale of a quotient is fine enough.** -/
theorem divCore_fine (h₁ : 0 < m₁) (h₂ : 0 < m₂) :
    let core := divCore .binary64 m₁ e₁ m₂ e₂
    52 ≤ core.1.log2 ∨ core.2.1 ≤ -1074 := by
  rw [divCore_eq]
  dsimp only
  by_cases hleast : quotientScale m₁ e₁ m₂ e₂ ≤ -1074
  · exact .inr hleast
  left
  generalize hshift : (e₁ - e₂ - quotientScale m₁ e₁ m₂ e₂).toNat = shift
  have hbits : 53 + m₂.log2 ≤ m₁.log2 + shift := by
    rw [quotientScale] at hleast hshift
    omega
  have hdividend : 2 ^ 52 * m₂ ≤ m₁ * 2 ^ shift := by
    calc 2 ^ 52 * m₂ ≤ 2 ^ 52 * 2 ^ (m₂.log2 + 1) := Nat.mul_le_mul_left _ Nat.lt_log2_self.le
      _ = 2 ^ (53 + m₂.log2) := by ring
      _ ≤ 2 ^ (m₁.log2 + shift) := Nat.pow_le_pow_right two_pos hbits
      _ = 2 ^ m₁.log2 * 2 ^ shift := pow_add ..
      _ ≤ m₁ * 2 ^ shift := Nat.mul_le_mul_right _ (Nat.log2_self_le h₁.ne')
  have hquotient : 2 ^ 52 ≤ m₁ * 2 ^ shift / m₂ := (Nat.le_div_iff_mul_le h₂).2 hdividend
  exact (Nat.le_log2 (by omega)).2 hquotient

theorem divCore_locates (m₁ : ℕ) (e₁ : ℤ) (e₂ : ℤ) (h₂ : 0 < m₂) :
    let core := divCore .binary64 m₁ e₁ m₂ e₂
    Locates (.ofMantissaAndAccuracy core.1 core.2.2) core.2.1 (m₁ * 2 ^ e₁ / (m₂ * 2 ^ e₂)) := by
  rw [divCore_eq]
  dsimp only
  generalize hscale : quotientScale m₁ e₁ m₂ e₂ = scale
  generalize hshift : (e₁ - e₂ - scale).toNat = shift
  generalize hdividend : m₁ * 2 ^ shift = dividend
  have hd : (m₂ : ℚ) ≠ 0 := Nat.cast_ne_zero.2 h₂.ne'
  have hpower : (2 : ℚ) ^ e₁ = 2 ^ shift * 2 ^ scale * 2 ^ e₂ := by
    rw [← zpow_natCast, ← zpow_add₀ two_ne_zero, ← zpow_add₀ two_ne_zero]
    congr 1
    rw [quotientScale] at hscale
    omega
  have hsplit : (dividend : ℚ) = m₂ * (dividend / m₂ : ℕ) + (dividend % m₂ : ℕ) := by
    exact_mod_cast (Nat.div_add_mod dividend m₂).symm
  have hquotient : (m₁ * 2 ^ e₁ / (m₂ * 2 ^ e₂) : ℚ) =
      ((dividend / m₂ : ℕ) + (dividend % m₂ : ℕ) / m₂) * 2 ^ scale := by
    have hshifted : (m₁ : ℚ) * 2 ^ shift = dividend := by exact_mod_cast hdividend
    have hstep : (2 : ℚ) ^ e₂ ≠ 0 := zpow_ne_zero _ two_ne_zero
    calc (m₁ * 2 ^ e₁ / (m₂ * 2 ^ e₂) : ℚ) = m₁ * 2 ^ shift / m₂ * 2 ^ scale := by
          rw [hpower]
          field_simp
      _ = ((dividend / m₂ : ℕ) + (dividend % m₂ : ℕ) / m₂) * 2 ^ scale := by
          rw [hshifted]
          nth_rewrite 1 [hsplit]
          field_simp
  rw [hquotient]
  exact locates_accuracyOfFraction (Nat.mod_lt _ h₂) scale

/-- A quotient is known with its remainder before it is rounded. -/
theorem div_of_rounds (hb : b.Regular) (hx : b.Rounds (m₁ * 2 ^ e₁ / (m₂ * 2 ^ e₂))) :
    UnpackedFloat.div .binary64 (.finite .positive m₁ e₁ h₁) (.finite .positive m₂ e₂ h₂) =
      .finite .positive b.mantissa b.exponent hb.pos :=
  roundWithAccuracy_of_rounds hb hx .positive (divCore_locates m₁ e₁ e₂ h₂)
    (divCore_fine h₁ h₂)

end

end Number

end Treewalk
