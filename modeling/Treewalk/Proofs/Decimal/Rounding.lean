import Treewalk.Decimal.Shortest
import Mathlib.Algebra.Order.Field.Power
import Mathlib.Data.Rat.Cast.Order
import Mathlib.Tactic.FieldSimp
import Mathlib.Tactic.Linarith
import Mathlib.Tactic.NormNum
import Mathlib.Tactic.Positivity
import Mathlib.Tactic.Ring

/-!
# The reals that round to a machine number

A positive machine number is rounded to from an interval around it, with its
ends in it exactly if the mantissa is even. Two facts about these intervals
make the shortest decimal of a machine number stand for that number and no
other. **They do not meet**: where two intervals touch, one of the two
mantissas is odd. And **the search finds a point** of the interval: with
seventeen digits the grid is finer than the interval is wide.
-/

namespace Treewalk

/-- The number that a decimal stands for. -/
def Decimal.value (d : Decimal) : ℚ := d.coefficient * 10 ^ d.exponent

namespace Binary

variable {b b' : Binary} {x : ℚ}

/-- The number that a binary number stands for. -/
def value (b : Binary) : ℚ := b.mantissa * 2 ^ b.exponent

/-- The sizes of machine numbers: 53 bits, of which the first is set unless
the exponent is the least one. A power of two is closer to the next smaller
one, unless that has the same exponent. -/
structure Regular (b : Binary) : Prop where
  pos : 0 < b.mantissa
  lt : b.mantissa < 2 ^ 53
  least : -1074 ≤ b.exponent
  full : b.exponent = -1074 ∨ 2 ^ 52 ≤ b.mantissa
  narrow : b.narrow = true ↔ b.mantissa = 2 ^ 52 ∧ -1074 < b.exponent

/-- A quarter of the distance to the next larger machine number. -/
def step (b : Binary) : ℚ := 2 ^ (b.exponent - 2)

/-- The lower end of the interval, in steps. -/
def low (b : Binary) : ℕ := 4 * b.mantissa - if b.narrow then 1 else 2

/-- The upper end of the interval, in steps. -/
def high (b : Binary) : ℕ := 4 * b.mantissa + 2

/-- The numbers that round to a machine number. -/
structure Rounds (b : Binary) (x : ℚ) : Prop where
  low_le : b.low * b.step ≤ x
  le_high : x ≤ b.high * b.step
  ne_of_odd : b.mantissa % 2 = 1 → x ≠ b.low * b.step ∧ x ≠ b.high * b.step

theorem step_pos (b : Binary) : 0 < b.step := zpow_pos two_pos _

theorem value_eq (b : Binary) : b.value = 4 * b.mantissa * b.step := by
  rw [value, step, zpow_sub₀ two_ne_zero]
  ring

theorem Regular.low_cases (h : b.Regular) :
    b.low + 1 = 4 * b.mantissa ∧ b.mantissa = 2 ^ 52 ∧ -1074 < b.exponent ∨
      b.low + 2 = 4 * b.mantissa ∧ ¬ (b.mantissa = 2 ^ 52 ∧ -1074 < b.exponent) := by
  have hpos := h.pos
  rw [low]
  split
  case isTrue hnarrow => exact .inl ⟨by omega, h.narrow.1 hnarrow⟩
  case isFalse hnarrow => exact .inr ⟨by omega, fun hpower => hnarrow (h.narrow.2 hpower)⟩

theorem Rounds.pos (h : b.Regular) (hx : b.Rounds x) : 0 < x := by
  have hlow : 0 < b.low := by
    have := h.pos
    rcases h.low_cases with ⟨hlow, -⟩ | ⟨hlow, -⟩ <;> omega
  have hpos : 0 < b.low * b.step := mul_pos (Nat.cast_pos.2 hlow) b.step_pos
  exact hpos.trans_le hx.low_le

/-- A number rounds to itself. -/
theorem Regular.rounds_value (h : b.Regular) : b.Rounds b.value := by
  have hstep := b.step_pos
  have hlow : (b.low : ℚ) < 4 * b.mantissa := by
    have hlt : b.low < 4 * b.mantissa := by rcases h.low_cases with ⟨hlow, -⟩ | ⟨hlow, -⟩ <;> omega
    exact_mod_cast hlt
  have hhigh : 4 * (b.mantissa : ℚ) < b.high := by
    have hlt : 4 * b.mantissa < b.high := by unfold high; omega
    exact_mod_cast hlt
  have hbelow : b.low * b.step < 4 * b.mantissa * b.step := mul_lt_mul_of_pos_right hlow hstep
  have habove : 4 * b.mantissa * b.step < b.high * b.step := mul_lt_mul_of_pos_right hhigh hstep
  rw [value_eq]
  exact ⟨hbelow.le, habove.le, fun _ => ⟨hbelow.ne', habove.ne⟩⟩

/-- **What lies between numbers of an interval** belongs to it. -/
theorem Rounds.between {y z : ℚ} (hx : b.Rounds x) (hz : b.Rounds z) (hxy : x ≤ y)
    (hyz : y ≤ z) : b.Rounds y where
  low_le := hx.low_le.trans hxy
  le_high := hyz.trans hz.le_high
  ne_of_odd := fun hodd => by
    constructor
    · intro heq
      exact (hx.ne_of_odd hodd).1 (le_antisymm (heq ▸ hxy) hx.low_le)
    · intro heq
      exact (hz.ne_of_odd hodd).2 (le_antisymm hz.le_high (heq ▸ hyz))

/-- What rounds to a machine number is more than half of the least one. -/
theorem Rounds.two_zpow_lt (h : b.Regular) (hx : b.Rounds x) : (2 : ℚ) ^ (-1075 : ℤ) < x := by
  have hstep : (2 : ℚ) ^ (-1076 : ℤ) ≤ b.step := by
    have hleast := h.least
    exact zpow_le_zpow_right₀ one_le_two (by omega)
  have htwice : (2 : ℚ) ^ (-1075 : ℤ) = 2 * 2 ^ (-1076 : ℤ) := by
    rw [← zpow_one_add₀ two_ne_zero]
    rfl
  have hpos := b.step_pos
  by_cases hone : b.mantissa = 1
  · -- the least mantissa is odd, so the end of its interval does not round to it
    have hlow : b.low = 2 := by
      rcases h.low_cases with ⟨hlow, hpower, -⟩ | ⟨hlow, -⟩ <;> omega
    have hle := hx.low_le
    have hne := (hx.ne_of_odd (by omega)).1
    rw [hlow, Nat.cast_ofNat] at hle hne
    have hlt := lt_of_le_of_ne hle hne.symm
    linarith
  · have hlow : 3 ≤ b.low := by
      have hmantissa := h.pos
      rcases h.low_cases with ⟨hlow, -⟩ | ⟨hlow, -⟩ <;> omega
    have hlow' : (3 : ℚ) * b.step ≤ b.low * b.step :=
      mul_le_mul_of_nonneg_right (by exact_mod_cast hlow) hpos.le
    have hle := hx.low_le
    linarith

/-- And less than the power of two behind the largest. -/
theorem Rounds.lt_two_zpow (h : b.Regular) (hmax : b.exponent ≤ 971) (hx : b.Rounds x) :
    x < 2 ^ (1024 : ℤ) := by
  have hstep : b.step ≤ 2 ^ (969 : ℤ) := zpow_le_zpow_right₀ one_le_two (by omega)
  have hhigh : (b.high : ℚ) < 2 ^ 55 := by
    have hlt : b.high < 2 ^ 55 := by
      have hmantissa := h.lt
      unfold high
      omega
    exact_mod_cast hlt
  calc x ≤ b.high * b.step := hx.le_high
    _ < 2 ^ 55 * b.step := mul_lt_mul_of_pos_right hhigh b.step_pos
    _ ≤ 2 ^ 55 * 2 ^ (969 : ℤ) := mul_le_mul_of_nonneg_left hstep (by positivity)
    _ = 2 ^ (1024 : ℤ) := by
      rw [← zpow_natCast, ← zpow_add₀ two_ne_zero]
      rfl

/-! ## Intervals do not meet -/

theorem step_eq_of_le (h : b.exponent ≤ b'.exponent) :
    b'.step = 2 ^ (b'.exponent - b.exponent).toNat * b.step := by
  rw [step, step, ← zpow_natCast, ← zpow_add₀ two_ne_zero]
  congr 1
  omega

/-- A number in both intervals, the second on a coarser scale, puts its lower
end below the upper end of the first; and where they touch, it is that end. -/
theorem Rounds.low_le_high (hx : b.Rounds x) (hx' : b'.Rounds x)
    (h : b.exponent ≤ b'.exponent) :
    let scale := 2 ^ (b'.exponent - b.exponent).toNat
    b'.low * scale ≤ b.high ∧
      (b'.low * scale = b.high → x = b.high * b.step ∧ x = b'.low * b'.step) := by
  intro scale
  have hstep : b'.step = (scale : ℕ) * b.step := by
    rw [step_eq_of_le h, Nat.cast_pow, Nat.cast_ofNat]
  have hlow : ((b'.low * scale : ℕ) : ℚ) * b.step ≤ x := by
    have := hx'.low_le
    rw [hstep, ← mul_assoc] at this
    exact_mod_cast this
  constructor
  · have hle : ((b'.low * scale : ℕ) : ℚ) * b.step ≤ (b.high : ℚ) * b.step := hlow.trans hx.le_high
    exact_mod_cast le_of_mul_le_mul_right hle b.step_pos
  · intro heq
    have hxeq : x = b.high * b.step := le_antisymm hx.le_high (heq ▸ hlow)
    refine ⟨hxeq, ?_⟩
    rw [hxeq, hstep, ← heq]
    push_cast
    ring

/-- On one scale, the interval of a smaller mantissa ends before. -/
theorem Rounds.mantissa_le (hx : b.Rounds x) (h' : b'.Regular) (hx' : b'.Rounds x)
    (hexponent : b.exponent = b'.exponent) : b'.mantissa ≤ b.mantissa := by
  by_contra! hlt
  obtain ⟨hle, heq⟩ := hx.low_le_high hx' hexponent.le
  rw [hexponent, sub_self] at hle heq
  simp only [Int.toNat_zero, pow_zero, mul_one] at hle heq
  unfold high at hle heq
  -- they touch only if the mantissas are neighbours, and then one is odd
  have htouch : b'.low = 4 * b.mantissa + 2 ∧ b'.mantissa = b.mantissa + 1 := by
    rcases h'.low_cases with ⟨hlow, -⟩ | ⟨hlow, -⟩ <;> omega
  obtain ⟨hhigh, hlow⟩ := heq htouch.1
  rcases Nat.mod_two_eq_zero_or_one b.mantissa with heven | hodd
  · exact (hx'.ne_of_odd (by omega)).1 hlow
  · exact (hx.ne_of_odd hodd).2 hhigh

/-- On a coarser scale, the interval starts behind all those of a finer one. -/
theorem Rounds.exponent_le (h : b.Regular) (hx : b.Rounds x) (h' : b'.Regular)
    (hx' : b'.Rounds x) : b'.exponent ≤ b.exponent := by
  by_contra! hlt
  obtain ⟨hle, heq⟩ := hx.low_le_high hx' hlt.le
  have hscale : 2 ≤ 2 ^ (b'.exponent - b.exponent).toNat := by
    calc 2 = 2 ^ 1 := rfl
      _ ≤ 2 ^ (b'.exponent - b.exponent).toNat := Nat.pow_le_pow_right two_pos (by omega)
  have htwice : b'.low * 2 ≤ b'.low * 2 ^ (b'.exponent - b.exponent).toNat :=
    Nat.mul_le_mul_left _ hscale
  have hmantissa := h.lt
  have hleast := h.least
  have hfull : 2 ^ 52 ≤ b'.mantissa := h'.full.resolve_left (by omega)
  -- only the largest of the finer scale touches, and its mantissa is odd
  have htouch : b'.low * 2 = b.high ∧ b.mantissa = 2 ^ 53 - 1 := by
    unfold high at hle ⊢
    rcases h'.low_cases with ⟨hlow, hpower, -⟩ | ⟨hlow, hother⟩
    · omega
    · have hne : b'.mantissa ≠ 2 ^ 52 := fun hpower => hother ⟨hpower, by omega⟩
      omega
  obtain ⟨hhigh, -⟩ := heq (le_antisymm hle (htouch.1 ▸ htwice))
  exact (hx.ne_of_odd (by omega)).2 hhigh

/-- **A number rounds to one machine number only.** -/
theorem Rounds.unique (h : b.Regular) (h' : b'.Regular) (hx : b.Rounds x) (hx' : b'.Rounds x) :
    b = b' := by
  have hexponent : b.exponent = b'.exponent :=
    le_antisymm (hx'.exponent_le h' h hx) (hx.exponent_le h h' hx')
  have hmantissa : b.mantissa = b'.mantissa :=
    le_antisymm (hx'.mantissa_le h hx hexponent.symm) (hx.mantissa_le h' hx' hexponent)
  have hnarrow : b.narrow = b'.narrow := by
    rw [Bool.eq_iff_iff, h.narrow, h'.narrow, hexponent, hmantissa]
  cases b
  cases b'
  simp_all

/-! ## The search finds a point -/

/-- A natural power with a whole exponent split off. -/
theorem pow_toNat_eq {a : ℚ} (ha : a ≠ 0) (k : ℤ) : a ^ k.toNat = a ^ k * a ^ (-k).toNat := by
  rw [← zpow_natCast, ← zpow_natCast, ← zpow_add₀ ha]
  congr 1
  omega

theorem unit_pos (b : Binary) (k : ℤ) : 0 < (b.scaled k).unit := by
  simp only [scaled, Nat.shiftLeft_eq, Nat.pow_eq]
  positivity

/-- Steps of the number, against steps of the grid. -/
theorem scaled_ratio (b : Binary) (k : ℤ) :
    ((b.scaled k).quarter : ℚ) * 10 ^ k = (b.scaled k).unit * b.step := by
  have htens := pow_toNat_eq (show (10 : ℚ) ≠ 0 by norm_num) k
  have htwos := pow_toNat_eq (two_ne_zero (α := ℚ)) (b.exponent - 2)
  rw [neg_sub] at htwos
  simp only [scaled, step, Nat.shiftLeft_eq, Nat.pow_eq]
  push_cast
  rw [htens, htwos]
  ring

section

variable (b : Binary) (k : ℤ) (a n : ℕ)

theorem quarters_eq :
    ((a * (b.scaled k).quarter : ℕ) : ℚ) * 10 ^ k = (b.scaled k).unit * (a * b.step) := by
  rw [Nat.cast_mul, mul_assoc, scaled_ratio]
  ring

theorem points_eq :
    ((n * (b.scaled k).unit : ℕ) : ℚ) * 10 ^ k = (b.scaled k).unit * (n * 10 ^ k) := by
  rw [Nat.cast_mul]
  ring

theorem quarters_le_iff :
    a * (b.scaled k).quarter ≤ n * (b.scaled k).unit ↔ a * b.step ≤ n * (10 : ℚ) ^ k := by
  have hunit : (0 : ℚ) < (b.scaled k).unit := Nat.cast_pos.2 (b.unit_pos k)
  have hten : (0 : ℚ) < 10 ^ k := zpow_pos (by norm_num) k
  rw [← Nat.cast_le (α := ℚ), ← mul_le_mul_iff_left₀ hten, quarters_eq, points_eq,
    mul_le_mul_iff_right₀ hunit]

theorem le_quarters_iff :
    n * (b.scaled k).unit ≤ a * (b.scaled k).quarter ↔ n * (10 : ℚ) ^ k ≤ a * b.step := by
  have hunit : (0 : ℚ) < (b.scaled k).unit := Nat.cast_pos.2 (b.unit_pos k)
  have hten : (0 : ℚ) < 10 ^ k := zpow_pos (by norm_num) k
  rw [← Nat.cast_le (α := ℚ), ← mul_le_mul_iff_left₀ hten, quarters_eq, points_eq,
    mul_le_mul_iff_right₀ hunit]

/-- The ends of the interval on the grid. -/
theorem covers_eq : b.covers (b.scaled k) n =
    let low := b.low * (b.scaled k).quarter
    let high := b.high * (b.scaled k).quarter
    let point := n * (b.scaled k).unit
    if b.mantissa % 2 = 0 then low ≤ point && point ≤ high else low < point && point < high := by
  have hvalue : (b.scaled k).value = 4 * b.mantissa * (b.scaled k).quarter := rfl
  simp only [covers, hvalue, low, high, Nat.sub_mul, Nat.add_mul]

/-- **Grid points in the interval** are the points that round to the number. -/
theorem covers_iff : b.covers (b.scaled k) n = true ↔ b.Rounds (n * 10 ^ k) := by
  have hlow := b.quarters_le_iff k b.low n
  have hlow' := b.le_quarters_iff k b.low n
  have hhigh := b.le_quarters_iff k b.high n
  have hhigh' := b.quarters_le_iff k b.high n
  rw [covers_eq]
  dsimp only
  split
  case isTrue heven =>
    simp only [Bool.and_eq_true, decide_eq_true_eq, hlow, hhigh]
    exact ⟨fun h => ⟨h.1, h.2, fun hodd => by omega⟩, fun h => ⟨h.low_le, h.le_high⟩⟩
  case isFalse hodd =>
    simp only [Bool.and_eq_true, decide_eq_true_eq, ← not_le, hlow', hhigh']
    simp only [not_le]
    constructor
    · exact fun h => ⟨h.1.le, h.2.le, fun _ => ⟨h.1.ne', h.2.ne⟩⟩
    · intro h
      obtain ⟨hne, hne'⟩ := h.ne_of_odd (by omega)
      exact ⟨lt_of_le_of_ne h.low_le hne.symm, lt_of_le_of_ne h.le_high hne'⟩

end

theorem covers_of_neighbour? {s : Scaled} {n : ℕ} (h : b.neighbour? s = some n) :
    b.covers s n = true := by
  unfold neighbour? at h
  dsimp only at h
  split at h
  case h_1 hbelow habove =>
    split at h
    · exact Option.some.inj h ▸ hbelow
    · exact Option.some.inj h ▸ habove
  case h_2 hbelow _ => exact Option.some.inj h ▸ hbelow
  case h_3 _ habove => exact Option.some.inj h ▸ habove
  case h_4 => cases h

theorem exists_neighbour?_of_covers {s : Scaled}
    (h : b.covers s (s.value / s.unit) = true ∨ b.covers s (s.value / s.unit + 1) = true) :
    ∃ n, b.neighbour? s = some n := by
  unfold neighbour?
  dsimp only
  split
  case h_1 => split <;> exact ⟨_, rfl⟩
  case h_2 => exact ⟨_, rfl⟩
  case h_3 => exact ⟨_, rfl⟩
  case h_4 hbelow habove => simp [hbelow, habove] at h

theorem covers_of_lt {k : ℤ} {n : ℕ}
    (hlow : b.low * (b.scaled k).quarter < n * (b.scaled k).unit)
    (hhigh : n * (b.scaled k).unit < b.high * (b.scaled k).quarter) :
    b.covers (b.scaled k) n = true := by
  rw [covers_eq]
  dsimp only
  split
  · simp [hlow.le, hhigh.le]
  · simp [hlow, hhigh]

/-- **A grid finer than the interval** has a point in it, next to the
number. -/
theorem exists_neighbour? {k : ℤ}
    (hfine : b.low * (b.scaled k).quarter + (b.scaled k).unit < b.high * (b.scaled k).quarter) :
    ∃ n, b.neighbour? (b.scaled k) = some n := by
  have hunit := b.unit_pos k
  have hvalue : (b.scaled k).value = 4 * b.mantissa * (b.scaled k).quarter := rfl
  have hlow : b.low * (b.scaled k).quarter ≤ (b.scaled k).value := by
    rw [hvalue]
    exact Nat.mul_le_mul_right _ (Nat.sub_le _ _)
  have hhigh : (b.scaled k).value + 2 * (b.scaled k).quarter = b.high * (b.scaled k).quarter := by
    rw [hvalue, high, Nat.add_mul]
  have hquarter : 0 < (b.scaled k).quarter :=
    Nat.pos_of_ne_zero fun hzero => by simp [hzero] at hfine
  have hsplit := Nat.div_add_mod' (b.scaled k).value (b.scaled k).unit
  have hrest := Nat.mod_lt (b.scaled k).value hunit
  refine exists_neighbour?_of_covers ?_
  by_cases hbelow : b.low * (b.scaled k).quarter <
      (b.scaled k).value / (b.scaled k).unit * (b.scaled k).unit
  · exact .inl (covers_of_lt hbelow (by omega))
  · -- the point below is out, so the one above is not far behind the lower end
    right
    apply covers_of_lt <;> rw [Nat.add_mul, one_mul] <;> omega

/-! ## Seventeen digits -/

theorem lt_pow_length (n : ℕ) : n < 10 ^ (Nat.toDigits 10 n).length :=
  (Nat.length_toDigits_le_iff (by decide) Nat.length_toDigits_pos).1 le_rfl

theorem pow_length_le {n : ℕ} (h : 0 < n) : 10 ^ ((Nat.toDigits 10 n).length - 1) ≤ n := by
  by_cases hone : (Nat.toDigits 10 n).length - 1 = 0
  · rw [hone, pow_zero]
    exact h
  · rw [← not_lt, ← Nat.length_toDigits_le_iff (by decide) (by omega)]
    omega

theorem units_le_iff (b : Binary) (n count : ℕ) :
    n * (b.scaled 0).unit ≤ count * (b.scaled 0).value ↔ (n : ℚ) ≤ count * b.value := by
  have hvalue : (b.scaled 0).value = 4 * b.mantissa * (b.scaled 0).quarter := rfl
  have hsteps : ((count * (4 * b.mantissa) : ℕ) : ℚ) * b.step = count * b.value := by
    rw [value_eq]
    push_cast
    ring
  rw [hvalue, ← mul_assoc, le_quarters_iff, zpow_zero, mul_one, hsteps]

theorem Regular.value_pos (h : b.Regular) : 0 < b.value :=
  h.rounds_value.pos h

/-- Where the leading digit is: it is that of the whole part, or that of how
often the number goes into one. -/
theorem magnitude_cases (h : b.Regular) :
    (∃ whole : ℕ, 0 < whole ∧ b.magnitude = (Nat.toDigits 10 whole).length - 1 ∧
      (whole : ℚ) ≤ b.value ∧ b.value < whole + 1) ∨
    ∃ count : ℕ, 0 < count ∧ b.magnitude = -(Nat.toDigits 10 count).length ∧
      count * b.value < 1 ∧ 1 ≤ (count + 1) * b.value := by
  have hunit := b.unit_pos 0
  have hvaluePos : 0 < (b.scaled 0).value := by
    have hmantissa := h.pos
    have hquarter : 0 < (b.scaled 0).quarter := by
      simp only [scaled, Nat.shiftLeft_eq, Nat.pow_eq]
      positivity
    exact Nat.mul_pos (Nat.mul_pos (by decide) hmantissa) hquarter
  have hle := b.units_le_iff
  unfold magnitude
  dsimp only
  generalize (b.scaled 0).unit = unit at *
  generalize (b.scaled 0).value = value at *
  split
  case isTrue hge =>
    refine .inl ⟨value / unit, Nat.div_pos hge hunit, rfl, ?_, ?_⟩
    · have hbelow := (hle (value / unit) 1).1 (by
        rw [one_mul]
        exact Nat.div_mul_le_self _ _)
      rwa [Nat.cast_one, one_mul] at hbelow
    · have habove := (hle (value / unit + 1) 1).not.1 (by
        rw [one_mul, not_le, Nat.add_mul, one_mul]
        exact Nat.lt_div_mul_add hunit)
      push_cast at habove
      rwa [one_mul, not_le] at habove
  case isFalse hlt =>
    generalize hcount : (unit + value - 1) / value = count
    have hlast := Nat.div_mul_le_self (unit + value - 1) value
    have hnext := Nat.lt_div_mul_add hvaluePos (a := unit + value - 1)
    rw [hcount] at hlast hnext
    have htwo : 2 ≤ count := by
      by_contra hone
      have hsmall : count * value ≤ 1 * value := Nat.mul_le_mul_right _ (by omega)
      omega
    obtain ⟨n, rfl⟩ : ∃ n, count = n + 1 := ⟨count - 1, by omega⟩
    rw [Nat.add_mul, one_mul] at hlast hnext
    refine .inr ⟨n, by omega, rfl, ?_, ?_⟩
    · have hbelow := (hle 1 n).not.1 (by omega)
      rwa [Nat.cast_one, not_le] at hbelow
    · have habove := (hle 1 (n + 1)).1 (by
        rw [one_mul, Nat.add_mul, one_mul]
        omega)
      push_cast at habove
      exact habove

/-- **The leading digit** is where it is looked for. -/
theorem magnitude_bounds (h : b.Regular) :
    (10 : ℚ) ^ b.magnitude ≤ b.value ∧ b.value < 10 ^ (b.magnitude + 1) := by
  have hpos := h.value_pos
  rcases magnitude_cases h with ⟨whole, hwhole, hmagnitude, hbelow, habove⟩ |
    ⟨count, hcount, hmagnitude, hbelow, habove⟩
  · have hlength : 0 < (Nat.toDigits 10 whole).length := Nat.length_toDigits_pos
    have hlow : ((10 ^ ((Nat.toDigits 10 whole).length - 1) : ℕ) : ℚ) ≤ whole :=
      Nat.cast_le.2 (pow_length_le hwhole)
    have hhigh : (whole : ℚ) + 1 ≤ (10 ^ (Nat.toDigits 10 whole).length : ℕ) := by
      exact_mod_cast lt_pow_length whole
    have hexponent : b.magnitude = ((Nat.toDigits 10 whole).length - 1 : ℕ) := by omega
    constructor
    · rw [hexponent, zpow_natCast]
      push_cast at hlow
      linarith
    · rw [hmagnitude, sub_add_cancel, zpow_natCast]
      push_cast at hhigh
      linarith
  · have hlength : 0 < (Nat.toDigits 10 count).length := Nat.length_toDigits_pos
    have hlow : ((10 ^ ((Nat.toDigits 10 count).length - 1) : ℕ) : ℚ) ≤ count :=
      Nat.cast_le.2 (pow_length_le hcount)
    have hhigh : (count : ℚ) + 1 ≤ (10 ^ (Nat.toDigits 10 count).length : ℕ) := by
      exact_mod_cast lt_pow_length count
    have hexponent : b.magnitude + 1 = -((Nat.toDigits 10 count).length - 1 : ℕ) := by omega
    push_cast at hlow hhigh
    constructor
    · rw [hmagnitude, zpow_neg, zpow_natCast, inv_le_iff_one_le_mul₀ (by positivity)]
      calc (1 : ℚ) ≤ (count + 1) * b.value := habove
        _ ≤ 10 ^ (Nat.toDigits 10 count).length * b.value :=
          mul_le_mul_of_nonneg_right hhigh hpos.le
        _ = b.value * 10 ^ (Nat.toDigits 10 count).length := mul_comm _ _
    · rw [hexponent, zpow_neg, zpow_natCast, ← one_div, lt_div_iff₀ (by positivity)]
      calc b.value * 10 ^ ((Nat.toDigits 10 count).length - 1) ≤ b.value * count :=
            mul_le_mul_of_nonneg_left hlow hpos.le
        _ = count * b.value := mul_comm _ _
        _ < 1 := hbelow

/-- Seventeen digits make a grid that is finer than the interval. -/
theorem Regular.fine (h : b.Regular) : b.low * (b.scaled (b.magnitude - 16)).quarter +
    (b.scaled (b.magnitude - 16)).unit < b.high * (b.scaled (b.magnitude - 16)).quarter := by
  have hmagnitude := (magnitude_bounds h).1
  have hstep := b.step_pos
  have hgrid : (10 : ℚ) ^ (b.magnitude - 16) = 10 ^ b.magnitude / 10 ^ 16 := by
    rw [zpow_sub₀ (by norm_num)]
    rfl
  have hmantissa : (b.mantissa : ℚ) + 1 ≤ 2 ^ 53 := by exact_mod_cast h.lt
  rw [value_eq] at hmagnitude
  -- the interval is three or four steps wide, and three only at a power of two
  obtain ⟨width, hwidth, hfine⟩ : ∃ width : ℕ, b.low + width = b.high ∧
      (10 : ℚ) ^ (b.magnitude - 16) < width * b.step := by
    rcases h.low_cases with ⟨hlow, hpower, -⟩ | ⟨hlow, -⟩
    · refine ⟨3, by unfold high; omega, ?_⟩
      have hpower' : (b.mantissa : ℚ) = 2 ^ 52 := by exact_mod_cast hpower
      rw [hgrid, div_lt_iff₀ (by norm_num)]
      rw [hpower'] at hmagnitude
      push_cast
      nlinarith
    · refine ⟨4, by unfold high; omega, ?_⟩
      rw [hgrid, div_lt_iff₀ (by norm_num)]
      push_cast
      nlinarith
  have hcount := (b.quarters_le_iff (b.magnitude - 16) width 1).not.2 (by
    rw [Nat.cast_one, one_mul, not_le]
    exact hfine)
  rw [← hwidth, Nat.add_mul]
  omega

/-- **The search does not fail.** -/
theorem Regular.exists_withDigits? (h : b.Regular) :
    ∃ d, (List.range' 1 17).findSome? (b.withDigits? b.magnitude) = some d := by
  rw [← Option.isSome_iff_exists, List.findSome?_isSome_iff]
  obtain ⟨n, hn⟩ := exists_neighbour? h.fine
  refine ⟨17, by decide, ?_⟩
  have hgrid : b.magnitude - (17 : ℕ) + 1 = b.magnitude - 16 := by omega
  rw [withDigits?, hgrid, hn]
  rfl

end Binary

/-- Trailing zeros do not count. -/
theorem Decimal.value_trim (room : ℕ) (d : Decimal) : (d.trim room).value = d.value := by
  induction room generalizing d with
  | zero => rfl
  | succ room ih =>
    rw [Decimal.trim]
    split
    case isFalse => rfl
    case isTrue hzero =>
      rw [ih, Decimal.value, Decimal.value, zpow_add_one₀ (by norm_num)]
      have hten : d.coefficient = d.coefficient / 10 * 10 := by omega
      nth_rewrite 2 [hten]
      push_cast
      ring

/-- With room for all of them, no trailing zero is left. -/
theorem Decimal.coefficient_trim_mod (room : ℕ) (d : Decimal) (hpos : 0 < d.coefficient)
    (hlt : d.coefficient < 10 ^ (room + 1)) : (d.trim room).coefficient % 10 ≠ 0 := by
  induction room generalizing d with
  | zero =>
    rw [Decimal.trim]
    omega
  | succ room ih =>
    rw [Decimal.trim]
    split
    case isFalse hlast => exact hlast
    case isTrue hlast =>
      refine ih _ ?_ ?_ <;> dsimp only
      · omega
      · rw [pow_succ] at hlt
        omega

namespace Binary

variable {b b' : Binary}

/-- The shortest decimal is found on a grid of at most seventeen digits. -/
theorem Regular.exists_shortest (h : b.Regular) :
    ∃ (n : ℕ) (k : ℤ), b.shortest = Decimal.trim 17 ⟨n, k⟩ ∧ b.Rounds (n * 10 ^ k) ∧
      b.magnitude - 16 ≤ k := by
  obtain ⟨d, hd⟩ := h.exists_withDigits?
  obtain ⟨count, hmem, hcount⟩ := List.exists_of_findSome?_eq_some hd
  obtain ⟨n, hn, rfl⟩ := Option.map_eq_some_iff.1 hcount
  have hcount : count ≤ 17 := by
    have hrange := List.mem_range'_1.1 hmem
    omega
  refine ⟨n, b.magnitude - count + 1, ?_, (b.covers_iff _ n).1 (covers_of_neighbour? hn), by omega⟩
  simp only [shortest, hd]

/-- **The shortest decimal of a machine number rounds to it.** -/
theorem Regular.rounds_shortest (h : b.Regular) : b.Rounds b.shortest.value := by
  obtain ⟨n, k, hshortest, hrounds, -⟩ := h.exists_shortest
  rw [hshortest, Decimal.value_trim]
  exact hrounds

/-- What rounds to a machine number is less than twice it. -/
theorem Rounds.lt_two_mul (h : b.Regular) {x : ℚ} (hx : b.Rounds x) : x < 2 * b.value := by
  have hhigh : (b.high : ℚ) < 8 * b.mantissa := by
    have hlt : b.high < 8 * b.mantissa := by
      have hpos := h.pos
      unfold high
      omega
    exact_mod_cast hlt
  calc x ≤ b.high * b.step := hx.le_high
    _ < 8 * b.mantissa * b.step := mul_lt_mul_of_pos_right hhigh b.step_pos
    _ = 2 * b.value := by
      rw [value_eq]
      ring

/-- **It has no trailing zeros.** -/
theorem Regular.shortest_mod (h : b.Regular) : b.shortest.coefficient % 10 ≠ 0 := by
  obtain ⟨n, k, hshortest, hrounds, hk⟩ := h.exists_shortest
  have hten : (0 : ℚ) < 10 ^ k := zpow_pos (by norm_num) k
  have hpos : 0 < n := by
    have hpos := hrounds.pos h
    exact_mod_cast pos_of_mul_pos_left hpos hten.le
  -- the number has its leading digit seventeen places in front of the grid at most
  have hlt : (n : ℚ) * 10 ^ k < 2 * 10 ^ 17 * 10 ^ k := by
    have hpower : (10 : ℚ) ^ (b.magnitude + 1) ≤ 10 ^ 17 * 10 ^ k := by
      rw [← zpow_natCast, ← zpow_add₀ (by norm_num)]
      exact zpow_le_zpow_right₀ (by norm_num) (by push_cast; omega)
    have htwice := hrounds.lt_two_mul h
    have hbound := (magnitude_bounds h).2
    linarith
  have hlt' : n < 10 ^ 18 := by
    have hn : (n : ℚ) < 2 * 10 ^ 17 := lt_of_mul_lt_mul_right hlt hten.le
    have hn' : n < 2 * 10 ^ 17 := by exact_mod_cast hn
    omega
  rw [hshortest]
  exact Decimal.coefficient_trim_mod 17 ⟨n, k⟩ hpos hlt'

/-- **And to no other**: its value tells machine numbers apart. -/
theorem Regular.eq_of_value_shortest (h : b.Regular) (h' : b'.Regular)
    (heq : b.shortest.value = b'.shortest.value) : b = b' :=
  h.rounds_shortest.unique h h' (heq ▸ h'.rounds_shortest)

end Binary

end Treewalk
