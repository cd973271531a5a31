import Treewalk.Proofs.Number.Spelling
import Treewalk.Proofs.Token.Segmentation

/-!
# Which numbers are written positionally

The full text of a number is digits, a point and digits exactly if the number
is zero or its size is at least `10 ^ -4` and less than `10 ^ 16`. What decides
is the leading digit of the shortest decimal, which is not the number itself.
But a power of ten could come between the two only if it rounded to the same
machine number, and then it would be the shortest decimal.

The plain text is the full one without a fraction that is zero. Nothing else in
the full text looks like one, because the shortest decimal has no trailing
zeros.
-/

namespace Treewalk

/-! ## The leading digit -/

namespace Decimal

variable {d : Decimal}

/-- The power of ten that the leading digit counts. -/
def leading (d : Decimal) : ℤ := (Nat.toDigits 10 d.coefficient).length - 1 + d.exponent

theorem leading_bounds (h : 0 < d.coefficient) :
    (10 : ℚ) ^ d.leading ≤ d.value ∧ d.value < 10 ^ (d.leading + 1) := by
  have hlength : 0 < (Nat.toDigits 10 d.coefficient).length := Nat.length_toDigits_pos
  have hten : (0 : ℚ) < 10 ^ d.exponent := zpow_pos (by norm_num) _
  have hlow : (10 : ℚ) ^ ((Nat.toDigits 10 d.coefficient).length - 1) ≤ d.coefficient := by
    exact_mod_cast Binary.pow_length_le h
  have hhigh : (d.coefficient : ℚ) < 10 ^ (Nat.toDigits 10 d.coefficient).length := by
    exact_mod_cast Binary.lt_pow_length d.coefficient
  have hleading : d.leading = ((Nat.toDigits 10 d.coefficient).length - 1 : ℕ) + d.exponent := by
    unfold leading
    omega
  have hnext : d.leading + 1 = (Nat.toDigits 10 d.coefficient).length + d.exponent := by
    unfold leading
    omega
  constructor
  · rw [hleading, zpow_add₀ (by norm_num), zpow_natCast]
    exact mul_le_mul_of_nonneg_right hlow hten.le
  · rw [hnext, zpow_add₀ (by norm_num), zpow_natCast]
    exact mul_lt_mul_of_pos_right hhigh hten

/-- **The leading digit tells which powers of ten a decimal reaches.** -/
theorem le_leading_iff (h : 0 < d.coefficient) (k : ℤ) :
    k ≤ d.leading ↔ (10 : ℚ) ^ k ≤ d.value := by
  obtain ⟨hlow, hhigh⟩ := leading_bounds h
  constructor
  · intro hk
    exact (zpow_le_zpow_right₀ (by norm_num) hk).trans hlow
  · intro hk
    have hlt : k < d.leading + 1 :=
      (zpow_lt_zpow_iff_right₀ (by norm_num)).1 (hk.trans_lt hhigh)
    omega

end Decimal

namespace Binary

variable {b bound : Binary} {t : ℚ}

/-- Let `t` round to a machine number that is not below it, and whose decimal
is not either. Then every decimal is on the same side of `t` as its machine
number. -/
theorem Regular.le_shortest_iff (h : b.Regular) (hbound : bound.Regular) (ht : bound.Rounds t)
    (hvalue : t ≤ bound.value) (hshortest : t ≤ bound.shortest.value) :
    t ≤ b.shortest.value ↔ t ≤ b.value := by
  by_cases heq : b = bound
  · subst heq
    exact iff_of_true hshortest hvalue
  -- between a machine number and its decimal all rounds to that number
  have houtside : ¬ b.Rounds t := fun hrounds => heq (hrounds.unique h hbound ht)
  constructor
  · intro hle
    by_contra! hlt
    exact houtside (h.rounds_value.between h.rounds_shortest hlt.le hle)
  · intro hle
    by_contra! hlt
    exact houtside (h.rounds_shortest.between h.rounds_value hlt.le hle)

/-- The two powers of ten at which the notation changes. The first is no
machine number, and rounds up. -/
theorem exists_bound : ∀ k ∈ [(-4 : ℤ), 16],
    ∃ bound : Binary, bound.Regular ∧ bound.shortest = ⟨1, k⟩ ∧ (10 : ℚ) ^ k ≤ bound.value := by
  intro k hk
  rcases List.mem_pair.1 hk with rfl | rfl
  · refine ⟨⟨7378697629483821, -66, false⟩, ?_, by decide +kernel, ?_⟩
    · constructor <;> decide
    · norm_num [value]
  · refine ⟨⟨5000000000000000, 1, false⟩, ?_, by decide +kernel, ?_⟩
    · constructor <;> decide
    · norm_num [value]

theorem Regular.coefficient_shortest_pos (h : b.Regular) : 0 < b.shortest.coefficient := by
  have hmod := h.shortest_mod
  omega

/-- **The notation is chosen by the number itself**, not only by the decimal
it is written as. -/
theorem Regular.le_leading_iff (h : b.Regular) {k : ℤ} (hk : k ∈ [(-4 : ℤ), 16]) :
    k ≤ b.shortest.leading ↔ (10 : ℚ) ^ k ≤ b.value := by
  obtain ⟨bound, hbound, hshortest, hvalue⟩ := exists_bound k hk
  have hpower : bound.shortest.value = (10 : ℚ) ^ k := by
    rw [hshortest, Decimal.value, Nat.cast_one, one_mul]
  have hrounds : bound.Rounds ((10 : ℚ) ^ k) := hpower ▸ hbound.rounds_shortest
  rw [Decimal.le_leading_iff h.coefficient_shortest_pos,
    h.le_shortest_iff hbound hrounds hvalue hpower.ge]

end Binary

namespace Number

open Segment

variable {x : Float}

/-! ## Finite numbers and their numerals -/

/-- Whether the sign of a number is a minus. -/
def isNegative (x : Float) : Bool := decide (2 ^ 63 ≤ x.toBits.toNat)

/-- The size of a number, if it is finite. -/
def Shape.size? : Shape → Option ℚ
  | undefined => none
  | infinite _ => none
  | zero _ => some 0
  | finite _ b => some b.value

/-- Zero, and the numbers from `10 ^ -4` up to `10 ^ 16`. -/
def Positional (x : Float) : Prop :=
  ∃ size ∈ (shape x).size?, size = 0 ∨ (10 : ℚ) ^ (-4 : ℤ) ≤ size ∧ size < 10 ^ 16

/-- The numeral in the text of a finite number. -/
def Style.numeralOf (style : Style) : Shape → Numeral
  | .finite _ b => style.numeral b.shortest
  | _ => ⟨['0'], if style.zeroFraction then ['0'] else [], none⟩

theorem sign_shape (h : shape x ≠ .undefined) : (shape x).reading.1 = isNegative x := by
  rw [shape_eq] at h ⊢
  dsimp only at h ⊢
  split
  · split
    · rfl
    · simp_all
  split
  · split <;> rfl
  · rfl

theorem shape_ne_of_size? {size : ℚ} (h : (shape x).size? = some size) : shape x ≠ .undefined :=
  fun hshape => by simp [hshape, Shape.size?] at h

theorem proper_numeralOf (style : Style) (s : Shape) : (style.numeralOf s).Proper := by
  have hzero : ∀ c ∈ ['0'], isDigit c = true := List.all_eq_true.1 (by decide)
  unfold Style.numeralOf
  split
  · exact proper_numeral _ _
  · refine ⟨hzero, ?_, List.cons_ne_nil _ _⟩
    dsimp only
    split
    · exact hzero
    · exact List.forall_mem_nil _

/-- **The text of a finite number** is its sign and its numeral. -/
theorem toList_text (style : Style) {size : ℚ} (h : (shape x).size? = some size) :
    (style.text x).toList =
      (signText (isNegative x)).toList ++ (style.numeralOf (shape x)).text := by
  rw [← sign_shape (shape_ne_of_size? h), Style.text]
  cases hshape : shape x with
  | undefined => simp [hshape, Shape.size?] at h
  | infinite negative => simp [hshape, Shape.size?] at h
  | zero negative =>
    rw [String.toList_append]
    cases hfraction : style.zeroFraction <;>
      simp [Shape.reading, Style.numeralOf, Numeral.text, hfraction]
  | finite negative b =>
    rw [String.toList_append, toList_decimalText]
    rfl

/-- A decimal is written without an exponent where the style says so. -/
theorem exponent_numeral (style : Style) (d : Decimal) :
    (style.numeral d).exponent = none ↔ style.least ≤ d.leading ∧ d.leading < style.bound := by
  unfold Style.numeral Decimal.leading
  simp only [Bool.and_eq_true, decide_eq_true_eq]
  split
  case isTrue hrange => split <;> exact iff_of_true rfl hrange
  case isFalse hrange => exact iff_of_false nofun hrange

/-- **The numbers of the positional range are written without an
exponent**, and no others are. -/
theorem exponent_numeralOf (zeroFraction : Bool) {size : ℚ} (h : (shape x).size? = some size) :
    (Style.numeralOf ⟨-4, 16, zeroFraction⟩ (shape x)).exponent = none ↔ Positional x := by
  cases hshape : shape x with
  | undefined => simp [hshape, Shape.size?] at h
  | infinite negative => simp [hshape, Shape.size?] at h
  | zero negative => exact iff_of_true rfl ⟨0, by simp [hshape, Shape.size?], .inl rfl⟩
  | finite negative b =>
    have hregular := regular_of_shape hshape
    have hleast := hregular.le_leading_iff (k := -4) (by decide)
    have hbound := (hregular.le_leading_iff (k := 16) (by decide)).not
    rw [not_le, not_le, zpow_ofNat] at hbound
    rw [Style.numeralOf, exponent_numeral, hleast, hbound]
    simp [Positional, hshape, Shape.size?, hregular.value_pos.ne']

/-! ## Texts with a point -/

/-- Digits, a point and digits, perhaps with a minus in front. -/
def Pointed (text : List Char) : Prop :=
  ∃ negative whole fraction, Digits whole ∧ Digits fraction ∧
    text = (signText negative).toList ++ (whole ++ '.' :: fraction)

theorem Pointed.mem {text : List Char} (h : Pointed text) {c : Char} (hc : c ∈ text) :
    isDigit c = true ∨ c ∈ ['.', '-'] := by
  obtain ⟨negative, whole, fraction, hwhole, hfraction, rfl⟩ := h
  simp only [List.mem_append, List.mem_cons] at hc
  rcases hc with hc | hc | rfl | hc
  · cases negative with
    | true => exact .inr (by simp_all [signText])
    | false => simp [signText] at hc
  · exact .inl (hwhole.2 c hc)
  · exact .inr (by decide)
  · exact .inl (hfraction.2 c hc)

/-- The two spellings of a decimal: they differ where the plain one has
neither a fraction nor an exponent. -/
theorem numeral_full (d : Decimal) :
    Style.full.numeral d =
      if (Style.plain.numeral d).exponent = none ∧ (Style.plain.numeral d).fraction = [] then
        { Style.plain.numeral d with fraction := ['0'] }
      else Style.plain.numeral d := by
  have hdigits : Nat.toDigits 10 d.coefficient ≠ [] := Nat.toDigits_ne_nil
  unfold Style.numeral Style.full Style.plain
  dsimp only
  split
  · split
    · simp [hdigits]
    · split
      case isTrue => simp
      case isFalse hsome =>
        rw [List.isEmpty_iff] at hsome
        simp [hsome]
  · simp

/-- Without an exponent, the full spelling has a fraction. -/
theorem fraction_full_ne_nil {s : Shape} (h : (Style.full.numeralOf s).exponent = none) :
    (Style.full.numeralOf s).fraction ≠ [] := by
  unfold Style.numeralOf at h ⊢
  split at h
  case h_2 => exact List.cons_ne_nil _ _
  case h_1 _ b =>
    rw [numeral_full] at h ⊢
    by_cases hwhole : (Style.plain.numeral b.shortest).exponent = none ∧
        (Style.plain.numeral b.shortest).fraction = []
    · rw [if_pos hwhole]
      exact List.cons_ne_nil _ _
    · rw [if_neg hwhole] at h ⊢
      exact fun hnil => hwhole ⟨h, hnil⟩

/-- An exponent has a letter, and texts with a point and digits have none. -/
theorem not_pointed_of_exponent {negative : Bool} {n : Numeral} (h : n.exponent ≠ none) :
    ¬ Pointed ((signText negative).toList ++ n.text) := by
  obtain ⟨e, he⟩ := Option.ne_none_iff_exists'.1 h
  intro hpointed
  have hmem : 'e' ∈ (signText negative).toList ++ n.text := by
    simp [Numeral.text, he, toList_exponentText]
  rcases hpointed.mem hmem with hdigit | hdigit
  · cases hdigit
  · simp at hdigit

theorem pointed_of_numeral (negative : Bool) {n : Numeral} (h : n.Proper)
    (hexponent : n.exponent = none) (hfraction : n.fraction ≠ []) :
    Pointed ((signText negative).toList ++ n.text) := by
  refine ⟨negative, n.whole, n.fraction, ⟨h.ne_nil, h.whole⟩, ⟨hfraction, h.fraction⟩, ?_⟩
  rw [Numeral.text, hexponent, if_neg hfraction, Option.elim_none, List.append_nil]

/-- **The full text has a point and no exponent exactly in the positional
range.** -/
theorem pointed_full (x : Float) : Pointed (full x).toList ↔ Positional x := by
  cases hsize : (shape x).size? with
  | none =>
    -- the words for numbers that are not finite have a letter
    refine iff_of_false (fun hpointed => ?_) (fun ⟨_, hmem, _⟩ => by simp [hsize] at hmem)
    have hmem : 'n' ∈ (full x).toList := by
      unfold full Style.text
      cases hshape : shape x <;> simp_all [Shape.size?]
    rcases hpointed.mem hmem with hdigit | hdigit
    · cases hdigit
    · simp at hdigit
  | some size =>
    rw [← exponent_numeralOf true hsize, full, toList_text _ hsize]
    constructor
    · intro hpointed
      by_contra hsome
      exact not_pointed_of_exponent hsome hpointed
    · intro hnone
      exact pointed_of_numeral _ (proper_numeralOf _ _) hnone (fraction_full_ne_nil hnone)

/-! ## Texts without a zero fraction -/

/-- A text without a fraction that is zero at its end. -/
def dropZeroFraction (text : List Char) : List Char :=
  if ['.', '0'] <:+ text then text.dropLast.dropLast else text

theorem dropZeroFraction_append (text : List Char) :
    dropZeroFraction (text ++ ['.', '0']) = text := by
  have htwice : text ++ ['.', '0'] = text ++ ['.'] ++ ['0'] := by simp
  rw [dropZeroFraction, if_pos (List.suffix_append _ _), htwice, List.dropLast_concat,
    List.dropLast_concat]

/-- A decimal without trailing zeros does not end in one. -/
theorem not_suffix_toDigits {n : ℕ} (h : n % 10 ≠ 0) : ¬ ['0'] <:+ Nat.toDigits 10 n := by
  rintro ⟨front, hfront⟩
  have hvalue := foldDigits_toDigits n
  have hlast : Decimal.foldDigits (Decimal.foldDigits 0 front) ['0'] =
      10 * Decimal.foldDigits 0 front := rfl
  rw [← hfront, foldDigits_append, hlast] at hvalue
  omega

/-- **The plain spelling has no fraction that is zero.** -/
theorem fraction_plain_ne {d : Decimal} (h : d.coefficient % 10 ≠ 0)
    (hexponent : (Style.plain.numeral d).exponent = none) :
    (Style.plain.numeral d).fraction ≠ ['0'] := by
  have hlast := not_suffix_toDigits h
  have hdigits : Nat.toDigits 10 d.coefficient ≠ [] := Nat.toDigits_ne_nil
  unfold Style.numeral at hexponent ⊢
  dsimp only at hexponent ⊢
  split at hexponent
  case isFalse => cases hexponent
  case isTrue hrange =>
    rw [if_pos hrange]
    split
    · intro hzero
      -- the digits are all of it, since there is at least one
      rcases List.append_eq_singleton_iff.1 hzero with ⟨-, hone⟩ | ⟨-, hnone⟩
      · exact hlast (hone ▸ List.suffix_refl _)
      · exact hdigits hnone
    · split
      case isTrue => nofun
      case isFalse => exact fun hzero => hlast (hzero ▸ List.drop_suffix _ _)

theorem two_le_length_exponentDigits (e : ℤ) : 2 ≤ (exponentDigits e).length := by
  have hlength : 0 < (Nat.toDigits 10 e.natAbs).length := Nat.length_toDigits_pos
  unfold exponentDigits
  split
  · rw [List.length_cons]
    omega
  · omega

/-- A numeral ends like a zero fraction only if it has one. -/
theorem Numeral.Proper.not_suffix {n : Numeral} (h : n.Proper)
    (hne : ¬ (n.exponent = none ∧ n.fraction = ['0'])) (negative : Bool) :
    ¬ ['.', '0'] <:+ (signText negative).toList ++ n.text := by
  have hpoint : isDigit '.' = false := by decide
  intro hsuffix
  cases hexponent : n.exponent with
  | some e =>
    -- an exponent has two digits at the end
    have hdigits : exponentDigits e <:+ (signText negative).toList ++ n.text := by
      refine ⟨(signText negative).toList ++ (n.whole ++
        ((if n.fraction = [] then [] else '.' :: n.fraction) ++
          ['e', if e < 0 then '-' else '+'])), ?_⟩
      simp [Numeral.text, hexponent, toList_exponentText]
    have hshort := List.suffix_of_suffix_length_le hsuffix hdigits (two_le_length_exponentDigits e)
    have hdigit := isDigit_of_mem_exponentDigits (hshort.subset List.mem_cons_self)
    simp [hpoint] at hdigit
  | none =>
    by_cases hfraction : n.fraction = []
    · -- there is no point at all
      rw [Numeral.text, hexponent, if_pos hfraction, List.nil_append, Option.elim_none,
        List.append_nil] at hsuffix
      rcases List.mem_append.1 (hsuffix.subset List.mem_cons_self) with hsign | hwhole
      · cases negative <;> simp [signText] at hsign
      · have hdigit := h.whole _ hwhole
        simp [hpoint] at hdigit
    · rw [Numeral.text, hexponent, if_neg hfraction, Option.elim_none, List.append_nil,
        ← List.append_assoc] at hsuffix
      have hlength : 0 < n.fraction.length := List.length_pos_iff.2 hfraction
      have hshort := List.suffix_of_suffix_length_le hsuffix (List.suffix_append _ _)
        (by simp only [List.length_cons, List.length_nil]; omega)
      rcases List.suffix_cons_iff.1 hshort with heq | hwithin
      · exact hne ⟨hexponent, (List.cons.inj heq).2.symm⟩
      · have hdigit := h.fraction _ (hwithin.subset List.mem_cons_self)
        simp [hpoint] at hdigit

/-- **The plain text is the full one without a zero fraction.** -/
theorem plain_eq (x : Float) : (plain x).toList = dropZeroFraction (full x).toList := by
  cases hshape : shape x with
  | undefined =>
    rw [plain, full, Style.text, Style.text, hshape]
    decide
  | infinite negative =>
    rw [plain, full, Style.text, Style.text, hshape]
    cases negative <;> decide
  | zero negative =>
    rw [plain, full, Style.text, Style.text, hshape]
    cases negative <;> decide
  | finite negative b =>
    have hsize : (shape x).size? = some b.value := by rw [hshape, Shape.size?]
    have hmod := (regular_of_shape hshape).shortest_mod
    rw [plain, full, toList_text _ hsize, toList_text _ hsize, hshape, Style.numeralOf,
      Style.numeralOf, numeral_full]
    split
    case isTrue hwhole =>
      have htext : (signText (isNegative x)).toList ++
          Numeral.text { Style.plain.numeral b.shortest with fraction := ['0'] } =
            (signText (isNegative x)).toList ++ (Style.plain.numeral b.shortest).text ++
              ['.', '0'] := by
        simp [Numeral.text, hwhole.1, hwhole.2]
      rw [htext, dropZeroFraction_append]
    case isFalse =>
      have hne : ¬ ((Style.plain.numeral b.shortest).exponent = none ∧
          (Style.plain.numeral b.shortest).fraction = ['0']) :=
        fun hzero => fraction_plain_ne hmod hzero.1 hzero.2
      rw [dropZeroFraction, if_neg ((proper_numeral _ _).not_suffix hne _)]

end Number

end Treewalk
