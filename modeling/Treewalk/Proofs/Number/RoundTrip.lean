import Treewalk.Proofs.Number.Conversion
import Treewalk.Proofs.Number.Positional

/-!
# Numbers read back from their texts

The numeral in the text of a finite number denotes the shortest decimal of its
size, which is in the interval of that size and so becomes it again. With the
sign in front, **the text of a finite number is read as that number**
(`read?_text`), in either style.
-/

namespace Treewalk

namespace Number

variable {x : Float} {n : Numeral}

/-! ## Signs -/

theorem isFinite_iff_size? : x.isFinite = true ↔ ∃ size, (shape x).size? = some size := by
  have hfinite : x.isFinite = x.toModel.unpack.isFinite := rfl
  rw [hfinite, ← ofUnpacked_unpack x]
  cases x.toModel.unpack <;>
    simp [Float.Model.UnpackedFloat.isFinite, Shape.ofUnpacked, Shape.size?]

theorem size?_neg (x : Float) : (shape (-x)).size? = (shape x).size? := by
  rw [shape_neg]
  cases shape x <;> rfl

theorem positional_neg : Positional (-x) ↔ Positional x := by
  rw [Positional, Positional, size?_neg]

theorem isNegative_neg (h : shape x ≠ .undefined) : isNegative (-x) = !isNegative x := by
  have hneg : shape (-x) ≠ .undefined := by
    rw [shape_neg]
    cases hshape : shape x <;> simp_all [Shape.neg]
  rw [← sign_shape hneg, ← sign_shape h, shape_neg]
  cases hshape : shape x with
  | undefined => exact absurd hshape h
  | infinite _ | zero _ | finite _ _ => rfl

theorem neg_neg_of_shape (h : shape x ≠ .undefined) : - -x = x := by
  have hshape : shape (- -x) = shape x := by
    rw [shape_neg, shape_neg]
    cases shape x <;> simp [Shape.neg]
  exact eq_of_shape (hshape ▸ h) hshape

/-- **The text of a negative number** is a minus and the text of its
opposite. -/
theorem text_of_isNegative (style : Style) (h : shape x ≠ .undefined) (hsign : isNegative x = true) :
    style.text x = "-" ++ style.text (-x) := by
  rw [← sign_shape h] at hsign
  unfold Style.text
  rw [shape_neg]
  cases hshape : shape x with
  | undefined => exact absurd hshape h
  | infinite negative | zero negative | finite negative _ =>
    rw [hshape] at hsign
    obtain rfl : negative = true := hsign
    simp [Shape.neg, signText]

/-! ## Numerals -/

theorem toNat_of_isDigit {c : Char} (h : isDigit c = true) : 48 ≤ c.toNat ∧ c.toNat ≤ 57 := by
  simpa [isDigit, Char.le_def, UInt32.le_iff_toNat_le] using h

theorem toLower_of_isDigit {c : Char} (h : isDigit c = true) : c.toLower = c := by
  obtain ⟨-, hhigh⟩ := toNat_of_isDigit h
  rw [Char.toLower, dif_neg]
  intro hupper
  have hlow : 65 ≤ c.toNat := UInt32.le_iff_toNat_le.1 hupper.1
  omega

/-- A numeral is none of the words for infinity and the undefined number. -/
theorem Numeral.Proper.readSize?_text (h : n.Proper) :
    readSize? n.text = some n.decimal.toFloat := by
  obtain ⟨c, rest, htext, hc⟩ := h.exists_head
  have hword {d : Char} {ds : List Char} (hd : isDigit d = false) :
      ¬ String.ofList (n.text.map Char.toLower) = String.ofList (d :: ds) := by
    intro heq
    rw [String.ofList_inj, htext, List.map_cons, toLower_of_isDigit hc] at heq
    rw [(List.cons.inj heq).1, hd] at hc
    cases hc
  have hinf : ¬ String.ofList (n.text.map Char.toLower) = "inf" := hword (by decide)
  have hinfinity : ¬ String.ofList (n.text.map Char.toLower) = "infinity" := hword (by decide)
  have hnan : ¬ String.ofList (n.text.map Char.toLower) = "nan" := hword (by decide)
  rw [readSize?, h.readDecimal?_text]
  simp [hinf, hinfinity, hnan]

/-- **The numeral of an unsigned number denotes it.** -/
theorem toFloat_numeralOf (style : Style) {size : ℚ} (h : (shape x).size? = some size)
    (hsign : isNegative x = false) : (style.numeralOf (shape x)).decimal.toFloat = x := by
  have hne := shape_ne_of_size? h
  rw [← sign_shape hne] at hsign
  symm
  apply eq_of_shape hne
  cases hshape : shape x with
  | undefined => simp [hshape, Shape.size?] at h
  | infinite negative => simp [hshape, Shape.size?] at h
  | zero negative =>
    rw [hshape] at hsign
    obtain rfl : negative = false := hsign
    have hzero : (style.numeralOf (.zero false)).decimal.coefficient = 0 := by
      cases hfraction : style.zeroFraction <;>
        simp [Style.numeralOf, Numeral.decimal, Decimal.foldDigits, hfraction]
    rw [Decimal.toFloat, if_pos hzero]
    decide +kernel
  | finite negative b =>
    rw [hshape] at hsign
    obtain rfl : negative = false := hsign
    have hregular := regular_of_shape hshape
    have hrounds : b.Rounds (style.numeral b.shortest).decimal.value := by
      rw [value_numeral]
      exact hregular.rounds_shortest
    exact (shape_toFloat hregular (exponent_le_of_shape hshape) hrounds).symm

/-! ## Reading -/

theorem isBlank_of_isDigit {c : Char} (h : isDigit c = true) : Text.isBlank c = false := by
  obtain ⟨hlow, hhigh⟩ := toNat_of_isDigit h
  have houtside : ∀ r ∈ Text.blankRanges, r.2 < 48 ∨ 57 < r.1 := by decide
  rw [Text.isBlank, List.any_eq_false]
  intro r hr
  have hrange := houtside r hr
  simp only [Bool.and_eq_true, decide_eq_true_eq]
  omega

theorem Numeral.Proper.not_isBlank (h : n.Proper) : ∀ c ∈ n.text, Text.isBlank c = false := by
  have hmarks : ['.', 'e', '-', '+'].all (fun c => !Text.isBlank c) = true := by decide
  intro c hc
  rcases h.mem_text hc with hdigit | hmark
  · exact isBlank_of_isDigit hdigit
  · simpa using List.all_eq_true.1 hmarks c hmark

theorem trim_of_not_isBlank {cs : List Char} (h : ∀ c ∈ cs, Text.isBlank c = false) :
    Text.trim cs = cs := by
  have hkeep {ds : List Char} (hds : ∀ c ∈ ds, Text.isBlank c = false) :
      ds.dropWhile Text.isBlank = ds := by
    cases ds with
    | nil => rfl
    | cons c ds => rw [List.dropWhile_cons_of_neg (by simp [hds c])]
  rw [Text.trim, hkeep h, hkeep (by simpa using h), List.reverse_reverse]

/-- A numeral is read as it stands, or behind a minus. -/
theorem Numeral.Proper.read?_text {text : String} (h : n.Proper) :
    (text.toList = n.text → read? text = some n.decimal.toFloat) ∧
      (text.toList = '-' :: n.text → read? text = some (-n.decimal.toFloat)) := by
  have hblank := h.not_isBlank
  constructor
  · intro htext
    obtain ⟨c, rest, hcons, hc⟩ := h.exists_head
    rw [read?, htext, trim_of_not_isBlank hblank]
    -- the first character is a digit and so no sign
    split
    case h_1 heq =>
      rw [(List.cons.inj (hcons.symm.trans heq)).1] at hc
      cases hc
    case h_2 heq =>
      rw [(List.cons.inj (hcons.symm.trans heq)).1] at hc
      cases hc
    case h_3 => exact h.readSize?_text
  · intro htext
    have hblank' : ∀ c ∈ '-' :: n.text, Text.isBlank c = false :=
      List.forall_mem_cons.2 ⟨by decide, hblank⟩
    rw [read?, htext, trim_of_not_isBlank hblank']
    change (readSize? n.text).map (- ·) = _
    rw [h.readSize?_text, Option.map_some]

/-- **The text of a finite number is read as that number.** -/
theorem read?_text (style : Style) (h : x.isFinite = true) : read? (style.text x) = some x := by
  obtain ⟨size, hsize⟩ := isFinite_iff_size?.1 h
  have hne := shape_ne_of_size? hsize
  cases hsign : isNegative x with
  | false =>
    have htext := toList_text style hsize
    rw [hsign] at htext
    rw [(proper_numeralOf style (shape x)).read?_text.1 htext, toFloat_numeralOf style hsize hsign]
  | true =>
    have hsize' : (shape (-x)).size? = some size := (size?_neg x).trans hsize
    have hsign' : isNegative (-x) = false := by rw [isNegative_neg hne, hsign, Bool.not_true]
    have htext : (style.text x).toList = '-' :: (style.numeralOf (shape (-x))).text := by
      rw [text_of_isNegative style hne hsign, String.toList_append, toList_text style hsize', hsign']
      rfl
    rw [(proper_numeralOf style _).read?_text.2 htext, toFloat_numeralOf style hsize' hsign',
      neg_neg_of_shape hne]

end Number

end Treewalk
