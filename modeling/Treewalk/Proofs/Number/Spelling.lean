import Treewalk.Number
import Treewalk.Proofs.Decimal.Rounding

/-!
# How numbers are spelled

The text of a number is a sign and a numeral: digits, perhaps a fraction, and
perhaps an exponent. Read as a numeral it gives the value of the shortest
decimal back (`readDecimal?_text`), and that value belongs to one machine
number only. So **numbers with the same text are the same**, whatever the
style, as long as they are numbers.
-/

namespace Treewalk

namespace Number

variable {x y : Float}

/-! ## Shapes -/

/-- The parts of the bits of a number as quotients and remainders. -/
theorem shape_eq (x : Float) : shape x =
    let bits := x.toBits.toNat
    let negative := decide (2 ^ 63 ≤ bits)
    let scale : ℕ := bits / 2 ^ 52 % 2 ^ 11
    let fraction : ℕ := bits % 2 ^ 52
    if scale = 2 ^ 11 - 1 then
      if fraction = 0 then .infinite negative else .undefined
    else if scale = 0 then
      if fraction = 0 then .zero negative else .finite negative ⟨fraction, -1074, false⟩
    else
      .finite negative ⟨fraction + 2 ^ 52, (scale : ℤ) - 1075, fraction = 0 && 1 < scale⟩ := by
  simp only [shape, Nat.shiftLeft_eq, Nat.shiftRight_eq_div_pow, one_mul]

/-- What the bits of a number say of its size is regular. -/
theorem regular_of_shape {negative : Bool} {b : Binary} (h : shape x = .finite negative b) :
    b.Regular := by
  rw [shape_eq] at h
  dsimp only at h
  have hscale : x.toBits.toNat / 2 ^ 52 % 2 ^ 11 < 2 ^ 11 := Nat.mod_lt _ (by decide)
  have hfraction : x.toBits.toNat % 2 ^ 52 < 2 ^ 52 := Nat.mod_lt _ (by decide)
  generalize x.toBits.toNat / 2 ^ 52 % 2 ^ 11 = scale at *
  generalize x.toBits.toNat % 2 ^ 52 = fraction at *
  split at h
  · split at h <;> cases h
  split at h
  · split at h
    · cases h
    · obtain ⟨-, rfl⟩ := Shape.finite.inj h
      constructor <;> simp <;> omega
  · obtain ⟨-, rfl⟩ := Shape.finite.inj h
    constructor <;> simp <;> omega

/-- The bits of a number with a given shape. -/
def Shape.bits : Shape → ℕ
  | undefined => 0
  | infinite negative => (if negative then 2 ^ 63 else 0) + 2047 * 2 ^ 52
  | zero negative => if negative then 2 ^ 63 else 0
  | finite negative b => (if negative then 2 ^ 63 else 0) +
      if b.mantissa < 2 ^ 52 then b.mantissa
      else (b.exponent + 1075).toNat * 2 ^ 52 + (b.mantissa - 2 ^ 52)

theorem bits_shape (h : shape x ≠ .undefined) : (shape x).bits = x.toBits.toNat := by
  have hbits : x.toBits.toNat < 2 ^ 64 := x.toBits.toNat_lt
  rw [shape_eq] at h ⊢
  dsimp only at h ⊢
  generalize x.toBits.toNat = bits at *
  -- a case for each form, and in it one for each sign
  split
  · split
    · simp only [Shape.bits, decide_eq_true_eq]
      split <;> omega
    · simp_all
  split
  · split
    · simp only [Shape.bits, decide_eq_true_eq]
      split <;> omega
    · have hlt : bits % 2 ^ 52 < 2 ^ 52 := Nat.mod_lt _ (by decide)
      simp only [Shape.bits, decide_eq_true_eq, if_pos hlt]
      split <;> omega
  · have hge : ¬ bits % 2 ^ 52 + 2 ^ 52 < 2 ^ 52 := by omega
    simp only [Shape.bits, decide_eq_true_eq, if_neg hge]
    split <;> omega

/-- **The shape of a number determines it.** -/
theorem eq_of_shape (hx : shape x ≠ .undefined) (h : shape x = shape y) : x = y := by
  have hbits : x.toBits.toNat = y.toBits.toNat := by
    rw [← bits_shape hx, ← bits_shape (h ▸ hx), h]
  have hmodel : x.toModel.toBits = y.toModel.toBits := UInt64.toNat_inj.1 hbits
  obtain ⟨⟨_, _⟩⟩ := x
  obtain ⟨⟨_, _⟩⟩ := y
  cases hmodel
  rfl

/-! ## Numerals -/

/-- A numeral: its digits in front of the point and behind it, and its
exponent. -/
structure Numeral where
  whole : List Char
  fraction : List Char
  exponent : Option ℤ

namespace Numeral

/-- How a numeral is written. -/
def text (n : Numeral) : List Char :=
  n.whole ++ ((if n.fraction = [] then [] else '.' :: n.fraction) ++
    n.exponent.elim [] fun e => (exponentText e).toList)

/-- The decimal that a numeral denotes. -/
def decimal (n : Numeral) : Decimal where
  coefficient := Decimal.foldDigits (Decimal.foldDigits 0 n.whole) n.fraction
  exponent := n.exponent.getD 0 - n.fraction.length

/-- A numeral with digits where digits have to be. -/
structure Proper (n : Numeral) : Prop where
  whole : ∀ c ∈ n.whole, isDigit c = true
  fraction : ∀ c ∈ n.fraction, isDigit c = true
  ne_nil : n.whole ≠ []

end Numeral

theorem isDigit_of_mem_toDigits {n : ℕ} {c : Char} (h : c ∈ Nat.toDigits 10 n) :
    isDigit c = true := by
  have hdigit := Nat.isDigit_of_mem_toDigits (by decide) (by decide) h
  simpa [isDigit, Char.isDigit, Char.le_def] using hdigit

/-- A run without underscores is taken as it is. -/
theorem ungrouped?_of_digits {cs : List Char} (h : ∀ c ∈ cs, isDigit c = true) :
    ungrouped? cs = some cs := by
  have hunderscore : isDigit '_' = false := by decide
  fun_induction ungrouped? cs with
  | case1 => rfl
  | case2 rest => simp [hunderscore] at h
  | case3 c rest => simp [hunderscore] at h
  | case4 c rest _ ih => simp [hunderscore] at h
  | case5 c rest _ _ ih => rw [ih fun d hd => h d (by simp [hd]), Option.map_some]

/-- Digits in front of something else are taken off. -/
theorem takeRun_append {digits rest : List Char} (hdigits : ∀ c ∈ digits, isDigit c = true)
    (hrest : ∀ c ∈ rest.head?, isDigit c = false ∧ c ≠ '_') :
    takeRun (digits ++ rest) = (some digits, rest) := by
  have hrun : ∀ c ∈ digits, (isDigit c || c == '_') = true := fun c hc => by simp [hdigits c hc]
  have hstop : rest.takeWhile (fun c => isDigit c || c == '_') = [] ∧
      rest.dropWhile (fun c => isDigit c || c == '_') = rest := by
    cases rest with
    | nil => exact ⟨rfl, rfl⟩
    | cons c rest =>
      obtain ⟨hc, hne⟩ := hrest c rfl
      simp [hc, hne]
  rw [takeRun, List.takeWhile_append_of_pos hrun, List.dropWhile_append_of_pos hrun, hstop.1,
    hstop.2, List.append_nil, ungrouped?_of_digits hdigits]

/-- The digits of an exponent, of which there are at least two. -/
def exponentDigits (e : ℤ) : List Char :=
  if (Nat.toDigits 10 e.natAbs).length < 2 then '0' :: Nat.toDigits 10 e.natAbs
  else Nat.toDigits 10 e.natAbs

theorem toList_exponentText (e : ℤ) :
    (exponentText e).toList = 'e' :: (if e < 0 then '-' else '+') :: exponentDigits e := by
  have hdigits : (toString e.natAbs).toList = Nat.toDigits 10 e.natAbs := Nat.toList_repr
  have hlength : (toString e.natAbs).length = (Nat.toDigits 10 e.natAbs).length := by
    rw [← String.length_toList, hdigits]
  simp only [exponentText, exponentDigits, hlength]
  split <;> split <;> simp

theorem isDigit_of_mem_exponentDigits {e : ℤ} {c : Char} (h : c ∈ exponentDigits e) :
    isDigit c = true := by
  unfold exponentDigits at h
  split at h
  · rcases List.mem_cons.1 h with rfl | h
    · decide
    · exact isDigit_of_mem_toDigits h
  · exact isDigit_of_mem_toDigits h

theorem foldDigits_exponentDigits (e : ℤ) : Decimal.foldDigits 0 (exponentDigits e) = e.natAbs := by
  have hdigits : Decimal.foldDigits 0 (Nat.toDigits 10 e.natAbs) = e.natAbs :=
    Nat.ofDigitChars_ten_toDigits
  unfold exponentDigits
  split
  · exact hdigits
  · exact hdigits

/-- An exponent is read as it was written. -/
theorem readExponent?_exponentText (e : ℤ) : readExponent? (exponentText e).toList = some e := by
  have hrun : takeRun (exponentDigits e) = (some (exponentDigits e), []) := by
    have hdigits : ∀ c ∈ exponentDigits e, isDigit c = true :=
      fun c hc => isDigit_of_mem_exponentDigits hc
    have htaken : takeRun (exponentDigits e ++ []) = _ := takeRun_append hdigits nofun
    rwa [List.append_nil] at htaken
  have hne : exponentDigits e ≠ [] := by
    unfold exponentDigits
    split
    · exact List.cons_ne_nil _ _
    · exact Nat.toDigits_ne_nil
  obtain ⟨d, ds, hcons⟩ := List.exists_cons_of_ne_nil hne
  have hvalue := foldDigits_exponentDigits e
  rw [hcons] at hrun hvalue
  rw [toList_exponentText, hcons]
  by_cases hneg : e < 0
  · have hread : readExponent? ('e' :: '-' :: d :: ds) = some (-(e.natAbs : ℤ)) := by
      simp [readExponent?, hrun, hvalue]
    rw [if_pos hneg, hread]
    exact congrArg some (by omega)
  · have hread : readExponent? ('e' :: '+' :: d :: ds) = some (e.natAbs : ℤ) := by
      simp [readExponent?, hrun, hvalue]
    rw [if_neg hneg, hread]
    exact congrArg some (by omega)

namespace Numeral

variable {n : Numeral}

/-- What stands behind the digits of a numeral is read as its exponent. -/
theorem readExponent?_tail (exponent : Option ℤ) :
    readExponent? (exponent.elim [] fun e => (exponentText e).toList) =
      some (exponent.getD 0) := by
  cases exponent with
  | none => rfl
  | some e => exact readExponent?_exponentText e

theorem head_tail (exponent : Option ℤ) :
    ∀ c ∈ (exponent.elim [] fun e => (exponentText e).toList).head?, c = 'e' := by
  cases exponent with
  | none => nofun
  | some e => simp [toList_exponentText]

/-- **A numeral is read as the decimal it denotes.** -/
theorem Proper.readDecimal?_text (h : n.Proper) : readDecimal? n.text = some n.decimal := by
  obtain ⟨whole, fraction, exponent⟩ := n
  obtain ⟨hwhole, hfraction, hne⟩ := h
  have hexponent := readExponent?_tail exponent
  have hhead := head_tail exponent
  have hdecimal : (⟨Decimal.foldDigits (Decimal.foldDigits 0 whole) fraction,
      -(fraction.length : ℤ) + exponent.getD 0⟩ : Decimal) = decimal ⟨whole, fraction, exponent⟩ := by
    rw [decimal, add_comm, ← sub_eq_add_neg]
  rw [text]
  dsimp only at hwhole hfraction hne ⊢
  generalize (exponent.elim [] fun e => (exponentText e).toList) = tail at *
  have hstop : ∀ c ∈ tail.head?, isDigit c = false ∧ c ≠ '_' := fun c hc => by
    rw [hhead c hc]
    decide
  rw [← hdecimal]
  by_cases hnone : fraction = []
  · subst hnone
    rw [if_pos rfl, List.nil_append, readDecimal?, takeRun_append hwhole hstop]
    cases tail with
    | nil => simp [hne, hexponent, Decimal.ofDigits]
    | cons c rest =>
      obtain rfl := hhead c rfl
      simp [hne, hexponent, Decimal.ofDigits]
  · have hpoint : ∀ c ∈ ('.' :: (fraction ++ tail)).head?, isDigit c = false ∧ c ≠ '_' := by
      rintro c ⟨⟩
      decide
    rw [if_neg hnone, List.cons_append, readDecimal?, takeRun_append hwhole hpoint]
    simp [takeRun_append hfraction hstop, hne, hexponent, Decimal.ofDigits]

theorem Proper.exists_head (h : n.Proper) : ∃ c rest, n.text = c :: rest ∧ isDigit c = true := by
  obtain ⟨c, rest, hcons⟩ := List.exists_cons_of_ne_nil h.ne_nil
  exact ⟨c, _, by rw [text, hcons, List.cons_append], h.whole c (by simp [hcons])⟩

/-- The characters of numerals. -/
theorem Proper.mem_text (h : n.Proper) {c : Char} (hc : c ∈ n.text) :
    isDigit c = true ∨ c ∈ ['.', 'e', '-', '+'] := by
  simp only [text, List.mem_append] at hc
  rcases hc with hc | hc | hc
  · exact .inl (h.whole c hc)
  · split at hc
    · cases hc
    · rcases List.mem_cons.1 hc with rfl | hc
      · exact .inr (by decide)
      · exact .inl (h.fraction c hc)
  · cases hexponent : n.exponent with
    | none => simp [hexponent] at hc
    | some e =>
      rw [hexponent, Option.elim_some, toList_exponentText] at hc
      simp only [List.mem_cons] at hc
      rcases hc with rfl | hc | hc
      · exact .inr (by decide)
      · subst hc
        split <;> exact .inr (by decide)
      · exact .inl (isDigit_of_mem_exponentDigits hc)

end Numeral

/-! ## The text of a decimal -/

/-- The numeral that a positive decimal is written as. -/
def Style.numeral (style : Style) (d : Decimal) : Numeral :=
  let digits := Nat.toDigits 10 d.coefficient
  let e : ℤ := digits.length - 1 + d.exponent
  if style.least ≤ e && e < style.bound then
    if e < 0 then ⟨['0'], List.replicate (-e - 1).toNat '0' ++ digits, none⟩
    else
      ⟨digits.take (e.toNat + 1) ++ List.replicate d.exponent.toNat '0',
        if (digits.drop (e.toNat + 1)).isEmpty then (if style.zeroFraction then ['0'] else [])
        else digits.drop (e.toNat + 1), none⟩
  else ⟨digits.take 1, digits.drop 1, some e⟩

variable (style : Style) (d : Decimal)

theorem toList_decimalText : (style.decimalText d).toList = (style.numeral d).text := by
  have hne : Nat.toDigits 10 d.coefficient ≠ [] := Nat.toDigits_ne_nil
  unfold Style.decimalText Style.numeral Numeral.text
  dsimp only
  split
  · split
    · simp [hne]
    · split
      case isTrue => split <;> simp
      case isFalse hsome =>
        rw [List.isEmpty_iff] at hsome
        simp [hsome]
  · split
    case isTrue hone => simp [List.drop_eq_nil_of_le hone]
    case isFalse hmore =>
      have hsome : (Nat.toDigits 10 d.coefficient).drop 1 ≠ [] := fun hnil =>
        hmore (List.drop_eq_nil_iff.1 hnil)
      simp only [if_neg hsome]
      simp

theorem proper_numeral : (style.numeral d).Proper := by
  have hdigits : ∀ c ∈ Nat.toDigits 10 d.coefficient, isDigit c = true :=
    fun c hc => isDigit_of_mem_toDigits hc
  have hzeros : ∀ n, ∀ c ∈ List.replicate n '0', isDigit c = true := fun n c hc => by
    rw [List.eq_of_mem_replicate hc]
    decide
  have htake : ∀ n, ∀ c ∈ (Nat.toDigits 10 d.coefficient).take n, isDigit c = true :=
    fun n c hc => hdigits c (List.mem_of_mem_take hc)
  have hdrop : ∀ n, ∀ c ∈ (Nat.toDigits 10 d.coefficient).drop n, isDigit c = true :=
    fun n c hc => hdigits c (List.mem_of_mem_drop hc)
  have hne : ∀ n, (Nat.toDigits 10 d.coefficient).take (n + 1) ≠ [] := fun n hnil => by
    rw [List.take_eq_nil_iff] at hnil
    exact hnil.elim (Nat.succ_ne_zero n) Nat.toDigits_ne_nil
  unfold Style.numeral
  dsimp only
  split
  · split
    · exact ⟨hzeros 1, List.forall_mem_append.2 ⟨hzeros _, hdigits⟩, List.cons_ne_nil _ _⟩
    · refine ⟨List.forall_mem_append.2 ⟨htake _, hzeros _⟩, ?_, List.append_ne_nil_of_left_ne_nil (hne _) _⟩
      split
      · split
        · exact hzeros 1
        · exact List.forall_mem_nil _
      · exact hdrop _
  · exact ⟨htake 1, hdrop 1, hne 0⟩

theorem foldDigits_append (start : ℕ) (first second : List Char) :
    Decimal.foldDigits start (first ++ second) =
      Decimal.foldDigits (Decimal.foldDigits start first) second :=
  Nat.ofDigitChars_append start

theorem foldDigits_zeros (start n : ℕ) :
    Decimal.foldDigits start (List.replicate n '0') = 10 ^ n * start :=
  Nat.ofDigitChars_replicate_zero

theorem foldDigits_toDigits (n : ℕ) : Decimal.foldDigits 0 (Nat.toDigits 10 n) = n :=
  Nat.ofDigitChars_ten_toDigits

/-- **Nothing of the value is lost** in writing a decimal. -/
theorem value_numeral : (style.numeral d).decimal.value = d.value := by
  have hlength : 0 < (Nat.toDigits 10 d.coefficient).length := Nat.length_toDigits_pos
  have hdigits := foldDigits_toDigits d.coefficient
  unfold Style.numeral Numeral.decimal Decimal.value
  dsimp only
  generalize Nat.toDigits 10 d.coefficient = digits at *
  split
  · split
    · -- zeros stand between the point and the digits
      have hzero : Decimal.foldDigits 0 ['0'] = 0 := rfl
      rw [hzero, foldDigits_append, foldDigits_zeros, Nat.mul_zero, hdigits]
      congr 2
      simp
      omega
    · split
      case isTrue hwhole =>
        -- the digits and zeros behind them make a whole number
        rw [List.isEmpty_iff, List.drop_eq_nil_iff] at hwhole
        obtain ⟨n, hn⟩ : ∃ n : ℕ, d.exponent = n := ⟨d.exponent.toNat, by omega⟩
        rw [List.take_of_length_le hwhole, foldDigits_append, hdigits, foldDigits_zeros, hn,
          Int.toNat_natCast, zpow_natCast]
        split
        · have hzero (n : ℕ) : Decimal.foldDigits n ['0'] = 10 * n := rfl
          rw [hzero]
          push_cast
          norm_num
          ring
        · simp [Decimal.foldDigits]
          ring
      case isFalse hfraction =>
        -- the point stands among the digits
        rw [List.isEmpty_iff, List.drop_eq_nil_iff, not_le] at hfraction
        have hexponent : d.exponent.toNat = 0 := by omega
        rw [hexponent, List.replicate_zero, List.append_nil, ← foldDigits_append,
          List.take_append_drop, hdigits]
        congr 2
        simp
        omega
  · rw [← foldDigits_append, List.take_append_drop, hdigits]
    congr 2
    simp
    omega

/-! ## The text of a number -/

/-- The sign of a number, and the value that its text stands for. Infinity
has none. -/
def Shape.reading : Shape → Bool × Option ℚ
  | undefined => (false, none)
  | infinite negative => (negative, none)
  | zero negative => (negative, some 0)
  | finite negative b => (negative, some b.shortest.value)

/-- The sign of a text, and the value of the numeral behind it. -/
def readSigned : List Char → Bool × Option ℚ
  | '-' :: cs => (true, (readDecimal? cs).map Decimal.value)
  | cs => (false, (readDecimal? cs).map Decimal.value)

theorem readSigned_append (negative : Bool) {body : List Char} (h : body.head? ≠ some '-') :
    readSigned ((signText negative).toList ++ body) =
      (negative, (readDecimal? body).map Decimal.value) := by
  cases negative with
  | true => rfl
  | false =>
    change readSigned body = _
    unfold readSigned
    split
    · simp at h
    · rfl

/-- **The text of a number gives its sign and value back.** -/
theorem readSigned_text (style : Style) (h : shape x ≠ .undefined) :
    readSigned (style.text x).toList = (shape x).reading := by
  unfold Style.text
  cases hshape : shape x with
  | undefined => exact absurd hshape h
  | infinite negative =>
    rw [String.toList_append, readSigned_append negative (by decide)]
    rfl
  | zero negative =>
    have hhead : (if style.zeroFraction then "0.0" else "0").toList.head? ≠ some '-' := by
      split <;> decide
    have hread : (readDecimal? (if style.zeroFraction then "0.0" else "0").toList).map
        Decimal.value = some 0 := by
      split
      · have hdecimal : readDecimal? "0.0".toList = some ⟨0, -1⟩ := by decide
        simp only [hdecimal, Option.map_some, Decimal.value, Nat.cast_zero, zero_mul]
      · have hdecimal : readDecimal? "0".toList = some ⟨0, 0⟩ := by decide
        simp only [hdecimal, Option.map_some, Decimal.value, Nat.cast_zero, zero_mul]
    rw [String.toList_append, readSigned_append negative hhead, hread]
    rfl
  | finite negative b =>
    have hproper := proper_numeral style b.shortest
    obtain ⟨c, rest, htext, hc⟩ := hproper.exists_head
    have hhead : (style.decimalText b.shortest).toList.head? ≠ some '-' := by
      rw [toList_decimalText, htext]
      rintro ⟨⟩
      cases hc
    rw [String.toList_append, readSigned_append negative hhead, toList_decimalText,
      hproper.readDecimal?_text, Option.map_some, value_numeral]
    rfl

theorem shape_eq_of_reading (hx : shape x ≠ .undefined) (hy : shape y ≠ .undefined)
    (h : (shape x).reading = (shape y).reading) : shape x = shape y := by
  have hpos {z : Float} {negative : Bool} {b : Binary} (hz : shape z = .finite negative b) :
      b.shortest.value ≠ 0 :=
    ((regular_of_shape hz).rounds_shortest.pos (regular_of_shape hz)).ne'
  cases hshape : shape x <;> cases hshape' : shape y <;>
    simp only [hshape, hshape', Shape.reading, Prod.mk.injEq, Option.some.injEq, reduceCtorEq,
      and_false, and_true] at h hx hy ⊢
  case infinite.infinite => rw [h]
  case zero.zero => rw [h]
  case zero.finite => exact absurd h.2.symm (hpos hshape')
  case finite.zero => exact absurd h.2 (hpos hshape)
  case finite.finite =>
    rw [h.1, (regular_of_shape hshape).eq_of_value_shortest (regular_of_shape hshape') h.2]
  all_goals contradiction

/-- **Numbers with the same text are the same.** -/
theorem eq_of_text {style : Style} (hx : shape x ≠ .undefined) (hy : shape y ≠ .undefined)
    (h : style.text x = style.text y) : x = y := by
  refine eq_of_shape hx (shape_eq_of_reading hx hy ?_)
  rw [← readSigned_text style hx, ← readSigned_text style hy, h]

/-! ## The plain text of unsigned numbers -/

/-- Numbers without a sign, infinity among them. -/
def Unsigned (x : Float) : Prop := x.toBits.toNat ≤ 2047 * 2 ^ 52

theorem Unsigned.shape_cases (h : Unsigned x) :
    shape x = .infinite false ∨ shape x = .zero false ∨ ∃ b, shape x = .finite false b := by
  unfold Unsigned at h
  have hsign : decide (2 ^ 63 ≤ x.toBits.toNat) = false := decide_eq_false (by omega)
  rw [shape_eq]
  simp only [hsign]
  split
  · split
    · exact .inl rfl
    · omega
  split
  · split
    · exact .inr (.inl rfl)
    · exact .inr (.inr ⟨_, rfl⟩)
  · exact .inr (.inr ⟨_, rfl⟩)

theorem Unsigned.shape_ne (h : Unsigned x) : shape x ≠ .undefined := by
  rcases h.shape_cases with h | h | ⟨b, h⟩ <;> simp [h]

/-- **The text of an unsigned number**, unless it is infinite, is a
numeral. -/
theorem Unsigned.exists_numeral (h : Unsigned x) :
    shape x = .infinite false ∧ plain x = "inf" ∨
      shape x ≠ .infinite false ∧ ∃ n : Numeral, n.Proper ∧ (plain x).toList = n.text := by
  rcases h.shape_cases with hshape | hshape | ⟨b, hshape⟩
  · exact .inl ⟨hshape, by rw [plain, Style.text, hshape]; rfl⟩
  · refine .inr ⟨by simp [hshape], ⟨['0'], [], none⟩, ⟨List.all_eq_true.1 (by decide), nofun, nofun⟩, ?_⟩
    rw [plain, Style.text, hshape]
    rfl
  · refine .inr ⟨by simp [hshape], Style.plain.numeral b.shortest, proper_numeral _ _, ?_⟩
    rw [plain, Style.text, hshape, ← toList_decimalText]
    rfl

end Number

end Treewalk
