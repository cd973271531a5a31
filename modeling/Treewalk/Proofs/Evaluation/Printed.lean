import Treewalk.Evaluation
import Treewalk.Proofs.Grammar.Completeness
import Treewalk.Proofs.Number.RoundTrip
import Treewalk.Proofs.Token.Rescanning

/-!
# Printed numbers denote themselves

In the positional range, what printing a number shows is an expression for that
number: scanned, it is a numeral, with a minus in front if the number is
negative; read, it is a literal or its negation; evaluated, it is the number.
This holds of zero with either sign. Outside that range the text has an
exponent or is a word, and source texts have no such numerals; but it still
tells the number from all others.
-/

namespace Treewalk

open Number Segment Reading Grammar

variable {x : Float}

/-! ## Scanning -/

/-- The segment that a token is found in. -/
def Token.segment (t : Token) : Segment := .token t.kind t.lexeme.toList

/-- Tokens on one line are found on it. -/
theorem tokensFrom_segments {line : ℕ} {ts : List Token} (hvalid : ∀ t ∈ ts, t.Valid)
    (hline : ∀ t ∈ ts, t.line = line ∧ '\n' ∉ t.lexeme.toList) :
    tokensFrom line (ts.map Token.segment) = ts ∧ newlinesIn (ts.map Token.segment) = 0 := by
  induction ts with
  | nil => exact ⟨rfl, rfl⟩
  | cons t ts ih =>
    obtain ⟨ht, hts⟩ := List.forall_mem_cons.1 hvalid
    obtain ⟨⟨htline, htext⟩, hlines⟩ := List.forall_mem_cons.1 hline
    obtain ⟨htokens, hnewlines⟩ := ih hts hlines
    have hnone : t.segment.newlines = 0 := newlines_token htext
    have htoken : t.segment.token? line = some t := by
      simp only [Token.segment, token?, String.ofList_toList, ht.literal.literal_eq, ← htline]
    constructor
    · rw [List.map_cons, tokensFrom, hnone, Nat.add_zero, htoken, htokens]
      rfl
    · rw [List.map_cons, newlinesIn, List.map_cons, List.sum_cons, hnone, Nat.zero_add]
      exact hnewlines

/-- **A text that is cut into the segments of tokens** on the first line is
scanned as these tokens. -/
theorem scan_of_segments {text : String} {ts : List Token}
    (hpieces : pieces text.toList = ts.map Token.segment) (hvalid : ∀ t ∈ ts, t.Valid)
    (hline : ∀ t ∈ ts, t.line = 1 ∧ '\n' ∉ t.lexeme.toList) :
    (scan text).errors = #[] ∧
      (scan text).tokens.toList = ts ++ [⟨.endOfInput, "", .nil, 1⟩] := by
  obtain ⟨htokens, hnewlines⟩ := @tokensFrom_segments 1 ts hvalid hline
  constructor
  · rw [errors_scan_eq_empty, hpieces]
    intro s hs
    obtain ⟨t, -, rfl⟩ := List.mem_map.1 hs
    rfl
  · rw [tokens_scan, hpieces, htokens, hnewlines]
    rfl

/-- The token of an unsigned number. -/
def numeralToken (x : Float) : Token := ⟨.number, plain x, .number x, 1⟩

/-- The minus sign. -/
def minusToken : Token := ⟨.minus, "-", .nil, 1⟩

/-- The tokens of a number. -/
def printedTokens (x : Float) : List Token :=
  if isNegative x then [minusToken, numeralToken (-x)] else [numeralToken x]

theorem Number.Numeral.Proper.valid {n : Numeral} (h : n.Proper) (hexponent : n.exponent = none) :
    Lexeme .number n.text ∧ Denotes .number n.text (.number n.decimal.toFloat) := by
  have hwhole : Digits n.whole := ⟨h.ne_nil, h.whole⟩
  have hdecimal : n.decimal = Decimal.ofDigits n.whole n.fraction := by
    rw [Numeral.decimal, hexponent, Option.getD_none, zero_sub]
    rfl
  rw [Numeral.text, hexponent, Option.elim_none, List.append_nil, hdecimal]
  by_cases hfraction : n.fraction = []
  · rw [hfraction, if_pos rfl, List.append_nil]
    exact ⟨.whole hwhole, .whole hwhole⟩
  · have hdigits : Digits n.fraction := ⟨hfraction, h.fraction⟩
    rw [if_neg hfraction]
    exact ⟨.fraction hwhole hdigits, .fraction hwhole hdigits⟩

theorem numeral_of_positional (h : Positional x) (hsign : isNegative x = false) :
    ∃ n : Numeral, n.Proper ∧ n.exponent = none ∧ (plain x).toList = n.text ∧
      n.decimal.toFloat = x := by
  obtain ⟨size, hsize, -⟩ := id h
  have htext := toList_text Style.plain hsize
  rw [hsign] at htext
  exact ⟨_, proper_numeralOf _ _, (exponent_numeralOf false hsize).2 h, htext,
    toFloat_numeralOf Style.plain hsize hsign⟩

theorem valid_numeralToken (h : Positional x) (hsign : isNegative x = false) :
    (numeralToken x).Valid ∧ '\n' ∉ (numeralToken x).lexeme.toList := by
  obtain ⟨n, hproper, hexponent, htext, hvalue⟩ := numeral_of_positional h hsign
  have hvalid := hproper.valid hexponent
  rw [← htext, hvalue] at hvalid
  refine ⟨⟨hvalid.1, hvalid.2⟩, ?_⟩
  intro hmem
  rw [numeralToken, htext] at hmem
  rcases hproper.mem_text hmem with hdigit | hmark
  · cases hdigit
  · simp at hmark

theorem pieces_numeralToken (h : Positional x) (hsign : isNegative x = false) :
    pieces (plain x).toList = [(numeralToken x).segment] := by
  have hlexeme := (valid_numeralToken h hsign).1.lexeme
  have hpieces : pieces ((plain x).toList ++ []) = _ := pieces_lexeme hlexeme nofun
  rwa [List.append_nil, pieces_nil] at hpieces

/-- **The text of a number in the positional range is scanned** as its
numeral, with a minus in front of it if it is negative. -/
theorem scan_plain (h : Positional x) : (scan (plain x)).errors = #[] ∧
    (scan (plain x)).tokens.toList = printedTokens x ++ [⟨.endOfInput, "", .nil, 1⟩] := by
  obtain ⟨size, hsize, -⟩ := id h
  have hne := shape_ne_of_size? hsize
  unfold printedTokens
  cases hsign : isNegative x with
  | false =>
    obtain ⟨hvalid, htext⟩ := valid_numeralToken h hsign
    rw [if_neg Bool.false_ne_true]
    exact scan_of_segments (pieces_numeralToken h hsign) (by simpa using hvalid)
      (by simpa using ⟨rfl, htext⟩)
  | true =>
    have h' : Positional (-x) := positional_neg.2 h
    have hsign' : isNegative (-x) = false := by rw [isNegative_neg hne, hsign, Bool.not_true]
    obtain ⟨hvalid, htext⟩ := valid_numeralToken h' hsign'
    have hminus : minusToken.Valid := ⟨.sign (by decide), .plain nofun nofun⟩
    have hcut : (plain x).toList = '-' :: (plain (-x)).toList := by
      rw [plain, text_of_isNegative _ hne hsign, String.toList_append]
      rfl
    have hpieces : pieces (plain x).toList = [minusToken, numeralToken (-x)].map Token.segment := by
      rw [hcut, pieces_cons]
      change token .minus ['-'] :: pieces (plain (-x)).toList = _
      rw [pieces_numeralToken h' hsign']
      rfl
    rw [if_pos rfl]
    exact scan_of_segments hpieces (by simp [hminus, hvalid]) (by
      simp only [List.forall_mem_cons, List.not_mem_nil, false_imp_iff, implies_true, and_true]
      exact ⟨⟨rfl, by decide⟩, rfl, htext⟩)

/-! ## Reading and evaluating -/

/-- The expression that the text of a number is. -/
def printedExpr (x : Float) : Expr :=
  if isNegative x then .unary minusToken (.literal (.number (-x))) else .literal (.number x)

theorem reads_printedTokens (x : Float) (depth : ℕ) :
    Reads false (phrase .assignment (depth + 10)) (extensions .assignment) (printedTokens x)
      (printedExpr x) := by
  have hnumeral (y : Float) (d : ℕ) : Reads false (phrase .unary (d + 2)) (extensions .unary)
      [numeralToken y] (.literal (.number y)) :=
    reads_operand_single (.number rfl) d
  unfold printedTokens printedExpr
  cases isNegative x with
  | false => exact reads_assignment (reads_logicOr_of_unary (hnumeral x (depth + 1)))
  | true =>
    exact reads_assignment (reads_logicOr_of_unary (reads_unary (.inr rfl) (hnumeral (-x) depth)))

/-- **The tokens of a number are read as one expression**, with nothing left
over. -/
theorem expression_printedTokens (x : Float) {room depth : ℕ}
    (hroom : (printedTokens x).length ≤ room) (hdepth : 10 ≤ depth) :
    expression room depth { ahead := printedTokens x } = .ok (printedExpr x) { ahead := [] } := by
  obtain ⟨d, rfl⟩ : ∃ d, depth = d + 10 := ⟨depth - 10, by omega⟩
  have hread := reads_printedTokens x d room [] #[] 0 hroom nofun nofun
  rwa [List.append_nil] at hread

/-- **Its value is the number.** -/
theorem evaluate_printedExpr (h : shape x ≠ .undefined) (rounds : ℕ) {depth : ℕ}
    (hdepth : 2 ≤ depth) (scope : ScopeId) (s : State) :
    evaluate rounds depth (printedExpr x) scope s = .ok (.number x) s := by
  obtain ⟨d, rfl⟩ : ∃ d, depth = d + 2 := ⟨depth - 2, by omega⟩
  unfold printedExpr
  cases isNegative x with
  | false => rfl
  | true =>
    have hvalue : evaluate rounds (d + 2) (.unary minusToken (.literal (.number (-x)))) scope s =
        .ok (.number (- -x)) s := rfl
    rw [if_pos rfl, hvalue, neg_neg_of_shape h]

theorem programTokens_printed (x : Float) :
    programTokens (printedTokens x ++ [⟨.endOfInput, "", .nil, 1⟩]) = printedTokens x := by
  unfold printedTokens
  cases isNegative x <;> rfl

/-- **Printed numbers denote themselves.** The full text of a finite number is
read as that number, and it is digits, a point and digits exactly for zero and
the sizes from `10 ^ -4` up to `10 ^ 16`; what is printed is the full text
without a fraction that is zero. In that range, scanning what is printed
reports nothing and yields the numeral, with a minus in front of it if the
number is negative, zero included; the tokens are one expression, and its value
is the number. And whatever its size, what is printed for a number is printed
for no other. -/
theorem printed_denotes_itself :
    (∀ x : Float, x.isFinite = true → read? (full x) = some x) ∧
    (∀ x, Pointed (full x).toList ↔ Positional x) ∧
    (∀ x, (Value.number x).text.toList = dropZeroFraction (full x).toList) ∧
    (∀ x, Positional x →
      let scanned := scan (Value.number x).text
      let ahead := programTokens scanned.tokens.toList
      scanned.errors = #[] ∧
      scanned.tokens.toList =
        (if isNegative x then
          [⟨.minus, "-", .nil, 1⟩, ⟨.number, (Value.number (-x)).text, .number (-x), 1⟩]
        else [⟨.number, (Value.number x).text, .number x, 1⟩]) ++
          [⟨.endOfInput, "", .nil, 1⟩] ∧
      ∃ e,
        (∀ depth, 10 ≤ depth →
          expression ahead.length depth { ahead := ahead } = .ok e { ahead := [] }) ∧
        ∀ rounds depth scope s, 2 ≤ depth →
          evaluate rounds depth e scope s = .ok (.number x) s) ∧
    ∀ x y : Float, x.isNaN = false → y.isNaN = false →
      (Value.number x).text = (Value.number y).text → x = y := by
  have hshape {x : Float} (h : x.isNaN = false) : shape x ≠ .undefined := by
    rw [ne_eq, ← isNaN_iff_shape, h]
    exact Bool.false_ne_true
  refine ⟨fun x hx => read?_text _ hx, pointed_full, plain_eq, fun x hx => ?_,
    fun x y hx hy htext => eq_of_text (hshape hx) (hshape hy) htext⟩
  intro scanned ahead
  obtain ⟨herrors, htokens⟩ := scan_plain hx
  have hahead : ahead = printedTokens x := by
    change programTokens (scan (plain x)).tokens.toList = _
    rw [htokens, programTokens_printed]
  obtain ⟨size, hsize, -⟩ := hx
  refine ⟨herrors, htokens, printedExpr x, fun depth hdepth => ?_, ?_⟩
  · rw [hahead]
    exact expression_printedTokens x le_rfl hdepth
  · intro rounds depth scope s hdepth
    exact evaluate_printedExpr (shape_ne_of_size? hsize) rounds hdepth scope s

/-- Zero with a minus denotes itself, and is not printed as zero is. -/
theorem negativeZero_denotes_itself :
    (-0 : Float).isFinite = true ∧ read? (full (-0)) = some (-0) ∧
    Positional (-0) ∧ (scan (Value.number (-0)).text).errors = #[] ∧
    (scan (Value.number (-0)).text).tokens.toList =
      [⟨.minus, "-", .nil, 1⟩, ⟨.number, "0", .number 0, 1⟩, ⟨.endOfInput, "", .nil, 1⟩] ∧
    (∃ e,
      expression 2 10 { ahead := [⟨.minus, "-", .nil, 1⟩, ⟨.number, "0", .number 0, 1⟩] } =
        .ok e { ahead := [] } ∧
      evaluate 0 2 e 0 (.initial fun _ => 0) = .ok (.number (-0)) (.initial fun _ => 0)) ∧
    (0 : Float).isNaN = false ∧ (-0 : Float).isNaN = false ∧
    (Value.number 0).text ≠ (Value.number (-0)).text := by
  obtain ⟨hread, -, -, hscan, htext⟩ := printed_denotes_itself
  have hfinite : (-0 : Float).isFinite = true := by decide +kernel
  have hshape : shape (-0) = .zero true := by decide +kernel
  have hpositional : Positional (-0) := ⟨0, by rw [hshape]; rfl, .inl rfl⟩
  have hnumber : (0 : Float).isNaN = false ∧ (-0 : Float).isNaN = false := by decide +kernel
  have hopposite : - -(0 : Float) = 0 := neg_neg_of_shape (by decide +kernel)
  have hsign : isNegative (-0) = true := by decide +kernel
  have hzero : (Value.number 0).text = "0" := by decide +kernel
  obtain ⟨herrors, htokens, e, hexpression, hvalue⟩ := hscan (-0) hpositional
  rw [hsign, if_pos rfl, hopposite, hzero] at htokens
  have hahead := congrArg programTokens htokens
  refine ⟨hfinite, hread _ hfinite, hpositional, herrors, htokens, ⟨e, ?_, ?_⟩, hnumber.1,
    hnumber.2, ?_⟩
  · have hten := hexpression 10 le_rfl
    rw [hahead] at hten
    exact hten
  · exact hvalue 0 2 0 _ le_rfl
  · intro hsame
    have heq : (0 : Float) = -0 := htext 0 (-0) hnumber.1 hnumber.2 hsame
    have hunsigned : isNegative 0 = false := by decide +kernel
    rw [heq, hsign] at hunsigned
    cases hunsigned

end Treewalk
