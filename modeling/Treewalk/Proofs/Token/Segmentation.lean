import Mathlib.Data.List.Forall2
import Mathlib.Data.List.TakeWhile
import Treewalk.Token.Scan

/-!
# Maximal munch

The token grammar as a relation, and what cutting a text has to do with it.
`Lexeme` lists the texts each kind of token can have, `Fits` adds the
segments that are no tokens, and a `Segmentation` splits a text into
segments each of which is the longest that fits where it starts. A text has
exactly one segmentation, the one that `cutFrom` finds; scanning turns its
lexemes into tokens and its faults into errors, in order, and adds the mark
at the end.
-/

namespace Treewalk

namespace Segment

/-! ## The token grammar -/

/-- The lexemes that have a fixed text. -/
def signs : List (List Char × Kind) :=
  [(['('], .leftParen), ([')'], .rightParen), (['\x7b'], .leftBrace), (['\x7d'], .rightBrace),
   ([','], .comma), (['.'], .dot), (['-'], .minus), (['+'], .plus), ([';'], .semicolon),
   (['*'], .star), (['/'], .slash), (['!'], .bang), (['!', '='], .bangEqual), (['='], .equal),
   (['=', '='], .equalEqual), (['>'], .greater), (['>', '='], .greaterEqual), (['<'], .less),
   (['<', '='], .lessEqual)]

/-- A run of at least one digit. -/
def Digits (text : List Char) : Prop := text ≠ [] ∧ ∀ c ∈ text, Number.isDigit c

/-- The token grammar: the texts a token of each kind can have. -/
inductive Lexeme : Kind → List Char → Prop
  | sign {text : List Char} {kind : Kind} : (text, kind) ∈ signs → Lexeme kind text
  /-- A string may span lines and knows no escapes. -/
  | string {inside : List Char} : '"' ∉ inside → Lexeme .string ('"' :: inside ++ ['"'])
  | whole {digits : List Char} : Digits digits → Lexeme .number digits
  | fraction {digits decimals : List Char} :
      Digits digits → Digits decimals → Lexeme .number (digits ++ '.' :: decimals)
  /-- A word is reserved or an identifier as a whole. -/
  | word {c : Char} {tail : List Char} :
      isLetter c → (∀ d ∈ tail, isWordChar d) →
      Lexeme (.ofWord (String.ofList (c :: tail))) (c :: tail)

/-- Whether a segment may stand in front of `rest`. A comment knows no line
end, a string without a closing quote is the end of the text, and an
unexpected character starts nothing else. -/
def Fits (rest : List Char) : Segment → Prop
  | token kind lexeme => Lexeme kind lexeme
  | blank c => c = ' ' ∨ c = '\r' ∨ c = '\t'
  | newline => True
  | comment text => ∃ body, '\n' ∉ body ∧ text = '/' :: '/' :: body
  | unexpected c =>
    (∀ kind tail, ¬ Lexeme kind (c :: tail)) ∧ c ≠ ' ' ∧ c ≠ '\r' ∧ c ≠ '\t' ∧ c ≠ '\n'
  | unterminated text => ∃ body, '"' ∉ body ∧ text = '"' :: body ∧ rest = []

/-- No longer segment fits at the start of the same text. -/
def Longest (s : Segment) (rest : List Char) : Prop :=
  ∀ (other : Segment) (left : List Char), other.Fits left →
    other.text ++ left = s.text ++ rest → other.text.length ≤ s.text.length

/-- A text split into segments, each the longest that fits where it starts. -/
inductive Segmentation : List Char → List Segment → Prop
  | nil : Segmentation [] []
  | cons {s : Segment} {rest : List Char} {segments : List Segment} :
      s.Fits rest → s.Longest rest → Segmentation rest segments →
      Segmentation (s.text ++ rest) (s :: segments)

/-- The segments of a segmentation, joined, are the text. -/
theorem Segmentation.flatten_text {cs : List Char} {segments : List Segment}
    (h : Segmentation cs segments) : (segments.map text).flatten = cs := by
  induction h with
  | nil => rfl
  | cons _ _ _ ih => rw [List.map_cons, List.flatten_cons, ih]

/-! ## The first segment fits -/

theorem mem_signs_of_single {c : Char} {kind : Kind} (h : single? c = some kind) :
    ([c], kind) ∈ signs := by
  unfold single? at h
  split at h <;> simp only [Option.some.injEq, reduceCtorEq] at h <;> subst h <;> decide

theorem mem_signs_of_paired {c : Char} {kinds : Kind × Kind} (h : paired? c = some kinds) :
    ([c, '='], kinds.1) ∈ signs ∧ ([c], kinds.2) ∈ signs := by
  unfold paired? at h
  split at h <;> simp only [Option.some.injEq, reduceCtorEq] at h <;> subst h <;> decide

theorem fits_operator {c : Char} {kinds : Kind × Kind} (h : paired? c = some kinds)
    (rest : List Char) : (operator c kinds rest).1.Fits (operator c kinds rest).2 := by
  unfold operator
  split
  · exact .sign (mem_signs_of_paired h).1
  · exact .sign (mem_signs_of_paired h).2

theorem fits_slash (rest : List Char) : (slash rest).1.Fits (slash rest).2 := by
  unfold slash
  split
  · refine ⟨_, fun hmem => ?_, rfl⟩
    simpa using List.mem_takeWhile_imp hmem
  · exact .sign (by decide)

theorem fits_quote (rest : List Char) : (quote rest).1.Fits (quote rest).2 := by
  have hinside : '"' ∉ rest.takeWhile (· != '"') := fun hmem => by
    simpa using List.mem_takeWhile_imp hmem
  unfold quote
  split
  · exact .string hinside
  · exact ⟨_, hinside, rfl, rfl⟩

theorem digits_cons {c : Char} (hc : Number.isDigit c) (rest : List Char) :
    Digits (c :: rest.takeWhile Number.isDigit) := by
  refine ⟨List.cons_ne_nil _ _, fun d hd => ?_⟩
  rcases List.mem_cons.1 hd with rfl | hd
  · exact hc
  · exact List.mem_takeWhile_imp hd

theorem fits_numeral {c : Char} (hc : Number.isDigit c) (rest : List Char) :
    (numeral c rest).1.Fits (numeral c rest).2 := by
  unfold numeral
  split
  · split
    · exact .fraction (digits_cons hc _) (digits_cons ‹_› _)
    · exact .whole (digits_cons hc _)
  · exact .whole (digits_cons hc _)

theorem fits_word {c : Char} (hc : isLetter c) (rest : List Char) :
    (word c rest).1.Fits (word c rest).2 :=
  Lexeme.word hc fun _ hd => List.mem_takeWhile_imp hd

/-- No sign starts with a character of a word. -/
theorem isWordChar_head_signs :
    ∀ p ∈ signs, p.1.head?.all (fun c => !isWordChar c) := by
  decide

theorem single?_of_isWordChar {c : Char} (hc : isWordChar c) : single? c = none := by
  rw [Option.eq_none_iff_forall_ne_some]
  intro kind h
  simpa [hc] using isWordChar_head_signs _ (mem_signs_of_single h)

theorem paired?_of_isWordChar {c : Char} (hc : isWordChar c) : paired? c = none := by
  rw [Option.eq_none_iff_forall_ne_some]
  intro kinds h
  simpa [hc] using isWordChar_head_signs _ (mem_signs_of_paired h).2

/-- Digits and letters start nothing but numerals and words. -/
theorem first_of_isWordChar {c : Char} (hc : isWordChar c) (rest : List Char) :
    first c rest = if Number.isDigit c then numeral c rest else word c rest := by
  have hne : ∀ d, isWordChar d = false → c ≠ d := by
    rintro d hd rfl
    rw [hc] at hd
    cases hd
  have hletter : Number.isDigit c = false → isLetter c := fun hd => by
    simpa [isWordChar, hd] using hc
  unfold first
  rw [single?_of_isWordChar hc, paired?_of_isWordChar hc]
  simp only [hne '/' (by decide), hne ' ' (by decide), hne '\r' (by decide),
    hne '\t' (by decide), hne '\n' (by decide), hne '"' (by decide), decide_false,
    Bool.or_self, Bool.false_eq_true, if_false]
  split
  · rfl
  · rename_i hdigit
    rw [if_pos (hletter (by simpa using hdigit))]

/-- What a lexeme can start with. -/
theorem Lexeme.exists_cons {kind : Kind} {text : List Char} (h : Lexeme kind text) :
    ∃ c tail, text = c :: tail ∧
      ((single? c).isSome ∨ (paired? c).isSome ∨ c = '/' ∨ c = '"' ∨ isWordChar c) := by
  have hdigits : ∀ {ds}, Digits ds → ∃ c tail, ds = c :: tail ∧ isWordChar c := by
    rintro (_ | ⟨c, tail⟩) hds
    · exact absurd rfl hds.1
    · exact ⟨c, tail, rfl, by simp [isWordChar, hds.2 c (by simp)]⟩
  cases h with
  | sign hmem =>
    have hstart : ∀ p ∈ signs, ∃ c tail, p.1 = c :: tail ∧
        ((single? c).isSome ∨ (paired? c).isSome ∨ c = '/') := by
      simp [signs, single?, paired?]
    obtain ⟨c, tail, heq, hc⟩ := hstart _ hmem
    refine ⟨c, tail, heq, ?_⟩
    rcases hc with hc | hc | hc
    · exact .inl hc
    · exact .inr (.inl hc)
    · exact .inr (.inr (.inl hc))
  | string _ => exact ⟨_, _, rfl, by simp⟩
  | whole hds =>
    obtain ⟨c, tail, rfl, hc⟩ := hdigits hds
    exact ⟨c, tail, rfl, by simp [hc]⟩
  | fraction hds _ =>
    obtain ⟨c, tail, rfl, hc⟩ := hdigits hds
    exact ⟨c, _, rfl, by simp [hc]⟩
  | word hc _ => exact ⟨_, _, rfl, by simp [isWordChar, hc]⟩

/-- What is cut off first fits. -/
theorem fits_first (c : Char) (rest : List Char) : (first c rest).1.Fits (first c rest).2 := by
  unfold first
  split
  · exact .sign (mem_signs_of_single ‹_›)
  · exact fits_operator ‹_› rest
  · rename_i hsingle hpaired
    split
    · exact fits_slash rest
    split
    · rename_i hblank
      simpa [Fits, or_assoc] using hblank
    split
    · trivial
    split
    · exact fits_quote rest
    split
    · exact fits_numeral ‹_› rest
    split
    · exact fits_word ‹_› rest
    · -- nothing starts with such a character
      rename_i hslash hblank hline hquote hdigit hletter
      simp only [Bool.or_eq_true, decide_eq_true_eq, not_or] at hblank
      refine ⟨fun kind tail hlex => ?_, hblank.1.1, hblank.1.2, hblank.2, hline⟩
      obtain ⟨d, _, heq, hd⟩ := hlex.exists_cons
      obtain rfl := (List.cons.inj heq).1
      simp [hsingle, hpaired, hslash, hquote, hdigit, hletter, isWordChar] at hd

/-! ## The first segment is the longest -/

/-- A cut is at least as long as another segment, and equal to it if it is
no longer. -/
def Outdoes (cut : Segment × List Char) (other : Segment) (left : List Char) : Prop :=
  other.text.length < cut.1.text.length ∨ cut = (other, left)

/-- A run of characters of one class is all that such characters make up at
the start of a text, or it goes on. -/
theorem lt_or_takeWhile_eq {p : Char → Bool} {run : List Char} (hrun : ∀ c ∈ run, p c)
    (left : List Char) :
    run.length < ((run ++ left).takeWhile p).length ∨
      (run ++ left).takeWhile p = run ∧ (run ++ left).dropWhile p = left := by
  have hsplit := List.takeWhile_append_dropWhile (p := p) (l := left)
  rw [List.takeWhile_append_of_pos hrun, List.dropWhile_append_of_pos hrun]
  -- the run goes on exactly if what is left starts with more of the same
  cases htake : left.takeWhile p with
  | nil =>
    rw [htake, List.nil_append] at hsplit
    exact .inr ⟨List.append_nil _, hsplit⟩
  | cons _ _ => exact .inl (by simp)

theorem outdoes_operator (c : Char) (kinds : Kind × Kind) (left : List Char) :
    Outdoes (operator c kinds left) (token kinds.2 [c]) left := by
  unfold operator
  split
  · exact .inl (by simp [text])
  · exact .inr rfl

theorem outdoes_sign {sign left cs : List Char} {kind : Kind} {c : Char}
    (hmem : (sign, kind) ∈ signs) (heq : sign ++ left = c :: cs) :
    Outdoes (first c cs) (token kind sign) left := by
  simp only [signs, List.mem_cons, Prod.mk.injEq, List.not_mem_nil, or_false] at hmem
  rcases hmem with h | h | h | h | h | h | h | h | h | h | h | h | h | h | h | h | h | h | h
  all_goals obtain ⟨rfl, rfl⟩ := h
  all_goals obtain ⟨rfl, rfl⟩ := List.cons.inj heq
  case inr.inr.inr.inr.inr.inr.inr.inr.inr.inr.inl =>
    change Outdoes (slash left) _ _
    unfold slash
    split
    · exact .inl (by simp [text])
    · exact .inr rfl
  -- an operator with two forms: the short one gives way to the long one
  all_goals first | exact .inr rfl | exact outdoes_operator _ _ left

theorem quote_of_closed {inside left : List Char} (h : '"' ∉ inside) :
    quote (inside ++ '"' :: left) = (token .string ('"' :: inside ++ ['"']), left) := by
  have hrun : ∀ c ∈ inside, (c != '"') = true := fun c hc => by
    simpa using fun heq : c = '"' => h (heq ▸ hc)
  unfold quote
  rw [List.takeWhile_append_of_pos hrun, List.dropWhile_append_of_pos hrun]
  simp

theorem quote_of_open {body : List Char} (h : '"' ∉ body) :
    quote body = (unterminated ('"' :: body), []) := by
  have hrun : ∀ c ∈ body, (c != '"') = true := fun c hc => by
    simpa using fun heq : c = '"' => h (heq ▸ hc)
  unfold quote
  rw [List.takeWhile_eq_self_iff.2 hrun, List.dropWhile_eq_nil_iff.2 hrun]

theorem outdoes_comment {body left : List Char} (h : '\n' ∉ body) :
    Outdoes (slash ('/' :: (body ++ left))) (comment ('/' :: '/' :: body)) left := by
  have hrun : ∀ c ∈ body, (c != '\n') = true := fun c hc => by
    simpa using fun heq : c = '\n' => h (heq ▸ hc)
  unfold slash
  rcases lt_or_takeWhile_eq hrun left with hlt | ⟨htake, hdrop⟩
  · exact .inl (by simpa [text] using hlt)
  · exact .inr (by simp only [htake, hdrop])

theorem outdoes_word {c : Char} {tail : List Char} (h : ∀ d ∈ tail, isWordChar d)
    (left : List Char) :
    Outdoes (word c (tail ++ left)) (token (.ofWord (String.ofList (c :: tail))) (c :: tail))
      left := by
  unfold word
  rcases lt_or_takeWhile_eq h left with hlt | ⟨htake, hdrop⟩
  · exact .inl (by simpa [text] using hlt)
  · exact .inr (by simp only [htake, hdrop])

theorem outdoes_whole {c : Char} {tail : List Char} (h : ∀ d ∈ tail, Number.isDigit d)
    (left : List Char) :
    Outdoes (numeral c (tail ++ left)) (token .number (c :: tail)) left := by
  unfold numeral
  rcases lt_or_takeWhile_eq h left with hlt | ⟨htake, hdrop⟩
  · refine .inl ?_
    split
    · split
      · simp only [text, List.length_cons, List.length_append]
        omega
      · simpa [text] using hlt
    · simpa [text] using hlt
  · -- all digits are taken; a point and a digit behind them would make it longer
    simp only [htake, hdrop]
    split
    · split
      · exact .inl (by simp [text])
      · exact .inr rfl
    · exact .inr rfl

theorem outdoes_fraction {c : Char} {tail decimals : List Char}
    (htail : ∀ d ∈ tail, Number.isDigit d) (hdecimals : Digits decimals) (left : List Char) :
    Outdoes (numeral c (tail ++ '.' :: (decimals ++ left)))
      (token .number (c :: tail ++ '.' :: decimals)) left := by
  obtain ⟨hne, hall⟩ := hdecimals
  obtain ⟨d, ds, rfl⟩ := List.exists_cons_of_ne_nil hne
  have hd : Number.isDigit d := hall d (by simp)
  have hdot : Number.isDigit '.' = false := by decide
  unfold numeral
  rw [List.takeWhile_append_of_pos htail, List.dropWhile_append_of_pos htail,
    List.takeWhile_cons_of_neg (by simp [hdot]), List.dropWhile_cons_of_neg (by simp [hdot]),
    List.append_nil, List.cons_append]
  simp only [hd, if_true]
  have hds : ∀ e ∈ ds, Number.isDigit e := fun e he => hall e (by simp [he])
  rcases lt_or_takeWhile_eq hds left with hlt | ⟨htake, hdrop⟩
  · exact .inl (by simpa [text] using hlt)
  · exact .inr (by simp only [htake, hdrop])

theorem isDigit_of_isLetter {c : Char} (h : isLetter c) : Number.isDigit c = false := by
  simp only [isLetter, Number.isDigit, Bool.or_eq_true, Bool.and_eq_true, decide_eq_true_eq,
    beq_iff_eq, Char.le_def, UInt32.le_iff_toNat_le] at h ⊢
  rcases h with h | rfl
  · -- three ranges of code points that do not meet
    have h0 : ('0' : Char).val.toNat = 48 := rfl
    have h9 : ('9' : Char).val.toNat = 57 := rfl
    have ha : ('a' : Char).val.toNat = 97 := rfl
    have hA : ('A' : Char).val.toNat = 65 := rfl
    rw [Bool.and_eq_false_iff, decide_eq_false_iff_not, decide_eq_false_iff_not]
    omega
  · decide

theorem first_of_unexpected {c : Char} {left : List Char} (h : (unexpected c).Fits left) :
    first c left = (unexpected c, left) := by
  obtain ⟨hlex, hspace, hreturn, htab, hline⟩ := h
  have hsingle : single? c = none :=
    Option.eq_none_iff_forall_ne_some.2 fun kind hkind =>
      hlex kind [] (.sign (mem_signs_of_single hkind))
  have hpaired : paired? c = none :=
    Option.eq_none_iff_forall_ne_some.2 fun kinds hkinds =>
      hlex kinds.2 [] (.sign (mem_signs_of_paired hkinds).2)
  have hslash : c ≠ '/' := by
    rintro rfl
    exact hlex .slash [] (.sign (by decide))
  have hquote : c ≠ '"' := by
    rintro rfl
    exact hlex .string ['"'] (.string List.not_mem_nil)
  have hdigit : ¬ Number.isDigit c := fun hc =>
    hlex .number [] (.whole ⟨List.cons_ne_nil _ _, by simpa using hc⟩)
  have hletter : ¬ isLetter c := fun hc => hlex _ [] (.word hc (by simp))
  unfold first
  rw [hsingle, hpaired]
  simp only [hslash, hspace, hreturn, htab, hline, hquote, hdigit, hletter, decide_false,
    Bool.or_self, Bool.false_eq_true, if_false]

/-- What is cut off first is longer than any other segment that fits there. -/
theorem outdoes_first {other : Segment} {left cs : List Char} {c : Char} (h : other.Fits left)
    (heq : other.text ++ left = c :: cs) : Outdoes (first c cs) other left := by
  cases other with
  | token kind lexeme =>
    cases h with
    | sign hmem => exact outdoes_sign hmem heq
    | @string inside hinside =>
      obtain ⟨rfl, hcs⟩ : '"' = c ∧ inside ++ ['"'] ++ left = cs := List.cons.inj heq
      rw [List.append_assoc] at hcs
      subst hcs
      exact .inr (quote_of_closed hinside)
    | whole hdigits =>
      obtain ⟨hne, hall⟩ := hdigits
      obtain ⟨d, tail, rfl⟩ := List.exists_cons_of_ne_nil hne
      obtain ⟨rfl, rfl⟩ := List.cons.inj heq
      have hd : Number.isDigit d := hall d (by simp)
      rw [first_of_isWordChar (by simp [isWordChar, hd]), if_pos hd]
      exact outdoes_whole (fun e he => hall e (by simp [he])) left
    | @fraction digits decimals hdigits hdecimals =>
      obtain ⟨hne, hall⟩ := hdigits
      obtain ⟨d, tail, rfl⟩ := List.exists_cons_of_ne_nil hne
      obtain ⟨rfl, hcs⟩ : d = c ∧ tail ++ '.' :: decimals ++ left = cs := List.cons.inj heq
      rw [List.append_assoc] at hcs
      subst hcs
      have hd : Number.isDigit d := hall d (by simp)
      rw [first_of_isWordChar (by simp [isWordChar, hd]), if_pos hd]
      exact outdoes_fraction (fun e he => hall e (by simp [he])) hdecimals left
    | word hletter htail =>
      obtain ⟨rfl, rfl⟩ := List.cons.inj heq
      rw [first_of_isWordChar (by simp [isWordChar, hletter]),
        if_neg (by simp [isDigit_of_isLetter hletter])]
      exact outdoes_word htail left
  | blank b =>
    obtain ⟨rfl, rfl⟩ := List.cons.inj heq
    rcases h with rfl | rfl | rfl <;> exact .inr rfl
  | newline =>
    obtain ⟨rfl, rfl⟩ := List.cons.inj heq
    exact .inr rfl
  | comment text =>
    obtain ⟨body, hbody, rfl⟩ := h
    obtain ⟨rfl, rfl⟩ := List.cons.inj heq
    exact outdoes_comment hbody
  | unexpected u =>
    obtain ⟨rfl, rfl⟩ := List.cons.inj heq
    exact .inr (first_of_unexpected h)
  | unterminated text =>
    obtain ⟨body, hbody, rfl, rfl⟩ := h
    rw [List.append_nil] at heq
    obtain ⟨rfl, rfl⟩ := List.cons.inj heq
    exact .inr (quote_of_open hbody)

/-- What is cut off first, followed by what is left over, is the text. -/
theorem text_first (c : Char) (cs : List Char) :
    (first c cs).1.text ++ (first c cs).2 = c :: cs := by
  obtain ⟨tail, htext, happend⟩ := splits_first c cs
  rw [htext, List.cons_append, happend]

theorem longest_first (c : Char) (cs : List Char) : (first c cs).1.Longest (first c cs).2 := by
  intro other left hfits heq
  rw [text_first] at heq
  rcases outdoes_first hfits heq with hlt | hcut
  · exact hlt.le
  · rw [hcut]

/-- A segment that fits covers something. -/
theorem Fits.exists_cons {s : Segment} {rest : List Char} (h : s.Fits rest) :
    ∃ c tail, s.text = c :: tail := by
  cases s with
  | token kind lexeme =>
    obtain ⟨c, tail, heq, -⟩ := Lexeme.exists_cons h
    exact ⟨c, tail, heq⟩
  | comment text =>
    obtain ⟨body, -, rfl⟩ := h
    exact ⟨_, _, rfl⟩
  | unterminated text =>
    obtain ⟨body, -, rfl, -⟩ := h
    exact ⟨_, _, rfl⟩
  | _ => exact ⟨_, _, rfl⟩

/-- **The first segment is the only choice**: a longest segment that fits
is the one cut off first. -/
theorem first_eq_of_longest {s : Segment} {rest cs : List Char} {c : Char} (hfits : s.Fits rest)
    (hlongest : s.Longest rest) (heq : s.text ++ rest = c :: cs) : first c cs = (s, rest) := by
  rcases outdoes_first hfits heq with hlt | hcut
  · -- the cut fits as well, so it cannot be longer than the longest
    have hle := hlongest _ _ (fits_first c cs) ((text_first c cs).trans heq.symm)
    omega
  · exact hcut

/-! ## Cutting finds the segmentation -/

/-- The segments that are cut from a text, as a list. -/
def pieces (cs : List Char) : List Segment := (cutFrom #[] cs).toList

theorem toList_cutFrom (n : Nat) : ∀ (done : Array Segment) (cs : List Char), cs.length ≤ n →
    (cutFrom done cs).toList = done.toList ++ pieces cs := by
  induction n with
  | zero =>
    intro done cs hn
    obtain rfl := List.length_eq_zero_iff.1 (Nat.le_zero.1 hn)
    simp [pieces, cutFrom]
  | succ n ih =>
    intro done cs hn
    cases cs with
    | nil => simp [pieces, cutFrom]
    | cons c rest =>
      have hle : (first c rest).2.length ≤ n :=
        (length_first_le c rest).trans (Nat.le_of_succ_le_succ hn)
      rw [pieces, cutFrom, cutFrom, ih _ _ hle, ih _ _ hle]
      simp

@[simp] theorem pieces_nil : pieces [] = [] := by
  simp [pieces, cutFrom]

theorem pieces_cons (c : Char) (cs : List Char) :
    pieces (c :: cs) = (first c cs).1 :: pieces (first c cs).2 := by
  rw [pieces, cutFrom, toList_cutFrom _ _ _ le_rfl]
  rfl

/-- **Cutting is maximal munch.** -/
theorem segmentation_pieces (n : Nat) :
    ∀ cs : List Char, cs.length ≤ n → Segmentation cs (pieces cs) := by
  induction n with
  | zero =>
    intro cs hn
    obtain rfl := List.length_eq_zero_iff.1 (Nat.le_zero.1 hn)
    rw [pieces_nil]
    exact .nil
  | succ n ih =>
    intro cs hn
    cases cs with
    | nil =>
      rw [pieces_nil]
      exact .nil
    | cons c rest =>
      have hle : (first c rest).2.length ≤ n :=
        (length_first_le c rest).trans (Nat.le_of_succ_le_succ hn)
      rw [pieces_cons]
      exact text_first c rest ▸
        Segmentation.cons (fits_first c rest) (longest_first c rest) (ih _ hle)

/-- **And nothing else is**: a text has one segmentation. -/
theorem Segmentation.eq_pieces {cs : List Char} {segments : List Segment}
    (h : Segmentation cs segments) : segments = pieces cs := by
  induction h with
  | nil => exact pieces_nil.symm
  | @cons s rest segments hfits hlongest _ ih =>
    obtain ⟨c, tail, htext⟩ := hfits.exists_cons
    have heq : s.text ++ rest = c :: (tail ++ rest) := by rw [htext, List.cons_append]
    rw [heq, pieces_cons, first_eq_of_longest hfits hlongest heq, ih]

end Segment

end Treewalk
