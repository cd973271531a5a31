import Treewalk.Proofs.Grammar.Keeping

/-!
# Reading moves forward

No reading ever goes back: the tokens it leaves are the last of those it
was given. A declaration that is read takes a token at least, and recovery
drops one; so every declaration that does not start at the end of input
leaves the cursor further on, **however it ends**, and a row of declarations
needs no more rounds than there are tokens. `Finishes` says so of the row without any
bound on its rounds.
-/

namespace Treewalk

namespace Reading

variable {α β : Type}

/-! ## Never back -/

/-- The tokens ahead of the second cursor are the last of those ahead of the
first. -/
def Further (c c' : Cursor) : Prop := c'.ahead <:+ c.ahead

theorem steady_further : Steady Further where
  refl _ := List.suffix_rfl
  trans hab hbc := hbc.trans hab
  read _ rest _ _ := List.suffix_cons _ rest
  note _ _ := List.suffix_rfl
  within h := h

theorem Further.length_le {c c' : Cursor} (h : Further c c') :
    c'.ahead.length ≤ c.ahead.length := List.IsSuffix.length_le h

theorem further_expression (room depth : Nat) : Keeps Further (expression room depth) :=
  (keeps_expressions steady_further room depth).1

theorem further_attempt (room depth : Nat) : Keeps Further (attempt room depth) :=
  (keeps_statements steady_further room depth).1

theorem further_declaration (room depth : Nat) : KeepsItem Further (declaration room depth) := by
  rw [declaration_eq]
  exact (further_attempt room depth).recovering steady_further

/-! ## What is read takes a token -/

/-- Where the reading yields a result, it has taken a token. -/
def Consumes (m : Reading α) : Prop :=
  ∀ c a c', m c = .ok a c' → c'.ahead.length < c.ahead.length

theorem consumes_throw (e : Abandoned) : Consumes (throw e : Reading α) := nofun

theorem consumes_expect (kind : Kind) (cause : GrammarFault) : Consumes (expect kind cause) := by
  intro c a c' hrun
  obtain ⟨t?, c₁, haccept, hrest⟩ := bind_eq_ok.1 hrun
  rcases accept_cases [kind] c with ⟨t, rest, -, -, hahead, htaken⟩ | ⟨-, hleft⟩
  · rw [haccept] at htaken
    obtain ⟨rfl, rfl⟩ := EStateM.Result.ok.inj htaken
    obtain ⟨-, rfl⟩ := EStateM.Result.ok.inj hrest
    rw [hahead, List.length_cons]
    exact Nat.lt_succ_self _
  · -- where the token does not come, the declaration is abandoned
    rw [haccept] at hleft
    obtain ⟨rfl, rfl⟩ := EStateM.Result.ok.inj hleft
    cases hrest

/-- A sequence takes a token if its first step does. -/
theorem Consumes.bind {m : Reading α} {f : α → Reading β} (hm : Consumes m)
    (hf : ∀ a, Keeps Further (f a)) : Consumes (m >>= f) := by
  intro c b c' hrun
  obtain ⟨a, c₁, hfirst, hsecond⟩ := bind_eq_ok.1 hrun
  have hlt : c₁.ahead.length < c.ahead.length := hm c a c₁ hfirst
  have hfurther := hf a c₁
  rw [hsecond] at hfurther
  exact Nat.lt_of_le_of_lt hfurther.length_le hlt

/-- And it does if all that can come behind its first step do. -/
theorem Consumes.after {m : Reading α} {f : α → Reading β} (hm : Keeps Further m)
    (hf : ∀ a, Consumes (f a)) : Consumes (m >>= f) := by
  intro c b c' hrun
  obtain ⟨a, c₁, hfirst, hsecond⟩ := bind_eq_ok.1 hrun
  have hfurther := hm c
  rw [hfirst] at hfurther
  exact Nat.lt_of_lt_of_le (hf a c₁ b c' hsecond) hfurther.length_le

theorem consumes_pure_after {m : Reading α} (hm : Consumes m) (f : α → β) :
    Consumes (m >>= fun a => pure (f a)) :=
  hm.bind fun a => keeps_pure steady_further (f a)

section Forms

variable {value : Reading Expr} {body : Reading Stmt}
variable (hvalue : Keeps Further value) (hbody : Keeps Further body)

include hvalue in
theorem consumes_expressionStatement : Consumes (expressionStatement value) :=
  Consumes.after hvalue fun _ => consumes_pure_after (consumes_expect _ _) _

include hvalue in
theorem consumes_varDeclaration : Consumes (varDeclaration value) := by
  rw [varDeclaration_eq]
  exact (consumes_expect _ _).bind fun _ => (hvalue.ifTaken steady_further _).bind steady_further
    fun _ => (keeps_expect steady_further _ _).bind steady_further fun _ =>
      keeps_pure steady_further _

include hvalue in
theorem consumes_printStatement : Consumes (printStatement value) :=
  Consumes.after hvalue fun _ => consumes_pure_after (consumes_expect _ _) _

include hvalue in
theorem consumes_returnStatement (keyword : Token) : Consumes (returnStatement keyword value) := by
  rw [returnStatement_eq]
  exact Consumes.after (keeps_checkReturn steady_further keyword) fun _ =>
    Consumes.after (hvalue.unlessSeen steady_further _) fun _ =>
      consumes_pure_after (consumes_expect _ _) _

include hvalue hbody in
theorem consumes_branchStatement : Consumes (branchStatement value body) := by
  rw [branchStatement_eq]
  exact (consumes_expect _ _).bind fun _ => hvalue.bind steady_further fun _ =>
    (keeps_expect steady_further _ _).bind steady_further fun _ => hbody.bind steady_further
      fun _ => (hbody.ifTaken steady_further _).bind steady_further fun _ =>
        keeps_pure steady_further _

include hvalue hbody in
theorem consumes_loopStatement : Consumes (loopStatement value body) :=
  (consumes_expect _ _).bind fun _ => hvalue.bind steady_further fun _ =>
    (keeps_expect steady_further _ _).bind steady_further fun _ => hbody.bind steady_further
      fun _ => keeps_pure steady_further _

include hvalue hbody in
theorem consumes_forStatement : Consumes (forStatement value body) := by
  rw [forStatement_eq]
  have hinitial : Keeps Further (initialClause value) :=
    @Congruence.initialClause _ _ (congruence_keeps steady_further) value value hvalue
  exact (consumes_expect _ _).bind fun _ => hinitial.bind steady_further fun _ =>
     (hvalue.unlessSeen steady_further _).bind steady_further fun _ =>
      (keeps_expect steady_further _ _).bind steady_further fun _ =>
        (hvalue.unlessSeen steady_further _).bind steady_further fun _ =>
          (keeps_expect steady_further _ _).bind steady_further fun _ =>
            hbody.bind steady_further fun _ => keeps_pure steady_further _

end Forms

theorem further_body {item : Cursor → Option Stmt × Cursor} (hitem : KeepsItem Further item)
    (room : Nat) : Keeps Further (body item room) :=
  fun c => hitem.declarations steady_further closesBlock room [] c

theorem consumes_block {item : Cursor → Option Stmt × Cursor} (hitem : KeepsItem Further item)
    (room : Nat) : Consumes (block item room) := by
  rw [block_eq]
  exact Consumes.after (further_body hitem room) fun _ =>
    consumes_pure_after (consumes_expect _ _) _

theorem consumes_functionDeclaration {item : Cursor → Option Stmt × Cursor}
    (hitem : KeepsItem Further item) (room : Nat) :
    Consumes (functionDeclaration (block item room) room) :=
  (consumes_expect _ _).bind fun _ => (keeps_expect steady_further _ _).bind steady_further
    fun _ => ((keeps_expect steady_further _ _).listed steady_further _ room).bind steady_further
      fun _ => (keeps_expect steady_further _ _).bind steady_further fun _ =>
        (keeps_expect steady_further _ _).bind steady_further fun _ =>
          ((hitem.block steady_further room).withinFunction steady_further).bind steady_further
            fun _ => keeps_pure steady_further _

theorem consumes_statement (room depth : Nat) : Consumes (statement room depth) := by
  cases depth with
  | zero => exact consumes_throw _
  | succ depth =>
    have hvalue := further_expression room depth
    have hbody := (keeps_statements steady_further room depth).2
    rw [statement]
    refine Consumes.after (keeps_accept steady_further _) fun t? => ?_
    cases t? with
    | none => exact consumes_expressionStatement hvalue
    | some t =>
      dsimp only
      split
      · exact consumes_branchStatement hvalue hbody
      · exact consumes_loopStatement hvalue hbody
      · exact consumes_forStatement hvalue hbody
      · exact consumes_printStatement hvalue
      · exact consumes_returnStatement hvalue t
      · exact consumes_pure_after (consumes_block (further_declaration room depth) room) _

/-- **A declaration that is read has taken a token.** -/
theorem consumes_attempt (room depth : Nat) : Consumes (attempt room depth) := by
  cases depth with
  | zero => exact consumes_throw _
  | succ depth =>
    rw [attempt]
    refine Consumes.after (keeps_take steady_further _) fun isFun => ?_
    split
    · exact consumes_functionDeclaration (further_declaration room depth) room
    refine Consumes.after (keeps_take steady_further _) fun isVar => ?_
    split
    · exact consumes_varDeclaration (further_expression room depth)
    · exact consumes_statement room depth

/-! ## Declarations -/

theorem length_settle_le (last : Token) (ts : List Token) :
    (Cursor.settle last ts).length ≤ ts.length := by
  have hfurther : Further ⟨ts, #[], 0⟩ ⟨Cursor.settle last ts, #[], 0⟩ :=
    keeps_settle steady_further last ts #[] 0
  exact hfurther.length_le

/-- Recovery drops a token. -/
theorem length_skipToBoundary_lt {c : Cursor} (h : ¬ Ends c.ahead) :
    c.skipToBoundary.ahead.length < c.ahead.length := by
  obtain ⟨ahead, faults, opens⟩ := c
  cases ahead with
  | nil => exact absurd ends_nil h
  | cons t rest =>
    have hmark : t.kind ≠ .endOfInput := fun hmark => h (ends_cons.2 hmark)
    rw [skipToBoundary_cons hmark]
    exact Nat.lt_succ_of_le (length_settle_le t rest)

/-- In front of a token, an abandoned reading that is recovered from ends
further on. -/
theorem length_skipToBoundary_lt_of_further {c c' : Cursor} (h : ¬ Ends c.ahead)
    (hfurther : Further c c') : c'.skipToBoundary.ahead.length < c.ahead.length := by
  by_cases hend : Ends c'.ahead
  · -- at the end of input, so not where the reading started
    have hmoved : c'.ahead.length ≠ c.ahead.length :=
      fun heq => h (List.IsSuffix.eq_of_length hfurther heq ▸ hend)
    rw [skipToBoundary_of_ends hend]
    exact Nat.lt_of_le_of_ne hfurther.length_le hmoved
  · exact Nat.lt_of_lt_of_le (length_skipToBoundary_lt hend) hfurther.length_le

@[simp] theorem ahead_noted (c : Cursor) (cause : GrammarFault) :
    (c.note cause).ahead = c.ahead := by
  unfold Cursor.note
  split <;> rfl

/-- **Every declaration in front of a token leaves the cursor further on**,
whether it is read, refused or nested too deep. -/
theorem length_declaration_lt (room depth : Nat) {c : Cursor} (hgo : c.atEnd = false) :
    (declaration room depth c).2.ahead.length < c.ahead.length := by
  have h : ¬ Ends c.ahead := atEnd_eq_false.1 hgo
  have hfurther := further_attempt room depth c
  rw [declaration_eq, recovering]
  cases hrun : attempt room depth c with
  | ok s c' => exact consumes_attempt room depth c s c' hrun
  | error e c' =>
    rw [hrun] at hfurther
    cases e with
    | fault => exact length_skipToBoundary_lt_of_further h hfurther
    | tooDeep =>
      have hnoted : Further c (c'.note .nestingTooDeep) := by
        rw [Further, ahead_noted]
        exact hfurther
      exact length_skipToBoundary_lt_of_further h hnoted

/-! ## Declarations in a row -/

/-- Reading one declaration after the other until `stop`, with no bound on
their number, yields the statements and ends at the second cursor. -/
inductive Finishes (stop : Cursor → Bool) (item : Cursor → Option Stmt × Cursor) :
    Cursor → List Stmt → Cursor → Prop
  | stop {c : Cursor} : stop c = true → Finishes stop item c [] c
  | next {c c' : Cursor} {more : List Stmt} : stop c = false →
      Finishes stop item (item c).2 more c' →
      Finishes stop item c ((item c).1.toList ++ more) c'

section

variable {stop : Cursor → Bool} {item : Cursor → Option Stmt × Cursor}

theorem declarations_of_stop {c : Cursor} (h : stop c = true) (room : Nat) (done : List Stmt) :
    declarations stop item room done c = (done.reverse, c) := by
  cases room with
  | zero => rfl
  | succ room => rw [declarations, if_pos h]

theorem declarations_of_go {c : Cursor} (h : stop c = false) (room : Nat) (done : List Stmt) :
    declarations stop item (room + 1) done c =
      declarations stop item room ((item c).1.toList ++ done) (item c).2 := by
  rw [declarations, if_neg (ne_true_of_eq_false h)]

/-- What was read before stands in front of what is read. -/
theorem declarations_done (room : Nat) (done : List Stmt) (c : Cursor) :
    declarations stop item room done c =
      (done.reverse ++ (declarations stop item room [] c).1,
        (declarations stop item room [] c).2) := by
  induction room generalizing done c with
  | zero => simp [declarations]
  | succ room ih =>
    by_cases hstop : stop c = true
    · rw [declarations_of_stop hstop, declarations_of_stop hstop]
      simp
    · have hgo : stop c = false := eq_false_of_ne_true hstop
      have hreverse : ((item c).1.toList ++ done).reverse =
          done.reverse ++ ((item c).1.toList ++ []).reverse := by
        cases (item c).1 <;> simp
      rw [declarations_of_go hgo, declarations_of_go hgo, ih ((item c).1.toList ++ done),
        ih ((item c).1.toList ++ []), hreverse, List.append_assoc]

/-- **With a round for every token, a row of declarations finishes**: what
ends it is what should, and never the bound on its rounds. -/
theorem finishes_declarations (hend : ∀ c : Cursor, c.ahead = [] → stop c = true)
    (hitem : ∀ c : Cursor, stop c = false → (item c).2.ahead.length < c.ahead.length)
    (room : Nat) {c : Cursor} (hroom : c.ahead.length ≤ room) :
    Finishes stop item c (declarations stop item room [] c).1
      (declarations stop item room [] c).2 := by
  induction room generalizing c with
  | zero =>
    have hnil : c.ahead = [] := List.eq_nil_of_length_eq_zero (Nat.le_zero.1 hroom)
    exact .stop (hend c hnil)
  | succ room ih =>
    by_cases hstop : stop c = true
    · rw [declarations_of_stop hstop]
      exact .stop hstop
    · have hgo : stop c = false := eq_false_of_ne_true hstop
      have hlt : (item c).2.ahead.length < c.ahead.length := hitem c hgo
      have hrest := ih (c := (item c).2) (by omega)
      have hreverse : ((item c).1.toList ++ []).reverse = (item c).1.toList := by
        cases (item c).1 <;> rfl
      rw [declarations_of_go hgo, declarations_done, hreverse]
      exact .next hgo hrest

theorem Finishes.stopped {c c' : Cursor} {program : List Stmt}
    (h : Finishes stop item c program c') : stop c' = true := by
  induction h with
  | stop hstop => exact hstop
  | next _ _ ih => exact ih

theorem Finishes.step {c c₁ c' : Cursor} {s? : Option Stmt} {more : List Stmt}
    (hgo : stop c = false) (hitem : item c = (s?, c₁)) (hmore : Finishes stop item c₁ more c') :
    Finishes stop item c (s?.toList ++ more) c' := by
  have hrest : Finishes stop item (item c).2 more c' := by
    rw [hitem]
    exact hmore
  have hwhole := Finishes.next hgo hrest
  rw [hitem] at hwhole
  exact hwhole

/-- There is one way to finish. -/
theorem Finishes.unique {c c₁ c₂ : Cursor} {first second : List Stmt}
    (h₁ : Finishes stop item c first c₁) (h₂ : Finishes stop item c second c₂) :
    first = second ∧ c₁ = c₂ := by
  induction h₁ generalizing second with
  | stop hstop =>
    cases h₂ with
    | stop _ => exact ⟨rfl, rfl⟩
    | next hgo _ => exact absurd hstop (ne_true_of_eq_false hgo)
  | next hgo _ ih =>
    cases h₂ with
    | stop hstop => exact absurd hstop (ne_true_of_eq_false hgo)
    | next _ hmore =>
      obtain ⟨rfl, rfl⟩ := ih hmore
      exact ⟨rfl, rfl⟩

end

theorem atEnd_of_nil {c : Cursor} (h : c.ahead = []) : c.atEnd = true :=
  atEnd_iff.2 (h ▸ ends_nil)

theorem finishes_readAll_self (depth : Nat) (ts : List Token) :
    Finishes Cursor.atEnd (declaration ts.length depth) { ahead := ts } (readAll depth ts).1
      (readAll depth ts).2 :=
  finishes_declarations (fun _ => atEnd_of_nil)
    (fun _ => length_declaration_lt ts.length depth) ts.length (Nat.le_refl _)

/-- Reading a program ends at the end of its tokens. -/
theorem ahead_readAll (depth : Nat) {ts : List Token} (hts : Unmarked ts) :
    (readAll depth ts).2.ahead = [] := by
  have hend : Ends (readAll depth ts).2.ahead :=
    atEnd_iff.1 (finishes_readAll_self depth ts).stopped
  have hsuffix : (readAll depth ts).2.ahead <:+ ts :=
    (further_declaration ts.length depth).declarations steady_further Cursor.atEnd ts.length []
      { ahead := ts }
  exact hend.eq_nil fun t ht => hts t (hsuffix.mem ht)

/-- What finishes is what reading a program yields. -/
theorem readAll_of_finishes {depth : Nat} {ts : List Token} {program : List Stmt} {c : Cursor}
    (h : Finishes Cursor.atEnd (declaration ts.length depth) { ahead := ts } program c) :
    readAll depth ts = (program, c) := by
  obtain ⟨hprogram, hcursor⟩ := (finishes_readAll_self depth ts).unique h
  exact Prod.ext hprogram hcursor

end Reading

end Treewalk
