import Treewalk.Grammar.Program

/-!
# Steps of reading

What the small steps of reading do to a cursor, once and for all: how a
sequence of steps runs and how a run of it comes apart again, when a token
is taken and when it is left, and how the clauses and lists of the reader
are made of such steps.
-/

namespace Treewalk

namespace Reading

variable {α β : Type}

/-! ## Sequences -/

@[simp] theorem pure_apply (a : α) (c : Cursor) : (pure a : Reading α) c = .ok a c := rfl

@[simp] theorem get_apply (c : Cursor) : (get : Reading Cursor) c = .ok c c := rfl

/-- A sequence goes on where its first step ended. -/
theorem bind_ok {m : Reading α} {f : α → Reading β} {c c' : Cursor} {a : α}
    (h : m c = .ok a c') : (m >>= f) c = f a c' := by
  change EStateM.bind m f c = _
  simp only [EStateM.bind, h]

/-- A sequence ends where its first step is abandoned. -/
theorem bind_error {m : Reading α} {f : α → Reading β} {c c' : Cursor} {e : Abandoned}
    (h : m c = .error e c') : (m >>= f) c = .error e c' := by
  change EStateM.bind m f c = _
  simp only [EStateM.bind, h]

/-- A sequence that succeeds is made of steps that do. -/
theorem bind_eq_ok {m : Reading α} {f : α → Reading β} {c c' : Cursor} {b : β} :
    (m >>= f) c = .ok b c' ↔ ∃ a c₁, m c = .ok a c₁ ∧ f a c₁ = .ok b c' := by
  cases h : m c with
  | ok a c₁ =>
    rw [bind_ok h]
    constructor
    · exact fun hf => ⟨a, c₁, rfl, hf⟩
    · rintro ⟨_, _, heq, hf⟩
      obtain ⟨rfl, rfl⟩ := EStateM.Result.ok.inj heq
      exact hf
  | error e c₁ => simp [bind_error h]

theorem map_eq_bind (f : α → β) (m : Reading α) : f <$> m = m >>= fun a => pure (f a) :=
  (bind_pure_comp f m).symm

/-! ## The end of input -/

/-- Nothing to read comes next: the mark at the end of input, or no token. -/
def Ends (rest : List Token) : Prop := ∀ t ∈ rest.head?, t.kind = .endOfInput

@[simp] theorem ends_nil : Ends [] := fun t ht => absurd ht (Option.not_mem_none t)

@[simp] theorem ends_cons {t : Token} {rest : List Token} :
    Ends (t :: rest) ↔ t.kind = .endOfInput := by
  simp [Ends]

@[simp] theorem atEnd_cons (t : Token) (rest : List Token) (faults : Array Fault) (opens : Nat) :
    (Cursor.mk (t :: rest) faults opens).atEnd = (t.kind == .endOfInput) := rfl

theorem atEnd_iff {c : Cursor} : c.atEnd = true ↔ Ends c.ahead := by
  rw [Cursor.atEnd, Ends]
  cases c.ahead.head? <;> simp

theorem atEnd_eq_false {c : Cursor} : c.atEnd = false ↔ ¬ Ends c.ahead := by
  rw [← atEnd_iff, Bool.not_eq_true]

/-- None of the tokens is the mark at the end of input. -/
def Unmarked (ts : List Token) : Prop := ∀ t ∈ ts, t.kind ≠ .endOfInput

theorem Ends.eq_nil {ts : List Token} (h : Ends ts) (hts : Unmarked ts) : ts = [] := by
  cases ts with
  | nil => rfl
  | cons t ts => exact absurd (ends_cons.1 h) (hts t List.mem_cons_self)

/-! ## Single tokens -/

@[simp] theorem sees_apply (kind : Kind) (c : Cursor) :
    sees kind c = .ok (!c.atEnd && c.kind? == some kind) c := rfl

@[simp] theorem kind?_cons (t : Token) (rest : List Token) (faults : Array Fault) (opens : Nat) :
    (Cursor.mk (t :: rest) faults opens).kind? = some t.kind := rfl

/-- A token is taken if it is asked for, which the mark never is. -/
theorem accept_cons {kinds : List Kind} {t : Token} (h : t.kind ∈ kinds)
    (hkinds : kinds.contains .endOfInput = false) (rest : List Token) (faults : Array Fault)
    (opens : Nat) :
    accept kinds ⟨t :: rest, faults, opens⟩ = .ok (some t) ⟨rest, faults, opens⟩ := by
  have hgo : t.kind ≠ .endOfInput := by
    intro hmark
    rw [hmark] at h
    simp [h] at hkinds
  simp [accept, h, hgo]

theorem accept_of_ends {c : Cursor} (h : Ends c.ahead) (kinds : List Kind) :
    accept kinds c = .ok none c := by
  obtain ⟨ahead, faults, opens⟩ := c
  cases ahead with
  | nil => rfl
  | cons t rest =>
    have hmark : t.kind = .endOfInput := ends_cons.1 h
    simp [accept, hmark]

/-- The kinds in a list do not come next. -/
def Stops (kinds : List Kind) (rest : List Token) : Prop := ∀ t ∈ rest.head?, t.kind ∉ kinds

@[simp] theorem stops_nil (kinds : List Kind) : Stops kinds [] :=
  fun t ht => absurd ht (Option.not_mem_none t)

@[simp] theorem stops_cons {kinds : List Kind} {t : Token} {rest : List Token} :
    Stops kinds (t :: rest) ↔ t.kind ∉ kinds := by
  simp [Stops]

theorem Stops.mono {kinds kinds' : List Kind} {rest : List Token} (h : Stops kinds rest)
    (hsub : ∀ k ∈ kinds', k ∈ kinds) : Stops kinds' rest :=
  fun t ht hmem => h t ht (hsub _ hmem)

theorem accept_of_stops {kinds : List Kind} {rest : List Token} (h : Stops kinds rest)
    (faults : Array Fault) (opens : Nat) :
    accept kinds ⟨rest, faults, opens⟩ = .ok none ⟨rest, faults, opens⟩ := by
  cases rest with
  | nil => rfl
  | cons t rest =>
    rw [stops_cons] at h
    simp [accept, h]

theorem Ends.stops {rest : List Token} (h : Ends rest) {kinds : List Kind}
    (hkinds : kinds.contains .endOfInput = false) : Stops kinds rest := by
  intro t ht
  rw [h t ht]
  simpa using hkinds

/-- What taking a token can do. -/
theorem accept_cases (kinds : List Kind) (c : Cursor) :
    (∃ t rest, t.kind ∈ kinds ∧ t.kind ≠ .endOfInput ∧ c.ahead = t :: rest ∧
      accept kinds c = .ok (some t) { c with ahead := rest }) ∨
    (kinds.contains .endOfInput = false → Stops kinds c.ahead) ∧ accept kinds c = .ok none c := by
  by_cases hend : Ends c.ahead
  · exact .inr ⟨hend.stops, accept_of_ends hend kinds⟩
  · obtain ⟨ahead, faults, opens⟩ := c
    cases ahead with
    | nil => exact absurd ends_nil hend
    | cons t rest =>
      by_cases h : t.kind ∈ kinds
      · have hgo : t.kind ≠ .endOfInput := fun hmark => hend (ends_cons.2 hmark)
        exact .inl ⟨t, rest, h, hgo, rfl, by simp [accept, h, hgo]⟩
      · exact .inr ⟨fun _ => stops_cons.2 h, accept_of_stops (stops_cons.2 h) ..⟩

theorem take_cons {kind : Kind} {t : Token} (h : t.kind = kind)
    (hkind : [kind].contains .endOfInput = false) (rest : List Token) (faults : Array Fault)
    (opens : Nat) : take kind ⟨t :: rest, faults, opens⟩ = .ok true ⟨rest, faults, opens⟩ := by
  rw [take, bind_ok (accept_cons (by simp [h]) hkind ..)]
  rfl

theorem take_of_stops {kind : Kind} {rest : List Token} (h : Stops [kind] rest)
    (faults : Array Fault) (opens : Nat) :
    take kind ⟨rest, faults, opens⟩ = .ok false ⟨rest, faults, opens⟩ := by
  rw [take, bind_ok (accept_of_stops h ..)]
  rfl

theorem expect_cons {kind : Kind} {t : Token} (h : t.kind = kind)
    (hkind : [kind].contains .endOfInput = false) (cause : GrammarFault) (rest : List Token)
    (faults : Array Fault) (opens : Nat) :
    expect kind cause ⟨t :: rest, faults, opens⟩ = .ok t ⟨rest, faults, opens⟩ := by
  rw [expect, bind_ok (accept_cons (by simp [h]) hkind ..)]
  rfl

/-! ## Clauses that may be left out -/

/-- Reads a clause behind a token of a given kind, if one comes next. -/
def ifTaken (kind : Kind) (clause : Reading α) : Reading (Option α) := do
  if ← take kind then some <$> clause else pure none

/-- Reads a clause unless a token of a given kind comes next. -/
def unlessSeen (kind : Kind) (clause : Reading α) : Reading (Option α) := do
  if ← sees kind then pure none else some <$> clause

/-- Notes that a list which holds `count` items already has no room for
another. -/
def noteOver (tooMany : GrammarFault) (count : Nat) : Reading Unit :=
  if maxArguments ≤ count then note tooMany else pure ()

theorem separated_succ (item : Reading α) (tooMany : GrammarFault) (room count : Nat) :
    separated item tooMany (room + 1) count = do
      noteOver tooMany count
      let first ← item
      let rest ← ifTaken .comma (separated item tooMany room (count + 1))
      return first :: rest.getD [] := by
  have htail (first : α) : (do
      if ← take .comma then return first :: (← separated item tooMany room (count + 1))
      else return [first]) = (do
        let rest ← ifTaken .comma (separated item tooMany room (count + 1))
        return first :: rest.getD []) := by
    rw [ifTaken, bind_assoc]
    refine bind_congr fun more => ?_
    cases more
    · rfl
    · rw [if_pos rfl, if_pos rfl, map_eq_bind, bind_assoc]
      rfl
  rw [separated, noteOver]
  split
  · exact bind_congr fun _ => bind_congr fun first => htail first
  · rw [pure_bind]
    exact bind_congr fun first => htail first

theorem varDeclaration_eq (value : Reading Expr) :
    varDeclaration value = do
      let name ← expect .identifier .noVariableName
      let initial ← ifTaken .equal value
      let _ ← expect .semicolon .noEndOfVariable
      return .var name initial := by
  refine bind_congr fun name => ?_
  rw [ifTaken, bind_assoc]
  refine bind_congr fun taken => ?_
  cases taken <;> rfl

theorem branchStatement_eq (value : Reading Expr) (branch : Reading Stmt) :
    branchStatement value branch = do
      let _ ← expect .leftParen .noParenAfterIf
      let condition ← value
      let _ ← expect .rightParen .noParenAfterIfCondition
      let yes ← branch
      let no ← ifTaken .kwElse branch
      return .branch condition yes no := by
  refine bind_congr fun _ => bind_congr fun condition => bind_congr fun _ =>
    bind_congr fun yes => ?_
  rw [ifTaken, bind_assoc]
  refine bind_congr fun taken => ?_
  cases taken <;> rfl

theorem forStatement_eq (value : Reading Expr) (body : Reading Stmt) :
    forStatement value body = do
      let _ ← expect .leftParen .noParenAfterFor
      let initial ← initialClause value
      let condition ← unlessSeen .semicolon value
      let _ ← expect .semicolon .noEndOfLoopCondition
      let step ← unlessSeen .rightParen value
      let _ ← expect .rightParen .noParenAfterForClauses
      return .forLoop initial condition step (← body) := by
  have hstep (initial : Option Stmt) (condition : Option Expr) : (do
      let step ← if ← sees .rightParen then pure none else some <$> value
      let _ ← expect .rightParen .noParenAfterForClauses
      return Stmt.forLoop initial condition step (← body)) = (do
        let step ← unlessSeen .rightParen value
        let _ ← expect .rightParen .noParenAfterForClauses
        return Stmt.forLoop initial condition step (← body)) := by
    rw [unlessSeen, bind_assoc]
    refine bind_congr fun seen => ?_
    cases seen <;> rfl
  refine bind_congr fun _ => bind_congr fun initial => ?_
  rw [unlessSeen, bind_assoc]
  refine bind_congr fun seen => ?_
  cases seen
  · exact bind_congr fun condition => bind_congr fun _ => hstep initial condition
  · exact bind_congr fun condition => bind_congr fun _ => hstep initial condition

theorem returnStatement_eq (keyword : Token) (value : Reading Expr) :
    returnStatement keyword value = do
      checkReturn keyword
      let e ← unlessSeen .semicolon value
      let _ ← expect .semicolon .noEndOfReturn
      return .ret keyword e := by
  refine bind_congr fun _ => ?_
  rw [unlessSeen, bind_assoc]
  refine bind_congr fun seen => ?_
  cases seen <;> rfl

/-! ## Declarations -/

/-- Whether the declarations of a block end here. -/
def closesBlock (c : Cursor) : Bool := c.atEnd || c.kind? == some .rightBrace

/-- Reads the declarations of a block. -/
def body (item : Cursor → Option Stmt × Cursor) (room : Nat) : Reading (List Stmt) := fun c =>
  .ok (declarations closesBlock item room [] c).1 (declarations closesBlock item room [] c).2

theorem block_eq (item : Cursor → Option Stmt × Cursor) (room : Nat) :
    block item room = do
      let statements ← body item room
      let _ ← expect .rightBrace .noEndOfBlock
      return statements := rfl

/-- At the end of input there is nothing to recover to. -/
theorem skipToBoundary_of_ends {c : Cursor} (h : Ends c.ahead) : c.skipToBoundary = c := by
  obtain ⟨ahead, faults, opens⟩ := c
  cases ahead with
  | nil => rfl
  | cons t rest =>
    have hmark : t.kind = .endOfInput := ends_cons.1 h
    simp [Cursor.skipToBoundary, hmark]

theorem skipToBoundary_cons {t : Token} (h : t.kind ≠ .endOfInput) (rest : List Token)
    (faults : Array Fault) (opens : Nat) :
    Cursor.skipToBoundary ⟨t :: rest, faults, opens⟩ =
      ⟨Cursor.settle t rest, faults, opens⟩ := by
  simp [Cursor.skipToBoundary, h]

/-- Reads a declaration, with no recovery. -/
def attempt (room : Nat) : Nat → Reading Stmt
  | 0 => throw .tooDeep
  | depth + 1 => do
    if ← take .kwFun then functionDeclaration (block (declaration room depth) room) room
    else if ← take .kwVar then varDeclaration (expression room depth)
    else statement room depth

theorem declaration_eq (room depth : Nat) :
    declaration room depth = recovering (attempt room depth) := by
  cases depth <;> rfl

/-- Reads all declarations of a token list. -/
def readAll (depth : Nat) (ts : List Token) : List Stmt × Cursor :=
  declarations Cursor.atEnd (declaration ts.length depth) ts.length [] { ahead := ts }

end Reading

/-- The tokens of a program: those in front of the first mark for the end of
input. -/
def programTokens (tokens : List Token) : List Token :=
  tokens.takeWhile (·.kind != .endOfInput)

/-- The first mark for the end of input, and what comes behind it. -/
def programTail (tokens : List Token) : List Token :=
  tokens.dropWhile (·.kind != .endOfInput)

theorem parse_eq (depth : Nat) (tokens : List Token) :
    parse depth tokens =
      ⟨(Reading.readAll depth tokens).1, (Reading.readAll depth tokens).2.faults⟩ := rfl

theorem Parsed.errors_eq_empty {p : Parsed} : p.errors = #[] ↔ p.faults = #[] := by
  simp [Parsed.errors]

end Treewalk
