import Treewalk.Proofs.Grammar.Rules
import Treewalk.Proofs.Grammar.Steps

/-!
# Reading what the rules say

`Reads m kinds ts a` says that the reading `m` takes exactly the tokens `ts`
and yields `a`, whatever comes behind them, as long as no token of the given
kinds comes next. For each rule of the grammar there is a lemma here: if the
parts are read, so is the whole, one step of depth further out. The lemmas
speak of readings at a given depth and not of derivations, so that they
serve both to show that derivations are read and to show that what was read
once is read again in front of other tokens.
-/

namespace Treewalk

open Grammar

namespace Reading

variable {α : Type}

/-- With room for them, `m` reads exactly the tokens `ts` as `a` in front of
anything that no kind in `kinds` starts. `inside` asks for an open function
body. -/
def Reads (inside : Bool) (m : Nat → Reading α) (kinds : List Kind) (ts : List Token) (a : α) :
    Prop :=
  ∀ room rest faults opens, ts.length ≤ room → Stops kinds rest → (inside = true → 0 < opens) →
    m room ⟨ts ++ rest, faults, opens⟩ = .ok a ⟨rest, faults, opens⟩

/-- The token list starts with a token of one of the given kinds. -/
def Starts (kinds : List Kind) (ts : List Token) : Prop :=
  ∃ t us, ts = t :: us ∧ t.kind ∈ kinds

theorem Starts.stops {kinds others : List Kind} {ts : List Token} (h : Starts kinds ts)
    (hdisjoint : ∀ k ∈ kinds, k ∉ others) (rest : List Token) : Stops others (ts ++ rest) := by
  obtain ⟨t, us, rfl, hkind⟩ := h
  exact stops_cons.2 (hdisjoint _ hkind)

/-- What starts with a token to be read is not at its end. -/
theorem Starts.atEnd {kinds : List Kind} {ts : List Token} (h : Starts kinds ts)
    (hmark : Kind.endOfInput ∉ kinds) (rest : List Token) (faults : Array Fault) (opens : Nat) :
    Cursor.atEnd ⟨ts ++ rest, faults, opens⟩ = false := by
  obtain ⟨t, us, rfl, hkind⟩ := h
  have hgo : t.kind ≠ .endOfInput := fun heq => hmark (heq ▸ hkind)
  simp [hgo]

theorem Starts.length_pos {kinds : List Kind} {ts : List Token} (h : Starts kinds ts) :
    0 < ts.length := by
  obtain ⟨t, us, rfl, -⟩ := h
  exact Nat.succ_pos _

/-! ## Lists separated by commas -/

theorem reads_expect {kind : Kind} {t : Token} (h : t.kind = kind)
    (hkind : [kind].contains .endOfInput = false) (cause : GrammarFault) :
    Reads false (fun _ => expect kind cause) [] [t] t :=
  fun _ rest faults opens _ _ _ => expect_cons h hkind cause rest faults opens

theorem noteOver_of_lt {tooMany : GrammarFault} {count : Nat} (h : count < 255) (c : Cursor) :
    noteOver tooMany count c = .ok () c := by
  rw [noteOver, if_neg (by unfold maxArguments; omega)]
  rfl

theorem ifTaken_cons {clause : Reading α} {kind : Kind} {t : Token} {rest rest' : List Token}
    {faults : Array Fault} {opens : Nat} {a : α} (h : t.kind = kind)
    (hkind : [kind].contains .endOfInput = false)
    (hclause : clause ⟨rest, faults, opens⟩ = .ok a ⟨rest', faults, opens⟩) :
    ifTaken kind clause ⟨t :: rest, faults, opens⟩ = .ok (some a) ⟨rest', faults, opens⟩ := by
  rw [ifTaken, bind_ok (take_cons h hkind ..), if_pos rfl, map_eq_bind, bind_ok hclause]
  rfl

theorem ifTaken_of_stops {kind : Kind} {rest : List Token} (h : Stops [kind] rest)
    (clause : Reading α) (faults : Array Fault) (opens : Nat) :
    ifTaken kind clause ⟨rest, faults, opens⟩ = .ok none ⟨rest, faults, opens⟩ := by
  rw [ifTaken, bind_ok (take_of_stops h ..)]
  rfl

theorem length_parts_le {parts : List (List Token)} {ts : List Token} (h : Commas parts ts)
    (hpos : ∀ p ∈ parts, 0 < p.length) : parts.length ≤ ts.length := by
  induction h with
  | nil => exact Nat.le_refl 0
  | one => exact hpos _ (by simp)
  | cons _ _ _ ih =>
    have := ih fun p hp => hpos p (by simp [hp])
    simp only [List.length_append, List.length_cons]
    omega

/-- A list with commas starts with its first part. -/
theorem exists_append_of_commas {part : List Token} {parts : List (List Token)} {ts : List Token}
    (h : Commas (part :: parts) ts) : ∃ us, ts = part ++ us := by
  generalize hlist : part :: parts = list at h
  cases h with
  | nil => cases hlist
  | one =>
    obtain ⟨rfl, -⟩ := List.cons.inj hlist
    exact ⟨[], (List.append_nil _).symm⟩
  | cons _ _ _ =>
    obtain ⟨rfl, -⟩ := List.cons.inj hlist
    exact ⟨_, rfl⟩

theorem reads_separated {item : Nat → Reading α} {kinds : List Kind}
    (hcomma : .comma ∉ kinds) (hparen : .rightParen ∉ kinds) (tooMany : GrammarFault)
    {itemRoom : Nat} {closing : Token} (hclosing : closing.kind = .rightParen)
    (rest : List Token) (faults : Array Fault) (opens : Nat)
    (parts : List (List Token × α)) (ts : List Token) (room count : Nat)
    (hparts : ∀ p ∈ parts, Reads false item kinds p.1 p.2)
    (hcommas : Commas (parts.map (·.1)) ts) (hne : parts ≠ [])
    (hcount : count + parts.length ≤ 255) (hroom : parts.length ≤ room)
    (hitemRoom : ts.length ≤ itemRoom) :
    separated (item itemRoom) tooMany room count ⟨ts ++ closing :: rest, faults, opens⟩ =
      .ok (parts.map (·.2)) ⟨closing :: rest, faults, opens⟩ := by
  induction parts generalizing ts room count with
  | nil => exact absurd rfl hne
  | cons part parts ih =>
    obtain ⟨room, rfl⟩ : ∃ r, room = r + 1 :=
      ⟨room - 1, by simp only [List.length_cons] at hroom; omega⟩
    have hpart := hparts part (by simp)
    simp only [List.length_cons] at hcount hroom
    rw [separated_succ, bind_ok (noteOver_of_lt (by omega) _)]
    cases parts with
    | nil =>
      -- the last part, and the parenthesis behind it
      cases hcommas with
      | one =>
        rw [bind_ok (hpart _ _ faults opens hitemRoom (by simpa [hclosing] using hparen) nofun),
          bind_ok (ifTaken_of_stops (by simp [hclosing]) _ faults opens)]
        rfl
      | cons _ hnil _ => exact absurd rfl hnil
    | cons next parts =>
      cases hcommas with
      | @cons _ us comma _ hkind _ hus =>
        simp only [List.length_append, List.length_cons] at hitemRoom
        have hrest := ih us room (count + 1) (fun p hp => hparts p (by simp [hp])) hus
          (List.cons_ne_nil _ _) (by omega) (by omega) (by omega)
        rw [List.append_assoc, bind_ok (hpart _ _ faults opens (by omega)
          (by simpa [hkind] using hcomma) nofun), List.cons_append,
          bind_ok (ifTaken_cons hkind rfl hrest)]
        rfl

theorem reads_listed {item : Nat → Reading α} {kinds starts : List Kind}
    (hcomma : .comma ∉ kinds) (hparen : .rightParen ∉ kinds) (hstarts : .rightParen ∉ starts)
    (tooMany : GrammarFault) {room : Nat} {closing : Token}
    (hclosing : closing.kind = .rightParen) (rest : List Token) (faults : Array Fault)
    (opens : Nat) {parts : List (List Token × α)} {ts : List Token}
    (hparts : ∀ p ∈ parts, Starts starts p.1 ∧ Reads false item kinds p.1 p.2)
    (hcommas : Commas (parts.map (·.1)) ts) (hlength : parts.length ≤ 255)
    (hroom : ts.length ≤ room) :
    listed (item room) tooMany room ⟨ts ++ closing :: rest, faults, opens⟩ =
      .ok (parts.map (·.2)) ⟨closing :: rest, faults, opens⟩ := by
  rw [listed, bind_ok (sees_apply ..)]
  cases parts with
  | nil =>
    cases hcommas
    simp [hclosing]
  | cons part parts =>
    have hpos : ∀ p ∈ (part :: parts).map (·.1), 0 < p.length := by
      simp only [List.mem_map]
      rintro _ ⟨p, hp, rfl⟩
      exact (hparts p hp).1.length_pos
    have hcount := length_parts_le hcommas hpos
    rw [List.length_map] at hcount
    have hseen : (Cursor.mk (ts ++ closing :: rest) faults opens).kind? ≠ some .rightParen := by
      obtain ⟨t, us, hus, ht⟩ := (hparts part (by simp)).1
      obtain ⟨us', rfl⟩ := exists_append_of_commas hcommas
      simp only [hus, List.cons_append, kind?_cons, ne_eq, Option.some.injEq]
      intro heq
      exact hstarts (heq ▸ ht)
    rw [if_neg (by simp [hseen])]
    exact reads_separated hcomma hparen tooMany hclosing rest faults opens _ ts room 0
      (fun p hp => (hparts p hp).2) hcommas (List.cons_ne_nil _ _) (by omega) (by omega) hroom

/-! ## Expressions -/

/-- The levels of operators that a phrase may hold outside parentheses. -/
def tight : Phrase → List Level
  | .assignment => levels
  | .logicOr => levels
  | .logicAnd => levels.drop 1
  | .equality => levels.drop 2
  | .comparison => levels.drop 3
  | .term => levels.drop 4
  | .factor => levels.drop 5
  | .unary => []
  | .call => []
  | .primary => []

/-- How a phrase is read. -/
def phrase : Phrase → Nat → Nat → Reading Expr
  | .assignment, depth, room => expression room depth
  | .call, depth, room => do
    let callee ← primary (expression room depth)
    calls (listed (expression room depth) .tooManyArguments room) room callee
  | .primary, depth, room => primary (expression room depth)
  | p, depth, room => operation room depth (tight p)

/-- The kinds that would go on with a phrase. -/
def extensions : Phrase → List Kind
  | .assignment => .equal :: (tight .assignment).flatMap Level.operators ++ [.leftParen]
  | .primary => []
  | p => (tight p).flatMap Level.operators ++ [.leftParen]

/-- The kinds that an expression can start with. -/
def expressionStarts : List Kind :=
  [.bang, .minus, .kwFalse, .kwTrue, .kwNil, .number, .string, .identifier, .leftParen]

theorem tight_of_chain {p q : Phrase} {operators : List Kind} {node : Expr → Token → Expr → Expr}
    (h : Chain p q operators node) : tight p = ⟨operators, node⟩ :: tight q := by
  cases h <;> rfl

theorem phrase_of_chain {p q : Phrase} {operators : List Kind}
    {node : Expr → Token → Expr → Expr} (h : Chain p q operators node) (depth room : Nat) :
    phrase p depth room = operation room depth (tight p) ∧
      phrase q depth room = operation room depth (tight q) := by
  cases h <;> exact ⟨rfl, rfl⟩

theorem extensions_of_chain {p q : Phrase} {operators : List Kind}
    {node : Expr → Token → Expr → Expr} (h : Chain p q operators node) :
    extensions p = operators ++ extensions q ∧ ∀ k ∈ operators, k ∉ extensions q := by
  cases h <;> exact ⟨rfl, by decide⟩

theorem contains_mark_of_chain {p q : Phrase} {operators : List Kind}
    {node : Expr → Token → Expr → Expr} (h : Chain p q operators node) :
    operators.contains .endOfInput = false := by
  cases h <;> rfl

theorem length_links_le (links : List Link) :
    links.length ≤ (links.flatMap Link.all).length ∧
      ∀ l ∈ links, l.tokens.length ≤ (links.flatMap Link.all).length := by
  induction links with
  | nil => exact ⟨Nat.le_refl 0, fun _ h => absurd h List.not_mem_nil⟩
  | cons l links ih =>
    simp only [List.flatMap_cons, List.length_append, Link.all, List.length_cons]
    refine ⟨by omega, ?_⟩
    rintro m (_ | ⟨_, hm⟩)
    · omega
    · have := ih.2 m hm
      omega

/-- **A chain is read** link by link. -/
theorem chain_links {operand : Reading Expr} {level : Level} {kinds : List Kind}
    (hdisjoint : ∀ k ∈ level.operators, k ∉ kinds)
    (hmark : level.operators.contains .endOfInput = false)
    (faults : Array Fault) (opens : Nat) {rest : List Token}
    (hstop : Stops (level.operators ++ kinds) rest) (links : List Link)
    (room : Nat) (left : Expr) (hroom : links.length ≤ room)
    (hoperators : ∀ l ∈ links, l.operator.kind ∈ level.operators)
    (hoperands : ∀ l ∈ links, ∀ rest', Stops kinds rest' →
      operand ⟨l.tokens ++ rest', faults, opens⟩ = .ok l.operand ⟨rest', faults, opens⟩) :
    chain operand level room left ⟨links.flatMap Link.all ++ rest, faults, opens⟩ =
      .ok (links.foldl (fun left l => level.node left l.operator l.operand) left)
        ⟨rest, faults, opens⟩ := by
  induction links generalizing room left with
  | nil =>
    cases room with
    | zero => rfl
    | succ room =>
      have hnone : Stops level.operators rest := hstop.mono fun k hk => by simp [hk]
      rw [chain, List.flatMap_nil, List.nil_append, bind_ok (accept_of_stops hnone ..)]
      rfl
  | cons l links ih =>
    obtain ⟨room, rfl⟩ : ∃ r, room = r + 1 :=
      ⟨room - 1, by simp only [List.length_cons] at hroom; omega⟩
    -- behind the operand comes the next operator, or what ends the chain
    have hnext : Stops kinds (links.flatMap Link.all ++ rest) := by
      cases links with
      | nil => exact hstop.mono fun k hk => by simp [hk]
      | cons m links => exact stops_cons.2 (hdisjoint _ (hoperators m (by simp)))
    rw [chain, List.flatMap_cons, Link.all, List.cons_append, List.cons_append,
      bind_ok (accept_cons (hoperators l (by simp)) hmark ..), List.append_assoc]
    dsimp only
    rw [bind_ok (hoperands l (by simp) _ hnext)]
    exact ih room _ (Nat.le_of_succ_le_succ hroom) (fun m hm => hoperators m (by simp [hm]))
      (fun m hm => hoperands m (by simp [hm]))

theorem reads_chain {p q : Phrase} {operators : List Kind} {node : Expr → Token → Expr → Expr}
    (hchain : Chain p q operators node) {depth : Nat} {ts : List Token} {e : Expr}
    {links : List Link} (hfirst : Reads false (phrase q depth) (extensions q) ts e)
    (hoperators : ∀ l ∈ links, l.operator.kind ∈ operators)
    (hoperands : ∀ l ∈ links, Reads false (phrase q depth) (extensions q) l.tokens l.operand) :
    Reads false (phrase p (depth + 1)) (extensions p) (ts ++ links.flatMap Link.all)
      (links.foldl (fun left l => node left l.operator l.operand) e) := by
  intro room rest faults opens hroom hstop _
  obtain ⟨hext, hdisjoint⟩ := extensions_of_chain hchain
  obtain ⟨hcount, hlength⟩ := length_links_le links
  rw [List.length_append] at hroom
  rw [hext] at hstop
  have hnext : Stops (extensions q) (links.flatMap Link.all ++ rest) := by
    cases links with
    | nil => exact hstop.mono fun k hk => by simp [hk]
    | cons l links => exact stops_cons.2 (hdisjoint _ (hoperators l (by simp)))
  have hread := hfirst room _ faults opens (by omega) hnext nofun
  rw [(phrase_of_chain hchain depth room).2] at hread
  rw [(phrase_of_chain hchain (depth + 1) room).1, tight_of_chain hchain, operation,
    List.append_assoc, bind_ok hread]
  refine chain_links hdisjoint (contains_mark_of_chain hchain) faults opens hstop links room e
    (by omega) hoperators ?_
  intro l hl rest' hstop'
  have hoperand := hoperands l hl room rest' faults opens
    (by have := hlength l hl; omega) hstop' nofun
  rwa [(phrase_of_chain hchain depth room).2] at hoperand

theorem reads_assignment {depth : Nat} {ts : List Token} {e : Expr}
    (h : Reads false (phrase .logicOr depth) (extensions .logicOr) ts e) :
    Reads false (phrase .assignment (depth + 1)) (extensions .assignment) ts e := by
  intro room rest faults opens hroom hstop _
  have hread := h room rest faults opens hroom (hstop.mono (by decide)) nofun
  change operation room depth levels _ = _ at hread
  change expression room (depth + 1) _ = _
  rw [expression, bind_ok hread, bind_ok (accept_of_stops (hstop.mono (by decide)) ..)]
  rfl

theorem reads_assign {depth : Nat} {name equals : Token} {ts : List Token} {value : Expr}
    (hequals : equals.kind = .equal)
    (hname : Reads false (phrase .logicOr depth) (extensions .logicOr) [name] (.name name))
    (hvalue : Reads false (phrase .assignment depth) (extensions .assignment) ts value) :
    Reads false (phrase .assignment (depth + 1)) (extensions .assignment) (name :: equals :: ts)
      (.assign name value) := by
  intro room rest faults opens hroom hstop _
  simp only [List.length_cons] at hroom
  have htarget := hname room (equals :: (ts ++ rest)) faults opens
    (by simp only [List.length_singleton]; omega)
    (stops_cons.2 (by rw [hequals]; decide)) nofun
  have hread := hvalue room rest faults opens (by omega) hstop nofun
  change operation room depth levels _ = _ at htarget
  change expression room depth _ = _ at hread
  change expression room (depth + 1) ⟨[name] ++ equals :: (ts ++ rest), faults, opens⟩ = _
  rw [expression, bind_ok htarget, bind_ok (accept_cons (by simp [hequals]) rfl ..)]
  dsimp only
  rw [bind_ok (get_apply _), bind_ok hread]
  rfl

theorem reads_unary {depth : Nat} {operator : Token} {ts : List Token} {e : Expr}
    (hoperator : operator.kind = .bang ∨ operator.kind = .minus)
    (h : Reads false (phrase .unary depth) (extensions .unary) ts e) :
    Reads false (phrase .unary (depth + 1)) (extensions .unary) (operator :: ts)
      (.unary operator e) := by
  intro room rest faults opens hroom hstop _
  have hread := h room rest faults opens (Nat.le_of_succ_le hroom) hstop nofun
  -- an operand takes a step of its own, so some depth was left for it
  cases depth with
  | zero => cases hread
  | succ depth =>
    change unary room depth _ = _ at hread
    change unary room (depth + 1) _ = _
    rw [unary, List.cons_append, bind_ok (accept_cons (by simpa using hoperator) rfl ..)]
    dsimp only
    rw [bind_ok hread]
    rfl

/-- The kinds that a call can start with. -/
def callStarts : List Kind :=
  [.kwFalse, .kwTrue, .kwNil, .number, .string, .identifier, .leftParen]

theorem reads_operand {depth : Nat} {ts : List Token} {e : Expr} (hstarts : Starts callStarts ts)
    (h : Reads false (phrase .call depth) (extensions .call) ts e) :
    Reads false (phrase .unary (depth + 2)) (extensions .unary) ts e := by
  intro room rest faults opens hroom hstop _
  have hread := h room rest faults opens hroom hstop nofun
  have hnone : Stops [.bang, .minus] (ts ++ rest) := hstarts.stops (by decide) rest
  change unary room (depth + 1) _ = _
  rw [unary, bind_ok (accept_of_stops hnone ..)]
  exact hread

theorem length_lists_le (lists : List Arguments) :
    lists.length ≤ (lists.flatMap Arguments.all).length ∧
      ∀ a ∈ lists, a.tokens.length ≤ (lists.flatMap Arguments.all).length := by
  induction lists with
  | nil => exact ⟨Nat.le_refl 0, fun _ h => absurd h List.not_mem_nil⟩
  | cons a lists ih =>
    simp only [List.flatMap_cons, List.length_append, Arguments.all, List.length_cons,
      List.length_nil]
    refine ⟨by omega, ?_⟩
    rintro b (_ | ⟨_, hb⟩)
    · omega
    · have := ih.2 b hb
      omega

/-- **A row of calls is read** list by list. -/
theorem calls_lists {arguments : Reading (List Expr)} (faults : Array Fault) (opens : Nat)
    {rest : List Token} (hstop : Stops [.leftParen] rest) (lists : List Arguments) (room : Nat)
    (callee : Expr) (hroom : lists.length ≤ room) (hlists : ∀ a ∈ lists, a.Punctuated)
    (harguments : ∀ a ∈ lists, ∀ rest',
      arguments ⟨a.tokens ++ a.closing :: rest', faults, opens⟩ =
        .ok (a.parts.map (·.2)) ⟨a.closing :: rest', faults, opens⟩) :
    calls arguments room callee ⟨lists.flatMap Arguments.all ++ rest, faults, opens⟩ =
      .ok (lists.foldl (fun f a => .call f a.closing (a.parts.map (·.2))) callee)
        ⟨rest, faults, opens⟩ := by
  induction lists generalizing room callee with
  | nil =>
    cases room with
    | zero => rfl
    | succ room =>
      rw [calls, List.flatMap_nil, List.nil_append, bind_ok (take_of_stops hstop ..)]
      rfl
  | cons a lists ih =>
    obtain ⟨room, rfl⟩ : ∃ r, room = r + 1 :=
      ⟨room - 1, by simp only [List.length_cons] at hroom; omega⟩
    have ha := hlists a (by simp)
    rw [calls, List.flatMap_cons, Arguments.all, List.cons_append, List.cons_append,
      bind_ok (take_cons ha.opening rfl ..), if_pos rfl]
    rw [List.append_assoc, List.append_assoc, List.singleton_append,
      bind_ok (harguments a (by simp) _), bind_ok (expect_cons ha.closing rfl ..)]
    exact ih room _ (Nat.le_of_succ_le_succ hroom) (fun b hb => hlists b (by simp [hb]))
      (fun b hb => harguments b (by simp [hb]))

theorem reads_call {depth : Nat} {ts : List Token} {callee : Expr} {lists : List Arguments}
    (hcallee : Reads false (phrase .primary depth) (extensions .primary) ts callee)
    (hlists : ∀ a ∈ lists, a.Punctuated)
    (hparts : ∀ a ∈ lists, ∀ p ∈ a.parts, Starts expressionStarts p.1 ∧
      Reads false (phrase .assignment depth) (extensions .assignment) p.1 p.2) :
    Reads false (phrase .call depth) (extensions .call) (ts ++ lists.flatMap Arguments.all)
      (lists.foldl (fun f a => .call f a.closing (a.parts.map (·.2))) callee) := by
  intro room rest faults opens hroom hstop _
  obtain ⟨hcount, hlength⟩ := length_lists_le lists
  rw [List.length_append] at hroom
  have hread := hcallee room (lists.flatMap Arguments.all ++ rest) faults opens (by omega)
    (fun _ _ => List.not_mem_nil) nofun
  change primary (expression room depth) _ = _ at hread
  rw [phrase, List.append_assoc, bind_ok hread]
  refine calls_lists faults opens hstop lists room callee (by omega) hlists ?_
  intro a ha rest'
  have hle := hlength a ha
  exact reads_listed (by decide) (by decide) (by decide) _ (hlists a ha).closing rest' faults
    opens (hparts a ha) (hlists a ha).commas (hlists a ha).length_le (by omega)

/-- A primary of one token is read as what the token stands for. -/
theorem reads_single {t : Token} {e : Expr} (h : Derives .primary [t] e) (depth : Nat) :
    Reads false (phrase .primary depth) (extensions .primary) [t] e := by
  intro room rest faults opens _ _ _
  have hread (hkind : t.kind ∈ primaryKinds) :
      phrase .primary depth room ⟨[t] ++ rest, faults, opens⟩ = _ :=
    bind_ok (accept_cons hkind rfl rest faults opens)
  -- the other rules take more tokens or make other phrases
  generalize hts : [t] = ts at h ⊢
  generalize hp : Phrase.primary = p at h
  cases h with
  | false hk | true hk | nil hk | number hk | string hk | name hk =>
    obtain rfl := (List.cons.inj hts).1
    rw [hread (by rw [hk]; decide)]
    simp [hk]
  | grouping _ _ _ => simp at hts
  | chain hchain _ _ _ =>
    subst hp
    cases hchain
  | _ => cases hp

theorem reads_grouping {depth : Nat} {opening closing : Token} {ts : List Token} {e : Expr}
    (hopening : opening.kind = .leftParen) (hclosing : closing.kind = .rightParen)
    (h : Reads false (phrase .assignment depth) (extensions .assignment) ts e) :
    Reads false (phrase .primary depth) (extensions .primary) (opening :: (ts ++ [closing]))
      (.grouping e) := by
  intro room rest faults opens hroom _ _
  simp only [List.length_cons, List.length_append] at hroom
  have hread := h room (closing :: rest) faults opens (by omega)
    (stops_cons.2 (by rw [hclosing]; decide)) nofun
  change expression room depth _ = _ at hread
  rw [phrase, primary, List.cons_append,
    bind_ok (accept_cons (by rw [hopening]; decide) rfl ..)]
  simp only [hopening]
  rw [List.append_assoc, List.singleton_append, bind_ok hread,
    bind_ok (expect_cons hclosing rfl ..)]
  rfl

end Reading

end Treewalk
