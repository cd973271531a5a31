import Treewalk.Proofs.Evaluation.ForLoop
import Treewalk.Proofs.Session.Confinement

/-!
# Loops of a source

Tokens that start with `for` and that the grammar derives a statement from
spell the clauses of a loop, and the statement is the tree of them. The
clauses of a source hold no function, their body is no declaration, and
sessions are tidy; so the tree always means the loop.
-/

namespace Treewalk

open Machine

namespace For

open Grammar

variable {f : For}

/-- The tokens behind the keyword of a `for`, by clauses. -/
inductive Clauses (inside dangling : Bool) (f : For) : List Token → Prop
  | mk {opening semicolon closing : Token} {is cs ss us : List Token} :
      opening.kind = .leftParen → Initial is f.initial → Optional DerivesExpr cs f.condition →
      semicolon.kind = .semicolon → Optional DerivesExpr ss f.step →
      closing.kind = .rightParen → DerivesStmt inside (.statement dangling) us f.body →
      Clauses inside dangling f (opening :: (is ++ (cs ++ semicolon :: (ss ++ closing :: us))))

variable {inside dangling : Bool} {ts : List Token}

/-- A derivation that starts with `for` has the clauses of one. -/
theorem exists_clauses {keyword : Token} {node : Stmt} (hkeyword : keyword.kind = .kwFor)
    (h : DerivesStmt inside (.statement dangling) (keyword :: ts) node) :
    ∃ f : For, f.Clauses inside dangling ts ∧ node = f.node := by
  generalize hform : Form.statement dangling = form, htokens : keyword :: ts = tokens at h
  cases h with
  | function _ _ _ _ _ _ _ _ _ _ | var _ | statement _ => cases hform
  | branch hk _ _ _ _ | branchElse hk _ _ _ _ _ _ | loop hk _ _ _ _ | print hk _ _ | ret hk _ _
  | block hk _ _ =>
    cases htokens
    rw [hkeyword] at hk
    cases hk
  | expression h =>
    obtain ⟨t, us, rfl, hstarts⟩ := h.starts
    cases htokens
    rw [hkeyword] at hstarts
    exact absurd hstarts (by decide)
  | @forLoop _ _ _ _ _ _ _ _ _ _ initial condition step body _ hopening hinitial hcondition
      hsemicolon hstep hclosing hbody =>
    cases htokens
    cases hform
    exact ⟨⟨initial, condition, step, body⟩,
      .mk hopening hinitial hcondition hsemicolon hstep hclosing hbody,
      (Reading.forLoop_eq_forTree initial condition step body).symm⟩

/-- An initial clause never returns. -/
theorem silent_of_initial {is : List Token} {s? : Option Stmt} (h : Initial is s?) :
    ∀ s ∈ s?, ∀ rounds depth i, Silent (execute rounds depth s i) := by
  intro s hs rounds depth i
  cases depth with
  | zero => exact silent_throw _
  | succ depth =>
    cases h with
    | none _ => cases hs
    | var h =>
      cases hs
      cases h with
      | plain _ _ _ => exact silent_bind fun _ => silent_normal
      | initial _ _ _ _ _ => exact silent_bind fun _ => silent_bind fun _ => silent_normal
    | expression h =>
      cases hs
      cases h with
      | mk _ _ => exact silent_bind fun _ => silent_normal

theorem Clauses.plain (h : f.Clauses inside dangling ts) (hts : ∀ t ∈ ts, t.Plain) : f.Plain := by
  cases h with
  | @mk _ _ _ is cs ss us _ hinitial hcondition _ hstep _ hbody =>
    have hbody := plain_of_derivesStmt (fun t ht => hts t (by simp [ht])) hbody
    exact {
      initial := plain_of_initial (fun t ht => hts t (by simp [ht])) hinitial
      condition := plain_of_optional (fun t ht => hts t (by simp [ht])) hcondition
      step := plain_of_optional (fun t ht => hts t (by simp [ht])) hstep
      body := hbody.1
      declared := hbody.2
      silent := silent_of_initial hinitial }

end For

/-- **The tree of a `for` means the loop.** What the grammar derives from
tokens that start with `for`, and the parser reads them as, is the tree of
the clauses that the tokens spell. Sessions are tidy; and in every tidy state
and scope of it, run the tree or run the loop that the clauses mean: if the
one gets through, the other one, given four more steps of depth, ends the
same way, with the same text printed and the same effect on all scopes that
were there before. -/
theorem for_means_loop {inside dangling : Bool} {keyword : Token} {ts : List Token} {node : Stmt}
    (hkeyword : keyword.kind = .kwFor)
    (h : Grammar.DerivesStmt inside (.statement dangling) (keyword :: ts) node) {source : String}
    (hsource : ∀ t ∈ ts, t ∈ (scan source).tokens.toList) :
    (∀ᶠ depth in Filter.atTop,
      Reading.ReadsForm inside (.statement dangling) depth (keyword :: ts) node) ∧
    (∀ session : Session, session.Reachable → session.state.Tidy) ∧
    ∃ f : For, f.Clauses inside dangling ts ∧ node = f.node ∧
      ∀ rounds (s : State) i, s.Tidy → i < s.size → ∀ d d', d + 4 ≤ d' →
        (¬ Overflows (f.run rounds d i s) →
          For.SameRun s (execute rounds d' node i s) (f.run rounds d i s)) ∧
        (¬ Overflows (execute rounds d node i s) →
          For.SameRun s (execute rounds d node i s) (f.run rounds d' i s)) := by
  obtain ⟨f, hclauses, rfl⟩ := For.exists_clauses hkeyword h
  have hf : f.Plain := hclauses.plain fun t ht => plain_of_mem_scan (hsource t ht)
  exact ⟨Grammar.eventually_readsForm h, fun session hsession => hsession.tidy.1, f, hclauses, rfl,
    fun rounds s i hs hi d d' hd =>
      ⟨For.sameRun_of_run hf hs hi hd, For.sameRun_of_execute hf hs hi hd⟩⟩

/-! ## A loop that goes round once -/

/-- The tokens of a loop behind its keyword. -/
def once : List Token :=
  [⟨.leftParen, "(", .nil, 1⟩, ⟨.kwVar, "var", .nil, 1⟩, ⟨.identifier, "x", .nil, 1⟩,
   ⟨.equal, "=", .nil, 1⟩, ⟨.kwTrue, "true", .nil, 1⟩, ⟨.semicolon, ";", .nil, 1⟩,
   ⟨.identifier, "x", .nil, 1⟩, ⟨.semicolon, ";", .nil, 1⟩,
   ⟨.identifier, "x", .nil, 1⟩, ⟨.equal, "=", .nil, 1⟩, ⟨.kwFalse, "false", .nil, 1⟩,
   ⟨.rightParen, ")", .nil, 1⟩, ⟨.leftBrace, "\x7b", .nil, 1⟩, ⟨.rightBrace, "\x7d", .nil, 1⟩]

/-- The tree of the loop. -/
def onceNode : Stmt :=
  .block [.var ⟨.identifier, "x", .nil, 1⟩ (some (.literal (.bool true))),
    .loop (.name ⟨.identifier, "x", .nil, 1⟩)
      (.block [.block [],
        .expression (.assign ⟨.identifier, "x", .nil, 1⟩ (.literal (.bool false)))])]

namespace Grammar

/-- A chain may have one link only. -/
theorem derives_of_chain {p q : Phrase} {operators : List Kind}
    {node : Expr → Token → Expr → Expr} {ts : List Token} {e : Expr}
    (h : Chain p q operators node) (hq : Derives q ts e) : Derives p ts e := by
  have hrow := @Derives.chain p q operators node ts e [] h hq
    (fun _ hl => absurd hl List.not_mem_nil) fun _ hl => absurd hl List.not_mem_nil
  rwa [List.flatMap_nil, List.append_nil] at hrow

/-- A primary is an expression. -/
theorem derivesExpr_of_primary {ts : List Token} {e : Expr} (h : Derives .primary ts e) :
    DerivesExpr ts e := by
  have hcall := @Derives.call ts e [] h (fun _ hl => absurd hl List.not_mem_nil)
    fun _ hl => absurd hl List.not_mem_nil
  rw [List.flatMap_nil, List.append_nil] at hcall
  have hterm := derives_of_chain .term (derives_of_chain .factor (.operand hcall))
  have hequality := derives_of_chain .equality (derives_of_chain .comparison hterm)
  exact .assignment (derives_of_chain .logicOr (derives_of_chain .logicAnd hequality))

theorem derives_once :
    DerivesStmt false (.statement false) (⟨.kwFor, "for", .nil, 1⟩ :: once) onceNode :=
  .forLoop rfl rfl
    (.var (.initial rfl rfl rfl (derivesExpr_of_primary (.true rfl)) rfl))
    (.some (derivesExpr_of_primary (.name rfl))) rfl
    (.some (.assign rfl rfl (derivesExpr_of_primary (.false rfl)))) rfl
    (@DerivesStmt.block false _ _ [] rfl nofun rfl)

end Grammar

/-- The loop goes round once in a new session, as it means to. -/
theorem once_means_loop :
    ∃ f : For, f.Clauses false false once ∧ onceNode = f.node ∧
      (∃ state, execute 8 20 onceNode globalScope (Session.start false fun _ => 0).state =
        .ok .normal state) ∧
      For.SameRun (Session.start false fun _ => 0).state
        (execute 8 20 onceNode globalScope (Session.start false fun _ => 0).state)
        (f.run 8 24 globalScope (Session.start false fun _ => 0).state) := by
  have hsource : ∀ t ∈ once,
      t ∈ (scan "for (var x = true; x; x = false) \x7b \x7d").tokens.toList := by
    have htokens : (scan "for (var x = true; x; x = false) \x7b \x7d").tokens.toList =
        ⟨.kwFor, "for", .nil, 1⟩ :: (once ++ [⟨.endOfInput, "", .nil, 1⟩]) := by cbv
    rw [htokens]
    exact fun t ht => List.mem_cons_of_mem _ (List.mem_append_left _ ht)
  obtain ⟨-, htidy, f, hclauses, hnode, hsame⟩ := for_means_loop rfl Grammar.derives_once hsource
  have hrun : ∃ state, execute 8 20 onceNode globalScope
      (Session.start false fun _ => 0).state = .ok .normal state := ⟨_, by cbv⟩
  refine ⟨f, hclauses, hnode, hrun, ?_⟩
  refine (hsame 8 _ globalScope (htidy _ (.start _ _ _)) Nat.one_pos 20 24 (Nat.le_refl _)).2 ?_
  rintro ⟨t, ht⟩
  obtain ⟨state, hstate⟩ := hrun
  rw [hstate] at ht
  cases ht

end Treewalk
