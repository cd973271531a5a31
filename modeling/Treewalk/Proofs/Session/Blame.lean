import Treewalk.Proofs.Evaluation.Blame
import Treewalk.Proofs.Grammar.WellFormed
import Treewalk.Proofs.Session.History
import Treewalk.Proofs.Token.Joining

/-!
# Runtime errors point into the sources

Whatever has been run in a session, the code in its state comes from accepted
sources of that session, also where a run failed halfway. So a runtime error
is blamed on a token of one of them: of the source that is run, or of an
earlier one that declared the function that failed. As every token of a source
stands on a line of it, so does the error.
-/

namespace Treewalk

open Segment Machine

/-- **Every token of a source stands on a line of it.** -/
theorem line_of_mem_scan {source : String} {t : Token} (h : t ∈ (scan source).tokens.toList) :
    1 ≤ t.line ∧ t.line ≤ 1 + source.toList.count '\n' := by
  obtain ⟨hwithin, -⟩ := ending_ordered 1 (pieces source.toList)
  rw [newlinesIn_pieces] at hwithin
  rw [tokens_scan, tokensFrom_eq, newlinesIn_pieces] at h
  rcases List.mem_append.1 h with h | h
  · obtain ⟨p, hp, hpt⟩ := List.mem_filterMap.1 h
    obtain ⟨hfirst, hlast⟩ := hwithin p hp
    rw [line_of_token? hpt]
    omega
  · obtain rfl := List.mem_singleton.1 h
    dsimp only
    omega

/-- A site of a tree that the grammar derives holds one of the tokens, of a
kind that suits its role there. -/
theorem Grammar.Program.sited {ts : List Token} {program : List Stmt} (h : Program ts program) :
    ∀ s ∈ program, Sited (fun r t => t ∈ ts ∧ t.kind ∈ r.kinds) s.nodes := by
  have hsupplies : Supplies (fun r t _ => t ∈ ts ∧ t.kind ∈ r.kinds) ts :=
    fun _ ht _ hkind => ⟨ht, hkind⟩
  have hlike := h.like hsupplies
  rw [List.forall₂_same] at hlike
  exact fun s hs => (Stmt.Like.sited s s (hlike s hs)).mono fun _ _ ⟨_, hR⟩ => hR

theorem State.Sited.mono {B B' : Role → Token → Prop} {s : State} (h : s.Sited B)
    (hB : ∀ r t, B r t → B' r t) : s.Sited B' :=
  fun n => Stmt.forall₂_like_imp (fun r t _ ht => ⟨ht.1, fun hr => hB r t (ht.2 hr)⟩) id (h n)

namespace Session

/-- A site of an accepted program that a call runs. -/
def Call.Site (c : Call) (r : Role) (t : Token) : Prop :=
  ∃ limits source, c.source? = some (limits, source) ∧ Accepts limits source ∧
    ∃ s ∈ statementsOf limits source, ∃ node ∈ s.nodes, node.site? = some (r, t)

/-- A site of an accepted program that one of several calls runs. -/
def SiteIn (calls : List Call) (r : Role) (t : Token) : Prop := ∃ c ∈ calls, c.Site r t

theorem SiteIn.concat {calls : List Call} {r : Role} {t : Token} (h : SiteIn calls r t)
    (c : Call) : SiteIn (calls ++ [c]) r t := by
  obtain ⟨d, hd, hsite⟩ := h
  exact ⟨d, List.mem_append_left _ hd, hsite⟩

/-- The program of a call has its sites there. -/
theorem sited_statementsOf {calls : List Call} {c : Call} (hc : c ∈ calls) {limits : Limits}
    {source : String} (hsource : c.source? = some (limits, source))
    (haccepts : Accepts limits source) :
    ∀ s ∈ statementsOf limits source, Sited (SiteIn calls) s.nodes :=
  fun s hs node hnode _ _ hsite =>
    ⟨c, hc, limits, source, hsource, haccepts, s, hs, node, hnode, hsite⟩

/-- Running a source in a session whose code is sited. -/
theorem endsSited_run {calls : List Call} {c : Call} (hc : c ∈ calls) {limits : Limits}
    {source : String} (hsource : c.source? = some (limits, source)) {s : Session}
    (hs : s.state.Sited (SiteIn calls)) (h : s.Executes limits source) :
    EndsSited (SiteIn calls) (fun _ => True)
      (runProgram limits (statementsOf limits source) s.state) :=
  sound_runProgram limits _ (sited_statementsOf hc hsource (executes_iff.1 h).2) s.state hs

theorem sited_perform {calls : List Call} {c : Call} (hc : c ∈ calls) {s : Session}
    (hs : s.state.Sited (SiteIn calls)) : (c.perform s).state.Sited (SiteIn calls) := by
  rcases c.perform_cases s with
    rfl | ⟨limits, source, hsource, -, -, hperform⟩ | ⟨-, -, written, hperform⟩
  · exact hs
  · rw [hperform, run_snd]
    dsimp only
    split
    case isTrue hexecutes => exact (endsSited_run hc hsource hs hexecutes).final
    case isFalse => exact hs
  · rw [hperform]
    exact hs

/-- **The code of a session comes from its accepted sources**, whatever runs
were made and however they ended. -/
theorem sited_after (colored : Bool) (clock : ℕ → Float) (painter : Painter) (calls : List Call) :
    ((start colored clock painter).after calls).state.Sited (SiteIn calls) := by
  induction calls using List.reverseRecOn with
  | nil =>
    intro id
    have hbody : (State.initial clock).body id = [] := by
      cases id with
      | zero => rfl
      | succ n => simp [State.body, State.initial]
    change List.Forall₂ _ ((State.initial clock).body id) ((State.initial clock).body id)
    rw [hbody]
    exact .nil
  | append_singleton calls c ih =>
    rw [after_concat]
    exact sited_perform (List.mem_append_right _ List.mem_cons_self)
      (ih.mono fun _ _ hsite => hsite.concat c)

/-- The token that a run is blamed on. -/
def blamed? : Report → Option Token
  | .runtimeError e => some e.token
  | _ => none

theorem blamed?_eq_some {report : Report} {t : Token} (h : blamed? report = some t) :
    ∃ e : RuntimeError, report = .runtimeError e ∧ e.token = t := by
  cases report with
  | runtimeError e => exact ⟨e, rfl, Option.some.inj h⟩
  | _ => cases h

theorem failure?_eq_runtimeError {limits : Limits} {s : Session} {source : String}
    {e : RuntimeError} (h : s.failure? limits source = some (.runtimeError e)) :
    s.Executes limits source ∧
      ∃ state, runProgram limits (statementsOf limits source) s.state = .error (.error e) state := by
  unfold failure? at h
  split at h
  case isFalse => cases h
  case isTrue hexecutes =>
    refine ⟨hexecutes, ?_⟩
    cases hrun : runProgram limits (statementsOf limits source) s.state with
    | ok _ state =>
      rw [hrun] at h
      cases h
    | error stop state =>
      rw [hrun] at h
      cases stop with
      | error e' =>
        cases h
        exact ⟨state, rfl⟩
      | _ => cases h

/-- **Runtime errors point into the program.** Whatever calls were made in a
session, if a further call runs a source and that fails with a runtime error,
then there is a call among all of these whose source was accepted, and a node
of its program, at whose site the token of the error stands: the operator of a
prefix or binary operation, the name of a variable that is read or assigned
to, or the parenthesis that closes a call. The token is one of that source,
and the line that is reported, a line of it. -/
theorem errors_point_into_sources (colored : Bool) (clock : ℕ → Float) (painter : Painter)
    (calls : List Call)
    (c : Call) (limits : Limits) (source : String) (e : RuntimeError)
    (hsource : c.source? = some (limits, source))
    (hfails : ((start colored clock painter).after calls).failure? limits source =
      some (.runtimeError e)) :
    let s := (start colored clock painter).after calls
    (c.perform s).errorOutput = s.errorOutput ++ s.diagnostics.lines [.runtimeError e] ∧
      ∃ d ∈ calls ++ [c], ∃ limits' blamed, d.source? = some (limits', blamed) ∧
        Accepts limits' blamed ∧
        (∃ statement ∈ statementsOf limits' blamed, ∃ node ∈ statement.nodes, ∃ r,
          node.site? = some (r, e.token) ∧ e.token.kind ∈ r.kinds) ∧
        e.token ∈ (scan blamed).tokens.toList ∧
        1 ≤ e.line ∧ e.line ≤ 1 + blamed.toList.count '\n' := by
  intro s
  obtain ⟨hexecutes, state, hrun⟩ := failure?_eq_runtimeError hfails
  constructor
  · have hnone : sourceErrors limits source = #[] :=
      accepts_iff_sourceErrors.1 (executes_iff.1 hexecutes).2
    have hreports : s.reports limits source = [.runtimeError e] := by
      rw [reports, hfails, hnone]
      rfl
    rw [Call.perform_of_source? s hsource, errorOutput_run, hreports]
  · have hsited : s.state.Sited (SiteIn (calls ++ [c])) :=
      (sited_after colored clock painter calls).mono fun _ _ hsite => hsite.concat c
    have hends := endsSited_run (List.mem_append_right _ List.mem_cons_self) hsource hsited
      hexecutes
    rw [hrun] at hends
    cases hends with | error _ hblamed => ?_
    obtain ⟨r, d, hd, limits', blamed, hd', haccepts, statement, hstatement, node, hnode, hsite⟩ :=
      hblamed e rfl
    -- a site of an accepted program holds a token of its source
    obtain ⟨htoken, hkind⟩ := haccepts.program.sited statement hstatement node hnode r _ hsite
    have hmem : e.token ∈ (scan blamed).tokens.toList :=
      (List.takeWhile_prefix _).subset htoken
    exact ⟨d, hd, limits', blamed, hd', haccepts,
      ⟨statement, hstatement, node, hnode, r, hsite, hkind⟩, hmem, line_of_mem_scan hmem⟩

/-- A function that negates its argument, on the second line of its source. -/
def negation : Call := .run ⟨40, 8⟩ "fun negate(x) \x7b\n return -x; \x7d"

/-- The function is called by a later run, of a source with one line, and
fails: the error points into the earlier source, at its second line. -/
theorem negation_points_back :
    let s := (start false fun _ => 0).after [negation]
    ∃ e, s.failure? ⟨40, 8⟩ "negate(nil);" = some (.runtimeError e) ∧ e.token.kind = .minus ∧
      e.line = 2 ∧ ∃ d ∈ [negation, .run ⟨40, 8⟩ "negate(nil);"], ∃ limits' blamed,
        d.source? = some (limits', blamed) ∧ e.token ∈ (scan blamed).tokens.toList := by
  intro s
  have htest : ((s.failure? ⟨40, 8⟩ "negate(nil);").bind blamed?).map
      (fun t => (t.kind, t.line)) = some (.minus, 2) := by decide +kernel
  obtain ⟨t, hblamed, ht⟩ := Option.map_eq_some_iff.1 htest
  obtain ⟨report, hfails, hreport⟩ := Option.bind_eq_some_iff.1 hblamed
  obtain ⟨e, rfl, rfl⟩ := blamed?_eq_some hreport
  obtain ⟨hkind, hline⟩ := Prod.mk.inj ht
  obtain ⟨-, d, hd, limits', blamed, hsource, -, -, htoken, -⟩ :=
    errors_point_into_sources false (fun _ => 0) .terminal [negation]
      (.run ⟨40, 8⟩ "negate(nil);") _ _ e rfl hfails
  exact ⟨e, hfails, hkind, hline, d, hd, limits', blamed, hsource, htoken⟩

end Session

end Treewalk
