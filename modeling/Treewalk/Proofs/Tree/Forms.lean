import Treewalk.Proofs.Tree.Dumping
import Mathlib.Data.List.Forall2

/-!
# Trees as nested lists of words

A dump writes out a nested list of words. Words are set off by spaces and
parentheses alone, so a form can be told from its text, with anything that
starts with one of these behind it, as long as no word has one of them in it:
**clean forms are told apart by what is written**. `Expr.form` and
`Stmt.form` say which form a tree is dumped as.
-/

namespace Treewalk

/-- A word, or a list of forms in parentheses. -/
inductive Form where
  | word (text : String)
  | list (items : List Form)

namespace Form

mutual

/-- A form written out. -/
def render : Form → List Char
  | .word text => text.toList
  | .list [] => ['(', ')']
  | .list (f :: fs) => '(' :: (f.render ++ renderTail fs)

/-- The forms behind the first of a list, up to the end of the list. -/
def renderTail : List Form → List Char
  | [] => [')']
  | f :: fs => ' ' :: (f.render ++ renderTail fs)

end

@[simp] theorem render_nil : (list []).render = ['(', ')'] := by rw [render]

@[simp] theorem render_cons (f : Form) (fs : List Form) :
    (list (f :: fs)).render = '(' :: (f.render ++ renderTail fs) := by rw [render]

/-- The characters that set words off. -/
def delimiters : List Char := [' ', '(', ')']

mutual

/-- Forms whose words are not empty and have no delimiter in them. -/
def Clean : Form → Prop
  | .word text => text.toList ≠ [] ∧ ∀ c ∈ text.toList, c ∉ delimiters
  | .list items => CleanAll items

/-- Lists of such forms. -/
def CleanAll : List Form → Prop
  | [] => True
  | f :: fs => f.Clean ∧ CleanAll fs

end

/-! ## Forms are told apart -/

/-- A text that is empty or starts with a delimiter. -/
def Delimited (text : List Char) : Prop := ∀ c ∈ text.head?, c ∈ delimiters

theorem delimited_renderTail (fs : List Form) (rest : List Char) :
    Delimited (renderTail fs ++ rest) := by
  cases fs with
  | nil => simp [renderTail, Delimited, delimiters]
  | cons f fs => simp [renderTail, Delimited, delimiters]

variable {rest rest' : List Char}

theorem append_inj_of_delimited {xs ys : List Char} (hxs : ∀ c ∈ xs, c ∉ delimiters)
    (hys : ∀ c ∈ ys, c ∉ delimiters) (hrest : Delimited rest) (hrest' : Delimited rest')
    (h : xs ++ rest = ys ++ rest') : xs = ys ∧ rest = rest' := by
  induction xs generalizing ys with
  | nil =>
    cases ys with
    | nil => exact ⟨rfl, h⟩
    | cons y ys => exact absurd (hrest y (congrArg List.head? h)) (hys y (by simp))
  | cons x xs ih =>
    cases ys with
    | nil => exact absurd (hrest' x (congrArg List.head? h.symm)) (hxs x (by simp))
    | cons y ys =>
      simp only [List.cons_append, List.cons.injEq] at h
      simp only [List.forall_mem_cons] at hxs hys
      obtain ⟨heq, hrests⟩ := ih hxs.2 hys.2 h.2
      exact ⟨congrArg₂ _ h.1 heq, hrests⟩

theorem Clean.exists_cons {text : String} (h : (word text).Clean) :
    ∃ c tail, (word text).render = c :: tail ∧ c ∉ delimiters := by
  obtain ⟨c, tail, heq⟩ := List.exists_cons_of_ne_nil h.1
  exact ⟨c, tail, heq, h.2 c (by simp [heq])⟩

theorem exists_cons_list (fs : List Form) : ∃ tail, (list fs).render = '(' :: tail := by
  cases fs with
  | nil => exact ⟨_, rfl⟩
  | cons f fs => exact ⟨_, rfl⟩

/-- A word is no list. -/
theorem word_append_ne {text : String} {fs : List Form} (h : (word text).Clean) :
    (word text).render ++ rest ≠ (list fs).render ++ rest' := by
  obtain ⟨c, cs, heq, hc⟩ := h.exists_cons
  obtain ⟨tail, htail⟩ := exists_cons_list fs
  have hne : c ≠ '(' := by
    rintro rfl
    exact hc (by simp [delimiters])
  simp [heq, htail, hne]

/-- A list with nothing in it is no other. -/
theorem nil_append_ne {f : Form} {fs : List Form} (h : f.Clean) :
    (list []).render ++ rest ≠ (list (f :: fs)).render ++ rest' := by
  cases f with
  | word text =>
    obtain ⟨c, cs, heq, hc⟩ := h.exists_cons
    have hne : ')' ≠ c := by
      rintro rfl
      exact hc (by simp [delimiters])
    simp [heq, hne]
  | list gs =>
    obtain ⟨tail, htail⟩ := exists_cons_list gs
    simp [htail]

mutual

/-- **A clean form is told from its text**, whatever delimited text is behind
it. -/
theorem render_append_inj : ∀ (f g : Form) {rest rest' : List Char}, f.Clean → g.Clean →
    Delimited rest → Delimited rest' → f.render ++ rest = g.render ++ rest' →
    f = g ∧ rest = rest'
  | .word text, .word text', rest, rest', hf, hg, hrest, hrest', h => by
    obtain ⟨heq, hrests⟩ := append_inj_of_delimited hf.2 hg.2 hrest hrest' h
    exact ⟨congrArg word (String.toList_inj.1 heq), hrests⟩
  | .word _, .list _, _, _, hf, _, _, _, h => absurd h (word_append_ne hf)
  | .list _, .word _, _, _, _, hg, _, _, h => absurd h.symm (word_append_ne hg)
  | .list [], .list [], _, _, _, _, _, _, h => by simpa using h
  | .list [], .list (_ :: _), _, _, _, hg, _, _, h => absurd h (nil_append_ne hg.1)
  | .list (_ :: _), .list [], _, _, hf, _, _, _, h => absurd h.symm (nil_append_ne hf.1)
  | .list (f :: fs), .list (g :: gs), _, _, hf, hg, _, _, h => by
    simp only [render_cons, List.cons_append, List.append_assoc, List.cons.injEq, true_and] at h
    obtain ⟨rfl, htail⟩ := render_append_inj f g hf.1 hg.1 (delimited_renderTail _ _)
      (delimited_renderTail _ _) h
    obtain ⟨rfl, hrests⟩ := renderTail_append_inj fs gs hf.2 hg.2 htail
    exact ⟨rfl, hrests⟩

theorem renderTail_append_inj : ∀ (fs gs : List Form) {rest rest' : List Char}, CleanAll fs →
    CleanAll gs → renderTail fs ++ rest = renderTail gs ++ rest' → fs = gs ∧ rest = rest'
  | [], [], _, _, _, _, h => by simpa [renderTail] using h
  | [], g :: gs, _, _, _, _, h => by simp [renderTail] at h
  | f :: fs, [], _, _, _, _, h => by simp [renderTail] at h
  | f :: fs, g :: gs, _, _, hf, hg, h => by
    simp only [renderTail, List.cons_append, List.append_assoc, List.cons.injEq, true_and] at h
    obtain ⟨rfl, htail⟩ := render_append_inj f g hf.1 hg.1 (delimited_renderTail _ _)
      (delimited_renderTail _ _) h
    obtain ⟨rfl, hrests⟩ := renderTail_append_inj fs gs hf.2 hg.2 htail
    exact ⟨rfl, hrests⟩

end

theorem eq_of_render_eq {f g : Form} (hf : f.Clean) (hg : g.Clean) (h : f.render = g.render) :
    f = g := by
  have hend : Delimited [] := nofun
  exact (render_append_inj f g hf hg hend hend (congrArg (· ++ []) h)).1

end Form

/-! ## The forms of trees -/

mutual

/-- The form that an expression is dumped as. -/
def Expr.form : Expr → Form
  | .literal v => .word v.text
  | .grouping e => .list [.word "group", e.form]
  | .unary o e => .list [.word o.lexeme, e.form]
  | .binary l o r => .list [.word o.lexeme, l.form, r.form]
  | .logical l o r => .list [.word o.lexeme, l.form, r.form]
  | .name t => .word t.lexeme
  | .assign t e => .list [.word "=", .word t.lexeme, e.form]
  | .call f _ es => .list (f.form :: Expr.forms es)
  | .missing => .list []
  | .unknown => .list []
  | .stray s => s.form

/-- The forms of expressions. -/
def Expr.forms : List Expr → List Form
  | [] => []
  | e :: es => e.form :: Expr.forms es

/-- The form that a statement is dumped as. -/
def Stmt.form : Stmt → Form
  | .expression e => .list [.word ";", e.form]
  | .print e => .list [.word "print", e.form]
  | .var t none => .list [.word "var", .word t.lexeme]
  | .var t (some e) => .list [.word "var", .word t.lexeme, e.form]
  | .block ss => .list (.word "block" :: Stmt.forms ss)
  | .branch e y none => .list [.word "if", e.form, y.form]
  | .branch e y (some n) => .list [.word "if", e.form, y.form, n.form]
  | .loop e s => .list [.word "while", e.form, s.form]
  | .function t ps ss =>
    .list (.word "fun" :: .word t.lexeme :: .list ((ps.map (·.lexeme)).map .word) :: Stmt.forms ss)
  | .ret _ none => .list [.word "return"]
  | .ret _ (some e) => .list [.word "return", e.form]
  | .missing => .list []
  | .unknown => .list []
  | .stray e => e.form

/-- The forms of statements. -/
def Stmt.forms : List Stmt → List Form
  | [] => []
  | s :: ss => s.form :: Stmt.forms ss

end

@[simp] theorem Expr.forms_eq_map (es : List Expr) : Expr.forms es = es.map Expr.form := by
  induction es with
  | nil => rfl
  | cons e es ih => rw [Expr.forms, ih, List.map_cons]

@[simp] theorem Stmt.forms_eq_map (ss : List Stmt) : Stmt.forms ss = ss.map Stmt.form := by
  induction ss with
  | nil => rfl
  | cons s ss ih => rw [Stmt.forms, ih, List.map_cons]

/-! ## Dumps -/

theorem bind_eq_ok_iff {α β ε : Type} {x : Except ε α} {k : α → Except ε β} {b : β} :
    x >>= k = .ok b ↔ ∃ a, x = .ok a ∧ k a = .ok b := by
  cases x with
  | error e => simp [bind, Except.bind]
  | ok a => simp [bind, Except.bind]

theorem forall₂_of_mapM_eq_ok {α β ε : Type} {f : α → Except ε β} {xs : List α} {ys : List β}
    (h : xs.mapM f = .ok ys) : List.Forall₂ (fun x y => f x = .ok y) xs ys := by
  induction xs generalizing ys with
  | nil =>
    cases h
    exact .nil
  | cons x xs ih =>
    rw [List.mapM_cons] at h
    obtain ⟨y, hy, h⟩ := bind_eq_ok_iff.1 h
    obtain ⟨ys', hys, h⟩ := bind_eq_ok_iff.1 h
    cases h
    exact .cons hy (ih hys)

namespace Form

/-- A text is a form written out. -/
def Written (text : String) (f : Form) : Prop := text.toList = f.render

theorem renderTail_eq {texts : List String} {fs : List Form} (h : List.Forall₂ Written texts fs) :
    renderTail fs = (texts.flatMap fun text => ' ' :: text.toList) ++ [')'] := by
  induction h with
  | nil => rfl
  | cons htext _ ih =>
    rw [Written] at htext
    simp [renderTail, ih, htext]

theorem toList_joined (first : String) (texts : List String) :
    (" ".intercalate (first :: texts)).toList =
      first.toList ++ texts.flatMap fun text => ' ' :: text.toList := by
  rw [String.toList_intercalate]
  induction texts generalizing first with
  | nil => simp
  | cons text texts ih => simp_all [List.intercalate_cons_cons]

/-- What a heading and parts behind it are written as. -/
theorem toList_enclosed (heading : String) {texts : List String} {fs : List Form}
    (h : List.Forall₂ Written texts fs) :
    (enclosed heading texts).toList = '(' :: (heading.toList ++ renderTail fs) := by
  rw [enclosed, renderTail_eq h, String.toList_append, String.toList_append, toList_joined]
  simp

theorem render_words (texts : List String) :
    (list (texts.map word)).render = '(' :: ((" ".intercalate texts).toList ++ [')']) := by
  cases texts with
  | nil => rfl
  | cons text texts =>
    have hwords : List.Forall₂ Written texts (texts.map word) := by
      rw [List.forall₂_map_right_iff, List.forall₂_same]
      exact fun _ _ => rfl
    rw [List.map_cons, render]
    exact (toList_enclosed text hwords).symm.trans (by simp [enclosed])

/-- A dump, if there is one, is a form written out. -/
def Gives (dump : Except DumpFault String) (f : Form) : Prop :=
  ∀ text, dump = .ok text → Written text f

variable {x y z : Except DumpFault String} {f g h whole : Form} {heading : String}

theorem gives_error (fault : DumpFault) : Gives (.error fault) f := nofun

theorem gives_none (hwhole : '(' :: (heading.toList ++ renderTail []) = whole.render) :
    Gives (return enclosed heading []) whole := by
  rintro _ ⟨⟩
  exact (toList_enclosed heading .nil).trans hwhole

theorem Gives.one (hx : Gives x f)
    (hwhole : '(' :: (heading.toList ++ renderTail [f]) = whole.render) :
    Gives (do return enclosed heading [← x]) whole := by
  intro text htext
  obtain ⟨a, ha, htext⟩ := bind_eq_ok_iff.1 htext
  cases htext
  exact (toList_enclosed heading (.cons (hx a ha) .nil)).trans hwhole

theorem Gives.two (hx : Gives x f) (hy : Gives y g)
    (hwhole : '(' :: (heading.toList ++ renderTail [f, g]) = whole.render) :
    Gives (do return enclosed heading [← x, ← y]) whole := by
  intro text htext
  obtain ⟨a, ha, htext⟩ := bind_eq_ok_iff.1 htext
  obtain ⟨b, hb, htext⟩ := bind_eq_ok_iff.1 htext
  cases htext
  exact (toList_enclosed heading (.cons (hx a ha) (.cons (hy b hb) .nil))).trans hwhole

theorem Gives.three (hx : Gives x f) (hy : Gives y g) (hz : Gives z h)
    (hwhole : '(' :: (heading.toList ++ renderTail [f, g, h]) = whole.render) :
    Gives (do return enclosed heading [← x, ← y, ← z]) whole := by
  intro text htext
  obtain ⟨a, ha, htext⟩ := bind_eq_ok_iff.1 htext
  obtain ⟨b, hb, htext⟩ := bind_eq_ok_iff.1 htext
  obtain ⟨c, hc, htext⟩ := bind_eq_ok_iff.1 htext
  cases htext
  exact (toList_enclosed heading
    (.cons (hx a ha) (.cons (hy b hb) (.cons (hz c hc) .nil)))).trans hwhole

theorem gives_all {α : Type} {dump : α → Except DumpFault String} {form : α → Form}
    (hdump : ∀ a, Gives (dump a) (form a)) (parts : List α)
    (hwhole : '(' :: (heading.toList ++ renderTail (parts.map form)) = whole.render) :
    Gives (do return enclosed heading (← parts.mapM dump)) whole := by
  intro text htext
  obtain ⟨texts, htexts, htext⟩ := bind_eq_ok_iff.1 htext
  cases htext
  have hparts : List.Forall₂ Written texts (parts.map form) := by
    rw [List.forall₂_map_right_iff]
    exact (forall₂_of_mapM_eq_ok htexts).flip.imp fun _ _ => hdump _ _
  exact (toList_enclosed heading hparts).trans hwhole

end Form

open Form

/-- **A dump is the form of the tree written out.** -/
theorem gives_dump (depth : ℕ) :
    (∀ e : Expr, Gives (e.dump depth) e.form) ∧ ∀ s : Stmt, Gives (s.dump depth) s.form := by
  induction depth with
  | zero =>
    constructor
    · intro e
      rw [Expr.dump]
      exact gives_error _
    · intro s
      rw [Stmt.dump]
      exact gives_error _
  | succ depth ih =>
    obtain ⟨ihe, ihs⟩ := ih
    constructor
    · intro e
      cases e with
      | call f p es =>
        by_cases hstray : ∃ s, f = .stray s
        · obtain ⟨s, rfl⟩ := hstray
          rw [Expr.dump]
          exact gives_error _
        · rw [Expr.dump_call fun s hs => hstray ⟨s, hs⟩]
          intro text htext
          obtain ⟨callee, hcallee, htext⟩ := bind_eq_ok_iff.1 htext
          have hwritten : callee.toList = f.form.render := ihe f callee hcallee
          refine gives_all ihe es ?_ text htext
          rw [Expr.form, Expr.forms_eq_map, render, hwritten]
      | literal v | name t =>
        rw [Expr.dump]
        rintro _ ⟨⟩
        rfl
      | grouping e =>
        rw [Expr.dump]
        exact (ihe e).one rfl
      | unary o e =>
        rw [Expr.dump]
        exact (ihe e).one rfl
      | assign t e =>
        rw [Expr.dump]
        exact (ihe e).one (by simp [Expr.form, render, renderTail])
      | binary l o r | logical l o r =>
        rw [Expr.dump]
        exact (ihe l).two (ihe r) rfl
      | missing | unknown =>
        rw [Expr.dump]
        exact gives_error _
      | stray s =>
        rw [Expr.dump]
        exact ihs s
    · intro s
      cases s with
      | expression e =>
        rw [Stmt.dump]
        exact (ihe e).one rfl
      | print e =>
        rw [Stmt.dump]
        exact (ihe e).one rfl
      | var t e? =>
        cases e? with
        | none =>
          rw [Stmt.dump]
          exact gives_none (by simp [Stmt.form, render, renderTail])
        | some e =>
          rw [Stmt.dump]
          exact (ihe e).one (by simp [Stmt.form, render, renderTail])
      | block ss =>
        rw [Stmt.dump]
        exact gives_all ihs ss (by rw [Stmt.form, Stmt.forms_eq_map]; rfl)
      | branch e y n? =>
        cases n? with
        | none =>
          rw [Stmt.dump]
          exact (ihe e).two (ihs y) rfl
        | some n =>
          rw [Stmt.dump]
          exact (ihe e).three (ihs y) (ihs n) rfl
      | loop e s =>
        rw [Stmt.dump]
        exact (ihe e).two (ihs s) rfl
      | function t ps ss =>
        rw [Stmt.dump]
        refine gives_all ihs ss ?_
        rw [Stmt.form, Stmt.forms_eq_map, render, renderTail, renderTail, render_words]
        simp [render]
      | ret k e? =>
        cases e? with
        | none =>
          rw [Stmt.dump]
          exact gives_none rfl
        | some e =>
          rw [Stmt.dump]
          exact (ihe e).one rfl
      | missing | unknown =>
        rw [Stmt.dump]
        exact gives_error _
      | stray e =>
        rw [Stmt.dump]
        exact ihe e

end Treewalk
