import Treewalk.Proofs.Evaluation.Realm

/-!
# What errors are blamed on

A runtime error carries a token, and that token stands at one of five places
of a tree: it is the operator of a prefix or a binary operation, the name of a
variable that is read or assigned to, or the parenthesis that closes a call.
Which tree that is need not be the one that is run: a call runs the body of a
function, and bodies are kept in the state. So the walk carries along that the
sites of all code in the state are where they may be, and a run that starts so
ends so, in whatever way it ends.
-/

namespace Treewalk

open Machine

/-! ## The nodes of a tree -/

mutual

/-- The expressions that an expression is made of, itself among them. -/
def Expr.nodes : Expr → List Expr
  | .literal v => [.literal v]
  | .grouping e => .grouping e :: e.nodes
  | .unary o e => .unary o e :: e.nodes
  | .binary l o r => .binary l o r :: (l.nodes ++ r.nodes)
  | .logical l o r => .logical l o r :: (l.nodes ++ r.nodes)
  | .name t => [.name t]
  | .assign t e => .assign t e :: e.nodes
  | .call f p es => .call f p es :: (f.nodes ++ Expr.nodesAll es)
  | .missing => [.missing]
  | .unknown => [.unknown]
  | .stray s => .stray s :: s.nodes

/-- The expressions that expressions are made of. -/
def Expr.nodesAll : List Expr → List Expr
  | [] => []
  | e :: es => e.nodes ++ Expr.nodesAll es

/-- The expressions in a statement, those in the bodies of its functions
included. -/
def Stmt.nodes : Stmt → List Expr
  | .expression e => e.nodes
  | .print e => e.nodes
  | .var _ none => []
  | .var _ (some e) => e.nodes
  | .block ss => Stmt.nodesAll ss
  | .branch e y none => e.nodes ++ y.nodes
  | .branch e y (some n) => e.nodes ++ (y.nodes ++ n.nodes)
  | .loop e s => e.nodes ++ s.nodes
  | .function _ _ ss => Stmt.nodesAll ss
  | .ret _ none => []
  | .ret _ (some e) => e.nodes
  | .missing => []
  | .unknown => []
  | .stray e => e.nodes

/-- The expressions in statements. -/
def Stmt.nodesAll : List Stmt → List Expr
  | [] => []
  | s :: ss => s.nodes ++ Stmt.nodesAll ss

end

/-- The token that errors of a node are blamed on, with its role. -/
def Expr.site? : Expr → Option (Role × Token)
  | .unary o _ => some (.unary, o)
  | .binary _ o _ => some (.binary, o)
  | .name t => some (.name, t)
  | .assign t _ => some (.name, t)
  | .call _ p _ => some (.paren, p)
  | _ => none

/-- Nodes with sites where they may be. -/
def Sited (B : Role → Token → Prop) (nodes : List Expr) : Prop :=
  ∀ node ∈ nodes, ∀ r t, node.site? = some (r, t) → B r t

section

variable {B B' : Role → Token → Prop} {nodes others : List Expr}

@[simp] theorem sited_nil : Sited B [] := List.forall_mem_nil _

@[simp] theorem sited_cons {node : Expr} :
    Sited B (node :: nodes) ↔ (∀ r t, node.site? = some (r, t) → B r t) ∧ Sited B nodes :=
  List.forall_mem_cons

@[simp] theorem sited_append : Sited B (nodes ++ others) ↔ Sited B nodes ∧ Sited B others :=
  List.forall_mem_append

theorem Sited.mono (h : Sited B nodes) (hB : ∀ r t, B r t → B' r t) : Sited B' nodes :=
  fun node hnode r t hsite => hB r t (h node hnode r t hsite)

theorem sited_stmts {ss : List Stmt} : Sited B (Stmt.nodesAll ss) ↔ ∀ s ∈ ss, Sited B s.nodes := by
  induction ss with
  | nil => simp [Stmt.nodesAll]
  | cons s ss ih => simp [Stmt.nodesAll, ih]

end

/-! ## Trees whose tokens are related -/

section

variable {R : Role → Token → Token → Prop} {holes : Prop}

mutual

theorem Expr.Like.sited : ∀ e e' : Expr, Expr.Like R holes e e' →
    Sited (fun r t => ∃ t', R r t t') e.nodes
  | .literal _, _, .literal _ => by simp [Expr.nodes, Expr.site?]
  | .grouping e, _, .grouping h => by simpa [Expr.nodes, Expr.site?] using Expr.Like.sited e _ h
  | .unary _ e, _, .unary ho h => by
    simpa [Expr.nodes, Expr.site?] using ⟨⟨_, ho⟩, Expr.Like.sited e _ h⟩
  | .binary l _ r, _, .binary hl ho hr => by
    simpa [Expr.nodes, Expr.site?] using
      ⟨⟨_, ho⟩, Expr.Like.sited l _ hl, Expr.Like.sited r _ hr⟩
  | .logical l _ r, _, .logical hl _ hr => by
    simpa [Expr.nodes, Expr.site?] using ⟨Expr.Like.sited l _ hl, Expr.Like.sited r _ hr⟩
  | .name _, _, .name ht => by simpa [Expr.nodes, Expr.site?] using ⟨_, ht⟩
  | .assign _ e, _, .assign ht h => by
    simpa [Expr.nodes, Expr.site?] using ⟨⟨_, ht⟩, Expr.Like.sited e _ h⟩
  | .call f _ es, _, .call hf hp hes => by
    simpa [Expr.nodes, Expr.site?] using
      ⟨⟨_, hp⟩, Expr.Like.sited f _ hf, Expr.sited_of_forall₂ es _ hes⟩
  | .missing, _, .missing _ => by simp [Expr.nodes, Expr.site?]
  | .unknown, _, .unknown _ => by simp [Expr.nodes, Expr.site?]
  | .stray s, _, .stray _ hs => by simpa [Expr.nodes, Expr.site?] using Stmt.Like.sited s _ hs

theorem Expr.sited_of_forall₂ : ∀ es es' : List Expr, List.Forall₂ (Expr.Like R holes) es es' →
    Sited (fun r t => ∃ t', R r t t') (Expr.nodesAll es)
  | [], _, .nil => sited_nil
  | e :: es, _, .cons h hs =>
    sited_append.2 ⟨Expr.Like.sited e _ h, Expr.sited_of_forall₂ es _ hs⟩

/-- **The tokens at the sites of a tree** are related to others, in the role
they have there. -/
theorem Stmt.Like.sited : ∀ s s' : Stmt, Stmt.Like R holes s s' →
    Sited (fun r t => ∃ t', R r t t') s.nodes
  | .expression e, _, .expression h => Expr.Like.sited e _ h
  | .print e, _, .print h => Expr.Like.sited e _ h
  | .var _ none, _, .var _ => sited_nil
  | .var _ (some e), _, .varInitial _ h => Expr.Like.sited e _ h
  | .block ss, _, .block h => Stmt.sited_of_forall₂ ss _ h
  | .branch e y none, _, .branch he hy =>
    sited_append.2 ⟨Expr.Like.sited e _ he, Stmt.Like.sited y _ hy⟩
  | .branch e y (some n), _, .branchElse he hy hn =>
    sited_append.2 ⟨Expr.Like.sited e _ he,
      sited_append.2 ⟨Stmt.Like.sited y _ hy, Stmt.Like.sited n _ hn⟩⟩
  | .loop e s, _, .loop he hs =>
    sited_append.2 ⟨Expr.Like.sited e _ he, Stmt.Like.sited s _ hs⟩
  | .function _ _ ss, _, .function _ _ hss => Stmt.sited_of_forall₂ ss _ hss
  | .ret _ none, _, .ret _ => sited_nil
  | .ret _ (some e), _, .retValue _ h => Expr.Like.sited e _ h
  | .missing, _, .missing _ => sited_nil
  | .unknown, _, .unknown _ => sited_nil
  | .stray e, _, .stray _ h => Expr.Like.sited e _ h

theorem Stmt.sited_of_forall₂ : ∀ ss ss' : List Stmt, List.Forall₂ (Stmt.Like R holes) ss ss' →
    Sited (fun r t => ∃ t', R r t t') (Stmt.nodesAll ss)
  | [], _, .nil => sited_nil
  | s :: ss, _, .cons h hs =>
    sited_append.2 ⟨Stmt.Like.sited s _ h, Stmt.sited_of_forall₂ ss _ hs⟩

end

end

/-! ## Trees whose sites are where they may be -/

/-- Roles of the tokens at sites. -/
def Role.blamed : Role → Bool
  | .unary | .binary | .name | .paren => true
  | _ => false

/-- A token that may stand where it does, related to itself. -/
def Blames (B : Role → Token → Prop) (r : Role) (t t' : Token) : Prop :=
  t' = t ∧ (r.blamed → B r t)

section

variable {B : Role → Token → Prop}

mutual

theorem Expr.like_of_sited : ∀ e : Expr, Sited B e.nodes → Expr.Like (Blames B) True e e
  | .literal v, _ => .literal v
  | .grouping e, h => .grouping (Expr.like_of_sited e (sited_cons.1 h).2)
  | .unary o e, h => by
    obtain ⟨ho, he⟩ := sited_cons.1 h
    exact .unary ⟨rfl, fun _ => ho _ o rfl⟩ (Expr.like_of_sited e he)
  | .binary l o r, h => by
    obtain ⟨ho, hrest⟩ := sited_cons.1 h
    obtain ⟨hl, hr⟩ := sited_append.1 hrest
    exact .binary (Expr.like_of_sited l hl) ⟨rfl, fun _ => ho _ o rfl⟩ (Expr.like_of_sited r hr)
  | .logical l _ r, h => by
    obtain ⟨hl, hr⟩ := sited_append.1 (sited_cons.1 h).2
    exact .logical (Expr.like_of_sited l hl) ⟨rfl, nofun⟩ (Expr.like_of_sited r hr)
  | .name t, h => .name ⟨rfl, fun _ => (sited_cons.1 h).1 _ t rfl⟩
  | .assign t e, h => by
    obtain ⟨ht, he⟩ := sited_cons.1 h
    exact .assign ⟨rfl, fun _ => ht _ t rfl⟩ (Expr.like_of_sited e he)
  | .call f p es, h => by
    obtain ⟨hp, hrest⟩ := sited_cons.1 h
    obtain ⟨hf, hes⟩ := sited_append.1 hrest
    exact .call (Expr.like_of_sited f hf) ⟨rfl, fun _ => hp _ p rfl⟩
      (Expr.forall₂_like_of_sited es hes)
  | .missing, _ => .missing trivial
  | .unknown, _ => .unknown trivial
  | .stray s, h => .stray trivial (Stmt.like_of_sited s (sited_cons.1 h).2)

theorem Expr.forall₂_like_of_sited : ∀ es : List Expr, Sited B (Expr.nodesAll es) →
    List.Forall₂ (Expr.Like (Blames B) True) es es
  | [], _ => .nil
  | e :: es, h => by
    obtain ⟨he, hes⟩ := sited_append.1 h
    exact .cons (Expr.like_of_sited e he) (Expr.forall₂_like_of_sited es hes)

/-- **A tree whose sites are where they may be** is like itself, for tokens
that may stand where they do. -/
theorem Stmt.like_of_sited : ∀ s : Stmt, Sited B s.nodes → Stmt.Like (Blames B) True s s
  | .expression e, h => .expression (Expr.like_of_sited e h)
  | .print e, h => .print (Expr.like_of_sited e h)
  | .var _ none, _ => .var ⟨rfl, nofun⟩
  | .var _ (some e), h => .varInitial ⟨rfl, nofun⟩ (Expr.like_of_sited e h)
  | .block ss, h => .block (Stmt.forall₂_like_of_sited ss h)
  | .branch e y none, h => by
    obtain ⟨he, hy⟩ := sited_append.1 h
    exact .branch (Expr.like_of_sited e he) (Stmt.like_of_sited y hy)
  | .branch e y (some n), h => by
    obtain ⟨he, hrest⟩ := sited_append.1 h
    obtain ⟨hy, hn⟩ := sited_append.1 hrest
    exact .branchElse (Expr.like_of_sited e he) (Stmt.like_of_sited y hy)
      (Stmt.like_of_sited n hn)
  | .loop e s, h => by
    obtain ⟨he, hs⟩ := sited_append.1 h
    exact .loop (Expr.like_of_sited e he) (Stmt.like_of_sited s hs)
  | .function _ ps ss, h =>
    .function ⟨rfl, nofun⟩ (List.forall₂_same.2 fun _ _ => ⟨rfl, nofun⟩)
      (Stmt.forall₂_like_of_sited ss h)
  | .ret _ none, _ => .ret ⟨rfl, nofun⟩
  | .ret _ (some e), h => .retValue ⟨rfl, nofun⟩ (Expr.like_of_sited e h)
  | .missing, _ => .missing trivial
  | .unknown, _ => .unknown trivial
  | .stray e, h => .stray trivial (Expr.like_of_sited e h)

theorem Stmt.forall₂_like_of_sited : ∀ ss : List Stmt, Sited B (Stmt.nodesAll ss) →
    List.Forall₂ (Stmt.Like (Blames B) True) ss ss
  | [], _ => .nil
  | s :: ss, h => by
    obtain ⟨hs, hss⟩ := sited_append.1 h
    exact .cons (Stmt.like_of_sited s hs) (Stmt.forall₂_like_of_sited ss hss)

end

end

/-! ## Steps -/

/-- The sites of all code are where they may be. -/
def State.Sited (B : Role → Token → Prop) (s : State) : Prop :=
  ∀ id, List.Forall₂ (Stmt.Like (Blames B) True) (s.body id) (s.body id)

namespace Machine

/-- An error that is blamed on a token where sites may be; other reasons to
stop have no token. -/
def BlamedOn (B : Role → Token → Prop) (stop : Stop) : Prop :=
  ∀ e, stop = .error e → ∃ r, B r e.token

/-- A run that ended with the code sited, and with no error blamed
elsewhere. -/
inductive EndsSited {α : Type} (B : Role → Token → Prop) (Q : α → Prop) :
    EStateM.Result Stop State α → Prop
  | ok {a : α} {s : State} : s.Sited B → Q a → EndsSited B Q (.ok a s)
  | error {stop : Stop} {s : State} : s.Sited B → BlamedOn B stop → EndsSited B Q (.error stop s)

/-- A step that ends so wherever it starts with the code sited. -/
def KeepsSited {α : Type} (B : Role → Token → Prop) (Q : α → Prop) (m : Machine α) : Prop :=
  ∀ s : State, s.Sited B → EndsSited B Q (m s)

variable {B : Role → Token → Prop} {α β : Type} {Q : α → Prop} {Q' : β → Prop}

theorem EndsSited.final {r : EStateM.Result Stop State α} (h : EndsSited B Q r) :
    (Machine.final r).Sited B := by
  cases h with
  | ok hs _ => exact hs
  | error hs _ => exact hs

theorem keepsSited_pure {a : α} (h : Q a) : KeepsSited B Q (pure a) := fun _ hs => .ok hs h

theorem keepsSited_throw (stop : Stop) (h : BlamedOn B stop) :
    KeepsSited B Q (throw stop : Machine α) :=
  fun _ hs => .error hs h

theorem blamedOn_error {e : RuntimeError} {r : Role} (h : B r e.token) : BlamedOn B (.error e) := by
  rintro _ ⟨⟩
  exact ⟨r, h⟩

theorem blamedOn_of_ne {stop : Stop} (h : ∀ e, stop ≠ .error e) : BlamedOn B stop :=
  fun e he => absurd he (h e)

theorem KeepsSited.bind {m : Machine α} {k : α → Machine β} (hm : KeepsSited B Q m)
    (hk : ∀ a, Q a → KeepsSited B Q' (k a)) : KeepsSited B Q' (m >>= k) := by
  intro s hs
  have hrun := hm s hs
  change EndsSited B Q' (EStateM.bind m k s)
  unfold EStateM.bind
  generalize m s = r at hrun
  cases hrun with
  | ok hs₁ ha => exact hk _ ha _ hs₁
  | error hs₁ hstop => exact .error hs₁ hstop

theorem KeepsSited.imp {Q₁ : α → Prop} {m : Machine α} (hm : KeepsSited B Q m)
    (h : ∀ a, Q a → Q₁ a) : KeepsSited B Q₁ m := by
  intro s hs
  have hrun := hm s hs
  generalize m s = r at hrun ⊢
  cases hrun with
  | ok hs₁ ha => exact .ok hs₁ (h _ ha)
  | error hs₁ hstop => exact .error hs₁ hstop

/-- A step after which nothing is known of the value. -/
abbrev Sound (B : Role → Token → Prop) (m : Machine α) : Prop := KeepsSited B (fun _ => True) m

/-- **A step that leaves the code alone** and is not stopped. -/
theorem sound_of_code {m : Machine α} (h : ∀ s, ∃ a s', m s = .ok a s' ∧ s'.code = s.code) :
    Sound B m := by
  intro s hs
  obtain ⟨a, s', hrun, hcode⟩ := h s
  rw [hrun]
  refine .ok (fun id => ?_) trivial
  rw [State.body, hcode]
  exact hs id

theorem sound_define (i : ScopeId) (x : String) (v : Value) : Sound B (define i x v) :=
  sound_of_code fun _ => ⟨_, _, rfl, rfl⟩

theorem sound_native (id : ℕ) : Sound B (native id) := by
  refine sound_of_code fun s => ?_
  unfold native
  split
  · exact ⟨_, _, rfl, rfl⟩
  · exact ⟨_, _, rfl, rfl⟩

theorem sound_read {t : Token} {r : Role} (h : B r t) (i : ScopeId) : Sound B (read i t) := by
  intro s hs
  rw [Machine.read, Store.read]
  cases s.store.get? i t.lexeme with
  | some v => exact .ok hs trivial
  | none => exact .error hs (blamedOn_error h)

theorem sound_assign {t : Token} {r : Role} (h : B r t) (i : ScopeId) (v : Value) :
    Sound B (assign i t v) := by
  intro s hs
  rw [Machine.assign, Store.ownerOf]
  cases s.store.owner? i t.lexeme with
  | some owner => exact .ok hs trivial
  | none => exact .error hs (blamedOn_error h)

/-- **A declared function** adds its body to the code. -/
theorem sound_declare {body : List Stmt}
    (h : List.Forall₂ (Stmt.Like (Blames B) True) body body) (t : Token) (params : List Token)
    (i : ScopeId) : Sound B (declare t params body i) := by
  intro s hs
  refine sound_define _ _ _ { s with code := s.code.push body } fun id => ?_
  rw [State.body, Array.getElem?_push]
  split
  · exact h
  · exact hs id

/-- Operators blame what goes wrong on themselves. -/
theorem sound_ofExcept {o : Token} {r : Role} (h : B r o) {x : Except RuntimeError Value}
    (hx : x = blamedOn o x) : Sound B (ofExcept x) := by
  rw [hx]
  cases x with
  | ok v => exact keepsSited_pure trivial
  | error e => exact keepsSited_throw _ (blamedOn_error h)

/-! ## The walk -/

/-- The walk that looks at the first run, and asks that it blames its errors
on sites. -/
def sitedWalk (B : Role → Token → Prop) : Walk Walk.Still where
  Steps w Q m _ := KeepsSited B (fun a => ∃ a', Q w a a') m
  scope _ _ _ := True
  name _ _ _ _ := True
  literal _ := True
  token := Blames B
  holes := True
  stop e _ := BlamedOn B e

theorem Sound.steps {Q : α → α → Prop} {m : Machine α} (h : Sound B m) (hQ : ∀ a, Q a a) :
    (sitedWalk B).Steps .still (fun _ => Q) m m :=
  h.imp fun a _ => ⟨a, hQ a⟩

theorem Sound.values {m : Machine Value} (h : Sound B m) :
    (sitedWalk B).Steps .still (sitedWalk B).values m m :=
  h.steps fun _ => .refl fun _ _ => trivial

theorem lawful_sitedWalk : (sitedWalk B).Lawful .standard .standard where
  scope_mono _ h := h
  name_mono _ h := h
  mono _ h := h
  literal _ _ := .refl fun _ _ => trivial
  declared h := by rw [h.1]
  connective h := by rw [h.1]
  pure h := keepsSited_pure ⟨_, h .still trivial⟩
  throw h := keepsSited_throw _ h
  bind hm hk := hm.bind fun a ⟨a', ha⟩ => hk .still a a' trivial ha
  overflow := blamedOn_of_ne fun _ => Stop.noConfusion
  endless := blamedOn_of_ne fun _ => Stop.noConfusion
  malformed _ := blamedOn_of_ne fun _ => Stop.noConfusion
  notCallable h := blamedOn_error (h.2 rfl)
  wrongArity _ _ h := blamedOn_error (h.2 rfl)
  openScope _ :=
    Sound.steps (sound_of_code fun _ => ⟨_, _, rfl, rfl⟩) fun _ => ⟨trivial, fun _ => trivial⟩
  define _ _ _ := (sound_define _ _ _).steps fun _ => trivial
  read _ ht := (sound_read (ht.2 rfl) _).values
  assign _ ht _ := (sound_assign (ht.2 rfl) _ _).steps fun _ => trivial
  print _ := Sound.steps (sound_of_code fun _ => ⟨_, _, rfl, rfl⟩) fun _ => trivial
  declare _ _ _ _ hss := by
    obtain rfl := Stmt.eq_of_forall₂_like (fun _ _ _ h => h.1.symm) _ _ hss.like
    exact (sound_declare hss.like _ _ _).steps fun _ => trivial
  bodyOf id s hs := .ok hs ⟨_, hs id, fun _ _ => trivial⟩
  native id := (sound_native id).values
  unary ho hv := by
    obtain ⟨rfl, ho⟩ := ho
    exact Walk.steps_standard_unary (fun _ _ hx => (sound_ofExcept (ho rfl) hx).values) hv
  binary ho hv hu := by
    obtain ⟨rfl, ho⟩ := ho
    exact Walk.steps_standard_binary (fun _ _ hx => (sound_ofExcept (ho rfl) hx).values) hv hu

/-- **Every run of a program blames its errors on a site**, of the program or
of code in the state, and adds no code with sites elsewhere. -/
theorem sound_runProgram (limits : Limits) (program : List Stmt)
    (h : ∀ s ∈ program, Treewalk.Sited B s.nodes) : Sound B (runProgram limits program) := by
  have hcode : (sitedWalk B).Code program program :=
    ⟨Stmt.forall₂_like_of_sited program (sited_stmts.2 h), fun _ _ => trivial⟩
  have hruns := (lawful_sitedWalk (B := B)).runs limits.rounds limits.depth
  have hsteps := hruns.program lawful_sitedWalk (w := .still) rfl hcode trivial
    fun _ _ _ _ => trivial
  exact hsteps.imp fun _ _ => trivial

end Machine

end Treewalk
