import Mathlib.Data.Set.Card
import Mathlib.Logic.Relation
import Mathlib.Order.Interval.Finset.Nat
import Scoping.Proofs.Symbol.Table
import Scoping.Syntax.ReversePolish

/-!
# Programs that can be followed to the end

Positions in a program are not checked when a node is added. A node is `Sound` when nothing that
can be reached from it is missing, nothing that can be reached from it leads back to itself, and
every name on the way is known. There is no bound on how a sound node is built, but the program is
finite: along a path without repetitions the number of nodes that can still be reached goes down
(`rank_lt`), so that no path is longer than the program (`rank_le`). The same bound holds where
nodes may be missing, as long as none leads back to itself (`shallow_of_acyclic`).

For a program whose nodes are listed with each one before those it refers to, soundness can be
computed (`sound_of_isOrdered`). Printing is the first walk that uses it: a sound expression has a
text (`reversePolish_ok`).
-/

namespace Scoping

variable {N : Type}

/-! ## What nodes refer to -/

/-- What a walk through a program can come to. -/
inductive Node where
  | expr (id : ExprId)
  | stmt (id : StmtId)
deriving DecidableEq

def Literal.names : Literal N → List N
  | .str s => [s]
  | _ => []

namespace ExprForm

def operands : ExprForm N → List ExprId
  | .literal _ | .reference _ => []
  | .assign _ value => [value]
  | .binary left _ right | .logical left _ right => [left, right]
  | .unary _ operand => [operand]
  | .group inner => [inner]

def names : ExprForm N → List N
  | .literal value => value.names
  | .reference who | .assign who _ => [who.name]
  | _ => []

end ExprForm

namespace StmtForm

def exprs : StmtForm N → List ExprId
  | .expression e => [e]
  | .declare _ init => init.toList
  | .block _ => []

def names : StmtForm N → List N
  | .declare name _ => [name.name]
  | _ => []

end StmtForm

namespace Program

/-- The statements inside a block. -/
def inner (p : Program N) : StmtForm N → Except Fault (List StmtId)
  | .block body => p.body body
  | _ => .ok []

/-- The nodes that a node refers to, unless the node or its body is missing. -/
def references (p : Program N) : Node → Except Fault (List Node)
  | .expr id => do
    let expr ← p.expr id
    return expr.form.operands.map .expr
  | .stmt id => do
    let stmt ← p.stmt id
    let body ← p.inner stmt.form
    return stmt.form.exprs.map .expr ++ body.map .stmt

def names (p : Program N) : Node → List N
  | .expr id =>
    match p.expr id with
    | .ok expr => expr.form.names
    | .error _ => []
  | .stmt id =>
    match p.stmt id with
    | .ok stmt => stmt.form.names
    | .error _ => []

def RefersTo (p : Program N) (n m : Node) : Prop := ∃ refs, p.references n = .ok refs ∧ m ∈ refs

def Reaches (p : Program N) : Node → Node → Prop := Relation.ReflTransGen p.RefersTo

/-- From a sound node on nothing is missing, no way leads in a circle, and every name is known. -/
structure Sound (p : Program Symbol) (symbols : SymbolTable) (root : Node) : Prop where
  present : ∀ {n}, p.Reaches root n → ∃ refs, p.references n = .ok refs
  acyclic : ∀ {n}, p.Reaches root n → ¬ Relation.TransGen p.RefersTo n n
  named : ∀ {n}, p.Reaches root n → ∀ name ∈ p.names n, symbols.Knows name

/-! ## How far a path can go -/

section rank

variable (p : Program N) (wrap : Nat → Node)

/-- The number of nodes of one kind that can be reached from a node. -/
noncomputable def rank (n : Node) : Nat := {i | p.Reaches n (wrap i)}.ncard

variable {p wrap} {size : Nat} {n : Node} {i : Nat}

theorem rank_le (hlt : ∀ j, p.Reaches n (wrap j) → j < size) : p.rank wrap n ≤ size := by
  have hsubset : {j | p.Reaches n (wrap j)} ⊆ Set.Iio size := hlt
  calc p.rank wrap n ≤ (Set.Iio size).ncard := Set.ncard_le_ncard hsubset (Set.finite_Iio size)
    _ = size := by rw [Set.ncard_eq_toFinset_card', Set.toFinset_Iio, Nat.card_Iio]

theorem finite_reaches (hlt : ∀ j, p.Reaches n (wrap j) → j < size) :
    {j | p.Reaches n (wrap j)}.Finite :=
  (Set.finite_Iio size).subset hlt

variable (wrap) in
theorem rank_pos (hlt : ∀ j, p.Reaches (wrap i) (wrap j) → j < size) : 0 < p.rank wrap (wrap i) :=
  (Set.ncard_pos (finite_reaches hlt)).2 ⟨i, .refl⟩

variable (wrap) in
/-- A node on no circle cannot be reached any more from the nodes that it refers to. -/
theorem rank_lt (hlt : ∀ j, p.Reaches (wrap i) (wrap j) → j < size)
    (hacyclic : ¬ Relation.TransGen p.RefersTo (wrap i) (wrap i)) (h : p.RefersTo (wrap i) n) :
    p.rank wrap n < p.rank wrap (wrap i) := by
  refine Set.ncard_lt_ncard ⟨fun j hj => ?_, fun hsubset => ?_⟩ (finite_reaches hlt)
  · exact Relation.ReflTransGen.head h hj
  · have hback : p.Reaches n (wrap i) := hsubset (show p.Reaches (wrap i) (wrap i) from .refl)
    exact hacyclic (.head' h hback)

end rank

/-- How many expressions can be reached from a node. -/
noncomputable def exprRank (p : Program N) (n : Node) : Nat := p.rank (fun i => .expr ⟨i⟩) n

noncomputable def stmtRank (p : Program N) (n : Node) : Nat := p.rank (fun i => .stmt ⟨i⟩) n

/-! ## Levels below a node -/

section shallow

variable (p : Program N) (wrap : Nat → Node)

/-- On every way down from a node, there are fewer than that many nodes of its kind after it. -/
def Shallow : Nat → Nat → Prop
  | 0, _ => False
  | levels + 1, i => ∀ j, p.RefersTo (wrap i) (wrap j) → Shallow levels j

variable {p wrap} {levels more i : Nat}

theorem Shallow.mono (hle : levels ≤ more) (h : p.Shallow wrap levels i) :
    p.Shallow wrap more i := by
  induction levels generalizing more i with
  | zero => exact h.elim
  | succ levels ih =>
    obtain ⟨more, rfl⟩ : ∃ n, more = n + 1 := ⟨more - 1, by omega⟩
    exact fun j hj => ih (Nat.le_of_succ_le_succ hle) (h j hj)

/-- Where no node of the kind is inside itself, there are as many levels as nodes at most: those
above a node, each there once, count as levels gone down already. -/
theorem shallow_below {size : Nat} (hlt : ∀ {j n}, p.RefersTo (wrap j) n → j < size)
    (hacyclic : ∀ {j},
      p.Reaches (wrap i) (wrap j) → ¬ Relation.TransGen p.RefersTo (wrap j) (wrap j))
    (above : Finset Nat)
    (habove : ∀ j ∈ above, j < size ∧ Relation.TransGen p.RefersTo (wrap j) (wrap i))
    (hlevels : size < levels + above.card) : p.Shallow wrap levels i := by
  induction levels generalizing i above with
  | zero =>
    have hsubset : above ⊆ Finset.range size := fun j hj => Finset.mem_range.2 (habove j hj).1
    have hcard := Finset.card_le_card hsubset
    rw [Finset.card_range] at hcard
    omega
  | succ levels ih =>
    intro j hj
    have hnew : i ∉ above := fun hi => hacyclic .refl (habove i hi).2
    refine ih (fun hk => hacyclic (.head hj hk)) (insert i above) (fun k hk => ?_) ?_
    · rcases Finset.mem_insert.1 hk with rfl | hk
      · exact ⟨hlt hj, .single hj⟩
      · exact ⟨(habove k hk).1, (habove k hk).2.tail hj⟩
    · rw [Finset.card_insert_of_notMem hnew]
      omega

theorem shallow_of_acyclic {size : Nat} (hlt : ∀ {j n}, p.RefersTo (wrap j) n → j < size)
    (hacyclic : ∀ {j},
      p.Reaches (wrap i) (wrap j) → ¬ Relation.TransGen p.RefersTo (wrap j) (wrap j)) :
    p.Shallow wrap (size + 1) i :=
  shallow_below hlt hacyclic ∅ nofun (Nat.lt_succ_self size)

end shallow

/-! ## Sound nodes -/

theorem references_expr {p : Program N} {id : ExprId} {refs : List Node}
    (h : p.references (.expr id) = .ok refs) :
    ∃ expr, p.expr id = .ok expr ∧ refs = expr.form.operands.map .expr := by
  obtain ⟨expr, hexpr, heq⟩ := bind_eq_ok h
  cases heq
  exact ⟨expr, hexpr, rfl⟩

theorem references_stmt {p : Program N} {id : StmtId} {refs : List Node}
    (h : p.references (.stmt id) = .ok refs) :
    ∃ stmt body, p.stmt id = .ok stmt ∧ p.inner stmt.form = .ok body ∧
      refs = stmt.form.exprs.map .expr ++ body.map .stmt := by
  obtain ⟨stmt, hstmt, hrest⟩ := bind_eq_ok h
  obtain ⟨body, hbody, heq⟩ := bind_eq_ok hrest
  cases heq
  exact ⟨stmt, body, hstmt, hbody, rfl⟩

theorem lt_of_stmt {p : Program N} {id : StmtId} {stmt : Stmt N} (h : p.stmt id = .ok stmt) :
    id.index < p.stmts.size :=
  (Array.getElem?_eq_some_iff.1 (slot_eq_ok_iff.1 h)).1

theorem lt_of_expr {p : Program N} {id : ExprId} {expr : Expr N} (h : p.expr id = .ok expr) :
    id.index < p.exprs.size :=
  (Array.getElem?_eq_some_iff.1 (slot_eq_ok_iff.1 h)).1

theorem lt_of_refersTo_expr {p : Program N} {i : Nat} {n : Node} (h : p.RefersTo (.expr ⟨i⟩) n) :
    i < p.exprs.size := by
  obtain ⟨refs, hrefs, -⟩ := h
  obtain ⟨expr, hexpr, -⟩ := references_expr hrefs
  exact lt_of_expr hexpr

theorem lt_of_refersTo_stmt {p : Program N} {i : Nat} {n : Node} (h : p.RefersTo (.stmt ⟨i⟩) n) :
    i < p.stmts.size := by
  obtain ⟨refs, hrefs, -⟩ := h
  obtain ⟨stmt, -, hstmt, -⟩ := references_stmt hrefs
  exact lt_of_stmt hstmt

theorem refersTo_operand {p : Program N} {id e : ExprId} {expr : Expr N} (h : p.expr id = .ok expr)
    (he : e ∈ expr.form.operands) : p.RefersTo (.expr id) (.expr e) := by
  refine ⟨expr.form.operands.map .expr, ?_, List.mem_map_of_mem he⟩
  rw [references, h]
  rfl

section stmt

variable {p : Program N} {id : StmtId} {stmt : Stmt N} {body : List StmtId}
  (h : p.stmt id = .ok stmt) (hbody : p.inner stmt.form = .ok body)

include h hbody

theorem references_of_stmt :
    p.references (.stmt id) = .ok (stmt.form.exprs.map .expr ++ body.map .stmt) := by
  rw [references, h]
  simp only [bind, Except.bind, hbody]
  rfl

theorem refersTo_expr_of_stmt {e : ExprId} (he : e ∈ stmt.form.exprs) :
    p.RefersTo (.stmt id) (.expr e) :=
  ⟨_, references_of_stmt h hbody, List.mem_append_left _ (List.mem_map_of_mem he)⟩

theorem refersTo_inner {i : StmtId} (hi : i ∈ body) : p.RefersTo (.stmt id) (.stmt i) :=
  ⟨_, references_of_stmt h hbody, List.mem_append_right _ (List.mem_map_of_mem hi)⟩

end stmt

namespace Sound

variable {p : Program Symbol} {symbols : SymbolTable}

/-- What can be reached from a sound node is sound. -/
theorem of_reaches {n m : Node} (h : p.Sound symbols n) (hm : p.Reaches n m) :
    p.Sound symbols m where
  present hreach := h.present (hm.trans hreach)
  acyclic hreach := h.acyclic (hm.trans hreach)
  named hreach := h.named (hm.trans hreach)

theorem expr_lt {n : Node} (h : p.Sound symbols n) (i : Nat) (hi : p.Reaches n (.expr ⟨i⟩)) :
    i < p.exprs.size := by
  obtain ⟨refs, hrefs⟩ := h.present hi
  obtain ⟨expr, hexpr, -⟩ := references_expr hrefs
  exact lt_of_expr hexpr

theorem stmt_lt {n : Node} (h : p.Sound symbols n) (i : Nat) (hi : p.Reaches n (.stmt ⟨i⟩)) :
    i < p.stmts.size := by
  obtain ⟨refs, hrefs⟩ := h.present hi
  obtain ⟨stmt, -, hstmt, -⟩ := references_stmt hrefs
  exact lt_of_stmt hstmt

theorem exprRank_le {n : Node} (h : p.Sound symbols n) : p.exprRank n ≤ p.exprs.size :=
  rank_le h.expr_lt

theorem stmtRank_le {n : Node} (h : p.Sound symbols n) : p.stmtRank n ≤ p.stmts.size :=
  rank_le h.stmt_lt

theorem exprRank_pos {id : ExprId} (h : p.Sound symbols (.expr id)) : 0 < p.exprRank (.expr id) :=
  rank_pos (fun i => .expr ⟨i⟩) h.expr_lt

theorem stmtRank_pos {id : StmtId} (h : p.Sound symbols (.stmt id)) : 0 < p.stmtRank (.stmt id) :=
  rank_pos (fun i => .stmt ⟨i⟩) h.stmt_lt

/-- A sound expression is there, its names are known, and its operands are sound and of less
rank. -/
theorem expr {id : ExprId} (h : p.Sound symbols (.expr id)) :
    ∃ expr, p.expr id = .ok expr ∧ (∀ name ∈ expr.form.names, symbols.Knows name) ∧
      ∀ e ∈ expr.form.operands,
        p.Sound symbols (.expr e) ∧ p.exprRank (.expr e) < p.exprRank (.expr id) := by
  obtain ⟨refs, hrefs⟩ := h.present .refl
  obtain ⟨expr, hexpr, heq⟩ := references_expr hrefs
  have hnamed := h.named .refl
  rw [names, hexpr] at hnamed
  refine ⟨expr, hexpr, hnamed, fun e he => ?_⟩
  have hrefers : p.RefersTo (.expr id) (.expr e) :=
    ⟨refs, hrefs, heq ▸ List.mem_map_of_mem he⟩
  exact ⟨h.of_reaches (.single hrefers),
    rank_lt (fun i => .expr ⟨i⟩) h.expr_lt (h.acyclic .refl) hrefers⟩

/-- A sound statement is there, with its body if it is a block; its names are known, its expressions
are sound, and the statements inside it are sound and of less rank. -/
theorem stmt {id : StmtId} (h : p.Sound symbols (.stmt id)) :
    ∃ stmt body, p.stmt id = .ok stmt ∧ p.inner stmt.form = .ok body ∧
      (∀ name ∈ stmt.form.names, symbols.Knows name) ∧
      (∀ e ∈ stmt.form.exprs, p.Sound symbols (.expr e)) ∧
      ∀ s ∈ body, p.Sound symbols (.stmt s) ∧ p.stmtRank (.stmt s) < p.stmtRank (.stmt id) := by
  obtain ⟨refs, hrefs⟩ := h.present .refl
  obtain ⟨stmt, body, hstmt, hbody, heq⟩ := references_stmt hrefs
  have hnamed := h.named .refl
  rw [names, hstmt] at hnamed
  refine ⟨stmt, body, hstmt, hbody, hnamed, fun e he => ?_, fun s hs => ?_⟩
  · have hrefers : p.RefersTo (.stmt id) (.expr e) :=
      ⟨refs, hrefs, heq ▸ List.mem_append_left _ (List.mem_map_of_mem he)⟩
    exact h.of_reaches (.single hrefers)
  · have hrefers : p.RefersTo (.stmt id) (.stmt s) :=
      ⟨refs, hrefs, heq ▸ List.mem_append_right _ (List.mem_map_of_mem hs)⟩
    exact ⟨h.of_reaches (.single hrefers),
      rank_lt (fun i => .stmt ⟨i⟩) h.stmt_lt (h.acyclic .refl) hrefers⟩

end Sound

/-! ## Programs in order -/

/-- Whether every node of a list is there and refers to nodes further down the list only. -/
def isOrdered (p : Program N) : List Node → Bool
  | [] => true
  | n :: rest =>
    (match p.references n with
      | .ok refs => refs.all (decide <| · ∈ rest)
      | .error _ => false) && p.isOrdered rest

section isOrdered

variable {p : Program N}

theorem isOrdered_cons {n : Node} {rest : List Node} (h : p.isOrdered (n :: rest) = true) :
    (∃ refs, p.references n = .ok refs ∧ ∀ m ∈ refs, m ∈ rest) ∧ p.isOrdered rest = true := by
  rw [isOrdered, Bool.and_eq_true] at h
  refine ⟨?_, h.2⟩
  cases hrefs : p.references n with
  | error fault =>
    rw [hrefs] at h
    cases h.1
  | ok refs =>
    rw [hrefs] at h
    exact ⟨refs, rfl, fun m hm => of_decide_eq_true (List.all_eq_true.1 h.1 m hm)⟩

theorem references_of_isOrdered {nodes : List Node} (h : p.isOrdered nodes = true) {n : Node}
    (hn : n ∈ nodes) : ∃ refs, p.references n = .ok refs ∧ ∀ m ∈ refs, m ∈ nodes := by
  induction nodes with
  | nil => cases hn
  | cons first rest ih =>
    obtain ⟨⟨refs, hrefs, hmem⟩, hrest⟩ := isOrdered_cons h
    rcases List.mem_cons.1 hn with rfl | hn
    · exact ⟨refs, hrefs, fun m hm => List.mem_cons_of_mem _ (hmem m hm)⟩
    · obtain ⟨refs, hrefs, hmem⟩ := ih hrest hn
      exact ⟨refs, hrefs, fun m hm => List.mem_cons_of_mem _ (hmem m hm)⟩

theorem mem_of_reaches {nodes : List Node} (h : p.isOrdered nodes = true) {n m : Node}
    (hn : n ∈ nodes) (hreach : p.Reaches n m) : m ∈ nodes := by
  induction hreach with
  | refl => exact hn
  | tail _ hrefers ih =>
    obtain ⟨refs, hrefs, hm⟩ := hrefers
    obtain ⟨refs', hrefs', hmem⟩ := references_of_isOrdered h ih
    rw [hrefs] at hrefs'
    cases hrefs'
    exact hmem _ hm

/-- Down an ordered list every way ends. -/
theorem acc_of_isOrdered {nodes : List Node} (h : p.isOrdered nodes = true) {n : Node}
    (hn : n ∈ nodes) : Acc (fun a b => p.RefersTo b a) n := by
  induction nodes generalizing n with
  | nil => cases hn
  | cons first rest ih =>
    obtain ⟨⟨refs, hrefs, hmem⟩, hrest⟩ := isOrdered_cons h
    rcases List.mem_cons.1 hn with rfl | hn
    · refine .intro n fun m hm => ?_
      obtain ⟨refs', hrefs', hm⟩ := hm
      rw [hrefs] at hrefs'
      cases hrefs'
      exact ih hrest (hmem m hm)
    · exact ih hrest hn

theorem acyclic_of_acc {n : Node} (h : Acc (fun a b => p.RefersTo b a) n) :
    ¬ Relation.TransGen p.RefersTo n n := by
  induction h with
  | intro n _ ih =>
    intro hcycle
    obtain ⟨m, hm, hback⟩ := Relation.TransGen.head'_iff.1 hcycle
    exact ih m hm (.tail' hback hm)

end isOrdered

theorem sound_of_isOrdered {p : Program Symbol} {symbols : SymbolTable} {nodes : List Node}
    (h : p.isOrdered nodes = true) (hnamed : ∀ n ∈ nodes, ∀ name ∈ p.names n, symbols.Knows name)
    {root : Node} (hroot : root ∈ nodes) : p.Sound symbols root where
  present hreach := by
    obtain ⟨refs, hrefs, -⟩ := references_of_isOrdered h (mem_of_reaches h hroot hreach)
    exact ⟨refs, hrefs⟩
  acyclic hreach := acyclic_of_acc (acc_of_isOrdered h (mem_of_reaches h hroot hreach))
  named hreach := hnamed _ (mem_of_reaches h hroot hreach)

/-! ## Printing -/

section print

variable {p : Program Symbol} {symbols : SymbolTable}

theorem render_ok {value : Literal Symbol} (h : ∀ name ∈ value.names, symbols.Knows name) :
    ∃ text, value.render symbols = .ok text := by
  cases value with
  | nil => exact ⟨_, rfl⟩
  | bool b => exact ⟨_, rfl⟩
  | number bits => exact ⟨_, rfl⟩
  | str s => exact SymbolTable.knows_iff.1 (h s List.mem_cons_self)

theorem reversePolishWithin_ok {fuel : Nat} {id : ExprId} (h : p.Sound symbols (.expr id))
    (hfuel : p.exprRank (.expr id) ≤ fuel) :
    ∃ text, p.reversePolishWithin symbols fuel id = .ok text := by
  induction fuel generalizing id with
  | zero => exact absurd h.exprRank_pos (Nat.not_lt.2 hfuel)
  | succ fuel ih =>
    obtain ⟨⟨form, span⟩, hexpr, hnames, hoperands⟩ := h.expr
    have operand : ∀ e ∈ form.operands, ∃ text, p.reversePolishWithin symbols fuel e = .ok text :=
      fun e he => by
        obtain ⟨hsound, hrank⟩ := hoperands e he
        exact ih hsound (Nat.le_of_lt_succ (Nat.lt_of_lt_of_le hrank hfuel))
    rw [reversePolishWithin, hexpr]
    cases form with
    | literal value => exact render_ok hnames
    | reference who => exact SymbolTable.knows_iff.1 (hnames _ List.mem_cons_self)
    | assign target value =>
      obtain ⟨name, hname⟩ := SymbolTable.knows_iff.1 (hnames _ List.mem_cons_self)
      obtain ⟨text, htext⟩ := operand value List.mem_cons_self
      simp only [bind, Except.bind, hname, htext]
      exact ⟨_, rfl⟩
    | binary left op right =>
      obtain ⟨first, hfirst⟩ := operand left List.mem_cons_self
      obtain ⟨second, hsecond⟩ := operand right (List.mem_cons_of_mem _ List.mem_cons_self)
      simp only [bind, Except.bind, hfirst, hsecond]
      exact ⟨_, rfl⟩
    | logical left op right =>
      obtain ⟨first, hfirst⟩ := operand left List.mem_cons_self
      obtain ⟨second, hsecond⟩ := operand right (List.mem_cons_of_mem _ List.mem_cons_self)
      simp only [bind, Except.bind, hfirst, hsecond]
      exact ⟨_, rfl⟩
    | unary op inner =>
      obtain ⟨text, htext⟩ := operand inner List.mem_cons_self
      simp only [bind, Except.bind, htext]
      exact ⟨_, rfl⟩
    | group inner => exact operand inner List.mem_cons_self

/-- A sound expression has a text. -/
theorem reversePolish_ok {id : ExprId} (h : p.Sound symbols (.expr id)) :
    ∃ text, p.reversePolish symbols id = .ok text :=
  reversePolishWithin_ok h (Nat.le_succ_of_le h.exprRank_le)

end print

end Program

end Scoping
