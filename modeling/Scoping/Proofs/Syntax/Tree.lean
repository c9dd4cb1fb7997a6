import Scoping.Proofs.Syntax.Reach

/-!
# Expressions as trees

A program stores expressions as nodes that refer to each other by position. A node `Unfolds` to a
tree when following the references from it comes to an end everywhere: the tree has the node's form
with the texts of its names, and the trees of its operands inside. Two nodes may share operands, and
nothing is said of the nodes beside those that are followed.

A node that unfolds is sound (`Unfolds.sound`), so that it prints; and what it prints is the text of
its tree, in which the parentheses have left no trace (`Unfolds.reversePolish_eq`). No other node
prints at all (`reversePolish_eq_ok_iff`).
-/

namespace Scoping

/-- An expression as a finite tree, with names as they are written. -/
inductive Tree where
  | literal (value : Literal String)
  | reference (name : String)
  | assign (name : String) (value : Tree)
  | binary (left : Tree) (op : BinaryOp) (right : Tree)
  | unary (op : UnaryOp) (operand : Tree)
  | logical (left : Tree) (op : LogicalOp) (right : Tree)
  | group (inner : Tree)
deriving DecidableEq

def Literal.text : Literal String → String
  | .nil => "nil"
  | .bool b => if b then "true" else "false"
  | .number bits => doubleText bits
  | .str s => s

namespace Tree

/-- The tree without parentheses. -/
def bare : Tree → Tree
  | literal value => literal value
  | reference name => reference name
  | assign name value => assign name value.bare
  | binary left op right => binary left.bare op right.bare
  | unary op operand => unary op operand.bare
  | logical left op right => logical left.bare op right.bare
  | group inner => inner.bare

/-- The tree in reverse Polish form. -/
def text : Tree → String
  | literal value => value.text
  | reference name => name
  | assign name value => name ++ " " ++ value.text ++ " ="
  | binary left op right => left.text ++ " " ++ right.text ++ " " ++ op.symbol
  | unary op operand => operand.text ++ op.symbol
  | logical left op right => left.text ++ " " ++ right.text ++ " " ++ op.symbol
  | group inner => inner.text

theorem text_bare (tree : Tree) : tree.bare.text = tree.text := by
  induction tree with
  | literal value => rfl
  | reference name => rfl
  | assign name value ih => rw [bare, text, text, ih]
  | binary left op right ihl ihr => rw [bare, text, text, ihl, ihr]
  | unary op operand ih => rw [bare, text, text, ih]
  | logical left op right ihl ihr => rw [bare, text, text, ihl, ihr]
  | group inner ih => exact ih

end Tree

namespace Program

/-- The tree that a node unfolds to. -/
inductive Unfolds (p : Program Symbol) (symbols : SymbolTable) : ExprId → Tree → Prop
  | literal {id : ExprId} {l : Literal Symbol} {span : Span} {value : Literal String}
      (h : p.expr id = .ok ⟨.literal l, span⟩) (hvalue : l.traverse symbols.text = .ok value) :
      Unfolds p symbols id (.literal value)
  | reference {id : ExprId} {who : Occurrence Symbol} {span : Span} {name : String}
      (h : p.expr id = .ok ⟨.reference who, span⟩) (hname : symbols.text who.name = .ok name) :
      Unfolds p symbols id (.reference name)
  | assign {id value : ExprId} {target : Occurrence Symbol} {span : Span} {name : String}
      {tree : Tree} (h : p.expr id = .ok ⟨.assign target value, span⟩)
      (hname : symbols.text target.name = .ok name) (hvalue : Unfolds p symbols value tree) :
      Unfolds p symbols id (.assign name tree)
  | binary {id left right : ExprId} {op : BinaryOp} {span : Span} {l r : Tree}
      (h : p.expr id = .ok ⟨.binary left op right, span⟩) (hleft : Unfolds p symbols left l)
      (hright : Unfolds p symbols right r) : Unfolds p symbols id (.binary l op r)
  | unary {id operand : ExprId} {op : UnaryOp} {span : Span} {tree : Tree}
      (h : p.expr id = .ok ⟨.unary op operand, span⟩) (hoperand : Unfolds p symbols operand tree) :
      Unfolds p symbols id (.unary op tree)
  | logical {id left right : ExprId} {op : LogicalOp} {span : Span} {l r : Tree}
      (h : p.expr id = .ok ⟨.logical left op right, span⟩) (hleft : Unfolds p symbols left l)
      (hright : Unfolds p symbols right r) : Unfolds p symbols id (.logical l op r)
  | group {id inner : ExprId} {span : Span} {tree : Tree}
      (h : p.expr id = .ok ⟨.group inner, span⟩) (hinner : Unfolds p symbols inner tree) :
      Unfolds p symbols id (.group tree)

/-! ## What unfolds is sound -/

theorem refersTo_expr {N : Type} {p : Program N} {id : ExprId} {expr : Expr N} {n : Node}
    (hexpr : p.expr id = .ok expr) (h : p.RefersTo (.expr id) n) :
    ∃ e ∈ expr.form.operands, n = .expr e := by
  obtain ⟨refs, hrefs, hn⟩ := h
  obtain ⟨expr', hexpr', rfl⟩ := references_expr hrefs
  cases hexpr.symm.trans hexpr'
  obtain ⟨e, he, rfl⟩ := List.mem_map.1 hn
  exact ⟨e, he, rfl⟩

theorem text_of_traverse {symbols : SymbolTable} {s : Symbol} {value : Literal String}
    (h : (Literal.str s).traverse symbols.text = .ok value) : symbols.text s = .ok value.text := by
  cases htext : symbols.text s with
  | ok text =>
    simp only [Literal.traverse, htext] at h
    cases h
    rfl
  | error fault =>
    simp only [Literal.traverse, htext] at h
    cases h

theorem names_of_traverse {symbols : SymbolTable} {l : Literal Symbol} {value : Literal String}
    (h : l.traverse symbols.text = .ok value) : ∀ name ∈ l.names, symbols.Knows name := by
  cases l with
  | str s => exact List.forall_mem_singleton.2 (SymbolTable.knows_iff.2 ⟨_, text_of_traverse h⟩)
  | _ => nofun

theorem render_of_traverse {symbols : SymbolTable} {l : Literal Symbol} {value : Literal String}
    (h : l.traverse symbols.text = .ok value) : l.render symbols = .ok value.text := by
  cases l with
  | str s => exact text_of_traverse h
  | _ =>
    cases h
    rfl

theorem traverse_of_render {symbols : SymbolTable} {l : Literal Symbol} {text : String}
    (h : l.render symbols = .ok text) : ∃ value, l.traverse symbols.text = .ok value := by
  cases l with
  | str s =>
    refine ⟨.str text, ?_⟩
    rw [Literal.traverse, show symbols.text s = .ok text from h]
    rfl
  | _ => exact ⟨_, rfl⟩

namespace Unfolds

variable {p : Program Symbol} {symbols : SymbolTable} {id : ExprId} {tree : Tree}

/-- A node that unfolds is there, its names are known, and its operands unfold. -/
theorem node (h : p.Unfolds symbols id tree) : ∃ expr, p.expr id = .ok expr ∧
    (∀ name ∈ expr.form.names, symbols.Knows name) ∧
    ∀ e ∈ expr.form.operands, ∃ inner, p.Unfolds symbols e inner := by
  cases h with
  | literal h hvalue => exact ⟨_, h, names_of_traverse hvalue, nofun⟩
  | reference h hname =>
    exact ⟨_, h, List.forall_mem_singleton.2 (SymbolTable.knows_iff.2 ⟨_, hname⟩), nofun⟩
  | assign h hname hvalue =>
    exact ⟨_, h, List.forall_mem_singleton.2 (SymbolTable.knows_iff.2 ⟨_, hname⟩),
      List.forall_mem_singleton.2 ⟨_, hvalue⟩⟩
  | binary h hleft hright =>
    refine ⟨_, h, nofun, List.forall_mem_cons.2 ⟨⟨_, hleft⟩, ?_⟩⟩
    exact List.forall_mem_singleton.2 ⟨_, hright⟩
  | unary h hoperand => exact ⟨_, h, nofun, List.forall_mem_singleton.2 ⟨_, hoperand⟩⟩
  | logical h hleft hright =>
    refine ⟨_, h, nofun, List.forall_mem_cons.2 ⟨⟨_, hleft⟩, ?_⟩⟩
    exact List.forall_mem_singleton.2 ⟨_, hright⟩
  | group h hinner => exact ⟨_, h, nofun, List.forall_mem_singleton.2 ⟨_, hinner⟩⟩

theorem of_reaches (h : p.Unfolds symbols id tree) {n : Node} (hn : p.Reaches (.expr id) n) :
    ∃ e inner, n = .expr e ∧ p.Unfolds symbols e inner := by
  induction hn with
  | refl => exact ⟨id, tree, rfl, h⟩
  | tail _ hrefers ih =>
    obtain ⟨e, inner, rfl, he⟩ := ih
    obtain ⟨expr, hexpr, -, hoperands⟩ := he.node
    obtain ⟨e', he', rfl⟩ := refersTo_expr hexpr hrefers
    obtain ⟨inner', hinner'⟩ := hoperands e' he'
    exact ⟨e', inner', rfl, hinner'⟩

/-- The references from a node lead down its tree, and so they end. -/
theorem acc (h : p.Unfolds symbols id tree) : Acc (fun a b => p.RefersTo b a) (.expr id) := by
  have step : ∀ {id : ExprId} {expr : Expr Symbol}, p.expr id = .ok expr →
      (∀ e ∈ expr.form.operands, Acc (fun a b => p.RefersTo b a) (.expr e)) →
      Acc (fun a b => p.RefersTo b a) (.expr id) := by
    intro id expr hexpr hoperands
    refine .intro _ fun n hn => ?_
    obtain ⟨e, he, rfl⟩ := refersTo_expr hexpr hn
    exact hoperands e he
  induction h with
  | literal h _ => exact step h nofun
  | reference h _ => exact step h nofun
  | assign h _ _ ih => exact step h (List.forall_mem_singleton.2 ih)
  | binary h _ _ ihl ihr =>
    exact step h (List.forall_mem_cons.2 ⟨ihl, List.forall_mem_singleton.2 ihr⟩)
  | unary h _ ih => exact step h (List.forall_mem_singleton.2 ih)
  | logical h _ _ ihl ihr =>
    exact step h (List.forall_mem_cons.2 ⟨ihl, List.forall_mem_singleton.2 ihr⟩)
  | group h _ ih => exact step h (List.forall_mem_singleton.2 ih)

theorem sound (h : p.Unfolds symbols id tree) : p.Sound symbols (.expr id) where
  present hreach := by
    obtain ⟨e, inner, rfl, he⟩ := h.of_reaches hreach
    obtain ⟨expr, hexpr, -⟩ := he.node
    rw [references, hexpr]
    exact ⟨_, rfl⟩
  acyclic hreach := by
    obtain ⟨e, inner, rfl, he⟩ := h.of_reaches hreach
    exact acyclic_of_acc he.acc
  named hreach := by
    obtain ⟨e, inner, rfl, he⟩ := h.of_reaches hreach
    obtain ⟨expr, hexpr, hnames, -⟩ := he.node
    rw [names, hexpr]
    exact hnames

/-! ## What is printed -/

/-- Whatever fuel is enough to print a node, it prints its tree. -/
theorem text_eq (h : p.Unfolds symbols id tree) {fuel : Nat} {text : String}
    (htext : p.reversePolishWithin symbols fuel id = .ok text) : text = tree.text := by
  induction fuel generalizing id tree text with
  | zero => cases htext
  | succ fuel ih =>
    unfold reversePolishWithin at htext
    cases h with
    | literal h hvalue =>
      rw [h] at htext
      exact Except.ok.inj (htext.symm.trans (render_of_traverse hvalue))
    | reference h hname =>
      rw [h] at htext
      exact Except.ok.inj (htext.symm.trans hname)
    | assign h hname hvalue =>
      simp only [h, hname, bind, Except.bind] at htext
      obtain ⟨value, hprinted, heq⟩ := bind_eq_ok htext
      cases heq
      rw [Tree.text, ih hvalue hprinted]
    | binary h hleft hright =>
      simp only [h, bind, Except.bind] at htext
      obtain ⟨left, hprinted, hrest⟩ := bind_eq_ok htext
      obtain ⟨right, hprinted', heq⟩ := bind_eq_ok hrest
      cases heq
      rw [Tree.text, ih hleft hprinted, ih hright hprinted']
    | unary h hoperand =>
      simp only [h, bind, Except.bind] at htext
      obtain ⟨operand, hprinted, heq⟩ := bind_eq_ok htext
      cases heq
      rw [Tree.text, ih hoperand hprinted]
    | logical h hleft hright =>
      simp only [h, bind, Except.bind] at htext
      obtain ⟨left, hprinted, hrest⟩ := bind_eq_ok htext
      obtain ⟨right, hprinted', heq⟩ := bind_eq_ok hrest
      cases heq
      rw [Tree.text, ih hleft hprinted, ih hright hprinted']
    | group h hinner =>
      rw [h] at htext
      exact ih hinner htext

theorem reversePolish_eq (h : p.Unfolds symbols id tree) :
    p.reversePolish symbols id = .ok tree.text := by
  obtain ⟨text, htext⟩ := reversePolish_ok h.sound
  rw [htext, h.text_eq htext]

end Unfolds

/-- A node that prints unfolds. -/
theorem exists_unfolds {p : Program Symbol} {symbols : SymbolTable} {fuel : Nat} {id : ExprId}
    {text : String} (h : p.reversePolishWithin symbols fuel id = .ok text) :
    ∃ tree, p.Unfolds symbols id tree := by
  induction fuel generalizing id text with
  | zero => cases h
  | succ fuel ih =>
    unfold reversePolishWithin at h
    obtain ⟨⟨form, span⟩, hexpr, hrest⟩ := bind_eq_ok h
    cases form with
    | literal l =>
      obtain ⟨value, hvalue⟩ := traverse_of_render hrest
      exact ⟨_, .literal hexpr hvalue⟩
    | reference who => exact ⟨_, .reference hexpr hrest⟩
    | assign target value =>
      obtain ⟨name, hname, hrest⟩ := bind_eq_ok hrest
      obtain ⟨_, hvalue, -⟩ := bind_eq_ok hrest
      obtain ⟨tree, htree⟩ := ih hvalue
      exact ⟨_, .assign hexpr hname htree⟩
    | binary left op right =>
      obtain ⟨_, hleft, hrest⟩ := bind_eq_ok hrest
      obtain ⟨_, hright, -⟩ := bind_eq_ok hrest
      obtain ⟨l, hl⟩ := ih hleft
      obtain ⟨r, hr⟩ := ih hright
      exact ⟨_, .binary hexpr hl hr⟩
    | unary op operand =>
      obtain ⟨_, hoperand, -⟩ := bind_eq_ok hrest
      obtain ⟨tree, htree⟩ := ih hoperand
      exact ⟨_, .unary hexpr htree⟩
    | logical left op right =>
      obtain ⟨_, hleft, hrest⟩ := bind_eq_ok hrest
      obtain ⟨_, hright, -⟩ := bind_eq_ok hrest
      obtain ⟨l, hl⟩ := ih hleft
      obtain ⟨r, hr⟩ := ih hright
      exact ⟨_, .logical hexpr hl hr⟩
    | group inner =>
      obtain ⟨tree, htree⟩ := ih hrest
      exact ⟨_, .group hexpr htree⟩

/-- An expression prints exactly when it unfolds, and then it prints its tree. -/
theorem reversePolish_eq_ok_iff {p : Program Symbol} {symbols : SymbolTable} {id : ExprId}
    {text : String} : p.reversePolish symbols id = .ok text ↔
      ∃ tree, p.Unfolds symbols id tree ∧ tree.text = text := by
  constructor
  · intro h
    obtain ⟨tree, htree⟩ := exists_unfolds h
    exact ⟨tree, htree, (htree.text_eq h).symm⟩
  · rintro ⟨tree, htree, rfl⟩
    exact htree.reversePolish_eq

end Program

end Scoping
