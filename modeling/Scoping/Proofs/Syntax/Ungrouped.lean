import Scoping.Proofs.Syntax.Reach

/-!
# Programs whose references pass groups by

A group stands for the expression inside it. Following groups inwards ends, where no expression is
inside itself, at an expression that is not a group, the core (`isCore_core`). The ungrouped program
has every reference to an expression led on to the core; the groups stay where they are, so that all
positions keep their meaning.
-/

namespace Scoping

variable {N : Type}

theorem slot_map {A B : Type} (f : A → B) (entries : Array A) (index : Nat) :
    slot (entries.map f) index = f <$> slot entries index := by
  simp only [slot, Array.getElem?_map, Array.size_map]
  cases entries[index]? <;> rfl

/-! ## References that lead elsewhere -/

section redirect

variable (f : ExprId → ExprId)

def ExprForm.redirect : ExprForm N → ExprForm N
  | .literal value => .literal value
  | .reference who => .reference who
  | .assign target value => .assign target (f value)
  | .binary left op right => .binary (f left) op (f right)
  | .unary op operand => .unary op (f operand)
  | .logical left op right => .logical (f left) op (f right)
  | .group inner => .group (f inner)

@[simp]
theorem ExprForm.operands_redirect (form : ExprForm N) :
    (form.redirect f).operands = form.operands.map f := by
  cases form <;> rfl

def Expr.redirect (expr : Expr N) : Expr N := ⟨expr.form.redirect f, expr.span⟩

def StmtForm.redirect : StmtForm N → StmtForm N
  | .expression e => .expression (f e)
  | .declare name init => .declare name (init.map f)
  | .block body => .block body

def Stmt.redirect (stmt : Stmt N) : Stmt N := ⟨stmt.form.redirect f, stmt.span⟩

namespace Program

variable (p : Program N)

/-- The same nodes at the same positions, with every reference to an expression led elsewhere. -/
def redirect : Program N where
  exprs := p.exprs.map (Expr.redirect f)
  stmts := p.stmts.map (Stmt.redirect f)
  bodies := p.bodies

theorem expr_redirect (id : ExprId) : (p.redirect f).expr id = Expr.redirect f <$> p.expr id :=
  slot_map (Expr.redirect f) p.exprs id.index

theorem stmt_redirect (id : StmtId) : (p.redirect f).stmt id = Stmt.redirect f <$> p.stmt id :=
  slot_map (Stmt.redirect f) p.stmts id.index

theorem body_redirect (r : StmtRange) : (p.redirect f).body r = p.body r := rfl

end Program

end redirect

/-! ## Expressions inside themselves -/

namespace Program

variable {p : Program N}

/-- No expression is inside itself. -/
def Acyclic (p : Program N) : Prop :=
  ∀ id, ¬ Relation.TransGen p.RefersTo (.expr id) (.expr id)

theorem Acyclic.shallow (h : p.Acyclic) (id : ExprId) :
    p.Shallow (.expr ⟨·⟩) (p.exprs.size + 1) id.index :=
  shallow_of_acyclic lt_of_refersTo_expr fun _ => h _

/-- A program whose operands are listed before the expressions they belong to. -/
theorem acyclic_of_backward
    (h : ∀ i, (hi : i < p.exprs.size) → ∀ e ∈ p.exprs[i].form.operands, e.index < i) :
    p.Acyclic := by
  have hback : ∀ {id n}, p.RefersTo (.expr id) n →
      ∃ e : ExprId, n = .expr e ∧ e.index < id.index := by
    rintro id n ⟨refs, hrefs, hn⟩
    obtain ⟨expr, hexpr, rfl⟩ := references_expr hrefs
    obtain ⟨e, he, rfl⟩ := List.mem_map.1 hn
    obtain ⟨hlt, hat⟩ := Array.getElem?_eq_some_iff.1 (slot_eq_ok_iff.1 hexpr)
    exact ⟨e, rfl, h id.index hlt e (hat ▸ he)⟩
  have hdown : ∀ {id n}, Relation.TransGen p.RefersTo (.expr id) n →
      ∃ e : ExprId, n = .expr e ∧ e.index < id.index := by
    intro id n hpath
    induction hpath with
    | single hstep => exact hback hstep
    | tail _ hstep ih =>
      obtain ⟨e, rfl, he⟩ := ih
      obtain ⟨e', rfl, he'⟩ := hback hstep
      exact ⟨e', rfl, Nat.lt_trans he' he⟩
  intro id hcycle
  obtain ⟨e, heq, hlt⟩ := hdown hcycle
  cases heq
  exact Nat.lt_irrefl _ hlt

/-! ## Cores -/

/-- An expression is a group around another. -/
def Wraps (p : Program N) (id inner : ExprId) : Prop :=
  ∃ span, p.expr id = .ok ⟨.group inner, span⟩

/-- The first expression on the way inwards that is not a group. -/
def IsCore (p : Program N) (id core : ExprId) : Prop :=
  Relation.ReflTransGen p.Wraps id core ∧ ∀ inner, ¬ p.Wraps core inner

/-- The way inwards, up to some number of groups. -/
def coreWithin (p : Program N) : Nat → ExprId → ExprId
  | 0, id => id
  | fuel + 1, id =>
    match p.expr id with
    | .ok ⟨.group inner, _⟩ => p.coreWithin fuel inner
    | _ => id

/-- There are no more groups to pass than there are expressions. -/
def core (p : Program N) (id : ExprId) : ExprId := p.coreWithin p.exprs.size id

def ungrouped (p : Program N) : Program N := p.redirect p.core

theorem Wraps.refersTo {id inner : ExprId} (h : p.Wraps id inner) :
    p.RefersTo (.expr id) (.expr inner) := by
  obtain ⟨span, hexpr⟩ := h
  exact refersTo_operand hexpr List.mem_cons_self

theorem coreWithin_of_wraps {id inner : ExprId} (h : p.Wraps id inner) (fuel : Nat) :
    p.coreWithin (fuel + 1) id = p.coreWithin fuel inner := by
  obtain ⟨span, hexpr⟩ := h
  simp only [coreWithin, hexpr]

theorem coreWithin_of_not_wraps {id : ExprId} (h : ∀ inner, ¬ p.Wraps id inner) (fuel : Nat) :
    p.coreWithin fuel id = id := by
  cases fuel with
  | zero => rfl
  | succ fuel =>
    rw [coreWithin]
    split
    next inner span hexpr => exact absurd ⟨span, hexpr⟩ (h inner)
    next => rfl

theorem isCore_coreWithin {fuel : Nat} {id : ExprId}
    (h : p.Shallow (.expr ⟨·⟩) (fuel + 1) id.index) : p.IsCore id (p.coreWithin fuel id) := by
  induction fuel generalizing id with
  | zero => exact ⟨.refl, fun inner hwraps => h inner.index hwraps.refersTo⟩
  | succ fuel ih =>
    by_cases hgroup : ∃ inner, p.Wraps id inner
    · obtain ⟨inner, hwraps⟩ := hgroup
      have hcore := ih (h inner.index hwraps.refersTo)
      rw [coreWithin_of_wraps hwraps]
      exact ⟨.head hwraps hcore.1, hcore.2⟩
    · have hlast : ∀ inner, ¬ p.Wraps id inner := not_exists.1 hgroup
      rw [coreWithin_of_not_wraps hlast]
      exact ⟨.refl, hlast⟩

theorem isCore_core (h : p.Acyclic) (id : ExprId) : p.IsCore id (p.core id) :=
  isCore_coreWithin (h.shallow id)

end Program

end Scoping
