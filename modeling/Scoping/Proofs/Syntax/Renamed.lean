import Mathlib.Data.List.Forall2
import Scoping.Proofs.Symbol.Naming
import Scoping.Syntax.ReversePolish

/-!
# Programs that differ in their symbols

One program is `Renamed` into another along a naming when the two are the same but for their
symbols, and each symbol of the first stands for the one in its place in the second. Nodes are
looked up in both alike: both have the node, or both fail with the same fault.

Printing spells symbols out, and so it cannot tell the two apart where the naming relates symbols
with the same text: not in the text, and not in the fault of a dangling or endless reference
(`reversePolish_renamed`).
-/

namespace Scoping

variable {R S : Naming}

/-! ## Nodes -/

structure Occurrence.Renamed (R : Naming) (who who' : Occurrence Symbol) : Prop where
  name : R who.name who'.name
  span : who.span = who'.span

inductive Literal.Renamed (R : Naming) : Literal Symbol → Literal Symbol → Prop
  | nil : Renamed R .nil .nil
  | bool (b : Bool) : Renamed R (.bool b) (.bool b)
  | number (bits : UInt64) : Renamed R (.number bits) (.number bits)
  | str {a b : Symbol} (h : R a b) : Renamed R (.str a) (.str b)

inductive ExprForm.Renamed (R : Naming) : ExprForm Symbol → ExprForm Symbol → Prop
  | literal {l l' : Literal Symbol} (h : l.Renamed R l') : Renamed R (.literal l) (.literal l')
  | reference {who who' : Occurrence Symbol} (h : who.Renamed R who') :
      Renamed R (.reference who) (.reference who')
  | assign {target target' : Occurrence Symbol} (h : target.Renamed R target') (value : ExprId) :
      Renamed R (.assign target value) (.assign target' value)
  | binary (left : ExprId) (op : BinaryOp) (right : ExprId) :
      Renamed R (.binary left op right) (.binary left op right)
  | unary (op : UnaryOp) (operand : ExprId) : Renamed R (.unary op operand) (.unary op operand)
  | logical (left : ExprId) (op : LogicalOp) (right : ExprId) :
      Renamed R (.logical left op right) (.logical left op right)
  | group (inner : ExprId) : Renamed R (.group inner) (.group inner)

structure Expr.Renamed (R : Naming) (e e' : Expr Symbol) : Prop where
  form : e.form.Renamed R e'.form
  span : e.span = e'.span

inductive StmtForm.Renamed (R : Naming) : StmtForm Symbol → StmtForm Symbol → Prop
  | expression (e : ExprId) : Renamed R (.expression e) (.expression e)
  | declare {name name' : Occurrence Symbol} (h : name.Renamed R name') (init : Option ExprId) :
      Renamed R (.declare name init) (.declare name' init)
  | block (body : StmtRange) : Renamed R (.block body) (.block body)

structure Stmt.Renamed (R : Naming) (s s' : Stmt Symbol) : Prop where
  form : s.form.Renamed R s'.form
  span : s.span = s'.span

structure Program.Renamed (R : Naming) (p q : Program Symbol) : Prop where
  exprs : List.Forall₂ (Expr.Renamed R) p.exprs.toList q.exprs.toList
  stmts : List.Forall₂ (Stmt.Renamed R) p.stmts.toList q.stmts.toList
  bodies : p.bodies = q.bodies

section mono

variable (h : R.Within S)

include h

theorem Occurrence.Renamed.mono {who who' : Occurrence Symbol} (hw : who.Renamed R who') :
    who.Renamed S who' :=
  ⟨h hw.name, hw.span⟩

theorem Literal.Renamed.mono {l l' : Literal Symbol} (hl : l.Renamed R l') : l.Renamed S l' := by
  cases hl with
  | nil => exact .nil
  | bool b => exact .bool b
  | number bits => exact .number bits
  | str hab => exact .str (h hab)

theorem ExprForm.Renamed.mono {f f' : ExprForm Symbol} (hf : f.Renamed R f') :
    f.Renamed S f' := by
  cases hf with
  | literal hl => exact .literal (hl.mono h)
  | reference hw => exact .reference (hw.mono h)
  | assign hw value => exact .assign (hw.mono h) value
  | binary left op right => exact .binary left op right
  | unary op operand => exact .unary op operand
  | logical left op right => exact .logical left op right
  | group inner => exact .group inner

theorem StmtForm.Renamed.mono {f f' : StmtForm Symbol} (hf : f.Renamed R f') :
    f.Renamed S f' := by
  cases hf with
  | expression e => exact .expression e
  | declare hw init => exact .declare (hw.mono h) init
  | block body => exact .block body

theorem Program.Renamed.mono {p q : Program Symbol} (hp : p.Renamed R q) : p.Renamed S q where
  exprs := hp.exprs.imp fun _ _ he => ⟨he.form.mono h, he.span⟩
  stmts := hp.stmts.imp fun _ _ hs => ⟨hs.form.mono h, hs.span⟩
  bodies := hp.bodies

end mono

/-! ## Looking nodes up -/

theorem slot_of_forall₂ {A B : Type} {r : A → B → Prop} {as : Array A} {bs : Array B}
    (h : List.Forall₂ r as.toList bs.toList) (index : Nat) :
    (∃ a b, slot as index = .ok a ∧ slot bs index = .ok b ∧ r a b) ∨
      ∃ size, slot as index = .error (.outOfRange size index) ∧
        slot bs index = .error (.outOfRange size index) := by
  have hsize : as.size = bs.size := h.length_eq
  rcases Nat.lt_or_ge index as.size with hlt | hge
  · have hlt' : index < bs.size := hsize ▸ hlt
    exact .inl ⟨_, _, slot_of_lt hlt, slot_of_lt hlt', h.get hlt hlt'⟩
  · refine .inr ⟨as.size, slot_of_size_le hge, ?_⟩
    rw [hsize] at hge ⊢
    exact slot_of_size_le hge

namespace Program.Renamed

variable {p q : Program Symbol} (h : p.Renamed R q)

include h

theorem expr (id : ExprId) :
    (∃ e e', p.expr id = .ok e ∧ q.expr id = .ok e' ∧ e.Renamed R e') ∨
      ∃ size, p.expr id = .error (.outOfRange size id.index) ∧
        q.expr id = .error (.outOfRange size id.index) :=
  slot_of_forall₂ h.exprs id.index

theorem stmt (id : StmtId) :
    (∃ s s', p.stmt id = .ok s ∧ q.stmt id = .ok s' ∧ s.Renamed R s') ∨
      ∃ size, p.stmt id = .error (.outOfRange size id.index) ∧
        q.stmt id = .error (.outOfRange size id.index) :=
  slot_of_forall₂ h.stmts id.index

theorem body_eq (r : StmtRange) : p.body r = q.body r := by
  rw [Program.body, Program.body, h.bodies]

theorem size_exprs : p.exprs.size = q.exprs.size := h.exprs.length_eq

theorem size_stmts : p.stmts.size = q.stmts.size := h.stmts.length_eq

end Program.Renamed

/-! ## Printing -/

variable {t u : SymbolTable}

theorem Literal.render_renamed {l l' : Literal Symbol} (h : l.Renamed (t.SameText u) l') :
    l.render t = l'.render u := by
  cases h with
  | nil => rfl
  | bool b => rfl
  | number bits => rfl
  | str h => exact h.text_eq

namespace Program

variable {p q : Program Symbol} (h : p.Renamed (t.SameText u) q)

include h

theorem reversePolishWithin_renamed (fuel : Nat) (id : ExprId) :
    p.reversePolishWithin t fuel id = q.reversePolishWithin u fuel id := by
  induction fuel generalizing id with
  | zero => rfl
  | succ fuel ih =>
    rw [reversePolishWithin, reversePolishWithin]
    rcases h.expr id with ⟨e, e', he, he', hform, -⟩ | ⟨size, hp, hq⟩
    · obtain ⟨form, span⟩ := e
      obtain ⟨form', span'⟩ := e'
      simp only [he, he', bind, Except.bind]
      cases hform with
      | literal hl => exact Literal.render_renamed hl
      | reference hw => exact hw.name.text_eq
      | assign hw value => simp only [hw.name.text_eq, ih]
      | binary left op right => simp only [ih]
      | unary op operand => simp only [ih]
      | logical left op right => simp only [ih]
      | group inner => exact ih inner
    · rw [hp, hq]
      rfl

/-- Every expression prints the same, in text and in fault, whatever the numbers of the names. -/
theorem reversePolish_renamed (id : ExprId) : p.reversePolish t id = q.reversePolish u id := by
  rw [reversePolish, reversePolish, h.size_exprs]
  exact reversePolishWithin_renamed h _ id

end Program

end Scoping
