import Scoping.Proofs.Run.Levels
import Scoping.Proofs.Syntax.Ungrouped

/-!
# Groups make no difference to a run

A group does nothing of its own: it looks no distance up, its place is in no error, and its value is
the value of what is inside it. So an expression is evaluated as what is inside its groups, as long
as there are levels enough (`evaluateWithin_inward`), and the core of an expression in the ungrouped
program as the expression itself (`evaluate_core`). Passing groups by takes fewer levels, which
makes no difference where no expression is inside itself. A program does what the ungrouped program
does, computation by computation (`perform_ungrouped`).
-/

namespace Scoping

namespace Script

def ungrouped (x : Script) : Script := { x with program := x.program.ungrouped }

variable (x : Script)

/-! ## Expressions -/

theorem evaluateWithin_group {fuel : Nat} {id inner : ExprId} (h : x.program.Wraps id inner) :
    x.evaluateWithin (fuel + 1) id = x.evaluateWithin fuel inner := by
  obtain ⟨span, hexpr⟩ := h
  rw [evaluateWithin, hexpr, Run.ofFault_ok_bind]

/-- What is some groups further in has enough levels too, and is evaluated to the same. -/
theorem evaluateWithin_inward {fuel : Nat} {id core : ExprId}
    (hpath : Relation.ReflTransGen x.program.Wraps id core)
    (h : x.program.Shallow (.expr ⟨·⟩) fuel id.index) :
    x.program.Shallow (.expr ⟨·⟩) fuel core.index ∧
      x.evaluateWithin fuel core = x.evaluateWithin fuel id := by
  induction hpath with
  | refl => exact ⟨h, rfl⟩
  | @tail group inner _ hwraps ih =>
    obtain ⟨hgroup, hsame⟩ := ih
    cases fuel with
    | zero => exact hgroup.elim
    | succ fuel =>
      have hinner : x.program.Shallow (.expr ⟨·⟩) fuel inner.index :=
        hgroup inner.index hwraps.refersTo
      refine ⟨hinner.mono (Nat.le_succ fuel), ?_⟩
      calc x.evaluateWithin (fuel + 1) inner
          = x.evaluateWithin fuel inner :=
            (x.evaluateWithin_enough (Nat.le_succ fuel) hinner).symm
        _ = x.evaluateWithin (fuel + 1) group := (x.evaluateWithin_group hwraps).symm
        _ = x.evaluateWithin (fuel + 1) id := hsame

/-- Redirecting the operands of a node leaves its own operation as it is. -/
theorem own_redirect (f : ExprId → ExprId) (id : ExprId) (expr : Expr Symbol)
    (operands : List Value) :
    x.ungrouped.own id (expr.redirect f) operands = x.own id expr operands := by
  obtain ⟨form, span⟩ := expr
  cases form <;> rcases operands with _ | ⟨_, _ | ⟨_, _ | ⟨_, _⟩⟩⟩ <;> rfl

theorem decides_redirect (f : ExprId → ExprId) (form : ExprForm Symbol) :
    (form.redirect f).decides = form.decides := by
  cases form <;> rfl

variable {x} (h : x.program.Acyclic)

include h

theorem evaluateWithin_ungrouped {fuel : Nat} {id : ExprId}
    (hshallow : x.program.Shallow (.expr ⟨·⟩) fuel id.index) :
    x.ungrouped.evaluateWithin fuel id = x.evaluateWithin fuel id := by
  induction fuel generalizing id with
  | zero => exact hshallow.elim
  | succ fuel ih =>
    have hfetch :
        x.ungrouped.program.expr id = Expr.redirect x.program.core <$> x.program.expr id :=
      x.program.expr_redirect _ id
    rw [evaluateWithin_succ, evaluateWithin_succ, hfetch]
    cases hexpr : x.program.expr id with
    | error fault => rfl
    | ok expr =>
      have hoperands : ∀ e ∈ expr.form.operands,
          x.ungrouped.evaluateWithin fuel (x.program.core e) = x.evaluateWithin fuel e := by
        intro e he
        have hbelow : x.program.Shallow (.expr ⟨·⟩) fuel e.index :=
          hshallow e.index (Program.refersTo_operand hexpr he)
        obtain ⟨hcore, hsame⟩ := x.evaluateWithin_inward (Program.isCore_core h e).1 hbelow
        rw [ih hcore, hsame]
      show (Run.ofFault (.ok (expr.redirect x.program.core)) >>= _) = _
      rw [Run.ofFault_ok_bind, Run.ofFault_ok_bind]
      simp only [Expr.redirect, ExprForm.operands_redirect, decides_redirect,
        operandValues_map _ hoperands]
      congr 1
      funext operands
      exact x.own_redirect x.program.core id expr operands

theorem evaluate_ungrouped (id : ExprId) : x.ungrouped.evaluate id = x.evaluate id := by
  have hsize : x.ungrouped.program.exprs.size = x.program.exprs.size := Array.size_map
  rw [evaluate, evaluate, hsize]
  exact evaluateWithin_ungrouped h ((h.shallow id).mono (Nat.succ_le_succ (Nat.le_add_right _ _)))

theorem evaluate_core (id : ExprId) :
    x.ungrouped.evaluate (x.program.core id) = x.evaluate id := by
  have hshallow := (h.shallow id).mono
    (Nat.succ_le_succ (Nat.le_add_right x.program.exprs.size x.spareLevels))
  rw [evaluate_ungrouped h]
  exact (x.evaluateWithin_inward (Program.isCore_core h id).1 hshallow).2

/-! ## Statements -/

theorem executeWithin_ungrouped (fuel : Nat) (id : StmtId) :
    x.ungrouped.executeWithin fuel id = x.executeWithin fuel id := by
  induction fuel generalizing id with
  | zero => rfl
  | succ fuel ih =>
    have hfetch :
        x.ungrouped.program.stmt id = Stmt.redirect x.program.core <$> x.program.stmt id :=
      x.program.stmt_redirect _ id
    rw [executeWithin, executeWithin, hfetch]
    cases hstmt : x.program.stmt id with
    | error fault => rfl
    | ok stmt =>
      obtain ⟨form, span⟩ := stmt
      show (Run.ofFault (.ok (Stmt.redirect x.program.core ⟨form, span⟩)) >>= _) = _
      rw [Run.ofFault_ok_bind, Run.ofFault_ok_bind]
      cases form with
      | expression e => simp only [Stmt.redirect, StmtForm.redirect, evaluate_core h]
      | declare name init =>
        cases init with
        | none => rfl
        | some init =>
          simp only [Stmt.redirect, StmtForm.redirect, Option.map_some, evaluate_core h]
      | block body =>
        have hbody : x.ungrouped.program.body body = x.program.body body :=
          x.program.body_redirect _ body
        have hinner : x.ungrouped.executeWithin fuel = x.executeWithin fuel := funext ih
        simp only [Stmt.redirect, StmtForm.redirect, hbody, hinner]

theorem execute_ungrouped (id : StmtId) : x.ungrouped.execute id = x.execute id := by
  have hsize : x.ungrouped.program.stmts.size = x.program.stmts.size := Array.size_map
  rw [execute, execute, hsize]
  exact executeWithin_ungrouped h _ id

end Script

/-- Where no expression is inside itself, every expression has a core, and leading all references
on to the cores changes nothing about any computation: its end, its context and its symbols are
the same from every session. -/
theorem perform_ungrouped (x : Script) (job : Job) (h : x.program.Acyclic) :
    (∀ id, x.program.IsCore id (x.program.core id)) ∧ x.ungrouped.perform job = x.perform job := by
  refine ⟨Program.isCore_core h, ?_⟩
  cases job with
  | evaluate id => simp only [Script.perform, Script.evaluate_ungrouped h]
  | execute id => simp only [Script.perform, Script.execute_ungrouped h]
  | interpret ids =>
    have hexecute : x.ungrouped.execute = x.execute := funext (Script.execute_ungrouped h)
    simp only [Script.perform, Script.interpret, hexecute]

/-- An assignment in two pairs of parentheses, of a value in parentheses, is the operand of a
negation that fails. Distances are known for the groups too, which lead past the root. -/
theorem perform_ungrouped_nested :
    let a (span : Span) : Occurrence Symbol := ⟨⟨1⟩, span⟩
    let x : Script :=
      { program :=
          { exprs := #[⟨.literal (.bool true), ⟨15, 19⟩⟩, ⟨.group ⟨0⟩, ⟨14, 20⟩⟩,
              ⟨.assign (a ⟨10, 11⟩) ⟨1⟩, ⟨10, 20⟩⟩, ⟨.group ⟨2⟩, ⟨9, 21⟩⟩, ⟨.group ⟨3⟩, ⟨8, 22⟩⟩,
              ⟨.unary .neg ⟨4⟩, ⟨7, 22⟩⟩]
            stmts := #[⟨.declare (a ⟨4, 5⟩) none, ⟨0, 6⟩⟩, ⟨.expression ⟨5⟩, ⟨7, 23⟩⟩]
            bodies := #[] }
        distances := .ofList [(⟨2⟩, 0), (⟨3⟩, 7), (⟨4⟩, 7), (⟨1⟩, 7)]
        mode := .byDistance
        spareLevels := 0 }
    let s : Session := .new (SymbolTable.new.step (.intern "a")).2
    let job : Job := .interpret [⟨0⟩, ⟨1⟩]
    x.program.Acyclic ∧ x.program.IsCore ⟨4⟩ ⟨2⟩ ∧
      x.ungrouped.program.expr ⟨5⟩ = .ok ⟨.unary .neg ⟨2⟩, ⟨7, 22⟩⟩ ∧
      x.ungrouped.perform job = x.perform job ∧
      (x.ungrouped.perform job s).1 =
        .error (.error
          ⟨.operand "-" "a number", "operand of `-` must be a number", some ⟨7, 22⟩⟩) ∧
      (x.ungrouped.perform job s).2.context.tree.held FrameId.root ⟨1⟩ =
        some (.holds (.bool true)) := by
  intro a x s job
  have hacyclic : x.program.Acyclic := Program.acyclic_of_backward (by decide +kernel)
  have hcore : x.program.core ⟨4⟩ = ⟨2⟩ := by decide +kernel
  obtain ⟨hcores, hsame⟩ := perform_ungrouped x job hacyclic
  exact ⟨hacyclic, hcore ▸ hcores ⟨4⟩, by decide +kernel, hsame, by decide +kernel,
    by decide +kernel⟩

end Scoping
