import Scoping.Proofs.Run.Outline

/-!
# Levels do not matter to an answer

Evaluation and execution count the levels that they go down, and give up when there is none left.
A computation that does not give up does exactly what it does with more levels to spare
(`perform_asFar`). A block whose body gives up does so itself, because the scope around the body can
always be closed; this is why only well-formed contexts are looked at.

Where no statement is inside itself, the levels that a script allows for are enough to get to the
bottom of all blocks, whatever values there are (`execute_enough`).
-/

namespace Scoping

variable {A B : Type}

namespace Run

/-- Unless the first computation runs out of levels, the second one does the same. -/
def AsFar (m m' : Run A) : Prop :=
  ∀ s, s.context.WF → (m s).1 ≠ .error (.fault .endless) → m' s = m s

namespace AsFar

theorem refl (m : Run A) : AsFar m m := fun _ _ _ => rfl

theorem bind {m m' : Run A} {k k' : A → Run B} (hm : AsFar m m') (hkeeps : Keeps SameOutline m)
    (hk : ∀ a, AsFar (k a) (k' a)) : AsFar (m >>= k) (m' >>= k') := by
  intro s wf hne
  have wf' := (hkeeps s wf).1
  cases hs : m s with
  | mk result t =>
    rw [hs] at wf'
    cases result with
    | error i =>
      rw [bind_of_error hs] at hne ⊢
      have hi : i ≠ .fault .endless := fun h => hne (congrArg Except.error h)
      have hsame := hm s wf (by rw [hs]; exact fun h => hi (Except.error.inj h))
      exact bind_of_error (hsame.trans hs)
    | ok a =>
      rw [bind_of_ok hs] at hne ⊢
      have hsame := hm s wf (by rw [hs]; nofun)
      rw [bind_of_ok (hsame.trans hs)]
      exact hk a t wf' hne

theorem forM {f f' : B → Run Unit} (hf : ∀ b, AsFar (f b) (f' b))
    (hkeeps : ∀ b, Keeps SameOutline (f b)) (l : List B) : AsFar (l.forM f) (l.forM f') := by
  induction l with
  | nil => exact .refl _
  | cons b l ih => exact .bind (hf b) (hkeeps b) fun _ => ih

theorem inScope {body body' : Run Unit} (h : AsFar body body') (hkeeps : Keeps SameOutline body) :
    AsFar (Run.inScope body) (Run.inScope body') := by
  intro s wf hne
  obtain ⟨t, hrun, -⟩ := inScope_closed hkeeps wf
  rw [hrun] at hne
  exact inScope_congr wf (h s.opened (Session.opened_wf wf) hne)

end AsFar

end Run

/-! ## Whole runs -/

namespace Script

def withSpare (x : Script) (levels : Nat) : Script := { x with spareLevels := levels }

variable (x : Script) {spare : Nat}

theorem operandValues_asFar {fuel more : Nat} (decides : Value → Bool) (ids : List ExprId)
    (h : ∀ id, Run.AsFar (x.evaluateWithin fuel id) ((x.withSpare spare).evaluateWithin more id)) :
    Run.AsFar (x.operandValues fuel decides ids)
      ((x.withSpare spare).operandValues more decides ids) := by
  have respects := SameOutline.respects x
  induction ids with
  | nil => exact .refl _
  | cons id ids ih =>
    refine .bind (h id) (respects.evaluateWithin fuel id) fun value => ?_
    cases decides value with
    | true => exact .refl _
    | false => exact .bind ih (respects.operandValues fuel decides ids) fun _ => .refl _

/-- The value of an expression is its value within any larger number of levels. -/
theorem evaluateWithin_asFar {fuel more : Nat} (hle : fuel ≤ more) (id : ExprId) :
    Run.AsFar (x.evaluateWithin fuel id) ((x.withSpare spare).evaluateWithin more id) := by
  induction fuel generalizing more id with
  | zero => exact fun _ _ hne => absurd rfl hne
  | succ fuel ih =>
    obtain ⟨more, rfl⟩ : ∃ n, more = n + 1 := ⟨more - 1, by omega⟩
    have respects := SameOutline.respects x
    rw [evaluateWithin_succ, evaluateWithin_succ]
    refine .bind (.refl _) (respects.quiet fun _ => rfl) fun expr => ?_
    have hoperands := x.operandValues_asFar expr.form.decides expr.form.operands
      (ih (Nat.le_of_succ_le_succ hle))
    exact .bind hoperands (respects.operandValues fuel _ _) fun values => .refl _

section spare

variable (hspare : x.spareLevels ≤ spare)

include hspare

theorem evaluate_asFar (id : ExprId) :
    Run.AsFar (x.evaluate id) ((x.withSpare spare).evaluate id) :=
  x.evaluateWithin_asFar (Nat.succ_le_succ (Nat.add_le_add_left hspare _)) id

/-- The end of a statement is its end within any larger number of levels. -/
theorem executeWithin_asFar {fuel more : Nat} (hle : fuel ≤ more) (id : StmtId) :
    Run.AsFar (x.executeWithin fuel id) ((x.withSpare spare).executeWithin more id) := by
  induction fuel generalizing more id with
  | zero => exact fun _ _ hne => absurd rfl hne
  | succ fuel ih =>
    obtain ⟨more, rfl⟩ : ∃ n, more = n + 1 := ⟨more - 1, by omega⟩
    have respects := SameOutline.respects x
    rw [executeWithin, executeWithin]
    refine .bind (.refl _) (respects.quiet fun _ => rfl) fun stmt => ?_
    obtain ⟨form, span⟩ := stmt
    cases form with
    | expression e =>
      exact .bind (x.evaluate_asFar hspare e) (respects.evaluate e) fun _ => .refl _
    | declare name init =>
      cases init with
      | none => exact .refl _
      | some init =>
        exact .bind (x.evaluate_asFar hspare init) (respects.evaluate init) fun _ => .refl _
    | block body =>
      refine .bind (.refl _) (respects.quiet fun _ => rfl) fun stmts => ?_
      have hbody := Run.AsFar.forM (ih (Nat.le_of_succ_le_succ hle)) (respects.executeWithin fuel)
        stmts
      exact .inScope hbody (respects.sequence fuel stmts)

theorem execute_asFar (id : StmtId) : Run.AsFar (x.execute id) ((x.withSpare spare).execute id) :=
  x.executeWithin_asFar hspare (Nat.succ_le_succ (Nat.add_le_add_left hspare _)) id

/-- What is answered with some number of spare levels is answered with any larger number. -/
theorem perform_asFar (job : Job) :
    Run.AsFar (x.perform job) ((x.withSpare spare).perform job) := by
  have respects := SameOutline.respects x
  cases job with
  | evaluate id => exact .bind (x.evaluate_asFar hspare id) (respects.evaluate id) fun _ => .refl _
  | execute id => exact .bind (x.execute_asFar hspare id) (respects.execute id) fun _ => .refl _
  | interpret ids =>
    have hids := Run.AsFar.forM (x.execute_asFar hspare) respects.execute ids
    exact .bind hids (respects.interpret ids) fun _ => .refl _

end spare

end Script

/-! ## Blocks that do not hold themselves -/

/-- From a node on, no statement is inside itself. -/
def Program.Unwinds {N : Type} (p : Program N) (root : Node) : Prop :=
  ∀ {id}, p.Reaches root (.stmt id) → ¬ Relation.TransGen p.RefersTo (.stmt id) (.stmt id)

theorem Run.forM_congr {f f' : A → Run Unit} {l : List A} (h : ∀ a ∈ l, f a = f' a) :
    l.forM f = l.forM f' := by
  induction l with
  | nil => rfl
  | cons a l ih =>
    have hrest := ih fun b hb => h b (List.mem_cons_of_mem a hb)
    show (f a >>= fun _ => l.forM f) = (f' a >>= fun _ => l.forM f')
    rw [h a List.mem_cons_self, hrest]

namespace Script

variable (x : Script)

/-- Where a statement has fewer levels of blocks below it than it is given, more of them make no
difference. -/
theorem executeWithin_enough {fuel more : Nat} (hle : fuel ≤ more) {id : StmtId}
    (h : x.program.Shallow (.stmt ⟨·⟩) fuel id.index) :
    x.executeWithin fuel id = x.executeWithin more id := by
  induction fuel generalizing more id with
  | zero => exact h.elim
  | succ fuel ih =>
    obtain ⟨more, rfl⟩ : ∃ n, more = n + 1 := ⟨more - 1, by omega⟩
    rw [executeWithin, executeWithin]
    cases hstmt : x.program.stmt id with
    | error fault => rfl
    | ok stmt =>
      obtain ⟨form, span⟩ := stmt
      rw [Run.ofFault_ok_bind, Run.ofFault_ok_bind]
      cases form with
      | expression e => rfl
      | declare who init => cases init <;> rfl
      | block body =>
        cases hbody : x.program.body body with
        | error fault => simp only [hbody]; rfl
        | ok stmts =>
          have hinner : ∀ i ∈ stmts, x.executeWithin fuel i = x.executeWithin more i := fun i hi =>
            ih (Nat.le_of_succ_le_succ hle) (h i.index (Program.refersTo_inner hstmt hbody hi))
          simp only [hbody, Run.ofFault_ok_bind, Run.forM_congr hinner]

theorem execute_enough {more : Nat} (hle : x.program.stmts.size + x.spareLevels + 1 ≤ more)
    {id : StmtId} (hunwinds : x.program.Unwinds (.stmt id)) :
    x.execute id = x.executeWithin more id := by
  have hshallow : x.program.Shallow (.stmt ⟨·⟩) (x.program.stmts.size + 1) id.index :=
    Program.shallow_of_acyclic Program.lt_of_refersTo_stmt hunwinds
  exact x.executeWithin_enough hle (hshallow.mono (by omega))

/-- The same for an expression and the levels of operands below it. -/
theorem evaluateWithin_enough {fuel more : Nat} (hle : fuel ≤ more) {id : ExprId}
    (h : x.program.Shallow (.expr ⟨·⟩) fuel id.index) :
    x.evaluateWithin fuel id = x.evaluateWithin more id := by
  induction fuel generalizing more id with
  | zero => exact h.elim
  | succ fuel ih =>
    obtain ⟨more, rfl⟩ : ∃ n, more = n + 1 := ⟨more - 1, by omega⟩
    rw [evaluateWithin_succ, evaluateWithin_succ]
    cases hexpr : x.program.expr id with
    | error fault => rfl
    | ok expr =>
      have hoperands : ∀ e ∈ expr.form.operands,
          x.evaluateWithin fuel e = x.evaluateWithin more e :=
        fun e he => ih (Nat.le_of_succ_le_succ hle) (h e.index (Program.refersTo_operand hexpr he))
      rw [Run.ofFault_ok_bind, Run.ofFault_ok_bind, operandValues_congr _ hoperands]

end Script

end Scoping
