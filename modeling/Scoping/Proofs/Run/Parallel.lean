import Scoping.Proofs.Run.Outline

/-!
# Two runs side by side

The same computation, from two sessions that are related in some way, can be asked to end in the
same way and in sessions that are related again (`Run.Carries`). Evaluation carries a relation if
reading and writing the names below an expression does, and applying operators
(`CarriesBelow.evaluateWithin`).

Statements declare names and open scopes besides. What relates the sessions may be a different thing
in each scope, so that there is one relation for each member of some family; the body of a block
must carry all of them if the block is to carry one (`CarriesInside.executeWithin`). What all
statements of a job carry is carried by the job (`perform_carries`).
-/

namespace Scoping

variable {A B : Type}

namespace Run

/-- From related sessions, a computation ends in the same way and in related sessions. -/
def Carries (R : Session → Session → Prop) (m : Run A) : Prop :=
  ∀ ⦃s t : Session⦄, R s t → (m s).1 = (m t).1 ∧ R (m s).2 (m t).2

variable {R : Session → Session → Prop}

theorem Carries.ofResult (r : Except (Interruption RuntimeError) A) : Carries R (Run.ofResult r) :=
  fun _ _ h => ⟨rfl, h⟩

theorem Carries.pure (a : A) : Carries R (pure a) := .ofResult (.ok a)

theorem Carries.bind {m : Run A} {k : A → Run B} (hm : Carries R m) (hk : ∀ a, Carries R (k a)) :
    Carries R (m >>= k) := by
  intro s t hst
  obtain ⟨hsame, hst'⟩ := hm hst
  cases hs : m s with
  | mk result s' =>
    cases ht : m t with
    | mk result' t' =>
      rw [hs, ht] at hsame hst'
      cases hsame
      cases result with
      | error i =>
        rw [bind_of_error hs, bind_of_error ht]
        exact ⟨rfl, hst'⟩
      | ok a =>
        rw [bind_of_ok hs, bind_of_ok ht]
        exact hk a hst'

theorem Carries.closed : Closed fun _ => Carries R := ⟨.ofResult, .bind⟩

theorem Carries.forM {f : A → Run Unit} {l : List A} (hf : ∀ a ∈ l, Carries R (f a)) :
    Carries R (l.forM f) :=
  Carries.closed.forM hf

end Run

namespace Script

/-- Where related sessions have the same symbols, an operator does the same in both. -/
theorem applyBinary_carries {R : Session → Session → Prop}
    (hsymbols : ∀ ⦃s t⦄, R s t → t.symbols = s.symbols)
    (hgrown : ∀ ⦃s t⦄ (more : SymbolTable), R s t → R ⟨s.context, more⟩ ⟨t.context, more⟩)
    (op : BinaryOp) (span : Span) (left right : Value) :
    Run.Carries R (applyBinary op span left right) := by
  intro s t h
  unfold applyBinary
  rw [hsymbols h]
  rcases op.apply s.symbols left right with ((e | fault) | ⟨value, symbols⟩)
  · exact ⟨rfl, h⟩
  · exact ⟨rfl, h⟩
  · exact ⟨rfl, hgrown symbols h⟩

/-! ## Expressions -/

/-- A relation that is carried by all that the expressions below a node do. -/
structure CarriesBelow (x : Script) (root : Node) (R : Session → Session → Prop) : Prop where
  read : ∀ {id who span}, x.program.Reaches root (.expr id) →
    x.program.expr id = .ok ⟨.reference who, span⟩ → Run.Carries R (x.readName id who)
  write : ∀ {id target operand span}, x.program.Reaches root (.expr id) →
    x.program.expr id = .ok ⟨.assign target operand, span⟩ →
    ∀ value, Run.Carries R (x.writeName id target value)
  binary : ∀ op span left right, Run.Carries R (applyBinary op span left right)

namespace CarriesBelow

variable {x : Script} {root : Node} {R : Session → Session → Prop} (h : x.CarriesBelow root R)

include h

theorem evaluateWithin (fuel : Nat) {id : ExprId} (hid : x.program.Reaches root (.expr id)) :
    Run.Carries R (x.evaluateWithin fuel id) :=
  Run.Carries.closed.evaluateWithin h.read h.write h.binary fuel hid

theorem evaluate {id : ExprId} (hid : x.program.Reaches root (.expr id)) :
    Run.Carries R (x.evaluate id) :=
  h.evaluateWithin _ hid

end CarriesBelow

/-! ## Statements -/

/-- A family of relations of which each is carried by all that the statements below a node do. -/
structure CarriesInside (x : Script) (root : Node) {I : Type}
    (R : I → Session → Session → Prop) : Prop where
  below : ∀ i, x.CarriesBelow root (R i)
  declare : ∀ i {id who span}, x.program.Reaches root (.stmt id) →
    x.program.stmt id = .ok ⟨.declare who none, span⟩ →
    Run.Carries (R i) (Run.modifyContext (·.declare who.name))
  define : ∀ i {id who init span}, x.program.Reaches root (.stmt id) →
    x.program.stmt id = .ok ⟨.declare who (some init), span⟩ →
    ∀ value, Run.Carries (R i) (Run.modifyContext (·.define who.name value))
  scope : ∀ i {body : Run Unit}, Run.Keeps SameOutline body → (∀ j, Run.Carries (R j) body) →
    Run.Carries (R i) (Run.inScope body)

theorem CarriesInside.executeWithin {x : Script} {root : Node} {I : Type}
    {R : I → Session → Session → Prop} (h : x.CarriesInside root R) (fuel : Nat) {id : StmtId}
    (hid : x.program.Reaches root (.stmt id)) (i : I) :
    Run.Carries (R i) (x.executeWithin fuel id) := by
  induction fuel generalizing id i with
  | zero => exact .ofResult _
  | succ fuel ih =>
    rw [Script.executeWithin]
    cases hstmt : x.program.stmt id with
    | error fault => exact .ofResult _
    | ok stmt =>
      have below : ∀ {body : List StmtId}, x.program.inner stmt.form = .ok body →
          ∀ e ∈ stmt.form.exprs, x.program.Reaches root (.expr e) :=
        fun hbody e he => hid.tail (Program.refersTo_expr_of_stmt hstmt hbody he)
      obtain ⟨form, span⟩ := stmt
      rw [Run.ofFault_ok_bind]
      cases form with
      | expression e =>
        exact .bind ((h.below i).evaluate (below rfl e List.mem_cons_self)) fun _ => .pure ()
      | declare who init =>
        cases init with
        | none => exact h.declare i hid hstmt
        | some init =>
          exact .bind ((h.below i).evaluate (below rfl init List.mem_cons_self))
            (h.define i hid hstmt)
      | block body =>
        cases hbody : x.program.body body with
        | error fault =>
          simp only [hbody]
          exact .ofResult _
        | ok stmts =>
          simp only [hbody, Run.ofFault_ok_bind]
          have hkeeps := (SameOutline.respects x).sequence fuel stmts
          refine h.scope i hkeeps fun j => .forM fun inner hinner => ?_
          exact ih (hid.tail (Program.refersTo_inner hstmt hbody hinner)) j

/-! ## Whole runs -/

theorem perform_carries {x : Script} {job : Job} {I : Type} {R : I → Session → Session → Prop}
    (h : ∀ n ∈ job.roots, x.CarriesInside n R) (i : I) : Run.Carries (R i) (x.perform job) := by
  cases job with
  | evaluate id =>
    exact .bind (((h _ List.mem_cons_self).below i).evaluate .refl) fun _ => .pure _
  | execute id =>
    exact .bind ((h _ List.mem_cons_self).executeWithin _ .refl i) fun _ => .pure _
  | interpret ids =>
    refine .bind (.forM fun id hid => ?_) fun _ => .pure _
    exact (h _ (List.mem_map_of_mem hid)).executeWithin _ .refl i

end Script

end Scoping
