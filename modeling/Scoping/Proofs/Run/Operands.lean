import Scoping.Proofs.Syntax.Reach
import Scoping.Run.Evaluate

/-!
# Operands and own operations

All expressions are evaluated in the same way: the operands from left to right, up to the first that
decides, and then an operation of the node's own on the values that were found
(`evaluateWithin_succ`). What is shown of evaluation as a whole is thereby reduced to lists of
operands and to what the few kinds of nodes do themselves. For properties that computations keep
when one follows the other, the induction on levels is done here (`Run.Closed.evaluateWithin`).
-/

namespace Scoping

variable {A B : Type}

/-! ## Sequencing -/

theorem Run.bind_pure (m : Run A) : m >>= pure = m := by
  funext s
  cases h : m s with
  | mk result t =>
    cases result with
    | error i => exact bind_of_error h
    | ok a => exact bind_of_ok h

theorem Run.ofFault_ok_bind (a : A) (k : A → Run B) : (ofFault (.ok a) >>= k) = k a := rfl

theorem Run.bind_assoc {C : Type} (m : Run A) (k : A → Run B) (l : B → Run C) :
    (m >>= k) >>= l = m >>= fun a => k a >>= l := by
  funext s
  cases h : m s with
  | mk result t => cases result <;> simp [bind, h]

/-! ## Own operations -/

/-- Whether the value of an operand makes a node skip those after it. -/
def ExprForm.decides {N : Type} : ExprForm N → Value → Bool
  | .logical _ op _, value => op.decidedBy value.isTruthy
  | _, _ => false

namespace Script

/-- What a node does once its operands have values. A group or a logical operator hands on the value
of the operand that was evaluated last. -/
def own (x : Script) (id : ExprId) (expr : Expr Symbol) (operands : List Value) : Run Value :=
  match expr.form, operands with
  | .literal value, _ => pure (.ofLiteral value)
  | .reference who, _ => x.readName id who
  | .assign target _, [value] => do
    x.writeName id target value
    pure value
  | .binary _ op _, [left, right] => applyBinary op expr.span left right
  | .unary op _, [operand] => applyUnary op expr.span operand
  | _, _ => pure (operands.getLastD .nil)

/-- What the own operation of a node can be. -/
inductive OwnOperation (x : Script) (id : ExprId) : Expr Symbol → Run Value → Prop
  | handOn (expr : Expr Symbol) (value : Value) : x.OwnOperation id expr (pure value)
  | read (who : Occurrence Symbol) (span : Span) :
      x.OwnOperation id ⟨.reference who, span⟩ (x.readName id who)
  | write (target : Occurrence Symbol) (operand : ExprId) (span : Span) (value : Value) :
      x.OwnOperation id ⟨.assign target operand, span⟩
        (x.writeName id target value >>= fun _ => pure value)
  | binary (left : ExprId) (op : BinaryOp) (right : ExprId) (span : Span) (first second : Value) :
      x.OwnOperation id ⟨.binary left op right, span⟩ (applyBinary op span first second)
  | unary (op : UnaryOp) (operand : ExprId) (span : Span) (value : Value) :
      x.OwnOperation id ⟨.unary op operand, span⟩ (applyUnary op span value)

theorem own_operation (x : Script) (id : ExprId) (expr : Expr Symbol) (operands : List Value) :
    x.OwnOperation id expr (x.own id expr operands) := by
  obtain ⟨form, span⟩ := expr
  cases form with
  | literal value => exact .handOn _ _
  | reference who => exact .read who span
  | assign target operand =>
    rcases operands with _ | ⟨value, _ | ⟨_, _⟩⟩
    · exact .handOn _ _
    · exact .write target operand span value
    · exact .handOn _ _
  | binary left op right =>
    rcases operands with _ | ⟨first, _ | ⟨second, _ | ⟨_, _⟩⟩⟩
    · exact .handOn _ _
    · exact .handOn _ _
    · exact .binary left op right span first second
    · exact .handOn _ _
  | unary op operand =>
    rcases operands with _ | ⟨value, _ | ⟨_, _⟩⟩
    · exact .handOn _ _
    · exact .unary op operand span value
    · exact .handOn _ _
  | logical left op right => exact .handOn _ _
  | group inner => exact .handOn _ _

/-- The values of operands, up to the first that decides. -/
def operandValues (x : Script) (fuel : Nat) (decides : Value → Bool) :
    List ExprId → Run (List Value)
  | [] => pure []
  | id :: ids => do
    let value ← x.evaluateWithin fuel id
    match decides value with
    | true => pure [value]
    | false =>
      let values ← x.operandValues fuel decides ids
      pure (value :: values)

section

variable (x : Script) (fuel : Nat) (decides : Value → Bool)

theorem operandValues_one (id : ExprId) :
    x.operandValues fuel decides [id] = (do
      let value ← x.evaluateWithin fuel id
      pure [value]) := by
  rw [operandValues]
  congr 1
  funext value
  cases decides value <;> rfl

theorem operandValues_two (left right : ExprId) :
    x.operandValues fuel decides [left, right] = (do
      let first ← x.evaluateWithin fuel left
      match decides first with
      | true => pure [first]
      | false =>
        let second ← x.evaluateWithin fuel right
        pure [first, second]) := by
  rw [operandValues]
  simp only [operandValues_one, Run.bind_assoc]
  rfl

/-- A node evaluates its operands and then performs its own operation. -/
theorem evaluateWithin_succ (id : ExprId) :
    x.evaluateWithin (fuel + 1) id = (do
      let expr ← Run.ofFault (x.program.expr id)
      let values ← x.operandValues fuel expr.form.decides expr.form.operands
      x.own id expr values) := by
  rw [evaluateWithin]
  congr 1
  funext expr
  obtain ⟨form, span⟩ := expr
  cases form with
  | literal value => rfl
  | reference who => rfl
  | assign target value =>
    simp only [ExprForm.operands, operandValues_one, Run.bind_assoc]
    rfl
  | binary left op right =>
    simp only [ExprForm.operands, operandValues_two, Run.bind_assoc]
    congr 1
    funext first
    exact (Run.bind_assoc (x.evaluateWithin fuel right) (fun second => pure [first, second])
      (x.own id ⟨.binary left op right, span⟩)).symm
  | unary op operand =>
    simp only [ExprForm.operands, operandValues_one, Run.bind_assoc]
    rfl
  | logical left op right =>
    simp only [ExprForm.operands, operandValues_two, ExprForm.decides, Run.bind_assoc]
    congr 1
    funext first
    cases hdecided : op.decidedBy first.isTruthy with
    | true => rfl
    | false =>
      simp only [Bool.false_eq_true, if_false, Run.bind_assoc]
      exact (Run.bind_pure _).symm
  | group inner =>
    simp only [ExprForm.operands, operandValues_one, Run.bind_assoc]
    exact (Run.bind_pure _).symm

end

/-- Operands that are evaluated as others in their place have the same values. -/
theorem operandValues_map {x y : Script} {fuel more : Nat} (decides : Value → Bool)
    {f : ExprId → ExprId} {ids : List ExprId}
    (h : ∀ id ∈ ids, x.evaluateWithin fuel (f id) = y.evaluateWithin more id) :
    x.operandValues fuel decides (ids.map f) = y.operandValues more decides ids := by
  induction ids with
  | nil => rfl
  | cons id ids ih =>
    have hrest := ih fun e he => h e (List.mem_cons_of_mem id he)
    rw [List.map_cons, operandValues, operandValues, h id List.mem_cons_self, hrest]

theorem operandValues_congr {x y : Script} {fuel more : Nat} (decides : Value → Bool)
    {ids : List ExprId} (h : ∀ id ∈ ids, x.evaluateWithin fuel id = y.evaluateWithin more id) :
    x.operandValues fuel decides ids = y.operandValues more decides ids := by
  simpa using operandValues_map decides (f := id) h

end Script

/-! ## Properties of all evaluations -/

/-- A property of computations that is closed under sequencing, and that those have that do
nothing. -/
structure Run.Closed (P : (A : Type) → Run A → Prop) : Prop where
  ofResult : ∀ {A : Type} (r : Except (Interruption RuntimeError) A), P A (Run.ofResult r)
  bind : ∀ {A B : Type} {m : Run A} {k : A → Run B}, P A m → (∀ a, P B (k a)) → P B (m >>= k)

namespace Run.Closed

open Script

variable {x : Script} {P : (A : Type) → Run A → Prop} (h : Closed P)

include h

theorem forM {f : B → Run Unit} {l : List B} (hf : ∀ b ∈ l, P Unit (f b)) : P Unit (l.forM f) := by
  induction l with
  | nil => exact h.ofResult (.ok ())
  | cons b l ih =>
    exact h.bind (hf b List.mem_cons_self) fun _ => ih fun c hc => hf c (List.mem_cons_of_mem b hc)

theorem operandValues {fuel : Nat} (decides : Value → Bool) {ids : List ExprId}
    (hids : ∀ id ∈ ids, P Value (x.evaluateWithin fuel id)) :
    P (List Value) (x.operandValues fuel decides ids) := by
  induction ids with
  | nil => exact h.ofResult (.ok [])
  | cons id ids ih =>
    refine h.bind (hids id List.mem_cons_self) fun value => ?_
    cases decides value with
    | true => exact h.ofResult (.ok [value])
    | false =>
      have hrest := ih fun e he => hids e (List.mem_cons_of_mem id he)
      exact h.bind hrest fun values => h.ofResult (.ok (value :: values))

section below

variable {root : Node}
  (hread : ∀ {id who span}, x.program.Reaches root (.expr id) →
    x.program.expr id = .ok ⟨.reference who, span⟩ → P Value (x.readName id who))
  (hwrite : ∀ {id target operand span}, x.program.Reaches root (.expr id) →
    x.program.expr id = .ok ⟨.assign target operand, span⟩ →
    ∀ value, P Unit (x.writeName id target value))
  (hbinary : ∀ op span left right, P Value (applyBinary op span left right))

include hread hwrite hbinary

theorem own {id : ExprId} {expr : Expr Symbol} (hid : x.program.Reaches root (.expr id))
    (hexpr : x.program.expr id = .ok expr) (operands : List Value) :
    P Value (x.own id expr operands) := by
  have hown := x.own_operation id expr operands
  generalize x.own id expr operands = operation at hown
  cases hown with
  | handOn expr value => exact h.ofResult (.ok value)
  | read who span => exact hread hid hexpr
  | write target operand span value =>
    exact h.bind (hwrite hid hexpr value) fun _ => h.ofResult (.ok value)
  | binary left op right span first second => exact hbinary op span first second
  | unary op operand span value =>
    unfold applyUnary
    cases op.apply value with
    | ok value => exact h.ofResult (.ok value)
    | error e => exact h.ofResult _

/-- What reading and writing the names below an expression has, and applying operators, the
evaluation of the expression has. -/
theorem evaluateWithin (fuel : Nat) {id : ExprId} (hid : x.program.Reaches root (.expr id)) :
    P Value (x.evaluateWithin fuel id) := by
  induction fuel generalizing id with
  | zero => exact h.ofResult _
  | succ fuel ih =>
    rw [evaluateWithin_succ]
    cases hexpr : x.program.expr id with
    | error fault => exact h.ofResult _
    | ok expr =>
      rw [Run.ofFault_ok_bind]
      refine h.bind (h.operandValues expr.form.decides fun e he => ?_)
        (h.own hread hwrite hbinary hid hexpr)
      exact ih (hid.tail (Program.refersTo_operand hexpr he))

end below

end Run.Closed

end Scoping
