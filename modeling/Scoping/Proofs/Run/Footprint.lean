import Scoping.Proofs.Run.Operands

/-!
# Relations that every part of a run keeps

A run changes a session through few computations: it gives a name a new value, applies an operator,
which can number a text, declares a name, and opens a scope around a body. `Keeps` relates the
session before a computation to the one after it, in whatever way it ends. A relation that is kept
by these few (`Respects`) is kept by evaluating, executing and interpreting as a whole
(`Respects.perform`); the induction on levels of blocks is done here once for all such relations. Of
the names an expression writes only those that are assigned below it, so that a relation about
certain names need only be kept where those are written (`RespectsBelow`).
-/

namespace Scoping

/-! ## Computations that keep a relation -/

namespace Run

/-- The session before a computation and the one after it are related, however it ends. -/
def Keeps {A : Type} (R : Session → Session → Prop) (m : Run A) : Prop := ∀ s, R s (m s).2

variable {A B : Type} {R : Session → Session → Prop}

theorem Keeps.of_snd_eq (hrefl : ∀ s, R s s) {m : Run A} (h : ∀ s, (m s).2 = s) : Keeps R m := by
  intro s
  rw [h]
  exact hrefl s

theorem Keeps.mono {S : Session → Session → Prop} (h : ∀ s t, R s t → S s t) {m : Run A}
    (hm : Keeps R m) : Keeps S m :=
  fun s => h s _ (hm s)

theorem Keeps.bind (htrans : ∀ s t u, R s t → R t u → R s u) {m : Run A} {k : A → Run B}
    (hm : Keeps R m) (hk : ∀ a, Keeps R (k a)) : Keeps R (m >>= k) := by
  intro s
  have hst := hm s
  cases hs : m s with
  | mk result t =>
    rw [hs] at hst
    cases result with
    | error e =>
      rw [bind_of_error hs]
      exact hst
    | ok a =>
      rw [bind_of_ok hs]
      exact htrans s t _ hst (hk a t)

theorem Keeps.closed (hrefl : ∀ s, R s s) (htrans : ∀ s t u, R s t → R t u → R s u) :
    Closed fun _ => Keeps R :=
  ⟨fun _ => .of_snd_eq hrefl fun _ => rfl, .bind htrans⟩

theorem Keeps.forM (hrefl : ∀ s, R s s) (htrans : ∀ s t u, R s t → R t u → R s u)
    {f : A → Run Unit} {l : List A} (hf : ∀ a ∈ l, Keeps R (f a)) : Keeps R (l.forM f) :=
  (Keeps.closed hrefl htrans).forM hf

theorem modifyContext_of_ok {f : Context Value → Except Fault (Context Value)} {s : Session}
    {c : Context Value} (h : f s.context = .ok c) :
    modifyContext f s = (.ok (), { s with context := c }) := by
  rw [modifyContext, h]

/-- A body whose scope can be opened, and closed again where the body leaves it. -/
theorem inScope_of_ok {body : Run A} {s t : Session} {c d : Context Value}
    {result : Except (Interruption RuntimeError) A} (hopen : s.context.openScope = .ok c)
    (hbody : body { s with context := c } = (result, t)) (hclose : t.context.closeScope = .ok d) :
    inScope body s = (result, { t with context := d }) := by
  simp only [inScope, Session.inScope, hopen, hbody, hclose]

end Run

/-! ## Accesses to names -/

/-- The end of a run that the end of an access is. -/
def Interruption.spelled (symbols : SymbolTable) :
    Interruption AccessError → Interruption RuntimeError
  | .fault f => .fault f
  | .error e => match e.spell symbols with
    | .ok e => .error e
    | .error f => .fault f

theorem Run.ofAccess_error {A : Type} (i : Interruption AccessError) (s : Session) :
    Run.ofAccess (A := A) (.error i) s = (.error (i.spelled s.symbols), s) := by
  cases i with
  | fault fault => rfl
  | error e =>
    rw [ofAccess, Interruption.spelled]
    cases e.spell s.symbols <;> rfl

namespace Script

variable (x : Script) {id : ExprId} {distance : Nat} (who : Occurrence Symbol) (value : Value)
  (s : Session)

theorem distance?_eq_none (h : x.mode = .byName ∨ x.distances = .empty) (id : ExprId) :
    x.distance? id = none := by
  unfold distance?
  rcases h with h | h <;> rw [h]
  cases x.mode <;> rfl

theorem readName_of_some (h : x.distance? id = some distance) :
    x.readName id who s = Run.ofAccess (s.context.readAt distance who) s := by
  unfold readName
  rw [h]
  rfl

theorem readName_of_none (h : x.distance? id = none) :
    x.readName id who s = Run.ofAccess (s.context.read who) s := by
  unfold readName
  rw [h]
  rfl

theorem writeName_of_some (h : x.distance? id = some distance) :
    x.writeName id who value s = match s.context.writeAt distance who value with
      | .ok context => (.ok (), { s with context })
      | .error fault => (.error (.fault fault), s) := by
  unfold writeName
  rw [h]
  rfl

theorem writeName_of_none (h : x.distance? id = none) :
    x.writeName id who value s = match s.context.write who value with
      | .ok context => (.ok (), { s with context })
      | .error i => (.error (i.spelled s.symbols), s) := by
  unfold writeName
  rw [h]
  show (Run.ofAccess (s.context.write who value) >>= fun context =>
    Run.modifyContext fun _ => .ok context) s = _
  cases s.context.write who value with
  | ok context => rfl
  | error i => rw [Run.bind_of_error (Run.ofAccess_error i s)]

theorem readName_snd : (x.readName id who s).2 = s := by
  have haccess : ∀ r : Except (Interruption AccessError) Value, (Run.ofAccess r s).2 = s := by
    intro r
    cases r with
    | ok value => rfl
    | error i => rw [Run.ofAccess_error]
  cases h : x.distance? id with
  | none => rw [readName_of_none x who s h, haccess]
  | some distance => rw [readName_of_some x who s h, haccess]

end Script

/-! ## Whole runs -/

inductive Job where
  | evaluate (id : ExprId)
  | execute (id : StmtId)
  | interpret (ids : List StmtId)

/-- The nodes that a job starts from. -/
def Job.roots : Job → List Node
  | .evaluate id => [.expr id]
  | .execute id => [.stmt id]
  | .interpret ids => ids.map .stmt

namespace Script

/-- Evaluating, executing or interpreting; only the first has a value. -/
def perform (x : Script) : Job → Run (Option Value)
  | .evaluate id => do return some (← x.evaluate id)
  | .execute id => do
    x.execute id
    return none
  | .interpret ids => do
    x.interpret ids
    return none

/-- A relation that is kept by all that the expressions below a node do to a session. -/
structure RespectsBelow (x : Script) (root : Node) (R : Session → Session → Prop) : Prop where
  refl : ∀ s, R s s
  trans : ∀ s t u, R s t → R t u → R s u
  write : ∀ {id target operand span}, x.program.Reaches root (.expr id) →
    x.program.expr id = .ok ⟨.assign target operand, span⟩ →
    ∀ value, Run.Keeps R (x.writeName id target value)
  binary : ∀ op span left right, Run.Keeps R (applyBinary op span left right)

namespace RespectsBelow

variable {x : Script} {root : Node} {R : Session → Session → Prop} (h : x.RespectsBelow root R)

include h

theorem evaluateWithin (fuel : Nat) {id : ExprId} (hid : x.program.Reaches root (.expr id)) :
    Run.Keeps R (x.evaluateWithin fuel id) := by
  have hread : ∀ id who, Run.Keeps R (x.readName id who) := fun id who =>
    .of_snd_eq h.refl (x.readName_snd who)
  exact (Run.Keeps.closed h.refl h.trans).evaluateWithin (fun _ _ => hread _ _) h.write h.binary
    fuel hid

end RespectsBelow

/-- A relation that is kept by all that a run of a script does to a session. -/
structure Respects (x : Script) (R : Session → Session → Prop) : Prop where
  refl : ∀ s, R s s
  trans : ∀ s t u, R s t → R t u → R s u
  write : ∀ id who value, Run.Keeps R (x.writeName id who value)
  binary : ∀ op span left right, Run.Keeps R (applyBinary op span left right)
  declare : ∀ name, Run.Keeps R (Run.modifyContext (·.declare name))
  define : ∀ name value, Run.Keeps R (Run.modifyContext (·.define name value))
  scope : ∀ {body : Run Unit}, Run.Keeps R body → Run.Keeps R (Run.inScope body)

namespace Respects

variable {x : Script} {R : Session → Session → Prop} (h : x.Respects R)

include h

theorem quiet {A : Type} {m : Run A} (hm : ∀ s, (m s).2 = s) : Run.Keeps R m :=
  .of_snd_eq h.refl hm

theorem below (root : Node) : x.RespectsBelow root R where
  refl := h.refl
  trans := h.trans
  write {id target} _ _ _ _ := h.write id target
  binary := h.binary

theorem evaluateWithin (fuel : Nat) (id : ExprId) : Run.Keeps R (x.evaluateWithin fuel id) :=
  (h.below (.expr id)).evaluateWithin fuel .refl

theorem operandValues (fuel : Nat) (decides : Value → Bool) (ids : List ExprId) :
    Run.Keeps R (x.operandValues fuel decides ids) :=
  (Run.Keeps.closed h.refl h.trans).operandValues decides fun id _ => h.evaluateWithin fuel id

theorem evaluate (id : ExprId) : Run.Keeps R (x.evaluate id) := h.evaluateWithin _ id

theorem executeWithin (fuel : Nat) (id : StmtId) : Run.Keeps R (x.executeWithin fuel id) := by
  induction fuel generalizing id with
  | zero => exact h.quiet fun _ => rfl
  | succ fuel ih =>
    rw [Script.executeWithin]
    refine .bind h.trans (h.quiet fun _ => rfl) fun stmt => ?_
    obtain ⟨form, span⟩ := stmt
    cases form with
    | expression e => exact .bind h.trans (h.evaluate e) fun _ => h.quiet fun _ => rfl
    | declare name init =>
      cases init with
      | none => exact h.declare name.name
      | some init =>
        exact .bind h.trans (h.evaluate init) fun value => h.define name.name value
    | block body =>
      refine .bind h.trans (h.quiet fun _ => rfl) fun stmts => ?_
      exact h.scope (.forM h.refl h.trans fun i _ => ih i)

theorem sequence (fuel : Nat) (ids : List StmtId) :
    Run.Keeps R (ids.forM (x.executeWithin fuel)) :=
  .forM h.refl h.trans fun id _ => h.executeWithin fuel id

theorem execute (id : StmtId) : Run.Keeps R (x.execute id) := h.executeWithin _ id

theorem interpret (ids : List StmtId) : Run.Keeps R (x.interpret ids) := h.sequence _ ids

theorem perform (job : Job) : Run.Keeps R (x.perform job) := by
  cases job with
  | evaluate id => exact .bind h.trans (h.evaluate id) fun _ => h.quiet fun _ => rfl
  | execute id => exact .bind h.trans (h.execute id) fun _ => h.quiet fun _ => rfl
  | interpret ids => exact .bind h.trans (h.interpret ids) fun _ => h.quiet fun _ => rfl

end Respects

end Script

end Scoping
