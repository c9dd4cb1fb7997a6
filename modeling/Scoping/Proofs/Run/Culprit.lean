import Scoping.Proofs.Run.Footprint

/-!
# Where an error of a run comes from

A node first evaluates operands, from left to right, and then performs an operation of its own on
their values (`evaluateWithin_succ`). `attempts` lists the own operations of all expressions that a
run comes to, in their order. If the run ends in an error, the last one on the list has failed with
that very error and all before it went well; whatever stands around it, operands, groups,
initializers or blocks, hands the error on as it is (`Accounts`, which is closed under sequencing).

An own operation can fail at few nodes only, and the error says what it failed at: a name with its
text and its place, or an operator with its symbol and the place of its node (`Blames`). So the
error of every run points at the node that it comes from (`perform_blames`).
-/

namespace Scoping

variable {A B : Type}

/-! ## The own operations of a run -/

/-- A node, the values of the operands that it evaluated, and the session after that. -/
structure Attempt where
  node : ExprId
  expr : Expr Symbol
  operands : List Value
  session : Session

/-- The attempts of a computation and then, if it ends well, those of another one. -/
def Run.attemptsThen (first : Session → List Attempt) (m : Run A)
    (next : A → Session → List Attempt) (s : Session) : List Attempt :=
  first s ++ match m s with
    | (.ok a, t) => next a t
    | (.error _, _) => []

/-- Those inside a scope. -/
def Run.attemptsInScope (body : Session → List Attempt) (s : Session) : List Attempt :=
  match s.context.openScope with
  | .ok context => body { s with context }
  | .error _ => []

namespace Script

/-- The attempts at operands, up to the first that decides. -/
def operandAttempts (x : Script) (fuel : Nat) (attempts : ExprId → Session → List Attempt)
    (decides : Value → Bool) : List ExprId → Session → List Attempt
  | [], _ => []
  | id :: ids, s =>
    Run.attemptsThen (attempts id) (x.evaluateWithin fuel id) (fun value =>
      match decides value with
      | true => fun _ => []
      | false => x.operandAttempts fuel attempts decides ids) s

/-- The own operations that evaluating an expression comes to, in their order. -/
def evaluateAttempts (x : Script) : Nat → ExprId → Session → List Attempt
  | 0, _, _ => []
  | fuel + 1, id, s =>
    match x.program.expr id with
    | .error _ => []
    | .ok expr =>
      Run.attemptsThen
        (x.operandAttempts fuel (x.evaluateAttempts fuel) expr.form.decides expr.form.operands)
        (x.operandValues fuel expr.form.decides expr.form.operands)
        (fun values t => [⟨id, expr, values, t⟩]) s

/-- The same for statements one after the other, up to the first that does not end well. -/
def sequenceAttempts (attempts : StmtId → Session → List Attempt) (m : StmtId → Run Unit) :
    List StmtId → Session → List Attempt
  | [], _ => []
  | id :: ids, s =>
    Run.attemptsThen (attempts id) (m id) (fun _ => sequenceAttempts attempts m ids) s

/-- The same for a statement. -/
def executeAttempts (x : Script) : Nat → StmtId → Session → List Attempt
  | 0, _, _ => []
  | fuel + 1, id, s =>
    match x.program.stmt id with
    | .error _ => []
    | .ok stmt =>
      match stmt.form with
      | .expression e => x.evaluateAttempts (x.program.exprs.size + x.spareLevels + 1) e s
      | .declare _ none => []
      | .declare _ (some init) =>
        x.evaluateAttempts (x.program.exprs.size + x.spareLevels + 1) init s
      | .block body =>
        match x.program.body body with
        | .error _ => []
        | .ok stmts =>
          Run.attemptsInScope
            (sequenceAttempts (x.executeAttempts fuel) (x.executeWithin fuel) stmts) s

/-- The same for all that can be asked of a script. -/
def attempts (x : Script) : Job → Session → List Attempt
  | .evaluate id => x.evaluateAttempts (x.program.exprs.size + x.spareLevels + 1) id
  | .execute id => x.executeAttempts (x.program.stmts.size + x.spareLevels + 1) id
  | .interpret ids =>
    sequenceAttempts (x.executeAttempts (x.program.stmts.size + x.spareLevels + 1)) x.execute ids

end Script

/-! ## Accounts -/

namespace Attempt

/-- How the own operation of a node ended. -/
def outcome (x : Script) (a : Attempt) : Except (Interruption RuntimeError) Value :=
  (x.own a.node a.expr a.operands a.session).1

def Succeeds (x : Script) (a : Attempt) : Prop := ∃ value, a.outcome x = .ok value

def Raises (x : Script) (a : Attempt) (e : RuntimeError) : Prop := a.outcome x = .error (.error e)

/-- An attempt at a node that can be reached from a root, after its operands were evaluated. -/
structure Genuine (x : Script) (root : Node) (a : Attempt) : Prop where
  reached : x.program.Reaches root (.expr a.node)
  present : x.program.expr a.node = .ok a.expr
  operands : ∃ fuel start, x.operandValues fuel a.expr.form.decides a.expr.form.operands start =
    (.ok a.operands, a.session)

end Attempt

theorem Run.pure_ne_error (a : A) (s : Session) (e : RuntimeError) :
    ((pure a : Run A) s).1 ≠ .error (.error e) := by
  intro h
  cases h

theorem Run.modifyContext_ne_error (f : Context Value → Except Fault (Context Value)) (s : Session)
    (e : RuntimeError) : (modifyContext f s).1 ≠ .error (.error e) := by
  unfold modifyContext
  intro h
  cases hf : f s.context with
  | ok c =>
    rw [hf] at h
    cases h
  | error fault =>
    rw [hf] at h
    cases h

/-- The attempts of a run that ended in some way: all of them went well, or all but the last, whose
error is that of the run. Nothing is said of a run that ended in a fault. -/
inductive Accounts (x : Script) (good : Attempt → Prop) :
    List Attempt → Except (Interruption RuntimeError) A → Prop
  | ok {attempts : List Attempt} (h : ∀ a ∈ attempts, good a ∧ a.Succeeds x) (result : A) :
      Accounts x good attempts (.ok result)
  | error {earlier : List Attempt} {culprit : Attempt} {e : RuntimeError}
      (h : ∀ a ∈ earlier, good a ∧ a.Succeeds x) (hgood : good culprit)
      (hraises : culprit.Raises x e) : Accounts x good (earlier ++ [culprit]) (.error (.error e))
  | fault (attempts : List Attempt) (f : Fault) : Accounts x good attempts (.error (.fault f))

namespace Accounts

variable {x : Script} {good : Attempt → Prop} {s : Session}

theorem mono {good' : Attempt → Prop} (hgood : ∀ a, good a → good' a) {attempts : List Attempt}
    {r : Except (Interruption RuntimeError) A} (h : Accounts x good attempts r) :
    Accounts x good' attempts r := by
  cases h with
  | ok h result => exact .ok (fun a ha => (h a ha).imp_left (hgood a)) result
  | error h hculprit hraises =>
    exact .error (fun a ha => (h a ha).imp_left (hgood a)) (hgood _ hculprit) hraises
  | fault attempts f => exact .fault attempts f

theorem none (a : A) : Accounts x good [] (.ok a) := .ok (List.forall_mem_nil _) a

theorem quiet {r : Except (Interruption RuntimeError) A} (h : ∀ e, r ≠ .error (.error e)) :
    Accounts x good [] r := by
  cases r with
  | ok a => exact none a
  | error i =>
    cases i with
    | error e => exact absurd rfl (h e)
    | fault f => exact .fault [] f

theorem own {id : ExprId} {expr : Expr Symbol} {operands : List Value}
    (h : good ⟨id, expr, operands, s⟩) :
    Accounts x good [⟨id, expr, operands, s⟩] (x.own id expr operands s).1 := by
  cases hown : (x.own id expr operands s).1 with
  | ok value =>
    refine .ok (fun a ha => ?_) value
    obtain rfl := List.mem_singleton.1 ha
    exact ⟨h, value, hown⟩
  | error i =>
    cases i with
    | error e => exact .error (List.forall_mem_nil _) h hown
    | fault f => exact .fault _ f

/-- What went well before stands in front. -/
theorem prepend {before attempts : List Attempt} {r : Except (Interruption RuntimeError) A}
    (hbefore : ∀ a ∈ before, good a ∧ a.Succeeds x) (h : Accounts x good attempts r) :
    Accounts x good (before ++ attempts) r := by
  cases h with
  | ok h result => exact .ok (List.forall_mem_append.2 ⟨hbefore, h⟩) result
  | error h hgood hraises =>
    rw [← List.append_assoc]
    exact .error (List.forall_mem_append.2 ⟨hbefore, h⟩) hgood hraises
  | fault attempts f => exact .fault _ f

theorem bind {first : Session → List Attempt} {m : Run A} {next : A → Session → List Attempt}
    {k : A → Run B} (hm : Accounts x good (first s) (m s).1)
    (hk : ∀ a t, m s = (.ok a, t) → Accounts x good (next a t) (k a t).1) :
    Accounts x good (Run.attemptsThen first m next s) ((m >>= k) s).1 := by
  rw [Run.attemptsThen]
  generalize first s = attempts at hm
  cases hs : m s with
  | mk result t =>
    rw [hs] at hm
    cases hm with
    | fault _ f =>
      rw [Run.bind_of_error hs]
      exact .fault _ f
    | error h hgood hraises =>
      rw [Run.bind_of_error hs, List.append_nil]
      exact .error h hgood hraises
    | ok h a =>
      rw [Run.bind_of_ok hs]
      exact (hk a t hs).prepend h

/-- Nothing is added by what follows, if that ends in no error. -/
theorem bind_quiet {attempts : List Attempt} {m : Run A} {k : A → Run B}
    (hm : Accounts x good attempts (m s).1) (hk : ∀ a t e, (k a t).1 ≠ .error (.error e)) :
    Accounts x good attempts ((m >>= k) s).1 := by
  cases hs : m s with
  | mk result t =>
    rw [hs] at hm
    cases hm with
    | fault _ f =>
      rw [Run.bind_of_error hs]
      exact .fault _ f
    | error h hgood hraises =>
      rw [Run.bind_of_error hs]
      exact .error h hgood hraises
    | ok h a =>
      rw [Run.bind_of_ok hs, ← List.append_nil attempts]
      exact (quiet (hk a t)).prepend h

theorem inScope {attempts : Session → List Attempt} {body : Run A}
    (hbody : ∀ t, Accounts x good (attempts t) (body t).1) :
    Accounts x good (Run.attemptsInScope attempts s) (Run.inScope body s).1 := by
  unfold Run.attemptsInScope Run.inScope Session.inScope
  cases s.context.openScope with
  | error f => exact .fault _ f
  | ok c =>
    have hinner := hbody { s with context := c }
    cases hrun : body { s with context := c } with
    | mk result t =>
      rw [hrun] at hinner
      simp only [hrun]
      cases t.context.closeScope with
      | error f => exact .fault _ f
      | ok d => exact hinner

theorem operands {fuel : Nat} {attempts : ExprId → Session → List Attempt}
    {decides : Value → Bool} {ids : List ExprId}
    (h : ∀ id ∈ ids, ∀ s, Accounts x good (attempts id s) (x.evaluateWithin fuel id s).1) :
    Accounts x good (x.operandAttempts fuel attempts decides ids s)
      (x.operandValues fuel decides ids s).1 := by
  induction ids generalizing s with
  | nil => exact none _
  | cons id ids ih =>
    refine bind (h id List.mem_cons_self s) fun value t _ => ?_
    cases decides value with
    | true => exact none _
    | false =>
      exact bind_quiet (ih fun other hmem => h other (List.mem_cons_of_mem id hmem))
        fun _ t => Run.pure_ne_error _ t

theorem sequence {attempts : StmtId → Session → List Attempt} {m : StmtId → Run Unit}
    {ids : List StmtId} (h : ∀ id ∈ ids, ∀ s, Accounts x good (attempts id s) (m id s).1) :
    Accounts x good (Script.sequenceAttempts attempts m ids s) (ids.forM m s).1 := by
  induction ids generalizing s with
  | nil => exact none _
  | cons id ids ih =>
    refine bind (h id List.mem_cons_self s) fun _ t _ => ?_
    exact ih fun other hmem => h other (List.mem_cons_of_mem id hmem)

end Accounts

namespace Script

variable {x : Script} {root : Node}

theorem evaluateAttempts_accounts (fuel : Nat) {id : ExprId}
    (hid : x.program.Reaches root (.expr id)) (s : Session) :
    Accounts x (·.Genuine x root) (x.evaluateAttempts fuel id s)
      (x.evaluateWithin fuel id s).1 := by
  induction fuel generalizing id s with
  | zero => exact .fault _ _
  | succ fuel ih =>
    rw [evaluateWithin_succ, evaluateAttempts]
    cases hexpr : x.program.expr id with
    | error f => exact .fault _ f
    | ok expr =>
      rw [Run.ofFault_ok_bind]
      refine .bind (.operands fun e he => ih (hid.tail (Program.refersTo_operand hexpr he)))
        fun values t hvalues => ?_
      exact .own ⟨hid, hexpr, fuel, s, hvalues⟩

theorem executeAttempts_accounts (fuel : Nat) {id : StmtId}
    (hid : x.program.Reaches root (.stmt id)) (s : Session) :
    Accounts x (·.Genuine x root) (x.executeAttempts fuel id s) (x.executeWithin fuel id s).1 := by
  induction fuel generalizing id s with
  | zero => exact .fault _ _
  | succ fuel ih =>
    rw [executeWithin, executeAttempts]
    cases hstmt : x.program.stmt id with
    | error f => exact .fault _ f
    | ok stmt =>
      have below : ∀ {body : List StmtId}, x.program.inner stmt.form = .ok body →
          ∀ e ∈ stmt.form.exprs, x.program.Reaches root (.expr e) :=
        fun hbody e he => hid.tail (Program.refersTo_expr_of_stmt hstmt hbody he)
      obtain ⟨form, span⟩ := stmt
      rw [Run.ofFault_ok_bind]
      cases form with
      | expression e =>
        exact .bind_quiet (evaluateAttempts_accounts _ (below rfl e List.mem_cons_self) s)
          fun _ t => Run.pure_ne_error _ t
      | declare who init =>
        cases init with
        | none => exact .quiet (Run.modifyContext_ne_error _ s)
        | some init =>
          exact .bind_quiet (evaluateAttempts_accounts _ (below rfl init List.mem_cons_self) s)
            fun value t => Run.modifyContext_ne_error _ t
      | block body =>
        cases hbody : x.program.body body with
        | error f =>
          simp only [hbody]
          exact .fault _ f
        | ok stmts =>
          simp only [hbody, Run.ofFault_ok_bind]
          refine .inScope fun t => .sequence fun i hi => ?_
          exact ih (hid.tail (Program.refersTo_inner hstmt hbody hi))

theorem attempts_accounts (x : Script) (job : Job) (s : Session) :
    Accounts x (fun a => ∃ root ∈ job.roots, a.Genuine x root) (x.attempts job s)
      (x.perform job s).1 := by
  have root : ∀ {A : Type} {n attempts} {r : Except _ A}, n ∈ job.roots →
      Accounts x (·.Genuine x n) attempts r →
      Accounts x (fun a => ∃ root ∈ job.roots, a.Genuine x root) attempts r :=
    fun hn h => h.mono fun a ha => ⟨_, hn, ha⟩
  cases job with
  | evaluate id =>
    exact .bind_quiet (root List.mem_cons_self (evaluateAttempts_accounts _ .refl s))
      fun _ t => Run.pure_ne_error _ t
  | execute id =>
    exact .bind_quiet (root List.mem_cons_self (executeAttempts_accounts _ .refl s))
      fun _ t => Run.pure_ne_error _ t
  | interpret ids =>
    refine .bind_quiet (.sequence fun id hid t => ?_) fun _ t => Run.pure_ne_error _ t
    exact root (List.mem_map_of_mem hid) (executeAttempts_accounts _ .refl t)

end Script

/-! ## What can fail, and what the error says -/

/-- The nodes whose own operation can end in an error, with the errors. -/
inductive Blames (symbols : SymbolTable) : Expr Symbol → RuntimeError → Prop
  | undeclared {who : Occurrence Symbol} {name : String} (span : Span)
      (hname : symbols.text who.name = .ok name) :
      Blames symbols ⟨.reference who, span⟩
        ((RuntimeError.ofCause (.undeclared name)).located who.span)
  | unassigned {who : Occurrence Symbol} {name : String} (span : Span)
      (hname : symbols.text who.name = .ok name) :
      Blames symbols ⟨.reference who, span⟩
        ((RuntimeError.ofCause (.unassigned name)).located who.span)
  | target {who : Occurrence Symbol} {name : String} (value : ExprId) (span : Span)
      (hname : symbols.text who.name = .ok name) :
      Blames symbols ⟨.assign who value, span⟩
        ((RuntimeError.ofCause (.undeclared name)).located who.span)
  | operands {op : BinaryOp} (left right : ExprId) (span : Span) (hop : op.isEquality = false) :
      Blames symbols ⟨.binary left op right, span⟩
        ((RuntimeError.ofCause (.operand op.symbol op.operands)).located span)
  | negated (operand : ExprId) (span : Span) :
      Blames symbols ⟨.unary .neg operand, span⟩
        ((RuntimeError.ofCause (.operand UnaryOp.neg.symbol "a number")).located span)

section access

variable {V : Type} {who : Occurrence Symbol} {a : AccessError}

theorem Cell.eq_of_read {cell : Cell V} (h : cell.read who = .error (.error a)) :
    a = ⟨.unassigned, who⟩ := by
  cases cell with
  | holds value => cases h
  | unassigned =>
    cases h
    rfl

namespace FrameTree

variable {t : FrameTree V} {f : FrameId}

theorem eq_of_read (h : t.read f who = .error (.error a)) :
    a = ⟨.undeclared, who⟩ ∨ a = ⟨.unassigned, who⟩ := by
  unfold FrameTree.read at h
  cases hlocate : t.locate f who.name with
  | error fault =>
    rw [hlocate] at h
    cases h
  | ok found =>
    rw [hlocate] at h
    cases found with
    | none =>
      cases h
      exact .inl rfl
    | some found => exact .inr (Cell.eq_of_read h)

theorem eq_of_readAt {distance : Nat} (h : t.readAt f distance who = .error (.error a)) :
    a = ⟨.unassigned, who⟩ := by
  unfold FrameTree.readAt at h
  cases hlocate : t.locateAt f distance who with
  | error fault =>
    rw [hlocate] at h
    cases h
  | ok found =>
    rw [hlocate] at h
    exact Cell.eq_of_read h

theorem eq_of_write {value : V} (h : t.write f who value = .error (.error a)) :
    a = ⟨.undeclared, who⟩ := by
  unfold FrameTree.write at h
  cases hlocate : t.locate f who.name with
  | error fault =>
    rw [hlocate] at h
    cases h
  | ok found =>
    rw [hlocate] at h
    cases found with
    | none =>
      cases h
      rfl
    | some found =>
      -- A cell that was found is there, so that storing cannot be refused.
      change Interruption.lift (t.setCell found.1 who.name _) = _ at h
      cases hstored : t.setCell found.1 who.name (.holds value) <;> rw [hstored] at h <;> cases h

end FrameTree

theorem Context.eq_of_write {c : Context V} {value : V}
    (h : c.write who value = .error (.error a)) : a = ⟨.undeclared, who⟩ := by
  unfold Context.write at h
  cases hwrite : c.tree.write c.current who value with
  | ok t =>
    rw [hwrite] at h
    cases h
  | error i =>
    rw [hwrite] at h
    cases h
    exact FrameTree.eq_of_write hwrite

end access

/-- The error that a failed access becomes has the text and the place of the name. -/
theorem spelled_eq_error {i : Interruption AccessError} {symbols : SymbolTable} {e : RuntimeError}
    (h : i.spelled symbols = .error e) :
    ∃ a name, i = .error a ∧ symbols.text a.who.name = .ok name ∧
      e = (RuntimeError.ofCause (a.problem.cause name)).located a.who.span := by
  cases i with
  | fault f => cases h
  | error a =>
    cases hname : symbols.text a.who.name with
    | error f =>
      simp only [Interruption.spelled, AccessError.spell, hname, bind, Except.bind] at h
      cases h
    | ok name =>
      simp only [Interruption.spelled, AccessError.spell, hname, bind, Except.bind] at h
      cases h
      exact ⟨a, name, rfl, hname, rfl⟩

/-- Only an operator that is no equality refuses its operands. -/
theorem BinaryOp.eq_of_apply {op : BinaryOp} {symbols : SymbolTable} {left right : Value}
    {e : RuntimeError} (h : op.apply symbols left right = .error (.error e)) :
    op.isEquality = false ∧ e = .ofCause (.operand op.symbol op.operands) := by
  unfold BinaryOp.apply at h
  split at h
  · cases h
  · cases h
  · rename_i a b
    cases hjoin : BinaryOp.join symbols a b <;> rw [hjoin] at h <;> cases h
  · cases h
  · rename_i heq hne _ _
    cases h
    refine ⟨?_, rfl⟩
    cases op <;> first | rfl | exact (heq rfl).elim | exact (hne rfl).elim

section own

variable {x : Script} {id : ExprId} {who : Occurrence Symbol} {s : Session} {e : RuntimeError}

theorem ofAccess_eq_error {r : Except (Interruption AccessError) A}
    (h : (Run.ofAccess r s).1 = .error (.error e)) :
    ∃ a name, r = .error (.error a) ∧ s.symbols.text a.who.name = .ok name ∧
      e = (RuntimeError.ofCause (a.problem.cause name)).located a.who.span := by
  cases r with
  | ok value => cases h
  | error i =>
    rw [Run.ofAccess_error] at h
    obtain ⟨a, name, rfl, hname, he⟩ := spelled_eq_error (Except.error.inj h)
    exact ⟨a, name, rfl, hname, he⟩

theorem readName_blames (span : Span) (h : (x.readName id who s).1 = .error (.error e)) :
    Blames s.symbols ⟨.reference who, span⟩ e := by
  have blames : ∀ {a : AccessError} {name}, a = ⟨.undeclared, who⟩ ∨ a = ⟨.unassigned, who⟩ →
      s.symbols.text a.who.name = .ok name →
      e = (RuntimeError.ofCause (a.problem.cause name)).located a.who.span →
      Blames s.symbols ⟨.reference who, span⟩ e := by
    rintro a name (rfl | rfl) hname rfl
    · exact .undeclared span hname
    · exact .unassigned span hname
  cases hdistance : x.distance? id with
  | none =>
    rw [x.readName_of_none who s hdistance] at h
    obtain ⟨a, name, hread, hname, he⟩ := ofAccess_eq_error h
    exact blames (FrameTree.eq_of_read hread) hname he
  | some distance =>
    rw [x.readName_of_some who s hdistance] at h
    obtain ⟨a, name, hread, hname, he⟩ := ofAccess_eq_error h
    exact blames (.inr (FrameTree.eq_of_readAt hread)) hname he

theorem writeName_blames {value : Value} (operand : ExprId) (span : Span)
    (h : (x.writeName id who value s).1 = .error (.error e)) :
    Blames s.symbols ⟨.assign who operand, span⟩ e := by
  cases hdistance : x.distance? id with
  | none =>
    rw [x.writeName_of_none who value s hdistance] at h
    cases hwrite : s.context.write who value with
    | ok c =>
      rw [hwrite] at h
      cases h
    | error i =>
      rw [hwrite] at h
      obtain ⟨a, name, rfl, hname, rfl⟩ := spelled_eq_error (Except.error.inj h)
      obtain rfl := Context.eq_of_write hwrite
      exact .target operand span hname
  | some distance =>
    rw [x.writeName_of_some who value s hdistance] at h
    cases hwrite : s.context.writeAt distance who value <;> rw [hwrite] at h <;> cases h

theorem applyBinary_blames {op : BinaryOp} {first second : Value} (left right : ExprId)
    (span : Span) (h : (Script.applyBinary op span first second s).1 = .error (.error e)) :
    Blames s.symbols ⟨.binary left op right, span⟩ e := by
  unfold Script.applyBinary at h
  cases happly : op.apply s.symbols first second with
  | ok result =>
    rw [happly] at h
    cases h
  | error i =>
    rw [happly] at h
    cases i with
    | fault f => cases h
    | error e' =>
      obtain ⟨hop, rfl⟩ := BinaryOp.eq_of_apply happly
      cases h
      exact .operands left right span hop

theorem applyUnary_blames {op : UnaryOp} {value : Value} (operand : ExprId) (span : Span)
    (h : (Script.applyUnary op span value s).1 = .error (.error e)) :
    Blames s.symbols ⟨.unary op operand, span⟩ e := by
  unfold Script.applyUnary at h
  cases op with
  | not => cases h
  | neg =>
    cases value with
    | number x => cases h
    | _ =>
      cases h
      exact .negated operand span

/-- Whatever fails at a node says so, and whose fault it is. -/
theorem own_blames {expr : Expr Symbol} {operands : List Value}
    (h : (x.own id expr operands s).1 = .error (.error e)) : Blames s.symbols expr e := by
  have hown := x.own_operation id expr operands
  generalize x.own id expr operands = operation at hown h
  cases hown with
  | handOn expr value => cases h
  | read who span => exact readName_blames span h
  | write target operand span value =>
    cases hs : x.writeName id target value s with
    | mk result t =>
      cases result with
      | ok _ =>
        rw [Run.bind_of_ok hs] at h
        cases h
      | error i =>
        rw [Run.bind_of_error hs] at h
        cases h
        exact writeName_blames operand span (congrArg Prod.fst hs)
  | binary left op right span first second => exact applyBinary_blames left right span h
  | unary op operand span value => exact applyUnary_blames operand span h

end own

/-! ## The error of a run -/

/-- An error that is known by its place, its message and its report. -/
structure RuntimeError.Points (e : RuntimeError) (span : Span) : Prop where
  place : e.span = some span
  message : e.message = e.cause.message
  code : e.report.code = e.cause.code
  text : e.report.message = e.cause.message
  label : e.report.label = some ⟨span, e.cause.label⟩
  help_iff : e.report.help ≠ none ↔ ∃ name, e.cause = .undeclared name ∨ e.cause = .unassigned name

/-- An error that was made from its cause, and then got its place. -/
theorem RuntimeError.points_located (cause : Cause) (span : Span) :
    ((ofCause cause).located span).Points span := by
  cases cause with
  | undeclared name =>
    refine ⟨rfl, rfl, rfl, rfl, rfl, fun _ => ⟨name, .inl rfl⟩, fun _ => ?_⟩
    exact Option.some_ne_none _
  | unassigned name =>
    refine ⟨rfl, rfl, rfl, rfl, rfl, fun _ => ⟨name, .inr rfl⟩, fun _ => ?_⟩
    exact Option.some_ne_none _
  | operand symbol expected => exact ⟨rfl, rfl, rfl, rfl, rfl, fun h => absurd rfl h, nofun⟩

theorem Blames.points {symbols : SymbolTable} {expr : Expr Symbol} {e : RuntimeError}
    (h : Blames symbols expr e) : ∃ span, e.Points span := by
  cases h <;> exact ⟨_, RuntimeError.points_located _ _⟩

/-- If a run ends in an error, then of the own operations that it came to the last one raised it and
those before went well; it is of a kind that its node can fail in, and points at what failed. -/
theorem perform_blames (x : Script) (job : Job) {s t : Session} {e : RuntimeError}
    (h : x.perform job s = (.error (.error e), t)) :
    ∃ earlier culprit, x.attempts job s = earlier ++ [culprit] ∧
      (∀ a ∈ earlier, a.Succeeds x) ∧ culprit.Raises x e ∧
      (∃ root ∈ job.roots, culprit.Genuine x root) ∧
      Blames culprit.session.symbols culprit.expr e ∧ ∃ span, e.Points span := by
  have haccounts := x.attempts_accounts job s
  rw [h] at haccounts
  generalize x.attempts job s = attempts at haccounts
  cases haccounts with
  | error hearlier hgood hraises =>
    have hblames := own_blames hraises
    exact ⟨_, _, rfl, fun a ha => (hearlier a ha).2, hraises, hgood, hblames, hblames.points⟩

/-- A name that was never assigned, read by the right operand of a sum in parentheses, in the
initializer of a declaration inside a block. -/
theorem perform_blames_unassigned :
    let a (span : Span) : Occurrence Symbol := ⟨⟨1⟩, span⟩
    let x : Script :=
      { program :=
          { exprs := #[⟨.literal .nil, ⟨18, 21⟩⟩, ⟨.unary .not ⟨0⟩, ⟨17, 21⟩⟩,
              ⟨.reference (a ⟨24, 25⟩), ⟨24, 25⟩⟩, ⟨.binary ⟨1⟩ .add ⟨2⟩, ⟨17, 25⟩⟩,
              ⟨.group ⟨3⟩, ⟨16, 26⟩⟩]
            stmts := #[⟨.declare (a ⟨4, 5⟩) none, ⟨0, 6⟩⟩,
              ⟨.declare (a ⟨12, 13⟩) (some ⟨4⟩), ⟨8, 27⟩⟩, ⟨.block ⟨0, 1⟩, ⟨7, 28⟩⟩]
            bodies := #[⟨1⟩] }
        distances := .ofList [(⟨2⟩, 1)]
        mode := .byDistance
        spareLevels := 0 }
    let s : Session := .new (SymbolTable.new.step (.intern "a")).2
    let job : Job := .interpret [⟨0⟩, ⟨2⟩]
    let e : RuntimeError :=
      ⟨.unassigned "a", "variable read before assignment: a", some ⟨24, 25⟩⟩
    (x.perform job s).1 = .error (.error e) ∧
      (x.attempts job s).map (·.node) = [⟨0⟩, ⟨1⟩, ⟨2⟩] ∧
      ∃ earlier culprit, x.attempts job s = earlier ++ [culprit] ∧
        (∀ a ∈ earlier, a.Succeeds x) ∧ culprit.Raises x e ∧ e.Points ⟨24, 25⟩ := by
  intro a x s job e
  have hrun : (x.perform job s).1 = .error (.error e) := rfl
  obtain ⟨earlier, culprit, hattempts, hearlier, hraises, -, -, span, hpoints⟩ :=
    perform_blames x job (Prod.ext hrun rfl)
  obtain rfl : (⟨24, 25⟩ : Span) = span := Option.some.inj hpoints.place
  exact ⟨hrun, by decide +kernel, earlier, culprit, hattempts, hearlier, hraises, hpoints⟩

end Scoping
