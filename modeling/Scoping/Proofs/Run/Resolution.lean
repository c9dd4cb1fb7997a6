import Scoping.Proofs.Context.Reachable
import Scoping.Proofs.Run.Outline

/-!
# Going by distance and going by name

A table of distances may be right for a run and wrong for another one of the same program: what
counts are the frames at the moments at which names are resolved. `trace` lists these moments for a
run, in their order: the node, the name, and the context at that moment. If the distance that the
table has for each node of the trace is the number of links to the nearest declaration then, the two
modes give the same run (`byDistance_eq_byName`): the same end, the same cells, the same symbols.

The hypothesis is about one of the two runs only. It carries over step by step, because as long as
both have done the same they are in the same session, so that the next moment in the trace of one is
the next moment of the other.
-/

namespace Scoping

variable {A B : Type}

/-! ## The moments at which names are resolved -/

/-- A node that was come to, the name at it, and the context at that moment. -/
structure Resolution where
  node : ExprId
  who : Occurrence Symbol
  context : Context Value

/-- If the table has a distance for the node, it is that of the nearest declaration. -/
def Resolution.Fits (r : Resolution) (distances : Distances) : Prop :=
  ∀ distance, distances.find? r.node = some distance →
    r.context.distanceTo? r.who.name = some distance

instance (r : Resolution) (distances : Distances) : Decidable (r.Fits distances) :=
  match h : distances.find? r.node with
  | none => isTrue fun distance hfind => by
    rw [h] at hfind
    cases hfind
  | some distance =>
    decidable_of_iff (r.context.distanceTo? r.who.name = some distance)
      ⟨fun hfits distance' hfind => by
        rw [h] at hfind
        cases hfind
        exact hfits,
      fun hfits => hfits distance h⟩

/-- The moments of a computation and then, if it ends well, those of another one. -/
def Run.traceThen (first : Session → List Resolution) (m : Run A)
    (next : A → Session → List Resolution) (s : Session) : List Resolution :=
  first s ++ match m s with
    | (.ok a, t) => next a t
    | (.error _, _) => []

namespace Script

/-- The moments at which names are resolved while an expression is evaluated. -/
def evaluateTrace (x : Script) : Nat → ExprId → Session → List Resolution
  | 0, _, _ => []
  | fuel + 1, id, s =>
    match x.program.expr id with
    | .error _ => []
    | .ok expr =>
      match expr.form with
      | .literal _ => []
      | .reference who => [⟨id, who, s.context⟩]
      | .assign target value =>
        Run.traceThen (x.evaluateTrace fuel value) (x.evaluateWithin fuel value)
          (fun _ t => [⟨id, target, t.context⟩]) s
      | .binary left _ right =>
        Run.traceThen (x.evaluateTrace fuel left) (x.evaluateWithin fuel left)
          (fun _ => x.evaluateTrace fuel right) s
      | .unary _ operand => x.evaluateTrace fuel operand s
      | .logical left op right =>
        Run.traceThen (x.evaluateTrace fuel left) (x.evaluateWithin fuel left)
          (fun value t =>
            if op.decidedBy value.isTruthy then [] else x.evaluateTrace fuel right t) s
      | .group inner => x.evaluateTrace fuel inner s

/-- The same for statements one after the other, up to the first that does not end well. -/
def sequenceTrace (trace : StmtId → Session → List Resolution) (m : StmtId → Run Unit) :
    List StmtId → Session → List Resolution
  | [], _ => []
  | id :: ids, s => Run.traceThen (trace id) (m id) (fun _ => sequenceTrace trace m ids) s

/-- The same for a statement. A block is run in the scope that is opened for it. -/
def executeTrace (x : Script) : Nat → StmtId → Session → List Resolution
  | 0, _, _ => []
  | fuel + 1, id, s =>
    match x.program.stmt id with
    | .error _ => []
    | .ok stmt =>
      match stmt.form with
      | .expression e => x.evaluateTrace (x.program.exprs.size + x.spareLevels + 1) e s
      | .declare _ none => []
      | .declare _ (some init) =>
        x.evaluateTrace (x.program.exprs.size + x.spareLevels + 1) init s
      | .block body =>
        match x.program.body body, s.context.openScope with
        | .ok stmts, .ok context =>
          sequenceTrace (x.executeTrace fuel) (x.executeWithin fuel) stmts { s with context }
        | _, _ => []

/-- The same for all that can be asked of a script. -/
def trace (x : Script) : Job → Session → List Resolution
  | .evaluate id => x.evaluateTrace (x.program.exprs.size + x.spareLevels + 1) id
  | .execute id => x.executeTrace (x.program.stmts.size + x.spareLevels + 1) id
  | .interpret ids =>
    sequenceTrace (x.executeTrace (x.program.stmts.size + x.spareLevels + 1)) x.execute ids

end Script

/-! ## Faults that are no mismatch -/

/-- A distance turned out not to belong to the scopes that it was used in. -/
def Fault.isMismatch : Fault → Bool
  | .pastRoot _ _ _ | .notDeclared _ _ _ => true
  | _ => false

theorem isMismatch_of_slot {entries : Array A} {index : Nat} {fault : Fault}
    (h : slot entries index = .error fault) : fault.isMismatch = false := by
  unfold slot at h
  cases hentry : entries[index]? with
  | none =>
    rw [hentry] at h
    cases h
    rfl
  | some a =>
    rw [hentry] at h
    cases h

theorem isMismatch_of_body {N : Type} {p : Program N} {r : StmtRange} {fault : Fault}
    (h : p.body r = .error fault) : fault.isMismatch = false := by
  unfold Program.body at h
  split at h
  · cases h
    rfl
  · split at h
    · cases h
      rfl
    · cases h

theorem isMismatch_of_spell {symbols : SymbolTable} {e : AccessError} {fault : Fault}
    (h : e.spell symbols = .error fault) : fault.isMismatch = false := by
  unfold AccessError.spell at h
  cases htext : symbols.text e.who.name with
  | error fault' =>
    rw [htext] at h
    cases h
    exact isMismatch_of_slot htext
  | ok text =>
    rw [htext] at h
    cases h

theorem isMismatch_of_spelled {symbols : SymbolTable} {e : AccessError} {fault : Fault}
    (h : (Interruption.error e).spelled symbols = .fault fault) : fault.isMismatch = false := by
  unfold Interruption.spelled at h
  cases hspell : e.spell symbols with
  | error fault' =>
    simp only [hspell] at h
    cases h
    exact isMismatch_of_spell hspell
  | ok e' =>
    simp only [hspell] at h
    cases h

theorem isMismatch_of_join {symbols : SymbolTable} {a b : Symbol} {fault : Fault}
    (h : BinaryOp.join symbols a b = .error fault) : fault.isMismatch = false := by
  unfold BinaryOp.join at h
  cases hleft : symbols.text a with
  | error fault' =>
    rw [hleft] at h
    cases h
    exact isMismatch_of_slot hleft
  | ok left =>
    rw [hleft] at h
    cases hright : symbols.text b with
    | error fault' =>
      rw [hright] at h
      cases h
      exact isMismatch_of_slot hright
    | ok right =>
      rw [hright] at h
      cases h

/-- Of all operations only joining two strings can end in a fault. -/
theorem isMismatch_of_apply {op : BinaryOp} {symbols : SymbolTable} {left right : Value}
    {fault : Fault} (h : op.apply symbols left right = .error (.fault fault)) :
    fault.isMismatch = false := by
  unfold BinaryOp.apply at h
  split at h
  · cases h
  · cases h
  · rename_i a b
    cases hjoin : BinaryOp.join symbols a b with
    | error fault' =>
      rw [hjoin] at h
      cases h
      exact isMismatch_of_join hjoin
    | ok joined =>
      rw [hjoin] at h
      cases h
  · cases h
  · cases h

/-! ## Two computations in step -/

/-- From a given session, two computations do the same, and no distance is found to be wrong. -/
structure Run.Alike (m m' : Run A) (s : Session) : Prop where
  eq : m s = m' s
  fitting : ∀ fault, (m' s).1 = .error (.fault fault) → fault.isMismatch = false

namespace Run.Alike

theorem of_eq_ok {m m' : Run A} {s t : Session} {a : A} (h : m s = (.ok a, t))
    (h' : m' s = (.ok a, t)) : Alike m m' s := by
  refine ⟨h.trans h'.symm, ?_⟩
  intro fault hfault
  rw [h'] at hfault
  cases hfault

theorem ofFault {r : Except Fault A} {s : Session}
    (h : ∀ fault, r = .error fault → fault.isMismatch = false) :
    Alike (Run.ofFault r) (Run.ofFault r) s := by
  refine ⟨rfl, ?_⟩
  intro fault hfault
  cases r with
  | ok a => cases hfault
  | error fault' =>
    cases hfault
    exact h fault rfl

theorem bind {m m' : Run A} {k k' : A → Run B} {s : Session} (h : Alike m m' s)
    (hk : ∀ a t, m' s = (.ok a, t) → Alike (k a) (k' a) t) : Alike (m >>= k) (m' >>= k') s := by
  have hfitting := h.fitting
  rcases hm : m' s with ⟨i | a, t⟩
  · rw [hm] at hfitting
    refine ⟨?_, ?_⟩
    · rw [bind_of_error (h.eq.trans hm), bind_of_error hm]
    · rw [bind_of_error hm]
      exact fun fault hi => hfitting fault (congrArg Except.error (Except.error.inj hi))
  · have halike := hk a t hm
    refine ⟨?_, ?_⟩
    · rw [bind_of_ok (h.eq.trans hm), bind_of_ok hm]
      exact halike.eq
    · rw [bind_of_ok hm]
      exact halike.fitting

end Run.Alike

/-! ## Both modes in step -/

def Script.inMode (x : Script) (mode : Mode) : Script := { x with mode }

theorem Run.ofFault_eq_ok {r : Except Fault A} {a : A} {s t : Session}
    (h : Run.ofFault r s = (.ok a, t)) : r = .ok a ∧ s = t := by
  cases r with
  | ok b =>
    cases h
    exact ⟨rfl, rfl⟩
  | error fault => cases h

theorem Run.mem_traceThen_left {first : Session → List Resolution} {m : Run A}
    {next : A → Session → List Resolution} {s : Session} {r : Resolution} (h : r ∈ first s) :
    r ∈ Run.traceThen first m next s :=
  List.mem_append_left _ h

theorem Run.mem_traceThen_right {first : Session → List Resolution} {m : Run A}
    {next : A → Session → List Resolution} {s t : Session} {a : A} {r : Resolution}
    (hm : m s = (.ok a, t)) (h : r ∈ next a t) : r ∈ Run.traceThen first m next s := by
  rw [Run.traceThen, hm]
  exact List.mem_append_right _ h

namespace Script

variable {x : Script} {s : Session} (wf : s.context.WF)

include wf

theorem readName_alike {id : ExprId} {who : Occurrence Symbol}
    (hfits : Resolution.Fits ⟨id, who, s.context⟩ x.distances) :
    Run.Alike ((x.inMode .byDistance).readName id who) ((x.inMode .byName).readName id who) s := by
  have hname := (x.inMode .byName).readName_of_none who s
    (show (x.inMode .byName).distance? id = none from rfl)
  have hdistance : (x.inMode .byDistance).readName id who s =
      Run.ofAccess (s.context.read who) s := by
    cases hfind : x.distances.find? id with
    | none => exact readName_of_none (x.inMode .byDistance) who s hfind
    | some distance =>
      have hread : s.context.readAt distance who = s.context.read who :=
        FrameTree.readAt_of_distanceTo? wf.tree wf.current_lt (hfits distance hfind)
      rw [readName_of_some (x.inMode .byDistance) who s hfind, hread]
  refine ⟨hdistance.trans hname.symm, ?_⟩
  intro fault hfault
  rw [hname] at hfault
  cases hread : s.context.read who with
  | ok value =>
    rw [hread] at hfault
    cases hfault
  | error i =>
    rw [hread, Run.ofAccess_error] at hfault
    cases i with
    | fault fault' => exact absurd hread (FrameTree.read_ne_fault wf.tree wf.current_lt who fault')
    | error e => exact isMismatch_of_spelled (Except.error.inj hfault)

theorem writeName_alike {id : ExprId} {who : Occurrence Symbol} (value : Value)
    (hfits : Resolution.Fits ⟨id, who, s.context⟩ x.distances) :
    Run.Alike ((x.inMode .byDistance).writeName id who value)
      ((x.inMode .byName).writeName id who value) s := by
  have hname := (x.inMode .byName).writeName_of_none who value s
    (show (x.inMode .byName).distance? id = none from rfl)
  have hdistance : (x.inMode .byDistance).writeName id who value s =
      (x.inMode .byName).writeName id who value s := by
    cases hfind : x.distances.find? id with
    | none => rw [hname, writeName_of_none (x.inMode .byDistance) who value s hfind]
    | some distance =>
      obtain ⟨c, hwriteAt, hwrite⟩ :=
        Context.writeAt_of_distanceTo? wf value (hfits distance hfind)
      rw [hname, writeName_of_some (x.inMode .byDistance) who value s hfind, hwriteAt, hwrite]
  refine ⟨hdistance, ?_⟩
  intro fault hfault
  rw [hname] at hfault
  cases hwrite : s.context.write who value with
  | ok c =>
    rw [hwrite] at hfault
    cases hfault
  | error i =>
    rw [hwrite] at hfault
    cases i with
    | fault fault' => exact absurd hwrite (Context.write_ne_fault wf who value fault')
    | error e => exact isMismatch_of_spelled (Except.error.inj hfault)

omit wf in
theorem applyBinary_alike (op : BinaryOp) (span : Span) (left right : Value) :
    Run.Alike (applyBinary op span left right) (applyBinary op span left right) s := by
  refine ⟨rfl, ?_⟩
  intro fault hfault
  unfold applyBinary at hfault
  rcases happly : op.apply s.symbols left right with ((e | fault') | ⟨value, symbols⟩)
  · simp only [happly] at hfault
    cases hfault
  · simp only [happly] at hfault
    cases hfault
    exact isMismatch_of_apply happly
  · simp only [happly] at hfault
    cases hfault

omit wf in
theorem applyUnary_alike (op : UnaryOp) (span : Span) (operand : Value) :
    Run.Alike (applyUnary op span operand) (applyUnary op span operand) s := by
  refine ⟨rfl, ?_⟩
  intro fault hfault
  unfold applyUnary at hfault
  cases happly : op.apply operand with
  | ok value =>
    rw [happly] at hfault
    cases hfault
  | error e =>
    rw [happly] at hfault
    cases hfault

/-- The induction is on the levels; the hypothesis about an operand is the part of the trace that
belongs to it, and the session after it is that of the run by name. -/
theorem evaluateWithin_alike (fuel : Nat) {id : ExprId}
    (hfits : ∀ r ∈ (x.inMode .byName).evaluateTrace fuel id s, r.Fits x.distances) :
    Run.Alike ((x.inMode .byDistance).evaluateWithin fuel id)
      ((x.inMode .byName).evaluateWithin fuel id) s := by
  induction fuel generalizing id s with
  | zero =>
    apply Run.Alike.ofFault
    intro fault hfault
    cases hfault
    rfl
  | succ fuel ih =>
    have hwf : ∀ {id : ExprId} {s t : Session} {value : Value}, s.context.WF →
        (x.inMode .byName).evaluateWithin fuel id s = (.ok value, t) → t.context.WF :=
      fun {id s t value} wf hrun => by
        have hkept := (SameOutline.respects (x.inMode .byName)).evaluateWithin fuel id s wf
        rw [hrun] at hkept
        exact hkept.1
    rw [evaluateWithin, evaluateWithin]
    refine .bind (.ofFault fun fault => isMismatch_of_slot) fun expr t hrun => ?_
    obtain ⟨hexpr, rfl⟩ := Run.ofFault_eq_ok hrun
    rw [evaluateTrace, hexpr] at hfits
    obtain ⟨form, span⟩ := expr
    cases form with
    | literal value => exact .of_eq_ok rfl rfl
    | reference who => exact readName_alike wf (hfits _ List.mem_cons_self)
    | assign target value =>
      refine .bind (ih wf fun r hr => hfits r (Run.mem_traceThen_left hr)) fun value' t ht => ?_
      have hfits' := hfits _ (Run.mem_traceThen_right ht List.mem_cons_self)
      refine .bind (writeName_alike (hwf wf ht) value' hfits') fun _ t _ => .of_eq_ok rfl rfl
    | binary left op right =>
      refine .bind (ih wf fun r hr => hfits r (Run.mem_traceThen_left hr)) fun left' t ht => ?_
      refine .bind (ih (hwf wf ht) fun r hr => hfits r (Run.mem_traceThen_right ht hr))
        fun right' t _ => ?_
      exact applyBinary_alike op span left' right'
    | unary op operand =>
      exact .bind (ih wf hfits) fun operand' t _ => applyUnary_alike op span operand'
    | logical left op right =>
      refine .bind (ih wf fun r hr => hfits r (Run.mem_traceThen_left hr)) fun left' t ht => ?_
      by_cases hdecided : op.decidedBy left'.isTruthy = true
      · simp only [hdecided, if_true]
        exact .of_eq_ok rfl rfl
      · simp only [hdecided]
        refine ih (hwf wf ht) fun r hr => hfits r (Run.mem_traceThen_right ht ?_)
        simp only [hdecided]
        exact hr
    | group inner => exact ih wf hfits

theorem sequence_alike {trace : StmtId → Session → List Resolution} {m m' : StmtId → Run Unit}
    (hm : ∀ {id s}, s.context.WF → (∀ r ∈ trace id s, r.Fits x.distances) →
      Run.Alike (m id) (m' id) s)
    (hkeeps : ∀ id, Run.Keeps SameOutline (m' id)) (ids : List StmtId)
    (hfits : ∀ r ∈ sequenceTrace trace m' ids s, r.Fits x.distances) :
    Run.Alike (ids.forM m) (ids.forM m') s := by
  induction ids generalizing s with
  | nil => exact .of_eq_ok rfl rfl
  | cons id ids ih =>
    refine .bind (hm wf fun r hr => hfits r (Run.mem_traceThen_left hr)) fun _ t ht => ?_
    have hkept := hkeeps id s wf
    rw [ht] at hkept
    exact ih hkept.1 fun r hr => hfits r (Run.mem_traceThen_right ht hr)

theorem inScope_alike {body body' : Run Unit} (hbody : Run.Alike body body' s.opened)
    (hkeeps : Run.Keeps SameOutline body') :
    Run.Alike (Run.inScope body) (Run.inScope body') s := by
  obtain ⟨t, hrun, -⟩ := Run.inScope_closed hkeeps wf
  refine ⟨Run.inScope_congr wf hbody.eq, ?_⟩
  rw [hrun]
  exact hbody.fitting

theorem executeWithin_alike (fuel : Nat) {id : StmtId}
    (hfits : ∀ r ∈ (x.inMode .byName).executeTrace fuel id s, r.Fits x.distances) :
    Run.Alike ((x.inMode .byDistance).executeWithin fuel id)
      ((x.inMode .byName).executeWithin fuel id) s := by
  induction fuel generalizing id s with
  | zero =>
    apply Run.Alike.ofFault
    intro fault hfault
    cases hfault
    rfl
  | succ fuel ih =>
    rw [executeWithin, executeWithin]
    refine .bind (.ofFault fun fault => isMismatch_of_slot) fun stmt t hrun => ?_
    obtain ⟨hstmt, rfl⟩ := Run.ofFault_eq_ok hrun
    rw [executeTrace, hstmt] at hfits
    obtain ⟨form, span⟩ := stmt
    cases form with
    | expression e =>
      exact .bind (evaluateWithin_alike wf _ hfits) fun _ t _ => .of_eq_ok rfl rfl
    | declare name init =>
      cases init with
      | none =>
        have hdeclare := Run.modifyContext_of_ok (f := (·.declare name.name))
          (Context.declare_ok wf name.name)
        exact .of_eq_ok hdeclare hdeclare
      | some init =>
        refine .bind (evaluateWithin_alike wf _ hfits) fun value t ht => ?_
        have hkept := (SameOutline.respects (x.inMode .byName)).evaluate init _ wf
        rw [ht] at hkept
        have hdefine := Run.modifyContext_of_ok (f := (·.define name.name value))
          (Context.define_ok hkept.1 name.name value)
        exact .of_eq_ok hdefine hdefine
    | block body =>
      refine .bind (.ofFault fun fault => isMismatch_of_body) fun stmts t hrun => ?_
      obtain ⟨hstmts, rfl⟩ := Run.ofFault_eq_ok hrun
      have hrespects := SameOutline.respects (x.inMode .byName)
      refine inScope_alike wf ?_ (hrespects.sequence fuel stmts)
      simp only [hstmts, Session.openScope_ok wf] at hfits
      exact sequence_alike (Session.opened_wf wf) (fun wf hfits => ih wf hfits)
        (hrespects.executeWithin fuel) stmts hfits

theorem execute_alike {id : StmtId}
    (hfits : ∀ r ∈ (x.inMode .byName).executeTrace (x.program.stmts.size + x.spareLevels + 1) id s,
      r.Fits x.distances) :
    Run.Alike ((x.inMode .byDistance).execute id) ((x.inMode .byName).execute id) s :=
  executeWithin_alike wf _ hfits

theorem perform_alike {job : Job}
    (hfits : ∀ r ∈ (x.inMode .byName).trace job s, r.Fits x.distances) :
    Run.Alike ((x.inMode .byDistance).perform job) ((x.inMode .byName).perform job) s := by
  cases job with
  | evaluate id => exact .bind (evaluateWithin_alike wf _ hfits) fun _ t _ => .of_eq_ok rfl rfl
  | execute id => exact .bind (executeWithin_alike wf _ hfits) fun _ t _ => .of_eq_ok rfl rfl
  | interpret ids =>
    refine .bind ?_ fun _ t _ => .of_eq_ok rfl rfl
    exact sequence_alike wf (fun wf hfits => execute_alike wf hfits)
      (SameOutline.respects (x.inMode .byName)).execute ids hfits

end Script

/-- With distances that are right whenever they are used, going by distance and going by name are
the same, whatever the run does; and no distance is ever found to be wrong. -/
theorem byDistance_eq_byName (x : Script) (job : Job) {s : Session} (h : s.context.Reachable)
    (hfits : ∀ r ∈ (x.inMode .byName).trace job s, r.Fits x.distances) :
    (x.inMode .byDistance).perform job s = (x.inMode .byName).perform job s ∧
      ∀ fault, ((x.inMode .byDistance).perform job s).1 = .error (.fault fault) →
        fault.isMismatch = false := by
  have halike := Script.perform_alike h.wf hfits
  refine ⟨halike.eq, ?_⟩
  rw [halike.eq]
  exact halike.fitting

/-- A name written from an inner block, and then read where the block has hidden it. -/
theorem byDistance_eq_byName_hidden :
    let a : Occurrence Symbol := ⟨⟨1⟩, .nowhere⟩
    let x : Script :=
      { program :=
          { exprs := #[⟨.literal (.bool true), .nowhere⟩, ⟨.literal .nil, .nowhere⟩,
              ⟨.assign a ⟨1⟩, .nowhere⟩, ⟨.reference a, .nowhere⟩]
            stmts := #[⟨.declare a (some ⟨0⟩), .nowhere⟩, ⟨.block ⟨0, 3⟩, .nowhere⟩,
              ⟨.expression ⟨2⟩, .nowhere⟩, ⟨.expression ⟨3⟩, .nowhere⟩]
            bodies := #[⟨2⟩, ⟨0⟩, ⟨3⟩] }
        distances := .ofList [(⟨2⟩, 1), (⟨3⟩, 0)]
        mode := .byName
        spareLevels := 0 }
    let s : Session := .new .new
    let job : Job := .interpret [⟨0⟩, ⟨1⟩]
    s.context.Reachable ∧ (∀ r ∈ (x.inMode .byName).trace job s, r.Fits x.distances) ∧
      (x.inMode .byDistance).perform job s = (x.inMode .byName).perform job s := by
  intro a x s job
  have hfits : ∀ r ∈ (x.inMode .byName).trace job s, r.Fits x.distances := by decide +kernel
  exact ⟨.new, hfits, (byDistance_eq_byName x job .new hfits).1⟩

end Scoping
