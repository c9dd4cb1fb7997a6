import Scoping.Proofs.Run.Renamed

/-!
# The order of numbering cannot be observed

Symbols are numbers, and two tables that were filled in different orders give the same texts
different numbers. Two scripts that are the same but for that, run from sessions that are the same
but for that, end in the same way: in the same error, in values with the same texts, or in the same
fault, and again in sessions that differ in their numbers only (`perform_renamed`).

During the runs the tables drift further apart, because each joined text gets the next free number
in a table that has not had it yet. `Run.InStep` therefore speaks of all twins whose naming contains
a given one, as `Run.Safe` does of one session: what is related once stays related, so that it is
closed under sequencing (`InStep.bind`). The induction is on levels, with a lemma for each way in
which a run looks at a symbol.
-/

namespace Scoping

variable {A A' B B' : Type} {R S : Naming}

/-! ## Computations in step -/

namespace Run

/-- Two ends of the same kind: related results, the same error, or faults that differ at most in a
name. -/
inductive SameEnd (R : Naming) (good : A → A' → Prop) :
    Except (Interruption RuntimeError) A → Except (Interruption RuntimeError) A' → Prop
  | ok {a : A} {a' : A'} (h : good a a') : SameEnd R good (.ok a) (.ok a')
  | error (e : RuntimeError) : SameEnd R good (.error (.error e)) (.error (.error e))
  | fault {f f' : Fault} (h : f.Renamed R f') :
      SameEnd R good (.error (.fault f)) (.error (.fault f'))

/-- From twins whose naming contains a given one, two computations lead to twins whose naming has
only grown, and end in the same way. -/
def InStep (good : Naming → A → A' → Prop) (R : Naming) (m : Run A) (m' : Run A') : Prop :=
  ∀ ⦃s t : Session⦄, s.Twins t → R.Within (s.naming t) →
    (m s).2.Twins (m' t).2 ∧ (s.naming t).Within ((m s).2.naming (m' t).2) ∧
      SameEnd ((m s).2.naming (m' t).2) (good ((m s).2.naming (m' t).2)) (m s).1 (m' t).1

variable {good : Naming → A → A' → Prop} {good' : Naming → B → B' → Prop}

namespace InStep

theorem pure {a : A} {a' : A'} (h : ∀ S, R.Within S → good S a a') :
    InStep good R (pure a) (pure a') :=
  fun _ _ htwins hwithin => ⟨htwins, .refl _, .ok (h _ hwithin)⟩

theorem ofError (e : RuntimeError) :
    InStep good R (Run.ofResult (.error (.error e))) (Run.ofResult (.error (.error e))) :=
  fun _ _ htwins _ => ⟨htwins, .refl _, .error e⟩

theorem ofFault {f : Fault} (h : f.isMismatch = false) :
    InStep good R (Run.ofFault (.error f)) (Run.ofFault (.error f)) :=
  fun _ _ htwins _ => ⟨htwins, .refl _, .fault (.same h)⟩

/-- Nothing follows a fault. -/
theorem ofFault_bind {f : Fault} (h : f.isMismatch = false) (k : B → Run A) (k' : B' → Run A') :
    InStep good R (Run.ofFault (.error f) >>= k) (Run.ofFault (.error f) >>= k') :=
  fun _ _ htwins _ => ⟨htwins, .refl _, .fault (.same h)⟩

theorem mono {m : Run A} {m' : Run A'} (h : InStep good R m m') (hwithin : R.Within S) :
    InStep good S m m' :=
  fun _ _ htwins hmore => h htwins (hwithin.trans hmore)

theorem bind {m : Run A} {m' : Run A'} {k : A → Run B} {k' : A' → Run B'}
    (hm : InStep good R m m')
    (hk : ∀ a a' S, R.Within S → good S a a' → InStep good' S (k a) (k' a')) :
    InStep good' R (m >>= k) (m' >>= k') := by
  intro s t htwins hwithin
  obtain ⟨htwins', hgrows, hend⟩ := hm htwins hwithin
  rcases hs : m s with ⟨result, s'⟩
  rcases ht : m' t with ⟨result', t'⟩
  rw [hs, ht] at htwins' hgrows hend
  cases hend with
  | error e =>
    rw [bind_of_error hs, bind_of_error ht]
    exact ⟨htwins', hgrows, .error e⟩
  | fault hf =>
    rw [bind_of_error hs, bind_of_error ht]
    exact ⟨htwins', hgrows, .fault hf⟩
  | ok hgood =>
    rw [bind_of_ok hs, bind_of_ok ht]
    obtain ⟨htwins'', hgrows', hend'⟩ := hk _ _ _ (hwithin.trans hgrows) hgood htwins' (.refl _)
    exact ⟨htwins'', hgrows.trans hgrows', hend'⟩

theorem forM {f f' : B → Run Unit} (hf : ∀ b, InStep (fun _ _ _ => True) R (f b) (f' b))
    (l : List B) : InStep (fun _ _ _ => True) R (l.forM f) (l.forM f') := by
  induction l generalizing R with
  | nil => exact .pure fun _ _ => trivial
  | cons b l ih =>
    exact .bind (hf b) fun _ _ _ hwithin _ => ih fun b' => (hf b').mono hwithin

/-- Both bodies put the scopes back, so that both close the scope that was opened for them. -/
theorem inScope {good : Naming → Unit → Unit → Prop} {body body' : Run Unit}
    (h : InStep good R body body') (hbody : Keeps SameOutline body)
    (hbody' : Keeps SameOutline body') :
    InStep good R (Run.inScope body) (Run.inScope body') := by
  intro s t htwins hwithin
  obtain ⟨hinner, hgrows, hend⟩ := h htwins.opened hwithin
  obtain ⟨s', hs, hclosed⟩ := inScope_closed hbody htwins.context
  obtain ⟨t', ht, hclosed'⟩ := inScope_closed hbody' htwins.context'
  have hnaming : s'.naming t' = (body s.opened).2.naming (body' t.opened).2 := by
    rw [Session.naming, hclosed.symbols, hclosed'.symbols]
    rfl
  rw [hs, ht]
  refine ⟨htwins.closed hinner hclosed hclosed', ?_⟩
  rw [hnaming]
  exact ⟨hgrows, hend⟩

end InStep

end Run

/-! ## Accesses to names -/

theorem Interruption.spelled_renamed {t u : SymbolTable} {who who' : Occurrence Symbol}
    (problem : AccessProblem) (h : who.Renamed (t.SameText u) who') :
    ∃ e, (Interruption.error ⟨problem, who⟩).spelled t = .error e ∧
      (Interruption.error ⟨problem, who'⟩).spelled u = .error e := by
  obtain ⟨text, hwho, hwho'⟩ := h.name
  simp only [spelled, AccessError.spell, hwho, hwho', h.span]
  exact ⟨_, rfl, rfl⟩

/-- The error of a failed access names the same text on both sides. -/
theorem Run.sameEnd_ofAccess_error {good : A → A' → Prop} {s t : Session}
    {who who' : Occurrence Symbol} (problem : AccessProblem)
    (h : who.Renamed (s.naming t) who') :
    SameEnd (s.naming t) good
      (.error ((Interruption.error ⟨problem, who⟩).spelled s.symbols))
      (.error ((Interruption.error ⟨problem, who'⟩).spelled t.symbols)) := by
  obtain ⟨e, he, he'⟩ := Interruption.spelled_renamed problem h
  rw [he, he']
  exact .error e

theorem Run.sameEnd_ofAccess_read {s t : Session} {who who' : Occurrence Symbol}
    (h : who.Renamed (s.naming t) who') {c d : Cell Value} (hcd : c.Renamed (s.naming t) d) :
    SameEnd (s.naming t) (Value.Renamed (s.naming t)) (Run.ofAccess (c.read who) s).1
      (Run.ofAccess (d.read who') t).1 := by
  cases hcd with
  | holds hv => exact .ok hv
  | unassigned =>
    rw [Cell.read, Cell.read, ofAccess_error, ofAccess_error]
    exact sameEnd_ofAccess_error .unassigned h

namespace Script

variable {x y : Script} {id : ExprId} {who who' : Occurrence Symbol} {v v' : Value}

theorem readName_inStep (hdistance : x.distance? id = y.distance? id) (hwho : who.Renamed R who') :
    Run.InStep Value.Renamed R (x.readName id who) (y.readName id who') := by
  intro s t htwins hwithin
  have hwho' := hwho.mono hwithin
  have hlt := htwins.context.current_lt
  rw [x.readName_snd who s, y.readName_snd who' t]
  refine ⟨htwins, .refl _, ?_⟩
  cases hx : x.distance? id with
  | some distance =>
    rw [x.readName_of_some who s hx, y.readName_of_some who' t (hdistance ▸ hx), Context.readAt,
      Context.readAt, FrameTree.readAt, FrameTree.readAt, ← htwins.current]
    rcases htwins.tree.locateAt_cases htwins.oneToOne htwins.context.tree htwins.context'.tree hlt
      distance hwho' with ⟨fault, fault', hs, ht, hfault⟩ | ⟨g, c, d, hs, ht, hcd⟩
    · rw [hs, ht]
      exact .fault hfault
    · rw [hs, ht]
      exact Run.sameEnd_ofAccess_read hwho' hcd
  | none =>
    rw [x.readName_of_none who s hx, y.readName_of_none who' t (hdistance ▸ hx), Context.read,
      Context.read, FrameTree.read_eq htwins.context.tree hlt,
      FrameTree.read_eq htwins.context'.tree htwins.context'.current_lt, ← htwins.current]
    rcases htwins.tree.nearest_cases htwins.oneToOne hwho'.name htwins.context.tree
      s.context.current with ⟨hs, ht⟩ | ⟨g, c, d, hs, ht, hcd⟩
    · simp only [hs, ht, Run.ofAccess_error]
      exact Run.sameEnd_ofAccess_error .undeclared hwho'
    · simp only [hs, ht]
      exact Run.sameEnd_ofAccess_read hwho' hcd

theorem writeName_inStep (hdistance : x.distance? id = y.distance? id) (hwho : who.Renamed R who')
    (hv : v.Renamed R v') :
    Run.InStep (fun _ _ _ => True) R (x.writeName id who v) (y.writeName id who' v') := by
  intro s t htwins hwithin
  have hwho' := hwho.mono hwithin
  have hcell : (Cell.holds v).Renamed (s.naming t) (.holds v') := .holds (hv.mono hwithin)
  have hlt := htwins.context.current_lt
  cases hx : x.distance? id with
  | some distance =>
    rw [x.writeName_of_some who v s hx, y.writeName_of_some who' v' t (hdistance ▸ hx),
      Context.writeAt_eq htwins.context, Context.writeAt_eq htwins.context', ← htwins.current]
    rcases htwins.tree.locateAt_cases htwins.oneToOne htwins.context.tree htwins.context'.tree hlt
      distance hwho' with ⟨fault, fault', hs, ht, hfault⟩ | ⟨g, c, d, hs, ht, hcd⟩
    · rw [hs, ht]
      exact ⟨htwins, .refl _, .fault hfault⟩
    · have hheld := FrameTree.locateAt_eq_ok htwins.context.tree hlt hs
      rw [hs, ht]
      exact ⟨htwins.stored (List.mem_of_getElem? hheld.1) hwho'.name hcell, .refl _, .ok trivial⟩
  | none =>
    rw [x.writeName_of_none who v s hx, y.writeName_of_none who' v' t (hdistance ▸ hx),
      Context.write_eq htwins.context, Context.write_eq htwins.context', ← htwins.current]
    rcases htwins.tree.nearest_cases htwins.oneToOne hwho'.name htwins.context.tree
      s.context.current with ⟨hs, ht⟩ | ⟨g, c, d, hs, ht, hcd⟩
    · rw [hs, ht]
      exact ⟨htwins, .refl _, Run.sameEnd_ofAccess_error .undeclared hwho'⟩
    · rw [hs, ht]
      exact ⟨htwins.stored (FrameTree.held_of_nearest hs).1 hwho'.name hcell, .refl _,
        .ok trivial⟩

theorem declare_inStep {a b : Symbol} (hab : R a b) :
    Run.InStep (fun _ _ _ => True) R (Run.modifyContext (·.declare a))
      (Run.modifyContext (·.declare b)) := by
  intro s t htwins hwithin
  rw [Run.modifyContext_of_ok (Context.declare_ok htwins.context a),
    Run.modifyContext_of_ok (Context.declare_ok htwins.context' b), ← htwins.current]
  exact ⟨htwins.stored (FrameTree.mem_path_self _ _) (hwithin hab) .unassigned, .refl _,
    .ok trivial⟩

theorem define_inStep {a b : Symbol} (hab : R a b) (hv : v.Renamed R v') :
    Run.InStep (fun _ _ _ => True) R (Run.modifyContext (·.define a v))
      (Run.modifyContext (·.define b v')) := by
  intro s t htwins hwithin
  rw [Run.modifyContext_of_ok (Context.define_ok htwins.context a v),
    Run.modifyContext_of_ok (Context.define_ok htwins.context' b v'), ← htwins.current]
  exact ⟨htwins.stored (FrameTree.mem_path_self _ _) (hwithin hab) (.holds (hv.mono hwithin)),
    .refl _, .ok trivial⟩

end Script

/-! ## Operators -/

section operators

variable {t u : SymbolTable} {v v' w w' : Value}

/-- Joining the same texts interns the same text in both tables. -/
theorem BinaryOp.join_renamed (ht : t.WF) (hu : u.WF) {a a' b b' : Symbol}
    (ha : t.SameText u a a') (hb : t.SameText u b b') :
    ∃ joined more joined' more', join t a b = .ok (joined, more) ∧
      join u a' b' = .ok (joined', more') ∧ (more.WF ∧ t.Grows more) ∧ (more'.WF ∧ u.Grows more') ∧
      more.SameText more' joined joined' := by
  obtain ⟨left, hleft, hleft'⟩ := ha
  obtain ⟨right, hright, hright'⟩ := hb
  obtain ⟨hwf, hgrows, -⟩ := ht.intern (left ++ right)
  obtain ⟨hwf', hgrows', -⟩ := hu.intern (left ++ right)
  exact ⟨_, _, _, _, join_eq hleft hright, join_eq hleft' hright', ⟨hwf, hgrows⟩, ⟨hwf', hgrows'⟩,
    SymbolTable.sameText_intern ht hu (left ++ right)⟩

theorem BinaryOp.apply_renamed (ht : t.WF) (hu : u.WF) (op : BinaryOp)
    (hv : v.Renamed (t.SameText u) v') (hw : w.Renamed (t.SameText u) w') :
    (∃ e, op.apply t v w = .error (.error e) ∧ op.apply u v' w' = .error (.error e)) ∨
      ∃ z more z' more', op.apply t v w = .ok (z, more) ∧ op.apply u v' w' = .ok (z', more') ∧
        (more.WF ∧ t.Grows more) ∧ (more'.WF ∧ u.Grows more') ∧
        z.Renamed (more.SameText more') z' := by
  have hequal := hv.isEqual_eq (SymbolTable.oneToOne_sameText ht hu) hw
  have quiet : ∀ {z : Value}, z.names = [] → (t.WF ∧ t.Grows t) ∧ (u.WF ∧ u.Grows u) ∧
      z.Renamed (t.SameText u) z :=
    fun hz => ⟨⟨ht, .refl t⟩, ⟨hu, .refl u⟩, Value.renamed_of_names_eq_nil hz⟩
  by_cases heq : op.isEquality = true
  · cases op <;> cases heq <;> rw [apply, apply, hequal]
    · exact .inr ⟨_, _, _, _, rfl, rfl, quiet rfl⟩
    · exact .inr ⟨_, _, _, _, rfl, rfl, quiet rfl⟩
  · -- Only two numbers, and for addition two strings, are accepted.
    cases hv with
    | number x =>
      cases hw with
      | number y =>
        refine .inr ⟨op.onNumbers x y, t, op.onNumbers x y, u, ?_, ?_,
          quiet (names_onNumbers x y op)⟩
        · cases op <;> rfl
        · cases op <;> rfl
      | _ => cases op <;> first | exact .inl ⟨_, rfl, rfl⟩ | exact absurd rfl heq
    | str ha =>
      cases hw with
      | str hb =>
        cases op with
        | add =>
          obtain ⟨joined, more, joined', more', hjoin, hjoin', hmore, hmore', htext⟩ :=
            join_renamed ht hu ha hb
          rw [apply, apply, hjoin, hjoin']
          exact .inr ⟨_, _, _, _, rfl, rfl, hmore, hmore', .str htext⟩
        | _ => first | exact .inl ⟨_, rfl, rfl⟩ | exact absurd rfl heq
      | _ => cases op <;> first | exact .inl ⟨_, rfl, rfl⟩ | exact absurd rfl heq
    | _ =>
      cases hw <;> cases op <;> first | exact .inl ⟨_, rfl, rfl⟩ | exact absurd rfl heq

namespace Script

theorem applyBinary_inStep (op : BinaryOp) (span : Span) (hv : v.Renamed R v')
    (hw : w.Renamed R w') :
    Run.InStep Value.Renamed R (applyBinary op span v w) (applyBinary op span v' w') := by
  intro s t htwins hwithin
  rw [applyBinary, applyBinary]
  rcases op.apply_renamed htwins.symbols htwins.symbols' (hv.mono hwithin) (hw.mono hwithin) with
    ⟨e, hs, ht⟩ | ⟨z, more, z', more', hs, ht, ⟨hwf, hgrows⟩, ⟨hwf', hgrows'⟩, hz⟩
  · rw [hs, ht]
    exact ⟨htwins, .refl _, .error _⟩
  · rw [hs, ht]
    exact ⟨htwins.grown hwf hwf' hgrows hgrows', hgrows.within hgrows', .ok hz⟩

theorem applyUnary_inStep (op : UnaryOp) (span : Span) (hv : v.Renamed R v') :
    Run.InStep Value.Renamed R (applyUnary op span v) (applyUnary op span v') := by
  unfold applyUnary
  cases op with
  | not =>
    rw [UnaryOp.apply, UnaryOp.apply, hv.isTruthy_eq]
    exact .pure fun _ _ => .bool _
  | neg =>
    cases hv with
    | number bits => exact .pure fun _ _ => .number _
    | _ => exact .ofError _

end Script

end operators

/-! ## Runs -/

namespace Script

/-- Scripts that are the same but for the symbols of their programs. -/
structure Renamed (R : Naming) (x y : Script) : Prop where
  program : x.program.Renamed R y.program
  distances : x.distances = y.distances
  mode : x.mode = y.mode
  spareLevels : x.spareLevels = y.spareLevels

variable {x y : Script}

theorem Renamed.mono (h : R.Within S) (hx : x.Renamed R y) : x.Renamed S y where
  program := hx.program.mono h
  distances := hx.distances
  mode := hx.mode
  spareLevels := hx.spareLevels

theorem Renamed.distance?_eq (h : x.Renamed R y) (id : ExprId) :
    x.distance? id = y.distance? id := by
  rw [distance?, distance?, h.mode, h.distances]

theorem evaluateWithin_inStep (h : x.Renamed R y) (fuel : Nat) (id : ExprId) :
    Run.InStep Value.Renamed R (x.evaluateWithin fuel id) (y.evaluateWithin fuel id) := by
  induction fuel generalizing id R with
  | zero => exact .ofFault rfl
  | succ fuel ih =>
    rw [evaluateWithin, evaluateWithin]
    rcases h.program.expr id with ⟨e, e', he, he', hform, hspan⟩ | ⟨size, hx, hy⟩
    · obtain ⟨form, span⟩ := e
      obtain ⟨form', span'⟩ := e'
      obtain rfl : span = span' := hspan
      simp only [he, he', Run.ofFault_ok_bind]
      cases hform with
      | literal hl => exact .pure fun _ hwithin => (Value.renamed_ofLiteral hl).mono hwithin
      | reference hwho => exact readName_inStep (h.distance?_eq id) hwho
      | assign hwho value =>
        refine .bind (ih h value) fun v v' S hwithin hv => ?_
        refine .bind (writeName_inStep (h.distance?_eq id) (hwho.mono hwithin) hv) ?_
        exact fun _ _ _ hwithin' _ => .pure fun _ hwithin'' => hv.mono (hwithin'.trans hwithin'')
      | binary left op right =>
        refine .bind (ih h left) fun v v' S hwithin hv => ?_
        refine .bind (ih (h.mono hwithin) right) fun w w' T hwithin' hw => ?_
        exact applyBinary_inStep op span (hv.mono hwithin') hw
      | unary op operand =>
        exact .bind (ih h operand) fun _ _ _ _ hv => applyUnary_inStep op span hv
      | logical left op right =>
        refine .bind (ih h left) fun v v' S hwithin hv => ?_
        rw [hv.isTruthy_eq]
        by_cases hdecided : op.decidedBy v'.isTruthy = true
        · simp only [hdecided, if_true]
          exact .pure fun _ => hv.mono
        · simp only [hdecided]
          exact ih (h.mono hwithin) right
      | group inner => exact ih h inner
    · rw [hx, hy]
      exact .ofFault_bind rfl _ _

theorem evaluate_inStep (h : x.Renamed R y) (id : ExprId) :
    Run.InStep Value.Renamed R (x.evaluate id) (y.evaluate id) := by
  rw [evaluate, evaluate, h.program.size_exprs, h.spareLevels]
  exact evaluateWithin_inStep h _ id

theorem executeWithin_inStep (h : x.Renamed R y) (fuel : Nat) (id : StmtId) :
    Run.InStep (fun _ _ _ => True) R (x.executeWithin fuel id) (y.executeWithin fuel id) := by
  induction fuel generalizing id R with
  | zero => exact .ofFault rfl
  | succ fuel ih =>
    rw [executeWithin, executeWithin]
    rcases h.program.stmt id with ⟨s, s', hs, hs', hform, -⟩ | ⟨size, hx, hy⟩
    · obtain ⟨form, span⟩ := s
      obtain ⟨form', span'⟩ := s'
      simp only [hs, hs', Run.ofFault_ok_bind]
      cases hform with
      | expression e =>
        exact .bind (evaluate_inStep h e) fun _ _ _ _ _ => .pure fun _ _ => trivial
      | declare hname init =>
        cases init with
        | none => exact declare_inStep hname.name
        | some init =>
          exact .bind (evaluate_inStep h init) fun _ _ _ hwithin hv =>
            define_inStep (hwithin hname.name) hv
      | block body =>
        simp only [← h.program.body_eq body]
        cases hbody : x.program.body body with
        | error fault => exact .ofFault_bind (isMismatch_of_body hbody) _ _
        | ok stmts =>
          simp only [Run.ofFault_ok_bind]
          exact .inScope (.forM (ih h) stmts) ((SameOutline.respects x).sequence fuel stmts)
            ((SameOutline.respects y).sequence fuel stmts)
    · rw [hx, hy]
      exact .ofFault_bind rfl _ _

theorem execute_inStep (h : x.Renamed R y) (id : StmtId) :
    Run.InStep (fun _ _ _ => True) R (x.execute id) (y.execute id) := by
  rw [execute, execute, h.program.size_stmts, h.spareLevels]
  exact executeWithin_inStep h _ id

theorem perform_inStep (h : x.Renamed R y) (job : Job) :
    Run.InStep (fun S => Option.Rel (Value.Renamed S)) R (x.perform job) (y.perform job) := by
  cases job with
  | evaluate id =>
    exact .bind (evaluate_inStep h id) fun _ _ _ _ hv =>
      .pure fun _ hwithin => .some (hv.mono hwithin)
  | execute id => exact .bind (execute_inStep h id) fun _ _ _ _ _ => .pure fun _ _ => .none
  | interpret ids =>
    exact .bind (.forM (execute_inStep h) ids) fun _ _ _ _ _ => .pure fun _ _ => .none

end Script

/-- What holds after two runs that differ in the numbers of their symbols only. -/
structure Script.Concur (x y : Script) (job : Job) (s t : Session) : Prop where
  /-- The scopes are the same again, and hold the same but for the numbers. -/
  sessions : (x.perform job s).2.Renamed (y.perform job t).2
  ending : Run.SameEnd ((x.perform job s).2.naming (y.perform job t).2)
    (Option.Rel (Value.Renamed ((x.perform job s).2.naming (y.perform job t).2)))
    (x.perform job s).1 (y.perform job t).1
  /-- The values of the runs have the same text. -/
  rendered : ∀ v w, (x.perform job s).1 = .ok (some v) → (y.perform job t).1 = .ok (some w) →
    ∃ text, v.render (x.perform job s).2.symbols = .ok text ∧
      w.render (y.perform job t).2.symbols = .ok text
  /-- All expressions print the same, before the runs and after them. -/
  printed : ∀ id, x.program.reversePolish s.symbols id = y.program.reversePolish t.symbols id ∧
    x.program.reversePolish (x.perform job s).2.symbols id =
      y.program.reversePolish (y.perform job t).2.symbols id

/-- Whatever texts two tables hold, and in whatever order they were numbered, nothing that a run
shows depends on it. -/
theorem perform_renamed (x y : Script) (job : Job) {s t : Session} (hsession : s.Renamed t)
    (hscript : x.Renamed (s.naming t) y) (hcontext : s.context.Reachable)
    (hcontext' : t.context.Reachable) (hsymbols : s.symbols.Reachable)
    (hsymbols' : t.symbols.Reachable) : x.Concur y job s t := by
  have htwins : s.Twins t :=
    ⟨hsession, hcontext.wf, hcontext'.wf, hsymbols.wf, hsymbols'.wf⟩
  obtain ⟨htwins', hwithin, hend⟩ := Script.perform_inStep hscript job htwins (.refl _)
  refine ⟨htwins'.toRenamed, hend, fun v w hv hw => ?_, fun id => ⟨?_, ?_⟩⟩
  · rw [hv, hw] at hend
    cases hend with
    | ok hresult =>
      cases hresult with
      | some hvalue => exact hvalue.render_ok
  · exact Program.reversePolish_renamed hscript.program id
  · exact Program.reversePolish_renamed (hscript.program.mono hwithin) id

/-- The same name and string, numbered in two orders, the second time with another text between
them; the strings are joined with each other. -/
theorem perform_renamed_joined :
    let script (a b : Symbol) : Script :=
      { program :=
          { exprs := #[⟨.literal (.str b), .nowhere⟩, ⟨.reference ⟨a, .nowhere⟩, .nowhere⟩,
              ⟨.binary ⟨1⟩ .add ⟨0⟩, .nowhere⟩]
            stmts := #[]
            bodies := #[] }
        distances := .empty
        mode := .byName }
    let session (a b : Symbol) (texts : List String) : Session :=
      ⟨(Context.new.step (.define a (.str b))).2,
        texts.foldl (fun table text => (table.step (.intern text)).2) .new⟩
    let s := session ⟨1⟩ ⟨2⟩ ["a", "b"]
    let t := session ⟨3⟩ ⟨1⟩ ["b", "c", "a"]
    let job : Job := .evaluate ⟨2⟩
    s.Renamed t ∧ (script ⟨1⟩ ⟨2⟩).Renamed (s.naming t) (script ⟨3⟩ ⟨1⟩) ∧
      s.context.Reachable ∧ t.context.Reachable ∧ s.symbols.Reachable ∧ t.symbols.Reachable ∧
      (script ⟨1⟩ ⟨2⟩).Concur (script ⟨3⟩ ⟨1⟩) job s t ∧
      ((script ⟨1⟩ ⟨2⟩).perform job s).1 = .ok (some (.str ⟨3⟩)) ∧
      ((script ⟨3⟩ ⟨1⟩).perform job t).1 = .ok (some (.str ⟨4⟩)) := by
  intro script session s t job
  have hsymbols : s.symbols.Reachable := .step (.step .new _) _
  have hsymbols' : t.symbols.Reachable := .step (.step (.step .new _) _) _
  have ha : s.naming t ⟨1⟩ ⟨3⟩ := ⟨"a", rfl, rfl⟩
  have hb : s.naming t ⟨2⟩ ⟨1⟩ := ⟨"b", rfl, rfl⟩
  have hsession : s.Renamed t :=
    ((Session.twins_new hsymbols.wf hsymbols'.wf).stored (FrameTree.mem_path_self _ _) ha
      (.holds (.str hb))).toRenamed
  have hscript : (script ⟨1⟩ ⟨2⟩).Renamed (s.naming t) (script ⟨3⟩ ⟨1⟩) :=
    ⟨⟨.cons ⟨.literal (.str hb), rfl⟩ (.cons ⟨.reference ⟨ha, rfl⟩, rfl⟩
      (.cons ⟨.binary _ _ _, rfl⟩ .nil)), .nil, rfl⟩, rfl, rfl, rfl⟩
  exact ⟨hsession, hscript, .step .new _, .step .new _, hsymbols, hsymbols',
    perform_renamed _ _ job hsession hscript (.step .new _) (.step .new _) hsymbols hsymbols',
    by decide +kernel, by decide +kernel⟩

end Scoping
