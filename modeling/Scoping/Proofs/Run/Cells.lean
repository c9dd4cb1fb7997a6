import Scoping.Proofs.Run.Safety

/-!
# The cells that a run changes

A run writes only names that are assigned below the nodes it starts from, and declares names only in
the frame where it starts, apart from frames that it opens and gives back itself. `Change` says what
can become of a single cell: it is kept, a value is written over it, or its name is declared. A
session `Alters` another one if all cells have changed so, and the outlines agree.

Inside a block every name may be declared, since that happens in the frame of the block, which is
gone when the block is left, however it is left (`Alters.inScope`); so what is declared in a block
does not show outside. The footprint of a whole run (`perform_footprint`) is that of its parts, with
the names that its own statements declare.
-/

namespace Scoping

/-! ## What can become of a cell -/

/-- What can become of a cell, or of the lack of one, where its name may be assigned or declared. -/
inductive Change (assigned declared : Prop) : Option (Cell Value) → Option (Cell Value) → Prop
  | kept (old : Option (Cell Value)) : Change assigned declared old old
  | overwritten (h : assigned) (old : Cell Value) (value : Value) :
      Change assigned declared (some old) (some (.holds value))
  | declared (h : declared) (old : Option (Cell Value)) (new : Cell Value) :
      Change assigned declared old (some new)

namespace Change

variable {assigned declared : Prop} {a b c : Option (Cell Value)}

theorem trans (hab : Change assigned declared a b) (hbc : Change assigned declared b c) :
    Change assigned declared a c := by
  cases hbc with
  | kept => exact hab
  | declared h _ new => exact .declared h a new
  | overwritten h old value =>
    cases hab with
    | kept => exact .overwritten h old value
    | overwritten _ older => exact .overwritten h older value
    | declared h' => exact .declared h' a _

theorem mono {assigned' declared' : Prop} (hassigned : assigned → assigned')
    (hdeclared : declared → declared') (h : Change assigned declared a b) :
    Change assigned' declared' a b := by
  cases h with
  | kept => exact .kept a
  | overwritten h old value => exact .overwritten (hassigned h) old value
  | declared h _ new => exact .declared (hdeclared h) a new

theorem ne_none (h : Change assigned declared a b) (ha : a ≠ none) : b ≠ none := by
  cases h with
  | kept => exact ha
  | overwritten => exact Option.some_ne_none _
  | declared => exact Option.some_ne_none _

theorem declared_of_none (h : Change assigned declared a b) (ha : a = none) (hb : b ≠ none) :
    declared := by
  cases h with
  | kept => exact absurd ha hb
  | overwritten => cases ha
  | declared h => exact h

theorem declared_of_unassigned {value : Value} (h : Change assigned declared a b)
    (ha : a = some (.holds value)) (hb : b = some .unassigned) : declared := by
  cases h with
  | kept => cases ha.symm.trans hb
  | overwritten => cases hb
  | declared h => exact h

theorem of_ne (h : Change assigned declared a b) (hne : b ≠ a) : assigned ∨ declared := by
  cases h with
  | kept => exact absurd rfl hne
  | overwritten h => exact .inl h
  | declared h => exact .inr h

end Change

/-- A session that came from another one by giving values to names that may be `assigned`, and by
declaring names that may be `declared` in the current frame. -/
structure Alters (assigned declared : Symbol → Prop) (s t : Session) : Prop where
  outline : SameOutline s t
  cell : s.context.WF → ∀ f name,
    Change (assigned name) (f = s.context.current ∧ declared name)
      (s.context.tree.held f name) (t.context.tree.held f name)

/-- What writing a name does: nothing, or it gives a value to a cell of the name that is there. -/
theorem Script.writeName_cases (x : Script) (id : ExprId) (who : Occurrence Symbol) (value : Value)
    {s : Session} (wf : s.context.WF) :
    (x.writeName id who value s).2 = s ∨
      ∃ g old, s.context.tree.held g who.name = some old ∧
        (x.writeName id who value s).2 =
          ⟨s.context.withTree (s.context.tree.update g (·.store who.name (.holds value))),
            s.symbols⟩ := by
  cases hdistance : x.distance? id with
  | some distance =>
    rw [x.writeName_of_some who value s hdistance, Context.writeAt_eq wf]
    cases hfound : s.context.tree.locateAt s.context.current distance who with
    | error fault => exact .inl rfl
    | ok found =>
      have hheld := (FrameTree.locateAt_eq_ok wf.tree wf.current_lt hfound).2
      exact .inr ⟨_, _, hheld, rfl⟩
  | none =>
    rw [x.writeName_of_none who value s hdistance, Context.write_eq wf]
    cases hfound : s.context.tree.nearest s.context.current who.name with
    | none => exact .inl rfl
    | some found => exact .inr ⟨_, _, (FrameTree.held_of_nearest hfound).2, rfl⟩

namespace Alters

open FrameTree

variable {assigned declared : Symbol → Prop} {s t u : Session}

theorem refl (s : Session) : Alters assigned declared s s where
  outline wf := ⟨wf, rfl⟩
  cell _ _ _ := .kept _

theorem trans (hst : Alters assigned declared s t) (htu : Alters assigned declared t u) :
    Alters assigned declared s u where
  outline wf := by
    obtain ⟨wf', houtline⟩ := hst.outline wf
    obtain ⟨wf'', houtline'⟩ := htu.outline wf'
    exact ⟨wf'', houtline'.trans houtline⟩
  cell wf f name := by
    obtain ⟨wf', houtline⟩ := hst.outline wf
    have hcurrent : t.context.current = s.context.current := (Prod.mk.inj houtline).1
    have hchange := htu.cell wf' f name
    rw [hcurrent] at hchange
    exact (hst.cell wf f name).trans hchange

theorem mono {assigned' declared' : Symbol → Prop}
    (hassigned : ∀ name, assigned name → assigned' name)
    (hdeclared : ∀ name, declared name → declared' name) (h : Alters assigned declared s t) :
    Alters assigned' declared' s t where
  outline := h.outline
  cell wf f name := (h.cell wf f name).mono (hassigned name) fun h => ⟨h.1, hdeclared name h.2⟩

/-- One cell has been stored. -/
theorem stored (houtline : SameOutline s t) {g : FrameId} {name : Symbol} {cell : Cell Value}
    (hg : g < s.context.tree.size)
    (ht : t.context.tree = s.context.tree.update g (·.store name cell))
    (hchange : Change (assigned name) (g = s.context.current ∧ declared name)
      (s.context.tree.held g name) (some cell)) : Alters assigned declared s t where
  outline := houtline
  cell _ f m := by
    rw [ht, held_store hg]
    split
    · next heq =>
      obtain ⟨rfl, rfl⟩ := heq
      exact hchange
    · exact .kept _

theorem writeName (x : Script) (id : ExprId) {who : Occurrence Symbol} (value : Value)
    (h : assigned who.name) : Run.Keeps (Alters assigned declared) (x.writeName id who value) := by
  intro s
  have houtline := SameOutline.writeName x id who value s
  refine ⟨houtline, fun wf f name => ?_⟩
  rcases x.writeName_cases id who value wf with hsame | ⟨g, old, hheld, hstored⟩
  · rw [hsame]
    exact .kept _
  · have htree : (x.writeName id who value s).2.context.tree = s.context.tree.update g _ :=
      congrArg (·.context.tree) hstored
    refine (stored houtline (lt_of_held hheld) htree ?_).cell wf f name
    rw [hheld]
    exact .overwritten h old value

theorem applyBinary (op : BinaryOp) (span : Span) (left right : Value) :
    Run.Keeps (Alters assigned declared) (Script.applyBinary op span left right) := by
  intro s
  refine ⟨SameOutline.applyBinary op span left right s, fun _ f name => ?_⟩
  unfold Script.applyBinary
  rcases op.apply s.symbols left right with ((e | fault) | ⟨value, symbols⟩) <;> exact .kept _

theorem declare {name : Symbol} (h : declared name) :
    Run.Keeps (Alters assigned declared) (Run.modifyContext (·.declare name)) := by
  intro s
  have houtline := SameOutline.declare name s
  refine ⟨houtline, fun wf => ?_⟩
  rw [Run.modifyContext_of_ok (Context.declare_ok wf name)] at houtline ⊢
  exact (stored houtline wf.current_lt rfl (.declared ⟨rfl, h⟩ _ _)).cell wf

theorem define {name : Symbol} (h : declared name) (value : Value) :
    Run.Keeps (Alters assigned declared) (Run.modifyContext (·.define name value)) := by
  intro s
  have houtline := SameOutline.define name value s
  refine ⟨houtline, fun wf => ?_⟩
  rw [Run.modifyContext_of_ok (Context.define_ok wf name value)] at houtline ⊢
  exact (stored houtline wf.current_lt rfl (.declared ⟨rfl, h⟩ _ _)).cell wf

/-- Whatever a body declares, it does so in the frame that was opened for it. -/
theorem inScope {body : Run Unit} (hbody : Run.Keeps (Alters assigned fun _ => True) body) :
    Run.Keeps (Alters assigned declared) (Run.inScope body) := by
  intro s
  have houtline : Run.Keeps SameOutline body := hbody.mono fun _ _ h => h.outline
  refine ⟨SameOutline.inScope houtline s, fun wf f name => ?_⟩
  obtain ⟨t, hrun, hclosed⟩ := Run.inScope_closed houtline wf
  rw [hrun]
  rcases Nat.lt_or_ge f s.context.tree.size with hf | hf
  · have hchange := (hbody s.opened).cell (Session.opened_wf wf) f name
    rw [Session.opened, held_grow] at hchange
    rw [held_congr (hclosed.frame_eq hf)]
    exact hchange.mono id fun hnew => absurd hnew.1 (Nat.ne_of_lt hf)
  · -- Past the old frames there is nothing, before the block and after it.
    rw [held_of_le hf, held_of_le (hclosed.size_eq ▸ hf)]
    exact .kept _

end Alters

/-! ## Names that are assigned and declared -/

/-- A name is the target of an assignment that can be reached from a node. -/
def Program.Assigns (p : Program Symbol) (n : Node) (name : Symbol) : Prop :=
  ∃ id target value span, p.Reaches n (.expr id) ∧
    p.expr id = .ok ⟨.assign target value, span⟩ ∧ target.name = name

/-- A name is assigned somewhere below the nodes that a job starts from. -/
def Job.Assigns (p : Program Symbol) (job : Job) (name : Symbol) : Prop :=
  ∃ n ∈ job.roots, p.Assigns n name

/-- A name is declared by one of the statements that a job starts from, not by one inside them. -/
def Job.Declares (p : Program Symbol) : Job → Symbol → Prop
  | .evaluate _, _ => False
  | .execute id, name => name ∈ p.names (.stmt id)
  | .interpret ids, name => ∃ id ∈ ids, name ∈ p.names (.stmt id)

/-! ## Whole runs -/

namespace Script

variable {x : Script} {n : Node}

theorem alters_below (x : Script) (n : Node) (declared : Symbol → Prop) :
    x.RespectsBelow n (Alters (x.program.Assigns n) declared) where
  refl := Alters.refl
  trans _ _ _ := Alters.trans
  write {id target operand span} hid hexpr value :=
    Alters.writeName x id value ⟨id, target, operand, span, hid, hexpr, rfl⟩
  binary := Alters.applyBinary

theorem evaluate_alters (declared : Symbol → Prop) {id : ExprId}
    (hid : x.program.Reaches n (.expr id)) :
    Run.Keeps (Alters (x.program.Assigns n) declared) (x.evaluate id) :=
  (x.alters_below n declared).evaluateWithin _ hid

/-- A statement declares no name but its own. -/
theorem executeWithin_alters (fuel : Nat) {id : StmtId} (hid : x.program.Reaches n (.stmt id)) :
    Run.Keeps (Alters (x.program.Assigns n) (· ∈ x.program.names (.stmt id)))
      (x.executeWithin fuel id) := by
  have quiet : ∀ {A : Type} {declared : Symbol → Prop} {m : Run A}, (∀ s, (m s).2 = s) →
      Run.Keeps (Alters (x.program.Assigns n) declared) m := fun hm => .of_snd_eq Alters.refl hm
  have trans : ∀ {declared : Symbol → Prop} (s t u : Session),
      Alters (x.program.Assigns n) declared s t → Alters (x.program.Assigns n) declared t u →
        Alters (x.program.Assigns n) declared s u := fun _ _ _ => Alters.trans
  induction fuel generalizing id with
  | zero => exact quiet fun _ => rfl
  | succ fuel ih =>
    rw [executeWithin]
    cases hstmt : x.program.stmt id with
    | error fault => exact quiet fun _ => rfl
    | ok stmt =>
      have below : ∀ {body : List StmtId}, x.program.inner stmt.form = .ok body →
          ∀ e ∈ stmt.form.exprs, x.program.Reaches n (.expr e) :=
        fun hbody e he => hid.tail (Program.refersTo_expr_of_stmt hstmt hbody he)
      obtain ⟨form, span⟩ := stmt
      rw [Run.ofFault_ok_bind, Program.names, hstmt]
      cases form with
      | expression e =>
        exact .bind trans (evaluate_alters _ (below rfl e List.mem_cons_self)) fun _ =>
          quiet fun _ => rfl
      | declare who init =>
        cases init with
        | none => exact Alters.declare List.mem_cons_self
        | some init =>
          exact .bind trans (evaluate_alters _ (below rfl init List.mem_cons_self)) fun value =>
            Alters.define List.mem_cons_self value
      | block body =>
        cases hbody : x.program.body body with
        | error fault =>
          simp only [hbody]
          exact quiet fun _ => rfl
        | ok stmts =>
          simp only [hbody, Run.ofFault_ok_bind]
          refine Alters.inScope (.forM Alters.refl trans fun i hi => ?_)
          have hinner := ih (hid.tail (Program.refersTo_inner hstmt hbody hi))
          exact hinner.mono fun _ _ h => h.mono (fun _ h => h) fun _ _ => trivial

theorem execute_alters {id : StmtId} (hid : x.program.Reaches n (.stmt id)) :
    Run.Keeps (Alters (x.program.Assigns n) (· ∈ x.program.names (.stmt id))) (x.execute id) :=
  executeWithin_alters _ hid

theorem perform_alters (x : Script) (job : Job) :
    Run.Keeps (Alters (job.Assigns x.program) (job.Declares x.program)) (x.perform job) := by
  have trans := fun s t u =>
    @Alters.trans (job.Assigns x.program) (job.Declares x.program) s t u
  have quiet : ∀ value, Run.Keeps (Alters (job.Assigns x.program) (job.Declares x.program))
      (pure value : Run (Option Value)) := fun _ => .of_snd_eq Alters.refl fun _ => rfl
  -- What changes from one root of the job is part of what the job changes.
  have root : ∀ {A : Type} {m : Run A} {declared n}, n ∈ job.roots →
      (∀ name, declared name → job.Declares x.program name) →
      Run.Keeps (Alters (x.program.Assigns n) declared) m →
      Run.Keeps (Alters (job.Assigns x.program) (job.Declares x.program)) m :=
    fun hn hdeclared hm => hm.mono fun _ _ h => h.mono (fun _ h => ⟨_, hn, h⟩) hdeclared
  cases job with
  | evaluate id =>
    have hid := x.evaluate_alters (fun _ => False) (n := .expr id) .refl
    exact .bind trans (root List.mem_cons_self (fun _ => False.elim) hid) fun _ => quiet _
  | execute id =>
    have hid := x.execute_alters (n := .stmt id) .refl
    exact .bind trans (root List.mem_cons_self (fun _ h => h) hid) fun _ => quiet _
  | interpret ids =>
    refine .bind trans (.forM Alters.refl trans fun id hid => ?_) fun _ => quiet _
    exact root (List.mem_map_of_mem hid) (fun _ h => ⟨id, hid, h⟩) (execute_alters .refl)

/-- An initializer that does not end in a value is all that is run of its declaration. -/
theorem execute_declare_of_error {id : StmtId} {who : Occurrence Symbol} {init : ExprId}
    {span : Span} {s t : Session} {i : Interruption RuntimeError}
    (hstmt : x.program.stmt id = .ok ⟨.declare who (some init), span⟩)
    (hinit : x.evaluate init s = (.error i, t)) : x.execute id s = (.error i, t) := by
  rw [execute, executeWithin, hstmt, Run.ofFault_ok_bind]
  exact Run.bind_of_error hinit

end Script

/-! ## The footprint of a run -/

/-- What a run leaves of the cells that there were, and which ones it may add to them. -/
structure Script.Footprint (x : Script) (job : Job) (c d : Context Value) : Prop where
  frames : d.outline = c.outline
  kept : ∀ {f name}, c.tree.held f name ≠ none → d.tree.held f name ≠ none
  added : ∀ {f name}, c.tree.held f name = none → d.tree.held f name ≠ none →
    f = c.current ∧ job.Declares x.program name
  emptied : ∀ {f name value}, c.tree.held f name = some (.holds value) →
    d.tree.held f name = some .unassigned → f = c.current ∧ job.Declares x.program name
  changed : ∀ {f name}, d.tree.held f name ≠ c.tree.held f name →
    job.Assigns x.program name ∨ f = c.current ∧ job.Declares x.program name

theorem Alters.footprint {x : Script} {job : Job} {s t : Session}
    (h : Alters (job.Assigns x.program) (job.Declares x.program) s t) (wf : s.context.WF) :
    x.Footprint job s.context t.context where
  frames := (h.outline wf).2
  kept {f name} := (h.cell wf f name).ne_none
  added {f name} := (h.cell wf f name).declared_of_none
  emptied {f name _} := (h.cell wf f name).declared_of_unassigned
  changed {f name} := (h.cell wf f name).of_ne

/-- However a run ends, the cells that it changed are those of names assigned below its nodes, and
those that its own statements declare in the frame where it began; and a declaration whose
initializer ends in an error or a fault leaves what evaluating the initializer leaves. -/
theorem perform_footprint (x : Script) (job : Job) {s : Session} (h : s.context.Reachable) :
    x.Footprint job s.context (x.perform job s).2.context ∧
      ∀ {id who init span i t}, x.program.stmt id = .ok ⟨.declare who (some init), span⟩ →
        x.perform (.evaluate init) s = (.error i, t) →
          x.perform (.execute id) s = (.error i, t) := by
  refine ⟨(x.perform_alters job s).footprint h.wf, fun {id who init span i t} hstmt hinit => ?_⟩
  cases hrun : x.evaluate init s with
  | mk result u =>
    have hperform : x.perform (.evaluate init) s = (result.map some, u) := by
      cases result with
      | error e => exact Run.bind_of_error hrun
      | ok value => exact Run.bind_of_ok hrun
    rw [hperform] at hinit
    cases result with
    | ok value => cases hinit
    | error e =>
      cases hinit
      exact Run.bind_of_error (Script.execute_declare_of_error hstmt hrun)

/-- A declaration in a block, whose initializer assigns a name outside of the block and then reads
the name that is about to be declared. -/
theorem perform_footprint_undeclared :
    let a : Occurrence Symbol := ⟨⟨1⟩, .nowhere⟩
    let b : Occurrence Symbol := ⟨⟨2⟩, .nowhere⟩
    let x : Script :=
      { program :=
          { exprs := #[⟨.literal (.bool true), .nowhere⟩, ⟨.assign a ⟨0⟩, .nowhere⟩,
              ⟨.reference b, .nowhere⟩, ⟨.binary ⟨1⟩ .eq ⟨2⟩, .nowhere⟩]
            stmts := #[⟨.declare b (some ⟨3⟩), .nowhere⟩, ⟨.block ⟨0, 1⟩, .nowhere⟩]
            bodies := #[⟨0⟩] }
        distances := .empty
        mode := .byName
        spareLevels := 0 }
    let c : Context Value := (Context.new.step (.declare ⟨1⟩)).2
    let s : Session :=
      ⟨c, ((SymbolTable.new.step (.intern "a")).2.step (.intern "b")).2⟩
    let d : Context Value := (x.perform (.execute ⟨1⟩) s).2.context
    s.context.Reachable ∧ x.Footprint (.execute ⟨1⟩) c d ∧
      x.perform (.execute ⟨0⟩) s = x.perform (.evaluate ⟨3⟩) s ∧
      c.tree.held 0 ⟨1⟩ = some .unassigned ∧ d.tree.held 0 ⟨1⟩ = some (.holds (.bool true)) ∧
      d.tree.held 0 ⟨2⟩ = none := by
  intro a b x c s d
  have h : s.context.Reachable := .step .new _
  have hfootprint := perform_footprint x (.execute ⟨1⟩) h
  exact ⟨h, hfootprint.1, hfootprint.2 rfl rfl, rfl, rfl, rfl⟩

end Scoping
