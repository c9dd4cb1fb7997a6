import Scoping.Proofs.Frame.Splice
import Scoping.Proofs.Run.Levels
import Scoping.Proofs.Run.Parallel

/-!
# Blocks that declare nothing

A block in which nothing is declared directly does, by name, what its statements do without it
(`execute_block_eq_interpret`). The frame of the block is there during the one run and not during
the other. It stays bare, so that a search passes through it, but it moves all frames that inner
blocks open one place further up. Sessions that differ in just that are `Aside`, and every part of a
run leads from such sessions to such sessions again.

Inner blocks may declare names, since that happens in frames of their own; a statement of the block
itself may not, as its name would come to be in the block's frame on the one side and in the frame
around it on the other. This is why the statements in the block and those further inside are looked
at separately (`executeWithin_aside`, `carriesInside`). In the end the frame of the block is left,
and nothing is different any more (`inScope_eq`).
-/

namespace Scoping

open FrameTree

/-! ## Sessions with and without the frame -/

/-- The second session has one more frame, a bare one at `base` inside `c`. The first is in frame
`f`, and the second where that leads to. -/
structure Session.Aside (base c f : Nat) (s t : Session) : Prop where
  context : s.context.WF
  context' : t.context.WF
  tree : Spliced base c s.context.tree t.context.tree
  current : s.context.current = f
  current' : t.context.current = entry base f
  symbols : t.symbols = s.symbols

namespace Session.Aside

variable {base c f : Nat} {s t : Session}

/-- One more frame has been opened in the second session. -/
theorem start (wf : s.context.WF) :
    Aside s.context.tree.size s.context.current s.context.current s s.opened where
  context := wf
  context' := Session.opened_wf wf
  tree := spliced_grow wf.current_lt
  current := rfl
  current' := (entry_of_lt wf.current_lt).symm
  symbols := rfl

variable (h : Aside base c f s t)

include h

/-- A name leads to the same cell, in frames that stand for each other. -/
theorem nearest_eq (hf : f = c ∨ base ≤ f) (name : Symbol) :
    t.context.tree.nearest t.context.current name =
      (s.context.tree.nearest s.context.current name).map
        fun found => (moved base found.1, found.2) := by
  have hlt := h.context.current_lt
  rw [h.current] at hlt
  rw [h.current, h.current',
    h.tree.nearest_eq h.context.tree h.context'.tree hf hlt name]

theorem stored {g : FrameId} (hg : g ∈ s.context.tree.path s.context.current)
    (hg' : moved base g ∈ t.context.tree.path t.context.current) (name : Symbol)
    (cell : Cell Value) :
    Aside base c f ⟨s.context.withTree (s.context.tree.update g (·.store name cell)), s.symbols⟩
      ⟨t.context.withTree (t.context.tree.update (moved base g) (·.store name cell)),
        t.symbols⟩ where
  context := (Context.Touches.stored name cell hg).wf h.context
  context' := (Context.Touches.stored name cell hg').wf h.context'
  tree := h.tree.store (h.context.tree.lt_size_of_mem_path h.context.current_lt hg) name cell
  current := h.current
  current' := h.current'
  symbols := h.symbols

/-- Inside the frame of the block, current frames stand for each other. -/
theorem current_eq_moved (hf : base ≤ f) : t.context.current = moved base s.context.current := by
  rw [h.current', h.current, entry_of_le hf, moved_of_le hf]

theorem stored_current (hf : base ≤ f) (name : Symbol) (cell : Cell Value) :
    Aside base c f
      ⟨s.context.withTree (s.context.tree.update s.context.current (·.store name cell)), s.symbols⟩
      ⟨t.context.withTree (t.context.tree.update t.context.current (·.store name cell)),
        t.symbols⟩ := by
  have hcurrent := h.current_eq_moved hf
  have hstored := h.stored (mem_path_self _ _) (hcurrent ▸ mem_path_self _ _) name cell
  rwa [← hcurrent] at hstored

theorem opened (hf : f = c ∨ base ≤ f) : Aside base c s.context.tree.size s.opened t.opened where
  context := Session.opened_wf h.context
  context' := Session.opened_wf h.context'
  tree := by
    have hgrown := h.tree.grow hf
    rwa [← h.current', ← h.current] at hgrown
  current := rfl
  current' := h.tree.size_eq.trans (entry_of_le h.tree.base_le).symm
  symbols := h.symbols

/-- The scopes that were opened on both sides are closed again. -/
theorem closed {n : Nat} {ended ended' s' t' : Session} (hended : Aside base c n ended ended')
    (hs : s.Closed ended s') (ht : t.Closed ended' t') : Aside base c f s' t' where
  context := hs.context
  context' := ht.context
  tree := by
    refine hended.tree.shrink ?_ hs.released.size_le ?_ (fun hlt => ?_) fun hlt => ?_
    · rw [hs.size_eq]
      exact h.tree.base_le
    · rw [ht.size_eq, hs.size_eq, h.tree.size_eq]
    · exact hs.frame_eq (hs.size_eq ▸ hlt)
    · exact ht.frame_eq (ht.size_eq ▸ hlt)
  current := hs.current.trans h.current
  current' := ht.current.trans h.current'
  symbols := by rw [hs.symbols, ht.symbols, hended.symbols]

end Session.Aside

/-! ## Runs with and without the frame -/

namespace Script

variable {x : Script} {base c f : Nat}

theorem readName_aside (hmode : x.mode = .byName) (hf : f = c ∨ base ≤ f) (id : ExprId)
    (who : Occurrence Symbol) : Run.Carries (Session.Aside base c f) (x.readName id who) := by
  intro s t h
  have hdistance := x.distance?_eq_none (.inl hmode) id
  have hread : t.context.read who = s.context.read who := by
    rw [Context.read, Context.read, read_eq h.context.tree h.context.current_lt,
      read_eq h.context'.tree h.context'.current_lt, h.nearest_eq hf]
    cases s.context.tree.nearest s.context.current who.name <;> rfl
  rw [x.readName_of_none who s hdistance, x.readName_of_none who t hdistance, hread]
  cases s.context.read who with
  | ok value => exact ⟨rfl, h⟩
  | error i =>
    rw [Run.ofAccess_error, Run.ofAccess_error, h.symbols]
    exact ⟨rfl, h⟩

theorem writeName_aside (hmode : x.mode = .byName) (hf : f = c ∨ base ≤ f) (id : ExprId)
    (who : Occurrence Symbol) (value : Value) :
    Run.Carries (Session.Aside base c f) (x.writeName id who value) := by
  intro s t h
  have hdistance := x.distance?_eq_none (.inl hmode) id
  have hnearest := h.nearest_eq hf who.name
  rw [x.writeName_of_none who value s hdistance, x.writeName_of_none who value t hdistance,
    Context.write_eq h.context, Context.write_eq h.context', hnearest]
  cases hfound : s.context.tree.nearest s.context.current who.name with
  | none =>
    simp only [Option.map_none, h.symbols]
    exact ⟨trivial, h⟩
  | some found =>
    rw [hfound] at hnearest
    exact ⟨rfl, h.stored (held_of_nearest hfound).1 (held_of_nearest hnearest).1 who.name _⟩

theorem applyBinary_aside (op : BinaryOp) (span : Span) (left right : Value) :
    Run.Carries (Session.Aside base c f) (applyBinary op span left right) :=
  applyBinary_carries (fun _ _ h => h.symbols) (fun _ _ _ h => { h with symbols := rfl }) op span
    left right

/-- An expression is evaluated to the same value in the frame of the block and around it. -/
theorem carriesBelow (hmode : x.mode = .byName) (hf : f = c ∨ base ≤ f) (root : Node) :
    x.CarriesBelow root (Session.Aside base c f) where
  read {id who} _ _ _ := readName_aside hmode hf id who
  write {id target} _ _ _ _ := writeName_aside hmode hf id target
  binary := applyBinary_aside

theorem inScope_aside (hf : f = c ∨ base ≤ f) {body : Run Unit}
    (hkeeps : Run.Keeps SameOutline body)
    (hbody : ∀ n, base ≤ n → Run.Carries (Session.Aside base c n) body) :
    Run.Carries (Session.Aside base c f) (Run.inScope body) := by
  intro s t h
  obtain ⟨s', hs, hclosed⟩ := Run.inScope_closed hkeeps h.context
  obtain ⟨t', ht, hclosed'⟩ := Run.inScope_closed hkeeps h.context'
  obtain ⟨hsame, hended⟩ := hbody _ h.tree.base_le (h.opened hf)
  rw [hs, ht]
  exact ⟨hsame, h.closed hended hclosed hclosed'⟩

/-- In blocks inside the block, names may be declared as well. -/
theorem carriesInside (hmode : x.mode = .byName) (root : Node) :
    x.CarriesInside root fun n : { n // base ≤ n } => Session.Aside base c n where
  below n := carriesBelow hmode (.inr n.2) root
  declare n {_ who _} _ _ := by
    intro s t h
    rw [Run.modifyContext_of_ok (Context.declare_ok h.context who.name),
      Run.modifyContext_of_ok (Context.declare_ok h.context' who.name)]
    exact ⟨rfl, h.stored_current n.2 _ _⟩
  define n {_ who _ _} _ _ value := by
    intro s t h
    rw [Run.modifyContext_of_ok (Context.define_ok h.context who.name value),
      Run.modifyContext_of_ok (Context.define_ok h.context' who.name value)]
    exact ⟨rfl, h.stored_current n.2 _ _⟩
  scope n _ hkeeps hbody := inScope_aside (.inr n.2) hkeeps fun m hm => hbody ⟨m, hm⟩

/-- A statement that declares nothing does the same in the frame of the block and around it. -/
theorem executeWithin_aside (hmode : x.mode = .byName) (fuel : Nat) {id : StmtId}
    (hplain : x.program.names (.stmt id) = []) :
    Run.Carries (Session.Aside base c c) (x.executeWithin fuel id) := by
  cases fuel with
  | zero => exact .ofResult _
  | succ fuel =>
    rw [executeWithin]
    cases hstmt : x.program.stmt id with
    | error fault => exact .ofResult _
    | ok stmt =>
      obtain ⟨form, span⟩ := stmt
      rw [Run.ofFault_ok_bind]
      cases form with
      | expression e =>
        exact .bind ((carriesBelow hmode (.inl rfl) (.expr e)).evaluate .refl) fun _ => .pure ()
      | declare who init =>
        rw [Program.names, hstmt] at hplain
        cases hplain
      | block body =>
        refine .bind (.ofResult _) fun stmts => ?_
        have respects := SameOutline.respects x
        refine inScope_aside (.inl rfl) (respects.sequence fuel stmts) fun n hn =>
          .forM fun i _ => ?_
        exact (carriesInside hmode (.stmt i)).executeWithin fuel .refl ⟨n, hn⟩

/-- A scope around a body that does the same in a bare frame as without it. -/
theorem inScope_eq {body : Run Unit} (hkeeps : Run.Keeps SameOutline body) {s : Session}
    (wf : s.context.WF)
    (hbody : Run.Carries
      (Session.Aside s.context.tree.size s.context.current s.context.current) body) :
    Run.inScope body s = body s := by
  obtain ⟨t, hrun, hclosed⟩ := Run.inScope_closed hkeeps wf
  obtain ⟨hsame, hended⟩ := hbody (.start wf)
  have hsize : (body s).2.context.tree.size = s.context.tree.size :=
    size_of_marks (Prod.mk.inj (hkeeps s wf).2).2
  have htree : t.context.tree = (body s).2.context.tree :=
    hended.tree.eq_of_left hsize hclosed.size_eq hclosed.frame_eq
  have hcurrent : t.context.current = (body s).2.context.current :=
    hclosed.current.trans hended.current.symm
  have hsymbols : t.symbols = (body s).2.symbols := hclosed.symbols.trans hended.symbols
  have ht : t = (body s).2 := by
    obtain ⟨⟨tree, current⟩, symbols⟩ := t
    cases htree
    cases hcurrent
    cases hsymbols
    rfl
  rw [hrun, ← hsame, ht]

end Script

/-- A block whose own statements declare nothing ends, by name, as interpreting them does, with the
same cells, scopes and symbols; its members are given one level less. The number of levels is of no
account unless the block runs out of them, which takes a statement that is inside itself. -/
theorem execute_block_eq_interpret (x : Script) {id : StmtId} {body : StmtRange} {span : Span}
    {stmts : List StmtId} {s : Session} (hcontext : s.context.Reachable)
    (hmode : x.mode = .byName) (hblock : x.program.stmt id = .ok ⟨.block body, span⟩)
    (hbody : x.program.body body = .ok stmts)
    (hplain : ∀ i ∈ stmts, x.program.names (.stmt i) = []) :
    (∀ fuel, x.executeWithin (fuel + 1) id s = stmts.forM (x.executeWithin fuel) s) ∧
      ((x.execute id s).1 ≠ .error (.fault .endless) ∨ x.program.Unwinds (.stmt id) →
        x.execute id s = x.interpret stmts s) := by
  have respects := SameOutline.respects x
  have hlevel : ∀ fuel, x.executeWithin (fuel + 1) id s = stmts.forM (x.executeWithin fuel) s := by
    intro fuel
    rw [Script.executeWithin, hblock, Run.ofFault_ok_bind]
    simp only [hbody, Run.ofFault_ok_bind]
    exact Script.inScope_eq (respects.sequence fuel stmts) hcontext.wf (.forM fun i hi =>
      Script.executeWithin_aside hmode fuel (hplain i hi))
  refine ⟨hlevel, fun h => ?_⟩
  -- With one level more, the block is its statements within the levels that they are given.
  have hmore : x.executeWithin (x.program.stmts.size + x.spareLevels + 2) id s =
      x.interpret stmts s := hlevel _
  rw [← hmore]
  rcases h with hends | hunwinds
  · exact (x.executeWithin_asFar (Nat.le_refl _) (Nat.le_succ _) id s hcontext.wf hends).symm
  · exact congrFun (x.execute_enough (Nat.le_succ _) hunwinds) s

/-- A block that assigns a name and then holds another block, which declares the same name and ends
in an error, next to a captured frame; the distances are not used. -/
theorem execute_block_eq_interpret_nested :
    let a : Occurrence Symbol := ⟨⟨1⟩, .nowhere⟩
    let b : Occurrence Symbol := ⟨⟨2⟩, .nowhere⟩
    let x : Script :=
      { program :=
          { exprs := #[⟨.literal (.bool true), .nowhere⟩, ⟨.assign a ⟨0⟩, .nowhere⟩,
              ⟨.reference b, .nowhere⟩]
            stmts := #[⟨.block ⟨0, 2⟩, .nowhere⟩, ⟨.expression ⟨1⟩, .nowhere⟩,
              ⟨.block ⟨2, 2⟩, .nowhere⟩, ⟨.declare a none, .nowhere⟩,
              ⟨.expression ⟨2⟩, .nowhere⟩]
            bodies := #[⟨1⟩, ⟨2⟩, ⟨3⟩, ⟨4⟩] }
        distances := .ofList [(⟨1⟩, 7)]
        mode := .byName
        spareLevels := 0 }
    let actions : List (ContextAction Symbol Value) :=
      [.declare a.name, .openScope, .capture, .closeScope, .openScope]
    let s : Session := ⟨Context.new.after actions,
      ((SymbolTable.new.step (.intern "a")).2.step (.intern "b")).2⟩
    let stmts : List StmtId := [⟨1⟩, ⟨2⟩]
    s.context.Reachable ∧ x.program.stmt ⟨0⟩ = .ok ⟨.block ⟨0, 2⟩, .nowhere⟩ ∧
      x.program.body ⟨0, 2⟩ = .ok stmts ∧ (∀ i ∈ stmts, x.program.names (.stmt i) = []) ∧
      x.execute ⟨0⟩ s = x.interpret stmts s ∧
      (x.execute ⟨0⟩ s).1 =
        .error (.error ⟨.undeclared "b", "undefined variable: b", some .nowhere⟩) ∧
      (x.execute ⟨0⟩ s).2.context.tree.held FrameId.root a.name = some (.holds (.bool true)) := by
  intro a b x actions s stmts
  have hcontext : s.context.Reachable := by
    dsimp only [s]
    exact Context.Reachable.new.after actions
  have hplain : ∀ i ∈ stmts, x.program.names (.stmt i) = [] := by decide +kernel
  have hend : (x.execute ⟨0⟩ s).1 =
      .error (.error ⟨.undeclared "b", "undefined variable: b", some .nowhere⟩) := by
    decide +kernel
  have hsame := (execute_block_eq_interpret x hcontext rfl rfl rfl hplain).2
    (.inl (by rw [hend]; nofun))
  exact ⟨hcontext, rfl, rfl, hplain, hsame, hend, by decide +kernel⟩

end Scoping
