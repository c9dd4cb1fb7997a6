import Scoping.Proofs.Frame.Survive
import Scoping.Proofs.Run.Cells
import Scoping.Proofs.Run.Parallel

/-!
# Names that a run does not use

The names that a job uses are those that are read, assigned or declared by the nodes it can come to.
Two sessions that agree on these, frame by frame, may differ in all other cells: searches by name
pass the others by, and distances count frames and not cells. Every part of a run ends in the same
way from such sessions, and leaves sessions that agree again (`accord_carried`); the cells of other
names are as they were (`held_of_unused`). The two together say what a run depends on and what
depends on it (`perform_agrees`).
-/

namespace Scoping

open FrameTree

/-! ## Used names -/

/-- The names that a node reads, assigns or declares. -/
def ExprForm.variables {N : Type} : ExprForm N → List N
  | .reference who | .assign who _ => [who.name]
  | _ => []

def Program.variables {N : Type} (p : Program N) : Node → List N
  | .expr id =>
    match p.expr id with
    | .ok expr => expr.form.variables
    | .error _ => []
  | .stmt id => p.names (.stmt id)

/-- A name is used by a node that a job can come to. -/
def Job.Uses (p : Program Symbol) (job : Job) (name : Symbol) : Prop :=
  ∃ n ∈ job.roots, ∃ m, p.Reaches n m ∧ name ∈ p.variables m

namespace Job

variable {p : Program Symbol} {job : Job} {name : Symbol}

theorem uses_expr {n : Node} {id : ExprId} {expr : Expr Symbol} (hn : n ∈ job.roots)
    (hid : p.Reaches n (.expr id)) (hexpr : p.expr id = .ok expr)
    (hname : name ∈ expr.form.variables) : job.Uses p name := by
  refine ⟨n, hn, .expr id, hid, ?_⟩
  rw [Program.variables, hexpr]
  exact hname

theorem Assigns.uses (h : job.Assigns p name) : job.Uses p name := by
  obtain ⟨n, hn, id, target, value, span, hid, hexpr, rfl⟩ := h
  exact uses_expr hn hid hexpr List.mem_cons_self

theorem Declares.uses (h : job.Declares p name) : job.Uses p name := by
  cases job with
  | evaluate id => exact h.elim
  | execute id => exact ⟨.stmt id, List.mem_cons_self, .stmt id, .refl, h⟩
  | interpret ids =>
    obtain ⟨id, hid, hname⟩ := h
    exact ⟨.stmt id, List.mem_map_of_mem hid, .stmt id, .refl, hname⟩

end Job

/-! ## Sessions that agree on names -/

/-- Two sessions with the same scopes and symbols, whose cells of certain names are the same. -/
structure Session.Agrees (N : Symbol → Prop) (s t : Session) : Prop where
  outline : t.context.outline = s.context.outline
  symbols : t.symbols = s.symbols
  held : ∀ f {name}, N name → t.context.tree.held f name = s.context.tree.held f name

/-- Well-formed sessions that agree. -/
structure Session.Accord (N : Symbol → Prop) (s t : Session) : Prop extends s.Agrees N t where
  context : s.context.WF
  context' : t.context.WF

namespace Session.Accord

variable {N : Symbol → Prop} {s t : Session} (h : s.Accord N t)

include h

theorem current : t.context.current = s.context.current := (Prod.mk.inj h.outline).1

theorem marks : t.context.tree.marks = s.context.tree.marks := (Prod.mk.inj h.outline).2

theorem path_eq :
    t.context.tree.path t.context.current = s.context.tree.path s.context.current := by
  rw [h.current]
  exact path_congr h.context.tree.parents_first fun g _ => by
    rw [parent?_eq_marks, parent?_eq_marks, h.marks]

theorem nearest_eq {name : Symbol} (hname : N name) :
    t.context.tree.nearest t.context.current name =
      s.context.tree.nearest s.context.current name := by
  have hpath := h.path_eq
  rw [h.current] at hpath ⊢
  exact nearest_congr hpath fun g _ => h.held g hname

theorem locateAt_eq (distance : Nat) {who : Occurrence Symbol} (hname : N who.name) :
    t.context.tree.locateAt t.context.current distance who =
      s.context.tree.locateAt s.context.current distance who := by
  rw [FrameTree.locateAt_eq h.context'.tree h.context'.current_lt,
    FrameTree.locateAt_eq h.context.tree h.context.current_lt, h.path_eq, h.current]
  cases (s.context.tree.path s.context.current)[distance]? with
  | none => rfl
  | some g => simp only [h.held g hname]

/-- Storing the same cell in both. -/
theorem stored {g : FrameId} (hg : g ∈ s.context.tree.path s.context.current) (name : Symbol)
    (cell : Cell Value) :
    Accord N ⟨s.context.withTree (s.context.tree.update g (·.store name cell)), s.symbols⟩
      ⟨t.context.withTree (t.context.tree.update g (·.store name cell)), t.symbols⟩ where
  outline := by
    refine Prod.ext h.current ?_
    exact (marks_store _ g name cell).trans (h.marks.trans (marks_store _ g name cell).symm)
  symbols := h.symbols
  held f m hm := by
    have hlt := h.context.tree.lt_size_of_mem_path h.context.current_lt hg
    have hlt' : g < t.context.tree.size := size_of_marks h.marks ▸ hlt
    rw [Context.tree_withTree, Context.tree_withTree, held_store hlt, held_store hlt', h.held f hm]
  context := (Context.Touches.stored name cell hg).wf h.context
  context' := (Context.Touches.stored name cell (h.path_eq ▸ hg)).wf h.context'

theorem opened : s.opened.Accord N t.opened where
  outline := by
    refine Prod.ext (size_of_marks h.marks) ?_
    show (t.context.tree.grow _).marks = (s.context.tree.grow _).marks
    rw [marks_grow, marks_grow, h.marks, h.current]
  symbols := h.symbols
  held f name hname := by
    rw [Session.opened, Session.opened, held_grow, held_grow]
    exact h.held f hname
  context := Session.opened_wf h.context
  context' := Session.opened_wf h.context'

theorem closed {ended ended' s' t' : Session} (hended : ended.Accord N ended')
    (hs : s.Closed ended s') (ht : t.Closed ended' t') : s'.Accord N t' where
  outline := ht.outline.trans (h.outline.trans hs.outline.symm)
  symbols := by rw [hs.symbols, ht.symbols, hended.symbols]
  held f name hname := by
    have hsize := size_of_marks h.marks
    rcases Nat.lt_or_ge f s.context.tree.size with hf | hf
    · rw [held_congr (hs.frame_eq hf), held_congr (ht.frame_eq (hsize ▸ hf))]
      exact hended.held f hname
    · rw [held_of_le (Nat.le_trans (Nat.le_of_eq hs.size_eq) hf),
        held_of_le (Nat.le_trans (Nat.le_of_eq (ht.size_eq.trans hsize)) hf)]
  context := hs.context
  context' := ht.context

end Session.Accord

/-! ## Runs from sessions that agree -/

namespace Script

variable {x : Script} {N : Symbol → Prop}

theorem readName_accord (id : ExprId) {who : Occurrence Symbol} (hname : N who.name) :
    Run.Carries (Session.Accord N) (x.readName id who) := by
  intro s t h
  have haccess : ∀ r : Except (Interruption AccessError) Value,
      (Run.ofAccess r s).1 = (Run.ofAccess r t).1 := by
    intro r
    cases r with
    | ok value => rfl
    | error i => rw [Run.ofAccess_error, Run.ofAccess_error, h.symbols]
  rw [x.readName_snd who s, x.readName_snd who t]
  refine ⟨?_, h⟩
  cases hdistance : x.distance? id with
  | some distance =>
    rw [x.readName_of_some who s hdistance, x.readName_of_some who t hdistance, Context.readAt,
      Context.readAt, readAt, readAt, h.locateAt_eq distance hname]
    exact haccess _
  | none =>
    rw [x.readName_of_none who s hdistance, x.readName_of_none who t hdistance, Context.read,
      Context.read, read_eq h.context.tree h.context.current_lt,
      read_eq h.context'.tree h.context'.current_lt, h.nearest_eq hname]
    exact haccess _

theorem writeName_accord (id : ExprId) {who : Occurrence Symbol} (value : Value)
    (hname : N who.name) : Run.Carries (Session.Accord N) (x.writeName id who value) := by
  intro s t h
  cases hdistance : x.distance? id with
  | some distance =>
    rw [x.writeName_of_some who value s hdistance, x.writeName_of_some who value t hdistance,
      Context.writeAt_eq h.context, Context.writeAt_eq h.context', h.locateAt_eq distance hname]
    cases hfound : s.context.tree.locateAt s.context.current distance who with
    | error fault => exact ⟨rfl, h⟩
    | ok found =>
      have hat := locateAt_eq_ok h.context.tree h.context.current_lt hfound
      exact ⟨rfl, h.stored (List.mem_of_getElem? hat.1) who.name _⟩
  | none =>
    rw [x.writeName_of_none who value s hdistance, x.writeName_of_none who value t hdistance,
      Context.write_eq h.context, Context.write_eq h.context', h.nearest_eq hname]
    cases hfound : s.context.tree.nearest s.context.current who.name with
    | none =>
      simp only [h.symbols]
      exact ⟨trivial, h⟩
    | some found => exact ⟨rfl, h.stored (held_of_nearest hfound).1 who.name _⟩

/-- All that a job does is carried, as long as the sessions agree on the names that it uses. -/
theorem accord_carried {job : Job} (hN : ∀ name, job.Uses x.program name → N name) {n : Node}
    (hn : n ∈ job.roots) : x.CarriesInside n fun _ : Unit => Session.Accord N where
  below _ :=
    { read := fun {id _ _} hid hexpr =>
        readName_accord id (hN _ (Job.uses_expr hn hid hexpr List.mem_cons_self))
      write := fun {id _ _ _} hid hexpr value =>
        writeName_accord id value (hN _ (Job.uses_expr hn hid hexpr List.mem_cons_self))
      binary := applyBinary_carries (fun _ _ h => h.symbols) fun _ _ _ h =>
        { h with symbols := rfl } }
  declare _ {_ who _} _ _ := by
    intro s t h
    rw [Run.modifyContext_of_ok (Context.declare_ok h.context who.name),
      Run.modifyContext_of_ok (Context.declare_ok h.context' who.name), h.current]
    exact ⟨rfl, h.stored (mem_path_self _ _) _ _⟩
  define _ {_ who _ _} _ _ value := by
    intro s t h
    rw [Run.modifyContext_of_ok (Context.define_ok h.context who.name value),
      Run.modifyContext_of_ok (Context.define_ok h.context' who.name value), h.current]
    exact ⟨rfl, h.stored (mem_path_self _ _) _ _⟩
  scope _ {body} hkeeps hbody := by
    intro s t h
    obtain ⟨s', hs, hclosed⟩ := Run.inScope_closed hkeeps h.context
    obtain ⟨t', ht, hclosed'⟩ := Run.inScope_closed hkeeps h.context'
    obtain ⟨hsame, hended⟩ := hbody () h.opened
    rw [hs, ht]
    exact ⟨hsame, h.closed hended hclosed hclosed'⟩

/-- No cell is touched but those of used names. -/
theorem held_of_unused (x : Script) (job : Job) {s : Session} (wf : s.context.WF) (f : FrameId)
    {name : Symbol} (hname : ¬ job.Uses x.program name) :
    (x.perform job s).2.context.tree.held f name = s.context.tree.held f name := by
  by_contra hne
  rcases ((x.perform_alters job s).cell wf f name).of_ne hne with hassigned | ⟨-, hdeclared⟩
  · exact hname hassigned.uses
  · exact hname hdeclared.uses

end Script

/-- From two sessions that agree on all names that a job uses, be they written in some frame or in
none, the job ends in the same way, the sessions agree again, and neither run has touched a cell of
any other name. -/
theorem perform_agrees (x : Script) (job : Job) {N : Symbol → Prop}
    (hN : ∀ name, job.Uses x.program name → N name) {s t : Session} (hs : s.context.Reachable)
    (ht : t.context.Reachable) (h : s.Agrees N t) :
    (x.perform job s).1 = (x.perform job t).1 ∧ (x.perform job s).2.Agrees N (x.perform job t).2 ∧
      ∀ f name, ¬ N name →
        (x.perform job s).2.context.tree.held f name = s.context.tree.held f name ∧
        (x.perform job t).2.context.tree.held f name = t.context.tree.held f name := by
  have hcarried := Script.perform_carries (x := x) (fun n hn => Script.accord_carried hN hn) ()
  obtain ⟨hend, haccord⟩ := hcarried (s := s) (t := t) ⟨h, hs.wf, ht.wf⟩
  refine ⟨hend, haccord.toAgrees, fun f name hname => ?_⟩
  have hunused : ¬ job.Uses x.program name := mt (hN name) hname
  exact ⟨x.held_of_unused job hs.wf f hunused, x.held_of_unused job ht.wf f hunused⟩

/-- A name is read and written from a block, past cells of another name that the two sessions do not
have in common; that name is also the text of a string in the program. -/
theorem perform_agrees_hidden :
    let a : Occurrence Symbol := ⟨⟨1⟩, .nowhere⟩
    let b : Symbol := ⟨2⟩
    let x : Script :=
      { program :=
          { exprs := #[⟨.literal (.str b), .nowhere⟩, ⟨.reference a, .nowhere⟩,
              ⟨.binary ⟨1⟩ .add ⟨0⟩, .nowhere⟩, ⟨.assign a ⟨2⟩, .nowhere⟩]
            stmts := #[⟨.expression ⟨3⟩, .nowhere⟩, ⟨.declare a none, .nowhere⟩,
              ⟨.expression ⟨1⟩, .nowhere⟩, ⟨.block ⟨0, 3⟩, .nowhere⟩]
            bodies := #[⟨0⟩, ⟨1⟩, ⟨2⟩] }
        distances := .ofList [(⟨3⟩, 2)]
        mode := .byDistance
        spareLevels := 0 }
    let job : Job := .execute ⟨3⟩
    let start (actions : List (ContextAction Symbol Value)) : Session :=
      ⟨Context.new.after actions, ((SymbolTable.new.step (.intern "a")).2.step (.intern "b")).2⟩
    let s := start [.define a.name (.str b), .openScope, .declare b]
    let t := start [.define b .nil, .define a.name (.str b), .openScope, .define b (.bool true)]
    (∀ name, job.Uses x.program name → name = a.name) ∧ s.context.Reachable ∧
      t.context.Reachable ∧ s.Agrees (· = a.name) t ∧
      (x.perform job s).1 = (x.perform job t).1 ∧
      (x.perform job s).1 = .error (.error
        ⟨.unassigned "a", "variable read before assignment: a", some .nowhere⟩) ∧
      (x.perform job t).2.context.tree.held FrameId.root a.name = some (.holds (.str ⟨3⟩)) ∧
      (x.perform job s).2.context.tree.held 1 b = some .unassigned ∧
      (x.perform job t).2.context.tree.held 1 b = some (.holds (.bool true)) := by
  intro a b x job start s t
  let nodes : List Node := [.stmt ⟨3⟩, .stmt ⟨0⟩, .stmt ⟨1⟩, .stmt ⟨2⟩, .expr ⟨3⟩, .expr ⟨2⟩,
    .expr ⟨1⟩, .expr ⟨0⟩]
  have hordered : x.program.isOrdered nodes = true := by decide +kernel
  have hvariables : ∀ m ∈ nodes, ∀ name ∈ x.program.variables m, name = a.name := by
    decide +kernel
  have hN : ∀ name, job.Uses x.program name → name = a.name := by
    rintro name ⟨n, hn, m, hreach, hname⟩
    obtain rfl := List.mem_singleton.1 hn
    exact hvariables m (Program.mem_of_reaches hordered List.mem_cons_self hreach) name hname
  have hs : s.context.Reachable := .after .new _
  have ht : t.context.Reachable := .after .new _
  have hagrees : s.Agrees (· = a.name) t := by
    refine ⟨by decide +kernel, rfl, ?_⟩
    rintro f _ rfl
    rcases Nat.lt_or_ge f 2 with hf | hf
    · revert f
      decide +kernel
    · exact (FrameTree.held_of_le hf _).trans (FrameTree.held_of_le hf _).symm
  exact ⟨hN, hs, ht, hagrees, (perform_agrees x job hN hs ht hagrees).1, by decide +kernel,
    by decide +kernel, by decide +kernel, by decide +kernel⟩

end Scoping
