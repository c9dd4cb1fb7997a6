import Scoping.Proofs.Context.Reachable
import Scoping.Proofs.Run.Footprint

/-!
# A run puts the scopes back

The outline of a context is the current frame and, for each slot, all but the cells. Values are
written and names declared without any change to it. A block opens a scope and closes the scope that
is current when it ends, whether in a result, an error or a fault. By induction that is the scope it
opened, and its frame is the newest, without any live frame inside it, so that its slot goes. No
other slot goes along, because the frame below is as live as it was before the block
(`marks_of_released_grow`). Hence a run of any script ends with the outline that it began with
(`perform_outline`).
-/

namespace Scoping

variable {V : Type}

/-! ## Outlines -/

structure FrameMark where
  parent : Option FrameId
  captured : Bool
  retired : Bool
deriving DecidableEq

def Frame.mark (frame : Frame V) : FrameMark := ⟨frame.parent, frame.captured, frame.retired⟩

def FrameTree.marks (t : FrameTree V) : Array FrameMark := t.frames.map Frame.mark

def Context.outline (c : Context V) : FrameId × Array FrameMark := (c.current, c.tree.marks)

namespace FrameTree

variable {t u : FrameTree V}

theorem getElem?_marks (f : FrameId) : t.marks[f]? = t.frames[f]?.map Frame.mark :=
  Array.getElem?_map

theorem size_of_marks (h : u.marks = t.marks) : u.size = t.size := by
  have hsize := congrArg Array.size h
  rwa [marks, marks, Array.size_map, Array.size_map] at hsize

theorem parent?_eq_marks (f : FrameId) : t.parent? f = t.marks[f]?.bind (·.parent) := by
  rw [getElem?_marks, Option.bind_map]
  rfl

theorem isLive_eq_marks (f : FrameId) :
    t.isLive f = (t.marks[f]?.map (! ·.retired)).getD false := by
  rw [getElem?_marks, isLive]
  cases t.frames[f]? <;> rfl

theorem isCaptured_eq_marks (f : FrameId) :
    t.isCaptured f = (t.marks[f]?.map (·.captured)).getD false := by
  rw [getElem?_marks, isCaptured]
  cases t.frames[f]? <;> rfl

theorem marks_update {f : FrameId} {change : Frame V → Frame V}
    (hmark : ∀ frame, (change frame).mark = frame.mark) : (t.update f change).marks = t.marks := by
  apply Array.ext_getElem?
  intro g
  rw [getElem?_marks, getElem?_marks]
  by_cases hg : g = f
  · rw [hg, getElem?_update_self, Option.map_map]
    exact congrArg (Option.map · _) (funext hmark)
  · rw [getElem?_update_other _ hg]

theorem marks_store (t : FrameTree V) (f : FrameId) (name : Symbol) (cell : Cell V) :
    (t.update f (·.store name cell)).marks = t.marks :=
  marks_update fun _ => rfl

theorem marks_grow (t : FrameTree V) (p : FrameId) :
    (t.grow p).marks = t.marks.push ⟨some p, false, false⟩ :=
  Array.map_push

section close

variable {p : FrameId} {b : FrameTree V} (ht : t.WF) (hmarks : b.marks = (t.grow p).marks)

include hmarks

theorem getElem?_marks_of_grow {g : FrameId} (hg : g < t.size) : b.marks[g]? = t.marks[g]? := by
  rw [hmarks, getElem?_marks, getElem?_marks, getElem?_grow_old hg]

include ht

/-- Nothing is inside a frame that was opened last and not captured. -/
theorem not_needed_of_grow (hb : b.WF) : ¬ b.Needed t.size := by
  rintro (hroot | hcaptured | ⟨g, hne, hlive, hmem⟩)
  · exact absurd hroot (Nat.ne_of_gt ht.size_pos)
  · rw [isCaptured_eq_marks, hmarks, getElem?_marks, getElem?_grow_new] at hcaptured
    cases hcaptured
  · have hsize := (size_of_marks hmarks).trans size_grow
    have hlt := Nat.lt_of_lt_of_eq (lt_of_isLive hlive) hsize
    have hle := le_of_mem_path hb.parents_first hmem
    exact hne (Nat.le_antisymm (Nat.le_of_lt_succ hlt) hle)

/-- Its slot goes, and the one below it, which is as live as before, does not. -/
theorem size_of_released_grow (hb : b.WF) (hu : Released b t.size u) : u.size = t.size := by
  refine hu.size_of_newest ((size_of_marks hmarks).trans size_grow).symm
    (not_needed_of_grow ht hmarks hb) ht.size_pos ?_
  rw [isLive_eq_marks, getElem?_marks_of_grow hmarks (Nat.sub_one_lt_of_lt ht.size_pos),
    ← isLive_eq_marks]
  exact ht.newest_live

theorem marks_of_released_grow (hb : b.WF) (hu : Released b t.size u) : u.marks = t.marks := by
  have hsize := size_of_released_grow ht hmarks hb hu
  apply Array.ext_getElem?
  intro g
  rcases Nat.lt_or_ge g t.size with hg | hg
  · rw [← getElem?_marks_of_grow hmarks hg, getElem?_marks, getElem?_marks]
    exact congrArg _ (hu.frame_eq_of_ne (hsize.symm ▸ hg) (Nat.ne_of_lt hg))
  · rw [getElem?_marks, getElem?_marks, Array.getElem?_eq_none hg,
      Array.getElem?_eq_none (hsize.symm ▸ hg : u.size ≤ g)]

end close

end FrameTree

/-- A scope that is closed with the outline that it was opened with is the newest one, and all is
again as it was before it. -/
theorem closeScope_of_opened {c d : Context V} (wf : c.WF) (wf' : d.WF)
    (h : d.outline = (⟨c.tree.grow c.current, c.tree.size⟩ : Context V).outline) :
    ∃ u, d.closeScope = .ok ⟨u, c.current⟩ ∧ d.tree.Released c.tree.size u ∧
      u.marks = c.tree.marks ∧ (⟨u, c.current⟩ : Context V).WF := by
  obtain ⟨hcurrent, hmarks⟩ := Prod.mk.inj h
  have hparent : d.tree.parent? d.current = some c.current := by
    rw [hcurrent, FrameTree.parent?_eq_marks, hmarks, ← FrameTree.parent?_eq_marks]
    exact FrameTree.parent?_grow_new
  obtain ⟨u, hclose, hreleased⟩ := Context.closeScope_of_parent wf' hparent
  have hclosed := (Context.Moves.closed hparent hreleased).wf wf'
  rw [hcurrent] at hreleased
  exact ⟨u, hclose, hreleased,
    FrameTree.marks_of_released_grow wf.tree hmarks wf'.tree hreleased, hclosed⟩

/-! ## Sessions with the same outline -/

/-- A session that came from another one with a well-formed context, and has the same outline. -/
def SameOutline (s t : Session) : Prop :=
  s.context.WF → t.context.WF ∧ t.context.outline = s.context.outline

/-- The session in which the body of a scope begins. -/
def Session.opened (s : Session) : Session :=
  ⟨⟨s.context.tree.grow s.context.current, s.context.tree.size⟩, s.symbols⟩

theorem Session.openScope_ok {s : Session} (wf : s.context.WF) :
    s.context.openScope = .ok s.opened.context :=
  Context.openIn_of_live wf.current_live

theorem Session.opened_wf {s : Session} (wf : s.context.WF) : s.opened.context.WF :=
  (Context.Moves.opened wf.current_live).wf wf

/-- What is left of a scope that was opened in one session, when its body ended in another. -/
structure Session.Closed (s ended t : Session) : Prop where
  context : t.context.WF
  released : ended.context.tree.Released s.context.tree.size t.context.tree
  marks : t.context.tree.marks = s.context.tree.marks
  current : t.context.current = s.context.current
  symbols : t.symbols = ended.symbols

namespace Session.Closed

variable {s ended t : Session} (h : s.Closed ended t)

include h

theorem outline : t.context.outline = s.context.outline := Prod.ext h.current h.marks

theorem size_eq : t.context.tree.size = s.context.tree.size := FrameTree.size_of_marks h.marks

/-- The frames that there were before are those that the body has left. -/
theorem frame_eq {f : FrameId} (hf : f < s.context.tree.size) :
    t.context.tree.frames[f]? = ended.context.tree.frames[f]? :=
  h.released.frame_eq_of_ne (h.size_eq.symm ▸ hf) (Nat.ne_of_lt hf)

end Session.Closed

/-- A scope around a body can be opened, and closed again where the body ends. -/
theorem Run.inScope_closed {A : Type} {body : Run A} (hbody : Keeps SameOutline body) {s : Session}
    (wf : s.context.WF) :
    ∃ t, Run.inScope body s = ((body s.opened).1, t) ∧ s.Closed (body s.opened).2 t := by
  obtain ⟨wf', houtline⟩ := hbody s.opened (Session.opened_wf wf)
  obtain ⟨u, hclose, hreleased, hmarks, hclosed⟩ := closeScope_of_opened wf wf' houtline
  have hrun : Run.inScope body s = _ := inScope_of_ok (Session.openScope_ok wf) rfl hclose
  exact ⟨_, hrun, hclosed, hreleased, hmarks, rfl, rfl⟩

/-- Of a body only what it does in the opened scope counts. -/
theorem Run.inScope_congr {A : Type} {body body' : Run A} {s : Session} (wf : s.context.WF)
    (h : body s.opened = body' s.opened) : Run.inScope body s = Run.inScope body' s := by
  have hbody : body ⟨s.opened.context, s.symbols⟩ = body' ⟨s.opened.context, s.symbols⟩ := h
  simp only [inScope, Session.inScope, Session.openScope_ok wf, hbody]

namespace SameOutline

open FrameTree

theorem stored {s : Session} (wf : s.context.WF) {g : FrameId} (name : Symbol) (cell : Cell Value)
    (hg : s.context.tree.isLive g = true) {t : Session}
    (ht : t.context = s.context.withTree (s.context.tree.update g (·.store name cell))) :
    t.context.WF ∧ t.context.outline = s.context.outline := by
  rw [ht]
  refine ⟨wf.update hg _ (fun _ => rfl) fun _ => rfl, ?_⟩
  exact congrArg (Prod.mk _) (marks_update fun _ => rfl)

theorem writeName (x : Script) (id : ExprId) (who : Occurrence Symbol) (value : Value) :
    Run.Keeps SameOutline (x.writeName id who value) := by
  intro s wf
  cases hdistance : x.distance? id with
  | some distance =>
    rw [x.writeName_of_some who value s hdistance, Context.writeAt_eq wf]
    cases hfound : s.context.tree.locateAt s.context.current distance who with
    | error fault => exact ⟨wf, rfl⟩
    | ok found =>
      have hmem := List.mem_of_getElem? (locateAt_eq_ok wf.tree wf.current_lt hfound).1
      exact stored wf who.name _ (wf.tree.live_of_mem_path wf.current_live hmem) rfl
  | none =>
    rw [x.writeName_of_none who value s hdistance, Context.write_eq wf]
    cases hfound : s.context.tree.nearest s.context.current who.name with
    | none => exact ⟨wf, rfl⟩
    | some found =>
      have hmem := (held_of_nearest hfound).1
      exact stored wf who.name _ (wf.tree.live_of_mem_path wf.current_live hmem) rfl

theorem applyBinary (op : BinaryOp) (span : Span) (left right : Value) :
    Run.Keeps SameOutline (Script.applyBinary op span left right) := by
  intro s wf
  unfold Script.applyBinary
  rcases op.apply s.symbols left right with ((e | fault) | ⟨value, symbols⟩) <;> exact ⟨wf, rfl⟩

theorem declare (name : Symbol) : Run.Keeps SameOutline (Run.modifyContext (·.declare name)) := by
  intro s wf
  rw [Run.modifyContext_of_ok (Context.declare_ok wf name)]
  exact stored wf name _ wf.current_live rfl

theorem define (name : Symbol) (value : Value) :
    Run.Keeps SameOutline (Run.modifyContext (·.define name value)) := by
  intro s wf
  rw [Run.modifyContext_of_ok (Context.define_ok wf name value)]
  exact stored wf name _ wf.current_live rfl

theorem inScope {body : Run Unit} (hbody : Run.Keeps SameOutline body) :
    Run.Keeps SameOutline (Run.inScope body) := by
  intro s wf
  obtain ⟨t, hrun, hclosed⟩ := Run.inScope_closed hbody wf
  rw [hrun]
  exact ⟨hclosed.context, hclosed.outline⟩

theorem respects (x : Script) : x.Respects SameOutline where
  refl s wf := ⟨wf, rfl⟩
  trans s t u hst htu wf := by
    obtain ⟨wf', houtline⟩ := hst wf
    obtain ⟨wf'', houtline'⟩ := htu wf'
    exact ⟨wf'', houtline'.trans houtline⟩
  write := writeName x
  binary := applyBinary
  declare := declare
  define := define
  scope := inScope

end SameOutline

/-- However a run ends, in a result, an error or a fault at any depth, it ends in the frame where it
began, with the slots that there were; only their cells may differ. -/
theorem perform_outline (x : Script) (job : Job) {s : Session} (h : s.context.Reachable) :
    (x.perform job s).2.context.outline = s.context.outline :=
  ((SameOutline.respects x).perform job s h.wf).2

/-- Two blocks, one inside the other, with a statement missing in the inner one, next to a retired
frame and a captured one. -/
theorem perform_outline_missing :
    let x : Script :=
      { program := ⟨#[], #[⟨.block ⟨0, 1⟩, .nowhere⟩, ⟨.block ⟨1, 1⟩, .nowhere⟩], #[⟨1⟩, ⟨2⟩]⟩
        distances := .empty
        mode := .byName }
    let actions : List (ContextAction Symbol Value) :=
      [.openScope, .openIn FrameId.root, .capture, .enter 1, .closeScope]
    let s : Session := ⟨actions.foldl (fun c action => (c.step action).2) .new, .new⟩
    s.context.Reachable ∧
      s.context.outline = (FrameId.root, #[⟨none, false, false⟩,
        ⟨some FrameId.root, false, true⟩, ⟨some FrameId.root, true, false⟩]) ∧
      (x.perform (.execute ⟨0⟩) s).2.context.outline = s.context.outline := by
  intro x actions s
  have h : s.context.Reachable := .step (.step (.step (.step (.step .new _) _) _) _) _
  exact ⟨h, by decide +kernel, perform_outline x _ h⟩

end Scoping
