import Scoping.Context.Action
import Scoping.Proofs.Frame.Distance

/-!
# Contexts that can be reached

A context is well formed (`WF`) when its tree is, when execution is in a live frame, and when the
retired frames are bare. `Moves` says in one place how an action can change a well-formed context:
it opens a scope, closes one, goes to another, or, staying where it is, touches one frame
(`Touches`). A fault is none of these. Each keeps the context well formed, so that every context
reached from a fresh one is (`Reachable.wf`), whatever handles the actions were given.
-/

namespace Scoping

/-- Whether an action leaves alone which scopes there are and which one is current. -/
def ContextAction.isLocal {N V : Type} : ContextAction N V → Bool
  | .openScope | .closeScope | .openIn _ | .enter _ | .restore _ => false
  | _ => true

namespace Context

open FrameTree

variable {V : Type} {c d : Context V}

structure WF (c : Context V) : Prop where
  tree : c.tree.WF
  current_live : c.tree.isLive c.current = true
  bare : ∀ {f : FrameId} {frame : Frame V}, c.tree.frames[f]? = some frame →
    frame.retired = true → frame.cells = .empty ∧ frame.captured = false

theorem wf_new : (new : Context V).WF where
  tree := FrameTree.wf_new
  current_live := rfl
  bare {f frame} hframe hretired := by
    obtain rfl : f = 0 := Nat.lt_one_iff.1 (lt_of_frame hframe)
    cases hframe
    cases hretired

theorem WF.current_lt (wf : c.WF) : c.current < c.tree.size := lt_of_isLive wf.current_live

@[simp] theorem tree_withTree (t : FrameTree V) : (c.withTree t).tree = t := rfl

/-! ## What the operations do to a well-formed context -/

theorem openIn_of_live {p : FrameId} (h : c.tree.isLive p = true) :
    c.openIn p = .ok ⟨c.tree.grow p, c.tree.size⟩ := by
  rw [openIn, extend_of_live h]
  rfl

theorem openIn_of_not_live {p : FrameId} (h : ¬ c.tree.isLive p = true) :
    c.openIn p = .error (.deadParent p c.tree.size) := by
  rw [openIn, extend_of_not_live h]
  rfl

theorem enter_of_live {f : FrameId} (h : c.tree.isLive f = true) :
    c.enter f = .ok { c with current := f } := by
  rw [enter, if_pos h]

theorem enter_of_not_live {f : FrameId} (h : ¬ c.tree.isLive f = true) :
    c.enter f = .error (.deadFrame f) := by
  rw [enter, if_neg h]

section operations

variable (wf : c.WF)

include wf

theorem parent_current : c.tree.parent c.current = .ok (c.tree.parent? c.current) := by
  obtain ⟨frame, hframe⟩ := frame_of_lt wf.current_lt
  rw [FrameTree.parent, frame_eq_ok_iff.2 hframe, parent?_of_frame hframe]
  rfl

theorem closeScope_of_root (h : c.tree.parent? c.current = none) : c.closeScope = .ok c := by
  rw [closeScope, parent_current wf, h]
  rfl

theorem closeScope_of_parent {p : FrameId} (h : c.tree.parent? c.current = some p) :
    ∃ u, c.closeScope = .ok ⟨u, p⟩ ∧ Released c.tree c.current u := by
  obtain ⟨freed, u, hu, hreleased⟩ := wf.tree.release wf.current_lt
  refine ⟨u, ?_, hreleased⟩
  rw [closeScope, parent_current wf, h]
  simp only [bind, Except.bind, hu]
  rfl

theorem capture_ok : c.capture = .ok (c.withTree (c.tree.update c.current Frame.keep)) := by
  rw [capture, capture_eq wf.current_lt]
  rfl

theorem declare_ok (name : Symbol) :
    c.declare name = .ok (c.withTree (c.tree.update c.current (·.store name .unassigned))) := by
  rw [declare, FrameTree.declare, setCell_eq wf.current_lt]
  rfl

theorem define_ok (name : Symbol) (value : V) :
    c.define name value =
      .ok (c.withTree (c.tree.update c.current (·.store name (.holds value)))) := by
  rw [define, FrameTree.define, setCell_eq wf.current_lt]
  rfl

theorem write_eq (who : Occurrence Symbol) (value : V) :
    c.write who value = match c.tree.nearest c.current who.name with
      | some found => .ok (c.withTree (c.tree.update found.1 (·.store who.name (.holds value))))
      | none => .error (.error ⟨.undeclared, who⟩) := by
  rw [write, FrameTree.write_eq wf.tree wf.current_lt]
  cases c.tree.nearest c.current who.name with
  | none => rfl
  | some found => rfl

theorem writeAt_eq (distance : Nat) (who : Occurrence Symbol) (value : V) :
    c.writeAt distance who value = match c.tree.locateAt c.current distance who with
      | .ok found => .ok (c.withTree (c.tree.update found.1 (·.store who.name (.holds value))))
      | .error fault => .error fault := by
  rw [writeAt, FrameTree.writeAt_eq wf.tree wf.current_lt]
  cases c.tree.locateAt c.current distance who with
  | error fault => rfl
  | ok found => rfl

/-! ### The same as actions -/

theorem apply_openScope :
    c.apply .openScope = .ok (.done, ⟨c.tree.grow c.current, c.tree.size⟩) := by
  rw [apply, openScope, openIn_of_live wf.current_live]
  rfl

theorem apply_closeScope_of_root (h : c.tree.parent? c.current = none) :
    c.apply .closeScope = .ok (.done, c) := by
  rw [apply, closeScope_of_root wf h]
  rfl

theorem apply_closeScope_of_parent {p : FrameId} (h : c.tree.parent? c.current = some p) :
    ∃ u, c.apply .closeScope = .ok (.done, ⟨u, p⟩) ∧ Released c.tree c.current u := by
  obtain ⟨u, hu, hreleased⟩ := closeScope_of_parent wf h
  refine ⟨u, ?_, hreleased⟩
  rw [apply, hu]
  rfl

theorem apply_capture : c.apply .capture =
    .ok (.frame c.current, c.withTree (c.tree.update c.current Frame.keep)) := by
  rw [apply, capture_ok wf]
  rfl

theorem apply_declare (name : Symbol) : c.apply (.declare name) =
    .ok (.done, c.withTree (c.tree.update c.current (·.store name .unassigned))) := by
  rw [apply, declare_ok wf]
  rfl

theorem apply_define (name : Symbol) (value : V) : c.apply (.define name value) =
    .ok (.done, c.withTree (c.tree.update c.current (·.store name (.holds value)))) := by
  rw [apply, define_ok wf]
  rfl

end operations

theorem apply_openIn_of_live {p : FrameId} (h : c.tree.isLive p = true) :
    c.apply (.openIn p) = .ok (.frame c.current, ⟨c.tree.grow p, c.tree.size⟩) := by
  rw [apply, openIn_of_live h]
  rfl

theorem apply_openIn_of_not_live {p : FrameId} (h : ¬ c.tree.isLive p = true) :
    c.apply (.openIn p) = .error (.deadParent p c.tree.size) := by
  rw [apply, openIn_of_not_live h]
  rfl

/-! ## The ways in which a context can change -/

/-- What an action that stays in its scope can do to a context. -/
inductive Touches (c : Context V) : Context V → Prop
  | nothing : c.Touches c
  | captured : c.Touches (c.withTree (c.tree.update c.current Frame.keep))
  | stored {g : FrameId} (name : Symbol) (cell : Cell V) (hg : g ∈ c.tree.path c.current) :
      c.Touches (c.withTree (c.tree.update g (·.store name cell)))

/-- What an action can do to a context. -/
inductive Moves (c : Context V) : Context V → Prop
  | touched {d : Context V} (h : c.Touches d) : c.Moves d
  | opened {p : FrameId} (hp : c.tree.isLive p = true) : c.Moves ⟨c.tree.grow p, c.tree.size⟩
  | closed {p : FrameId} {u : FrameTree V} (hp : c.tree.parent? c.current = some p)
      (hu : Released c.tree c.current u) : c.Moves ⟨u, p⟩
  | entered {f : FrameId} (hf : c.tree.isLive f = true) : c.Moves { c with current := f }

theorem apply_touches (wf : c.WF) {action : ContextAction Symbol V} {reply : Reply V}
    (hlocal : action.isLocal = true) (h : c.apply action = .ok (reply, d)) : c.Touches d := by
  have query : ∀ {A : Type} {m : Except Fault A} {k : A → Reply V},
      (m >>= fun a => pure (k a, c)) = .ok (reply, d) → c.Touches d := fun h => by
    obtain ⟨_, _, heq⟩ := bind_eq_ok h
    cases heq
    exact .nothing
  cases action with
  | openScope => cases hlocal
  | openIn p => cases hlocal
  | closeScope => cases hlocal
  | enter f => cases hlocal
  | restore f => cases hlocal
  | capture =>
    rw [apply_capture wf] at h
    cases h
    exact .captured
  | declare name =>
    rw [apply_declare wf] at h
    cases h
    exact .stored name _ (mem_path_self _ _)
  | define name value =>
    rw [apply_define wf] at h
    cases h
    exact .stored name _ (mem_path_self _ _)
  | write who value =>
    rw [apply, write_eq wf] at h
    cases hfound : c.tree.nearest c.current who.name with
    | none =>
      rw [hfound] at h
      cases h
      exact .nothing
    | some found =>
      rw [hfound] at h
      cases h
      exact .stored _ _ (held_of_nearest hfound).1
  | writeAt distance who value =>
    obtain ⟨e, he, heq⟩ := bind_eq_ok h
    cases heq
    rw [writeAt_eq wf] at he
    cases hfound : c.tree.locateAt c.current distance who with
    | error fault =>
      rw [hfound] at he
      cases he
    | ok found =>
      rw [hfound] at he
      cases he
      exact .stored _ _
        (List.mem_of_getElem? (locateAt_eq_ok wf.tree wf.current_lt hfound).1)
  | isLive f =>
    cases h
    exact .nothing
  | read who => exact query h
  | readAt distance who => exact query h
  | cell f name => exact query h
  | readFrom f who => exact query h
  | parent f => exact query h
  | depthOf f => exact query h
  | ancestor f distance => exact query h

/-- Whatever an action does to a well-formed context, it does in one of these ways. -/
theorem apply_moves (wf : c.WF) {action : ContextAction Symbol V} {reply : Reply V}
    (h : c.apply action = .ok (reply, d)) : c.Moves d := by
  have enters : ∀ {f}, c.enter f = .ok d → c.Moves d := fun {f} h => by
    by_cases hf : c.tree.isLive f = true
    · rw [enter_of_live hf] at h
      cases h
      exact .entered hf
    · rw [enter_of_not_live hf] at h
      cases h
  by_cases hlocal : action.isLocal = true
  · exact .touched (apply_touches wf hlocal h)
  cases action with
  | openScope =>
    rw [apply_openScope wf] at h
    cases h
    exact .opened wf.current_live
  | openIn p =>
    by_cases hp : c.tree.isLive p = true
    · rw [apply_openIn_of_live hp] at h
      cases h
      exact .opened hp
    · rw [apply_openIn_of_not_live hp] at h
      cases h
  | closeScope =>
    cases hp : c.tree.parent? c.current with
    | none =>
      rw [apply_closeScope_of_root wf hp] at h
      cases h
      exact .touched .nothing
    | some p =>
      obtain ⟨u, hu, hreleased⟩ := apply_closeScope_of_parent wf hp
      rw [hu] at h
      cases h
      exact .closed hp hreleased
  | enter f =>
    obtain ⟨e, he, heq⟩ := bind_eq_ok h
    cases heq
    exact enters he
  | restore f =>
    obtain ⟨e, he, heq⟩ := bind_eq_ok h
    cases heq
    exact enters he
  | _ => exact absurd rfl hlocal

theorem step_moves (wf : c.WF) (action : ContextAction Symbol V) :
    c.Moves (c.step action).2 := by
  unfold step
  cases h : c.apply action with
  | error fault => exact .touched .nothing
  | ok result => exact apply_moves wf h

/-- A live frame may be changed in any way that keeps its parent and keeps it live. -/
theorem WF.update (wf : c.WF) {g : FrameId} (hg : c.tree.isLive g = true)
    (change : Frame V → Frame V) (hparent : ∀ frame, (change frame).parent = frame.parent)
    (hretired : ∀ frame, (change frame).retired = frame.retired) :
    (c.withTree (c.tree.update g change)).WF where
  tree := wf.tree.update change hparent hretired
  current_live := (isLive_update change hretired c.current).trans wf.current_live
  bare {f frame} hframe hr := by
    have hdead : (c.tree.update g change).isLive f = false :=
      (isLive_of_frame hframe).trans (congrArg (! ·) hr)
    have hne : f ≠ g := by
      rintro rfl
      rw [isLive_update change hretired, hg] at hdead
      cases hdead
    exact wf.bare ((getElem?_update_other change hne).symm.trans hframe) hr

namespace Touches

variable (h : c.Touches d)

include h

theorem wf (wf : c.WF) : d.WF := by
  cases h with
  | nothing => exact wf
  | captured => exact wf.update wf.current_live _ (fun _ => rfl) fun _ => rfl
  | stored name cell hg =>
    exact wf.update (wf.tree.live_of_mem_path wf.current_live hg) _ (fun _ => rfl) fun _ => rfl

theorem current_eq : d.current = c.current := by
  cases h <;> rfl

theorem size_eq : d.tree.size = c.tree.size := by
  cases h with
  | nothing => rfl
  | captured => exact size_update _
  | stored name cell hg => exact size_update _

theorem parent?_eq (f : FrameId) : d.tree.parent? f = c.tree.parent? f := by
  cases h with
  | nothing => rfl
  | captured => exact parent?_update Frame.keep (fun _ => rfl) f
  | stored name cell hg => exact parent?_update (·.store name cell) (fun _ => rfl) f

theorem isLive_eq (f : FrameId) : d.tree.isLive f = c.tree.isLive f := by
  cases h with
  | nothing => rfl
  | captured => exact isLive_keep f
  | stored name cell hg => exact isLive_store name cell f

theorem isCaptured (wf : c.WF) {f : FrameId} (hf : c.tree.isCaptured f = true) :
    d.tree.isCaptured f = true := by
  cases h with
  | nothing => exact hf
  | captured =>
    rw [tree_withTree, isCaptured_keep wf.current_lt]
    split
    · rfl
    · exact hf
  | stored name cell hg => exact (isCaptured_store name cell f).trans hf

end Touches

theorem Moves.wf (h : c.Moves d) (wf : c.WF) : d.WF := by
  cases h with
  | touched h => exact h.wf wf
  | opened hp =>
    refine ⟨wf.tree.grow hp, isLive_grow_new, ?_⟩
    intro f frame hframe hretired
    rcases lt_or_eq_of_lt_grow (lt_of_frame hframe) with hf | rfl
    · rw [getElem?_grow_old hf] at hframe
      exact wf.bare hframe hretired
    · rw [getElem?_grow_new] at hframe
      cases hframe
      cases hretired
  | closed hp hu =>
    have hlive := wf.tree.parent_live wf.current_live hp
    refine ⟨hu.wf wf.tree, hu.live_of_ne hlive ?_, ?_⟩
    · exact Nat.ne_of_lt (wf.tree.parents_first hp)
    · intro f frame hframe hretired
      rcases hu.retired hframe hretired with hold | ⟨-, hbare⟩
      · exact wf.bare hold hretired
      · exact hbare
  | entered hf => exact ⟨wf.tree, hf, wf.bare⟩

/-! ## Names and distances -/

/-- How many links lead from the current frame to the nearest one that declares a name. -/
def distanceTo? (c : Context V) (name : Symbol) : Option Nat := c.tree.distanceTo? c.current name

/-- At the right distance the two ways of writing are one. -/
theorem writeAt_of_distanceTo? (wf : c.WF) {distance : Nat} {who : Occurrence Symbol} (value : V)
    (h : c.distanceTo? who.name = some distance) :
    ∃ d, c.writeAt distance who value = .ok d ∧ c.write who value = .ok d := by
  obtain ⟨u, hwriteAt, hwrite⟩ :=
    FrameTree.writeAt_of_distanceTo? wf.tree wf.current_lt h value
  refine ⟨c.withTree u, ?_, ?_⟩
  · rw [writeAt, hwriteAt]
    rfl
  · rw [write, hwrite]
    rfl

theorem write_ne_fault (wf : c.WF) (who : Occurrence Symbol) (value : V) (fault : Fault) :
    c.write who value ≠ .error (.fault fault) := by
  rw [write_eq wf]
  rcases c.tree.nearest c.current who.name with (_ | found) <;> nofun

/-! ## Reachable contexts -/

/-- The contexts that actions lead to from a fresh one. An action that ends in a fault leaves the
context as it was. -/
inductive Reachable : Context V → Prop
  | new : Reachable new
  | step {c : Context V} (h : Reachable c) (action : ContextAction Symbol V) :
      Reachable (c.step action).2

theorem Reachable.wf (h : c.Reachable) : c.WF := by
  induction h with
  | new => exact wf_new
  | step _ action ih => exact (step_moves ih action).wf ih

/-- A context after some actions. -/
def after (c : Context V) (actions : List (ContextAction Symbol V)) : Context V :=
  actions.foldl (fun c action => (c.step action).2) c

theorem Reachable.after (h : c.Reachable) (actions : List (ContextAction Symbol V)) :
    (c.after actions).Reachable := by
  induction actions generalizing c with
  | nil => exact h
  | cons action actions ih => exact ih (h.step action)

theorem after_append (c : Context V) (actions later : List (ContextAction Symbol V)) :
    c.after (actions ++ later) = (c.after actions).after later :=
  List.foldl_append

theorem WF.after (wf : c.WF) (actions : List (ContextAction Symbol V)) : (c.after actions).WF := by
  induction actions generalizing c with
  | nil => exact wf
  | cons action actions ih => exact ih ((step_moves wf action).wf wf)

end Context

end Scoping
