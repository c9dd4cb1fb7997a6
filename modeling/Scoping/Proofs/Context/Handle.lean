import Scoping.Proofs.Context.Reachable

/-!
# Handles stay valid

Capturing answers a handle, which may be used at any later moment. Meanwhile scopes are opened in
other frames, left in any order, and their slots cut, retired or used again. A captured frame that
is live is `Kept`, and no action ends that or changes what is around the frame (`Moves.kept`): the
one action that gives frames back gives back the current one, and not if it is captured.

Hence every handle ever given out is good for entering its frame and for opening scopes in it, the
chain from it to the root is the one that it had when it was captured, and the current frame is
always one from which names can be looked for (`secure_after`).
-/

namespace Scoping.Context

open FrameTree

variable {V : Type} {c d : Context V}

/-! ## The handles given out -/

/-- The handle that an action gives out, if it captures. -/
def given (c : Context V) (action : ContextAction Symbol V) : Option FrameId :=
  match action, (c.step action).1 with
  | .capture, .ok (.frame f) => some f
  | _, _ => none

/-- The handles given out in the course of some actions. -/
def handles (c : Context V) : List (ContextAction Symbol V) → List FrameId
  | [] => []
  | action :: actions => (c.given action).toList ++ (c.step action).2.handles actions

structure Kept (c : Context V) (f : FrameId) : Prop where
  live : c.tree.isLive f = true
  captured : c.tree.isCaptured f = true

theorem kept_of_given (wf : c.WF) {action : ContextAction Symbol V} {f : FrameId}
    (h : c.given action = some f) : (c.step action).2.Kept f := by
  unfold given at h
  split at h
  · rename_i hreply
    rw [step, apply_capture wf] at hreply ⊢
    cases hreply
    cases h
    refine ⟨(isLive_keep _).trans wf.current_live, ?_⟩
    rw [tree_withTree, isCaptured_keep wf.current_lt, if_pos rfl]
  · cases h

/-! ## Kept frames -/

/-- No action ends that a frame is kept, or changes what is around it. -/
theorem Moves.kept (h : c.Moves d) (wf : c.WF) {f : FrameId} (hf : c.Kept f) :
    d.Kept f ∧ d.tree.path f = c.tree.path f := by
  have hlt := lt_of_isLive hf.live
  cases h with
  | touched h =>
    refine ⟨⟨(h.isLive_eq f).trans hf.live, h.isCaptured wf hf.captured⟩, ?_⟩
    exact path_congr wf.tree.parents_first fun g _ => h.parent?_eq g
  | @opened p hp =>
    have hframe := getElem?_grow_old (p := p) hlt
    exact ⟨⟨(isLive_congr hframe).trans hf.live, (isCaptured_congr hframe).trans hf.captured⟩,
      wf.tree.path_grow_old hlt⟩
  | closed hp hu =>
    have hlive := hu.live_iff.2 ⟨hf.live, fun heq => .inr (.inl (heq ▸ hf.captured))⟩
    exact ⟨⟨hlive, (isCaptured_congr (hu.frame_eq hlive)).trans hf.captured⟩,
      hu.path_eq wf.tree (lt_of_isLive hlive)⟩
  | entered _ => exact ⟨⟨hf.live, hf.captured⟩, rfl⟩

theorem Kept.after (wf : c.WF) {f : FrameId} (hf : c.Kept f)
    (actions : List (ContextAction Symbol V)) :
    (c.after actions).Kept f ∧ (c.after actions).tree.path f = c.tree.path f := by
  induction actions generalizing c with
  | nil => exact ⟨hf, rfl⟩
  | cons action actions ih =>
    have hmoves := step_moves wf action
    obtain ⟨hstep, hpath⟩ := hmoves.kept wf hf
    obtain ⟨hafter, hpath'⟩ := ih (hmoves.wf wf) hstep
    exact ⟨hafter, hpath'.trans hpath⟩

theorem kept_of_mem_handles (wf : c.WF) {actions : List (ContextAction Symbol V)} {f : FrameId}
    (hf : f ∈ c.handles actions) : (c.after actions).Kept f := by
  induction actions generalizing c with
  | nil => cases hf
  | cons action actions ih =>
    have wf' := (step_moves wf action).wf wf
    rcases List.mem_append.1 hf with hgiven | hlater
    · exact ((kept_of_given wf (Option.mem_toList.1 hgiven)).after wf' actions).1
    · exact ih wf' hlater

/-! ## What can be relied on -/

/-- A live frame with nothing but live frames around it, up to the root. -/
structure Alive (t : FrameTree V) (f : FrameId) : Prop where
  live : t.isLive f = true
  around_live : ∀ {distance g}, t.ancestor f distance = .ok g → t.isLive g = true
  reaches_root : ∃ n, t.depth f = .ok n ∧ t.ancestor f n = .ok FrameId.root

theorem alive_of_isLive {t : FrameTree V} (wf : t.WF) {f : FrameId} (hf : t.isLive f = true) :
    Alive t f := by
  obtain ⟨n, -, hdepth⟩ := wf.rooted.depth (lt_of_isLive hf)
  exact ⟨hf, fun hg => wf.rooted.around_live hf hg, n, hdepth⟩

/-- What can be relied on at a moment at which some handles have been given out. -/
structure Secure (c : Context V) (handles : List FrameId) : Prop where
  current_alive : Alive c.tree c.current
  handle_alive : ∀ f ∈ handles, Alive c.tree f
  /-- A retired slot holds nothing, and nobody has a handle to it. -/
  retired_bare : ∀ {f frame}, c.tree.frame f = .ok frame → frame.retired = true →
    frame.cells = .empty ∧ frame.captured = false
  /-- For another scope there always is a slot (see `Scoping.Fault`). -/
  openScope_ok : ∃ d, c.openScope = .ok d
  openIn_ok : ∀ f ∈ handles, ∃ d, c.openIn f = .ok d
  enter_ok : ∀ f ∈ handles, ∃ d, c.enter f = .ok d
  /-- Looking for a name never leaves the slots. -/
  read_ne_fault : ∀ who fault, c.read who ≠ .error (.fault fault)
  write_ne_fault : ∀ who value fault, c.write who value ≠ .error (.fault fault)

theorem WF.secure (wf : c.WF) {handles : List FrameId} (h : ∀ f ∈ handles, c.Kept f) :
    c.Secure handles where
  current_alive := alive_of_isLive wf.tree wf.current_live
  handle_alive f hf := alive_of_isLive wf.tree (h f hf).live
  retired_bare hframe hretired := wf.bare (frame_eq_ok_iff.1 hframe) hretired
  openScope_ok := ⟨_, openIn_of_live wf.current_live⟩
  openIn_ok f hf := ⟨_, openIn_of_live (h f hf).live⟩
  enter_ok f hf := ⟨_, enter_of_live (h f hf).live⟩
  read_ne_fault := FrameTree.read_ne_fault wf.tree wf.current_lt
  write_ne_fault := Context.write_ne_fault wf

/-- At every moment the current frame and all handles that were ever given out are good, whatever
was done before; and whatever is done afterwards, the chain from such a handle to the root stays
the same. -/
theorem secure_after (actions later : List (ContextAction Symbol V)) :
    (new.after actions).Secure (new.handles actions) ∧
      ∀ f ∈ new.handles actions,
        (new.after (actions ++ later)).tree.depth f = (new.after actions).tree.depth f ∧
        ∀ distance, (new.after (actions ++ later)).tree.ancestor f distance =
          (new.after actions).tree.ancestor f distance := by
  have wf : (new.after actions).WF := wf_new.after actions
  refine ⟨wf.secure fun f hf => kept_of_mem_handles wf_new hf, fun f hf => ?_⟩
  have hkept := kept_of_mem_handles wf_new hf
  obtain ⟨hlater, hpath⟩ := hkept.after wf later
  have hlt := lt_of_isLive hkept.live
  have hlt' := lt_of_isLive hlater.live
  have wf' := wf.after later
  rw [after_append, depth_eq wf'.tree hlt', depth_eq wf.tree hlt, hpath]
  refine ⟨rfl, fun distance => ?_⟩
  rw [ancestor_eq wf'.tree hlt', ancestor_eq wf.tree hlt, hpath]

/-- Two frames captured one inside the other, the outer one after its scope was left. -/
example : (new : Context Bool).handles [.openScope, .capture, .closeScope, .openIn 1, .capture] =
    [1, 2] := by decide

end Scoping.Context
