import Scoping.Proofs.Frame.Reclaim

/-!
# What each action does to a tree

An action on a tree is a question, or it opens a frame, keeps one, puts a cell into one, or gives
one back. `Effect` says which action does what, so that whatever is said of a tree after an action
can be traced to the action (`step_effect`). A cell is put into a frame in two ways that are kept
apart: an action `Gives` a frame a name, whether it had a cell for it or not, or it writes over a
cell that is there. An action that is a fault, or is refused, has no effect.

The frame that an action is handed may be any that has a slot, a retired one included: only opening
a frame asks for a live one.
-/

namespace Scoping

/-- The actions that put a cell for a name into a frame, whether it has one or not. -/
inductive FrameAction.Gives {N V : Type} : FrameAction N V → FrameId → N → Prop
  | declare (f : FrameId) (name : N) : Gives (.declare f name) f name
  | define (f : FrameId) (name : N) (value : V) : Gives (.define f name value) f name

namespace FrameTree

variable {V : Type} {t u : FrameTree V} {f : FrameId} {name : Symbol}

inductive Effect (t : FrameTree V) : FrameAction Symbol V → FrameTree V → Prop
  | nothing (action : FrameAction Symbol V) : t.Effect action t
  | opened {p : FrameId} (hp : t.isLive p = true) : t.Effect (.extend p) (t.grow p)
  | captured {f : FrameId} (hf : f < t.size) : t.Effect (.capture f) (t.update f Frame.keep)
  | given {action : FrameAction Symbol V} {f : FrameId} {name : Symbol} (cell : Cell V)
      (hf : f < t.size) (hgives : action.Gives f name) :
      t.Effect action (t.update f (·.store name cell))
  | written {action : FrameAction Symbol V} {f : FrameId} {name : Symbol} {old : Cell V} (value : V)
      (hold : t.held f name = some old) : t.Effect action (t.update f (·.store name (.holds value)))
  /-- A frame that somebody needs stays as it is, even if it is a retired one. -/
  | released {f : FrameId} {u : FrameTree V} (hf : f < t.size) (hu : Released t f u)
      (hneeded : t.Needed f → u = t) : t.Effect (.release f) u

theorem lt_of_frame_eq_ok {frame : Frame V} (h : t.frame f = .ok frame) : f < t.size :=
  lt_of_frame (frame_eq_ok_iff.1 h)

/-! ## One lemma for each action that changes something -/

theorem effect_of_extend {p : FrameId} (h : t.extend p = .ok (f, u)) :
    t.Effect (.extend p) u := by
  by_cases hp : t.isLive p = true
  · rw [extend_of_live hp] at h
    cases h
    exact .opened hp
  · rw [extend_of_not_live hp] at h
    cases h

theorem effect_of_capture (h : t.capture f = .ok u) : t.Effect (.capture f) u := by
  obtain ⟨frame, hframe, -⟩ := bind_eq_ok h
  have hf := lt_of_frame_eq_ok hframe
  rw [capture_eq hf] at h
  cases h
  exact .captured hf

theorem effect_of_setCell {action : FrameAction Symbol V} {cell : Cell V}
    (hgives : action.Gives f name) (h : t.setCell f name cell = .ok u) : t.Effect action u := by
  obtain ⟨frame, hframe, -⟩ := bind_eq_ok h
  have hf := lt_of_frame_eq_ok hframe
  rw [setCell_eq hf] at h
  cases h
  exact .given cell hf hgives

/-- The root is refused before its slot is looked at; any other frame has to have one. -/
theorem effect_of_release (wf : t.WF) {freed : Bool} (h : t.release f = .ok (freed, u)) :
    t.Effect (.release f) u := by
  by_cases hroot : f = FrameId.root
  · rw [release, if_pos hroot] at h
    cases h
    exact .nothing _
  · have hf : f < t.size := by
      rw [release, if_neg hroot] at h
      obtain ⟨frame, hframe, -⟩ := bind_eq_ok h
      exact lt_of_frame_eq_ok hframe
    obtain ⟨freed', u', hrelease, hu⟩ := wf.release hf
    rw [h] at hrelease
    cases hrelease
    refine .released hf hu fun hneeded => ?_
    rw [release_of_needed wf hf hneeded] at h
    cases h
    rfl

theorem effect_of_held {action : FrameAction Symbol V} {cell : Cell V} {value : V}
    (hheld : t.held f name = some cell) (h : t.setCell f name (.holds value) = .ok u) :
    t.Effect action u := by
  rw [setCell_eq (lt_of_held hheld)] at h
  cases h
  exact .written value hheld

theorem effect_of_write (wf : t.WF) {who : Occurrence Symbol} {value : V}
    (h : t.write f who value = .ok u) : t.Effect (.write f who value) u := by
  obtain ⟨found, hlift, hstore⟩ := bind_eq_ok h
  cases hlocate : t.locate f who.name with
  | error fault =>
    rw [hlocate] at hlift
    cases hlift
  | ok found' =>
    rw [hlocate] at hlift
    cases hlift
    obtain ⟨frame, hframe, -⟩ := bind_eq_ok hlocate
    rw [locate_eq wf who.name (lt_of_frame_eq_ok hframe)] at hlocate
    cases found with
    | none => cases hstore
    | some found =>
      have hheld := (held_of_nearest (Except.ok.inj hlocate)).2
      cases hset : t.setCell found.1 who.name (.holds value) with
      | error fault =>
        simp only [hset] at hstore
        cases hstore
      | ok u' =>
        simp only [hset] at hstore
        cases hstore
        exact effect_of_held hheld hset

theorem effect_of_writeAt {distance : Nat} {who : Occurrence Symbol} {value : V}
    (h : t.writeAt f distance who value = .ok u) : t.Effect (.writeAt f distance who value) u := by
  obtain ⟨⟨g, cell⟩, hlocate, hset⟩ := bind_eq_ok h
  obtain ⟨g', -, hcell⟩ := bind_eq_ok hlocate
  obtain ⟨found, hfound, heq⟩ := bind_eq_ok hcell
  cases found with
  | none => cases heq
  | some cell' =>
    cases heq
    obtain ⟨frame, hframe, hfind⟩ := bind_eq_ok hfound
    have hheld := held_of_frame (frame_eq_ok_iff.1 hframe) who.name
    rw [Except.ok.inj hfind] at hheld
    exact effect_of_held hheld hset

/-! ## All of them -/

theorem apply_effect (wf : t.WF) {action : FrameAction Symbol V} {reply : Reply V}
    (h : t.apply action = .ok (reply, u)) : t.Effect action u := by
  have query : ∀ {A : Type} {m : Except Fault A} {k : A → Reply V},
      (m >>= fun a => pure (k a, t)) = .ok (reply, u) → t.Effect action u := fun h => by
    obtain ⟨_, -, heq⟩ := bind_eq_ok h
    cases heq
    exact .nothing _
  have command : ∀ {m : Except Fault (FrameTree V)}, (∀ {u}, m = .ok u → t.Effect action u) →
      (m >>= fun u => pure (Reply.done, u)) = .ok (reply, u) → t.Effect action u := fun hm h => by
    obtain ⟨_, hu, heq⟩ := bind_eq_ok h
    cases heq
    exact hm hu
  cases action with
  | root =>
    cases h
    exact .nothing _
  | extend p =>
    obtain ⟨⟨f, u'⟩, hextend, heq⟩ := bind_eq_ok h
    cases heq
    exact effect_of_extend hextend
  | isLive f =>
    cases h
    exact .nothing _
  | parent f => exact query h
  | depth f => exact query h
  | capture f => exact command effect_of_capture h
  | release f =>
    obtain ⟨⟨freed, u'⟩, hrelease, heq⟩ := bind_eq_ok h
    cases heq
    exact effect_of_release wf hrelease
  | declare f name => exact command (effect_of_setCell (.declare f name)) h
  | define f name value => exact command (effect_of_setCell (.define f name value)) h
  | cell f name => exact query h
  | read f who => exact query h
  | write f who value =>
    rw [apply] at h
    cases hwrite : t.write f who value with
    | ok u' =>
      rw [hwrite] at h
      cases h
      exact effect_of_write wf hwrite
    | error i =>
      rw [hwrite] at h
      cases i with
      | error e =>
        cases h
        exact .nothing _
      | fault fault => cases h
  | ancestor f distance => exact query h
  | readAt f distance who => exact query h
  | writeAt f distance who value => exact command effect_of_writeAt h

theorem step_effect (wf : t.WF) (action : FrameAction Symbol V) :
    t.Effect action (t.step action).2 := by
  unfold step
  cases h : t.apply action with
  | error fault => exact .nothing _
  | ok result => exact apply_effect wf h

end FrameTree

end Scoping
