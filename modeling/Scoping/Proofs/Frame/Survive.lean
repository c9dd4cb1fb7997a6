import Scoping.Proofs.Frame.Distance

/-!
# What giving back a frame leaves alone

`Released` says what giving back a frame makes of the slots. Here it is said to those who look at a
tree from one of its frames: a frame that is live afterwards has the same path, and every frame on
that path is as it was, so that all walks from it lead to the same frames and the same cells
(`Released.sameView`).

Slots are freed exactly when the newest frame is given back and nobody needs it. It goes with the
retired frames directly below it, down to the newest frame that is live (`release_spares_live`).
-/

namespace Scoping.FrameTree

variable {V : Type} {t u : FrameTree V} {f g : FrameId}

/-- From a frame, two trees look the same. -/
structure SameView (t u : FrameTree V) (g : FrameId) : Prop where
  parent : u.parent g = t.parent g
  depth : u.depth g = t.depth g
  ancestor : ∀ distance, u.ancestor g distance = t.ancestor g distance
  cell : ∀ name, u.cell? g name = t.cell? g name
  read : ∀ who, u.read g who = t.read g who
  readAt : ∀ distance who, u.readAt g distance who = t.readAt g distance who

theorem nearest_congr {name : Symbol} (hpath : u.path g = t.path g)
    (hheld : ∀ h ∈ t.path g, u.held h name = t.held h name) :
    u.nearest g name = t.nearest g name := by
  rw [nearest, nearest, hpath]
  generalize t.path g = frames at hheld
  induction frames with
  | nil => rfl
  | cons h frames ih =>
    rw [List.findSome?_cons, List.findSome?_cons, hheld h List.mem_cons_self]
    cases t.held h name with
    | some cell => rfl
    | none => exact ih fun h hmem => hheld h (List.mem_cons_of_mem _ hmem)

/-- What can be seen from a frame is on its path. -/
theorem sameView_of_path (wf : t.WF) (wf' : u.WF) (hg : g < t.size) (hg' : g < u.size)
    (hpath : u.path g = t.path g) (hframes : ∀ h ∈ t.path g, u.frames[h]? = t.frames[h]?) :
    t.SameView u g := by
  have hself : u.frame g = t.frame g := by
    obtain ⟨frame, hframe⟩ := frame_of_lt hg
    rw [frame_eq_ok_iff.2 hframe, frame_eq_ok_iff.2 ((hframes g (mem_path_self t g)).trans hframe)]
  have hheld : ∀ h ∈ t.path g, ∀ name, u.held h name = t.held h name :=
    fun h hmem name => held_congr (hframes h hmem) name
  refine ⟨?_, ?_, ?_, ?_, ?_, ?_⟩
  · rw [FrameTree.parent, FrameTree.parent, hself]
  · rw [depth_eq wf' hg', depth_eq wf hg, hpath]
  · intro distance
    rw [ancestor_eq wf' hg', ancestor_eq wf hg, hpath]
  · intro name
    rw [FrameTree.cell?, FrameTree.cell?, hself]
  · intro who
    rw [read_eq wf' hg', read_eq wf hg, nearest_congr hpath fun h hmem => hheld h hmem who.name]
  · intro distance who
    have hlocate : u.locateAt g distance who = t.locateAt g distance who := by
      rw [locateAt_eq wf' hg', locateAt_eq wf hg, hpath]
      cases hh : (t.path g)[distance]? with
      | none => rfl
      | some h =>
        simp only
        rw [hheld h (List.mem_of_getElem? hh)]
    rw [FrameTree.readAt, FrameTree.readAt, hlocate]

/-- A frame that stays live sees no difference. -/
theorem Released.sameView (h : Released t f u) (wf : t.WF) (hg : u.isLive g = true) :
    t.SameView u g := by
  have wf' := h.wf wf
  have hlt := lt_of_isLive hg
  have hpath := h.path_eq wf hlt
  refine sameView_of_path wf wf' (lt_of_isLive (h.live_of_live hg)) hlt hpath ?_
  intro x hx
  rw [← hpath] at hx
  exact h.frame_eq (wf'.live_of_mem_path hg hx)

/-- What giving back frame `f` does, and that it disturbs nothing that stays. -/
structure Spared (t : FrameTree V) (f : FrameId) (freed : Bool) (u : FrameTree V) : Prop where
  freed_iff_smaller : freed = true ↔ u.size < t.size
  freed_iff : freed = true ↔ f + 1 = t.size ∧ f ≠ FrameId.root ∧ t.isCaptured f = false
  /-- If slots are freed, these are the frame and the retired frames directly below it, and what is
  left is as it was. -/
  removed : freed = true → 0 < u.size ∧ u.size ≤ f ∧
    (∀ g, u.size ≤ g → g < f → t.isLive g = false) ∧ t.isLive (u.size - 1) = true ∧
    ∀ g < u.size, u.frame g = t.frame g
  /-- The slots end with the last frame that is live. -/
  size_eq : ∃ last, u.isLive last = true ∧ (∀ g, u.isLive g = true → g ≤ last) ∧ u.size = last + 1
  /-- Nothing but `f` stops being live: `f` does if it is not the root, not captured and not around
  a live frame. -/
  live_iff : ∀ g, u.isLive g = true ↔ t.isLive g = true ∧
    ¬ (g = f ∧ f ≠ FrameId.root ∧ t.isCaptured f = false ∧
      ∀ inner, inner ≠ f → t.isLive inner = true → ¬ t.Encloses f inner)
  sameView : ∀ g, u.isLive g = true → t.SameView u g

section spared

variable (wf : t.WF)

include wf

theorem not_needed_iff : ¬ t.Needed f ↔ f ≠ FrameId.root ∧ t.isCaptured f = false ∧
    ∀ inner, inner ≠ f → t.isLive inner = true → ¬ t.Encloses f inner := by
  unfold Needed
  rw [not_or, not_or, Bool.not_eq_true]
  refine and_congr_right fun _ => and_congr_right fun _ => ?_
  constructor
  · intro hnone inner hne hlive hinside
    exact hnone ⟨inner, hne, hlive, (encloses_iff wf (lt_of_isLive hlive)).1 hinside⟩
  · rintro hnone ⟨inner, hne, hlive, hmem⟩
    exact hnone inner hne hlive ((encloses_iff wf (lt_of_isLive hlive)).2 hmem)

/-- The newest frame has no frame inside it. -/
theorem needed_newest_iff (hnewest : f + 1 = t.size) :
    t.Needed f ↔ f = FrameId.root ∨ t.isCaptured f = true := by
  unfold Needed
  constructor
  · rintro (hroot | hcaptured | ⟨g, hne, hlive, hmem⟩)
    · exact .inl hroot
    · exact .inr hcaptured
    · have hle := le_of_mem_path wf.parents_first hmem
      have hlt := lt_of_isLive hlive
      rw [← hnewest] at hlt
      exact absurd (Nat.le_antisymm (Nat.le_of_lt_succ hlt) hle) hne
  · rintro (hroot | hcaptured)
    · exact .inl hroot
    · exact .inr (.inl hcaptured)

/-- What is said of the slots that are freed has to be shown of each outcome; the rest follows from
what giving back a frame does in any case. -/
theorem Released.spared (h : Released t f u) {freed : Bool}
    (hfreed : freed = true ↔ f + 1 = t.size ∧ ¬ t.Needed f)
    (hsmaller : freed = true ↔ u.size < t.size)
    (hremoved : freed = true → u.size ≤ f ∧ ∀ g, u.size ≤ g → g < f → t.isLive g = false) :
    t.Spared f freed u := by
  have hpos := (h.wf wf).size_pos
  refine ⟨hsmaller, ?_, ?_, ?_, ?_, fun g hg => h.sameView wf hg⟩
  · rw [hfreed]
    refine and_congr_right fun hnewest => ?_
    rw [needed_newest_iff wf hnewest, not_or, Bool.not_eq_true]
  · intro htrue
    obtain ⟨hle, hdead⟩ := hremoved htrue
    refine ⟨hpos, hle, hdead, h.live_of_live h.newest_live, ?_⟩
    intro g hg
    have hlt : g < t.size := Nat.lt_of_lt_of_le hg h.size_le
    obtain ⟨frame, hframe⟩ := frame_of_lt hlt
    have hsame := h.frame_eq_of_ne hg (Nat.ne_of_lt (Nat.lt_of_lt_of_le hg hle))
    rw [frame_eq_ok_iff.2 hframe, frame_eq_ok_iff.2 (hsame.trans hframe)]
  · refine ⟨u.size - 1, h.newest_live, ?_, ?_⟩
    · intro g hg
      exact Nat.le_sub_one_of_lt (lt_of_isLive hg)
    · omega
  · intro g
    rw [h.live_iff, ← not_needed_iff wf]
    refine and_congr_right fun _ => ⟨fun hkept hgone => hgone.2 (hkept hgone.1), ?_⟩
    intro hkept heq
    exact Classical.byContradiction fun hneeded => hkept ⟨heq, hneeded⟩

theorem spared_of_release (hf : f < t.size) :
    ∃ freed u, t.release f = .ok (freed, u) ∧ t.Spared f freed u := by
  by_cases hneeded : t.Needed f
  · refine ⟨false, t, release_of_needed wf hf hneeded, ?_⟩
    apply (released_of_needed wf hneeded).spared wf
    · simp [hneeded]
    · simp
    · simp
  · by_cases hnewest : f + 1 = t.size
    · obtain ⟨m, hm, hle, hrelease, hdead, hend⟩ := release_of_newest wf hnewest hneeded
      have hsize : (t.cut m).size = m := size_cut (Nat.le_trans hle (Nat.le_of_lt hf))
      refine ⟨true, t.cut m, hrelease, ?_⟩
      apply (released_cut hnewest hneeded hm hle hdead hend).spared wf
      · simp [hnewest, hneeded]
      · rw [hsize]
        simp only [true_iff]
        exact Nat.lt_of_le_of_lt hle hf
      · intro _
        rw [hsize]
        exact ⟨hle, hdead⟩
    · obtain ⟨frame, hframe⟩ := frame_of_lt hf
      refine ⟨false, _, release_of_older wf hframe hneeded hnewest, ?_⟩
      apply (released_retire wf hneeded hnewest).spared wf
      · simp [hnewest]
      · simp
      · simp

end spared

/-- Whatever has been done to a tree, giving back a frame takes away at most this frame and retired
ones directly below it, and nothing can be told by looking from a frame that stays live. -/
theorem release_spares_live (actions : List (FrameAction Symbol V))
    (hf : f < (new.after actions).size) :
    ∃ freed u, (new.after actions).release f = .ok (freed, u) ∧
      (new.after actions).Spared f freed u :=
  spared_of_release (wf_new.after actions) hf

/-- The newest frame goes with two retired ones below it, and a captured one stays. -/
theorem release_spares_live_swept :
    let actions : List (FrameAction Symbol Bool) :=
      [.extend 0, .capture 1, .extend 1, .extend 2, .extend 1, .release 3, .release 2]
    4 < (new.after actions).size ∧
      ∃ freed u, (new.after actions).release 4 = .ok (freed, u) ∧
        (new.after actions).Spared 4 freed u := by
  intro actions
  have hf : 4 < (new.after actions).size := by decide
  exact ⟨hf, release_spares_live actions hf⟩

end Scoping.FrameTree
