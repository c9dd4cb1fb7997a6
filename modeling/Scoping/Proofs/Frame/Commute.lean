import Scoping.Proofs.Frame.Distance

/-!
# Frames given back in either order

A frame that nobody needs is given back in one of two ways: an older one is retired, and the newest
one leaves the list with the retired ones below it. Both come to the same: the frame is retired, and
then the retired frames at the end are swept (`release_of_not_needed`). Retiring one frame and
retiring another commute, and a sweep in between makes no difference, because what it takes early
the sweep at the end would have taken (`sweep_update_sweep`).

So two frames of which neither is inside the other can be given back in either order
(`release_comm`): giving back one of them does not change whether the other is needed.
-/

namespace Scoping.FrameTree

variable {V : Type} {t u v : FrameTree V} {f g : FrameId}

/-! ## Changes and cuts, position by position -/

theorem ext_getElem? (h : ∀ i : Nat, t.frames[i]? = u.frames[i]?) : t = u :=
  congrArg FrameTree.mk (Array.ext_getElem? h)

theorem update_comm (c d : Frame V → Frame V) (hne : f ≠ g) :
    (t.update f c).update g d = (t.update g d).update f c := by
  apply ext_getElem?
  intro i
  simp only [getElem?_update]
  by_cases hf : f = i
  · subst hf
    simp [hne.symm]
  · simp [hf]

theorem update_cut (c : Frame V → Frame V) (k : Nat) :
    (t.cut k).update g c = (t.update g c).cut k := by
  apply ext_getElem?
  intro i
  simp only [getElem?_update, getElem?_cut]
  by_cases hi : i < k
  · simp [hi]
  · simp [hi]

/-- A change behind the cut is lost. -/
theorem cut_update_of_le (c : Frame V → Frame V) {k : Nat} (hle : k ≤ g) :
    (t.update g c).cut k = t.cut k := by
  apply ext_getElem?
  intro i
  simp only [getElem?_update, getElem?_cut]
  by_cases hi : i < k
  · simp [hi, Nat.ne_of_gt (Nat.lt_of_lt_of_le hi hle)]
  · simp [hi]

theorem cut_cut {j k : Nat} (hle : j ≤ k) : (t.cut k).cut j = t.cut j := by
  apply ext_getElem?
  intro i
  simp only [getElem?_cut]
  by_cases hi : i < j
  · simp [hi, Nat.lt_of_lt_of_le hi hle]
  · simp [hi]

theorem cut_size : t.cut t.size = t := by
  apply ext_getElem?
  intro i
  rw [getElem?_cut]
  by_cases hi : i < t.size
  · rw [if_pos hi]
  · rw [if_neg hi, Array.getElem?_eq_none (Nat.le_of_not_lt hi)]

/-! ## Sweeps -/

/-- The tree without the retired frames at its end. -/
def sweep (t : FrameTree V) : FrameTree V := ⟨dropRetired t.size t.frames⟩

/-- The last live frame is the one before position `k`. -/
structure EndsAt (t : FrameTree V) (k : Nat) : Prop where
  pos : 0 < k
  le_size : k ≤ t.size
  live : t.isLive (k - 1) = true
  dead : ∀ g : Nat, k ≤ g → g < t.size → t.isLive g = false

theorem EndsAt.le_of_dead {j k : Nat} (h : t.EndsAt j)
    (hdead : ∀ g : Nat, k ≤ g → g < t.size → t.isLive g = false) : j ≤ k := by
  rcases Nat.lt_or_ge k j with hlt | hge
  · have hlive := h.live
    have hle := h.le_size
    rw [hdead (j - 1) (by omega) (by omega)] at hlive
    cases hlive
  · exact hge

theorem EndsAt.unique {j k : Nat} (h : t.EndsAt j) (h' : t.EndsAt k) : j = k :=
  Nat.le_antisymm (h.le_of_dead h'.dead) (h'.le_of_dead h.dead)

section sweep

variable (hroot : t.isLive FrameId.root = true)

include hroot

theorem exists_endsAt : ∃ k, t.EndsAt k ∧ t.sweep = t.cut k := by
  have hpos : 0 < t.size := lt_of_isLive hroot
  obtain ⟨k, hk, hle, heq, hdead, hlive⟩ :=
    dropRetired_cut hroot hpos (Nat.le_refl t.size) (Nat.le_refl t.size)
  rw [cut_size] at heq
  exact ⟨k, ⟨hk, hle, hlive, hdead⟩, congrArg FrameTree.mk heq⟩

theorem sweep_eq_cut {k : Nat} (h : t.EndsAt k) : t.sweep = t.cut k := by
  obtain ⟨j, hj, heq⟩ := exists_endsAt hroot
  rw [heq, hj.unique h]

/-- Retired frames at the end may go before the sweep. -/
theorem sweep_cut {k : Nat} (hpos : 0 < k) (hle : k ≤ t.size)
    (hdead : ∀ g : Nat, k ≤ g → g < t.size → t.isLive g = false) : (t.cut k).sweep = t.sweep := by
  obtain ⟨j, hj, heq⟩ := exists_endsAt hroot
  have hjk := hj.le_of_dead hdead
  have hsize : (t.cut k).size = k := size_cut hle
  have hsame : ∀ g : Nat, g < k → (t.cut k).isLive g = t.isLive g :=
    fun g hg => isLive_congr (getElem?_cut_of_lt hg)
  have hends : (t.cut k).EndsAt j := by
    refine ⟨hj.pos, Nat.le_trans hjk (Nat.le_of_eq hsize.symm), ?_, ?_⟩
    · rw [hsame _ (Nat.lt_of_lt_of_le (Nat.sub_one_lt_of_lt hj.pos) hjk)]
      exact hj.live
    · intro g hg hlt
      rw [hsize] at hlt
      rw [hsame g hlt]
      exact hj.dead g hg (Nat.lt_of_lt_of_le hlt hle)
  have hroot' : (t.cut k).isLive FrameId.root = true := (hsame 0 hpos).trans hroot
  rw [sweep_eq_cut hroot' hends, cut_cut hjk, heq]

/-- A sweep before a frame is retired is made up for by the sweep afterwards. -/
theorem sweep_update_sweep (hne : g ≠ FrameId.root) :
    (t.sweep.update g Frame.retire).sweep = (t.update g Frame.retire).sweep := by
  obtain ⟨k, hk, heq⟩ := exists_endsAt hroot
  have hroot' : (t.update g Frame.retire).isLive FrameId.root = true :=
    isLive_retire.2 ⟨hroot, hne.symm⟩
  rw [heq, update_cut]
  refine sweep_cut hroot' hk.pos ((size_update _).symm ▸ hk.le_size) ?_
  intro h hle hlt
  rw [size_update] at hlt
  rw [← Bool.not_eq_true, isLive_retire, hk.dead h hle hlt]
  simp

end sweep

/-! ## A frame given back is retired and swept -/

theorem ne_root_of_not_needed (h : ¬ t.Needed f) : f ≠ FrameId.root := fun heq => h (.inl heq)

theorem release_of_not_needed (wf : t.WF) (hf : f < t.size) (h : ¬ t.Needed f) :
    ∃ freed, t.release f = .ok (freed, (t.update f Frame.retire).sweep) := by
  have hroot : (t.update f Frame.retire).isLive FrameId.root = true :=
    isLive_retire.2 ⟨wf.root_live, (ne_root_of_not_needed h).symm⟩
  by_cases hnewest : f + 1 = t.size
  · obtain ⟨m, hm, hle, hrelease, hdead, hlive⟩ := release_of_newest wf hnewest h
    have hends : (t.update f Frame.retire).EndsAt m := by
      refine ⟨hm, ?_, ?_, ?_⟩
      · rw [size_update]
        exact Nat.le_trans hle (Nat.le_of_lt hf)
      · exact isLive_retire.2 ⟨hlive, Nat.ne_of_lt (Nat.lt_of_lt_of_le (Nat.sub_one_lt_of_lt hm) hle)⟩
      · intro g hg hlt
        rw [size_update, ← hnewest] at hlt
        rw [← Bool.not_eq_true, isLive_retire]
        rintro ⟨hlive, hne⟩
        rw [hdead g hg (Nat.lt_of_le_of_ne (Nat.le_of_lt_succ hlt) hne)] at hlive
        cases hlive
    exact ⟨true, by rw [hrelease, sweep_eq_cut hroot hends, cut_update_of_le _ hle]⟩
  · obtain ⟨frame, hframe⟩ := frame_of_lt hf
    have hends : (t.update f Frame.retire).EndsAt (t.update f Frame.retire).size := by
      refine ⟨?_, Nat.le_refl _, ?_, fun g hg hlt => absurd hlt (Nat.not_lt.2 hg)⟩
      · rw [size_update]
        exact wf.size_pos
      · exact (released_retire wf h hnewest).newest_live
    exact ⟨false, by rw [release_of_older wf hframe h hnewest, sweep_eq_cut hroot hends, cut_size]⟩

/-- What a tree becomes when a frame is given back. -/
inductive Settles (t : FrameTree V) (f : FrameId) : FrameTree V → Prop
  | kept (h : t.Needed f) : Settles t f t
  | swept (h : ¬ t.Needed f) : Settles t f (t.update f Frame.retire).sweep

theorem Settles.eq_of_needed (hs : Settles t f u) (h : t.Needed f) : u = t := by
  cases hs with
  | kept _ => rfl
  | swept hn => exact absurd h hn

theorem Settles.eq_of_not_needed (hs : Settles t f u) (h : ¬ t.Needed f) :
    u = (t.update f Frame.retire).sweep := by
  cases hs with
  | kept hn => exact absurd hn h
  | swept _ => rfl

theorem release_settles (wf : t.WF) (hf : f < t.size) :
    ∃ freed u, t.release f = .ok (freed, u) ∧ Released t f u ∧ Settles t f u := by
  obtain ⟨freed, u, hrelease, hu⟩ := wf.release hf
  refine ⟨freed, u, hrelease, hu, ?_⟩
  by_cases h : t.Needed f
  · rw [release_of_needed wf hf h] at hrelease
    cases hrelease
    exact .kept h
  · obtain ⟨freed', hswept⟩ := release_of_not_needed wf hf h
    rw [hswept] at hrelease
    cases hrelease
    exact .swept h

/-! ## Two frames -/

/-- Who needs a frame does not depend on a frame that is not inside it. -/
theorem Released.needed_iff (h : Released t f u) (wf : t.WF) (hg : t.isLive g = true)
    (hgf : g ∉ t.path f) : u.Needed g ↔ t.Needed g := by
  have hne : g ≠ f := fun heq => hgf (heq ▸ mem_path_self t g)
  have hcaptured : u.isCaptured g = t.isCaptured g :=
    isCaptured_congr (h.frame_eq (h.live_of_ne hg hne))
  have hinside : ∀ x, (u.isLive x = true ∧ g ∈ u.path x) ↔ (t.isLive x = true ∧ g ∈ t.path x) := by
    intro x
    constructor
    · rintro ⟨hx, hmem⟩
      rw [h.path_eq wf (lt_of_isLive hx)] at hmem
      exact ⟨h.live_of_live hx, hmem⟩
    · rintro ⟨hx, hmem⟩
      have hxf : x ≠ f := fun heq => hgf (heq ▸ hmem)
      have hx' := h.live_of_ne hx hxf
      rw [h.path_eq wf (lt_of_isLive hx')]
      exact ⟨hx', hmem⟩
  simp only [Needed, hcaptured, hinside]

/-- Gives back two frames, one after the other. -/
def releaseBoth (t : FrameTree V) (first second : FrameId) : Except Fault (FrameTree V) := do
  let (_, t) ← t.release first
  let (_, t) ← t.release second
  return t

theorem releaseBoth_settles (wf : t.WF) (hf : t.isLive f = true) (hg : t.isLive g = true)
    (hgf : g ∉ t.path f) :
    ∃ u v, t.releaseBoth f g = .ok v ∧ Settles t f u ∧ Settles u g v ∧
      (u.Needed g ↔ t.Needed g) := by
  have hne : g ≠ f := fun heq => hgf (heq ▸ mem_path_self t g)
  obtain ⟨_, u, hfirst, hu, hsettles⟩ := release_settles wf (lt_of_isLive hf)
  have hg' := lt_of_isLive (hu.live_of_ne hg hne)
  obtain ⟨_, v, hsecond, -, hsettles'⟩ := release_settles (hu.wf wf) hg'
  refine ⟨u, v, ?_, hsettles, hsettles', hu.needed_iff wf hg hgf⟩
  rw [releaseBoth, hfirst]
  simp only [bind, Except.bind, hsecond]
  rfl

theorem WF.releaseBoth_comm (wf : t.WF) (hf : t.isLive f = true) (hg : t.isLive g = true)
    (hfg : f ∉ t.path g) (hgf : g ∉ t.path f) :
    ∃ v, t.releaseBoth f g = .ok v ∧ t.releaseBoth g f = .ok v := by
  have hne : f ≠ g := fun heq => hfg (heq ▸ mem_path_self t f)
  obtain ⟨u, v, hv, hfirst, hsecond, hneeds⟩ := releaseBoth_settles wf hf hg hgf
  obtain ⟨u', v', hv', hfirst', hsecond', hneeds'⟩ := releaseBoth_settles wf hg hf hfg
  suffices v = v' from ⟨v, hv, this ▸ hv'⟩
  by_cases hF : t.Needed f
  · have hu := hfirst.eq_of_needed hF
    have hv'u' := hsecond'.eq_of_needed (hneeds'.2 hF)
    subst hu hv'u'
    by_cases hG : u.Needed g
    · rw [hsecond.eq_of_needed hG, hfirst'.eq_of_needed hG]
    · rw [hsecond.eq_of_not_needed hG, hfirst'.eq_of_not_needed hG]
  · have hu := hfirst.eq_of_not_needed hF
    have hv'u' := hsecond'.eq_of_not_needed (mt hneeds'.1 hF)
    by_cases hG : t.Needed g
    · rw [hsecond.eq_of_needed (hneeds.2 hG), hv'u', hfirst'.eq_of_needed hG, hu]
    · have hrootF := isLive_retire.2 ⟨wf.root_live, (ne_root_of_not_needed hF).symm⟩
      have hrootG := isLive_retire.2 ⟨wf.root_live, (ne_root_of_not_needed hG).symm⟩
      calc v = (u.update g Frame.retire).sweep := hsecond.eq_of_not_needed (mt hneeds.1 hG)
        _ = ((t.update f Frame.retire).update g Frame.retire).sweep := by
          rw [hu, sweep_update_sweep hrootF (ne_root_of_not_needed hG)]
        _ = ((t.update g Frame.retire).update f Frame.retire).sweep := by
          rw [update_comm _ _ hne]
        _ = (u'.update f Frame.retire).sweep := by
          rw [hfirst'.eq_of_not_needed hG, sweep_update_sweep hrootG (ne_root_of_not_needed hF)]
        _ = v' := hv'u'.symm

/-- Whatever has been done to a tree, two live frames of which neither is inside the other can be
given back in either order, and leave the same tree. -/
theorem release_comm (actions : List (FrameAction Symbol V))
    (hf : (new.after actions).isLive f = true) (hg : (new.after actions).isLive g = true)
    (hfg : ¬ (new.after actions).Encloses f g) (hgf : ¬ (new.after actions).Encloses g f) :
    ∃ u, (new.after actions).releaseBoth f g = .ok u ∧
      (new.after actions).releaseBoth g f = .ok u := by
  have wf : (new.after actions).WF := wf_new.after actions
  rw [encloses_iff wf (lt_of_isLive hg)] at hfg
  rw [encloses_iff wf (lt_of_isLive hf)] at hgf
  exact wf.releaseBoth_comm hf hg hfg hgf

/-- The newest of three frames side by side and the oldest, with a retired one in between. In one
order the oldest is retired and swept later, in the other it is the newest when its turn comes. -/
theorem release_comm_swept :
    let actions : List (FrameAction Symbol Bool) :=
      [.extend 0, .define 1 ⟨1⟩ true, .extend 0, .extend 0, .release 2]
    let t := new.after actions
    t.isLive 1 = true ∧ t.isLive 3 = true ∧ ¬ t.Encloses 1 3 ∧ ¬ t.Encloses 3 1 ∧
      ∃ u, t.releaseBoth 1 3 = .ok u ∧ t.releaseBoth 3 1 = .ok u := by
  intro actions t
  have wf : t.WF := wf_new.after actions
  have h1 : t.isLive 1 = true := by decide
  have h3 : t.isLive 3 = true := by decide
  have h13 : ¬ t.Encloses 1 3 := by
    rw [encloses_iff wf (by decide)]
    decide
  have h31 : ¬ t.Encloses 3 1 := by
    rw [encloses_iff wf (by decide)]
    decide
  exact ⟨h1, h3, h13, h31, release_comm actions h1 h3 h13 h31⟩

end Scoping.FrameTree
