import Scoping.Frame.Action
import Scoping.Proofs.Frame.Path

/-!
# What opening, changing and giving back frames does to a tree

Every operation that changes a tree is described once, by what it leaves at each position: a frame
changed in place (`WF.update`), a frame opened at the end (`WF.grow`), and a frame
given back (`WF.release`). The description of `release` needs two facts about its loops: the single
pass of `descendsLive` is exact (`hasLiveDescendant_eq`), and `dropRetired` cuts the tree behind a
frame that is live (`dropRetired_cut`).

A frame is `Needed` while somebody may come back to it. `Released` says that giving back a frame
that is needed changes nothing, and that otherwise this frame is the only one that stops being
live: every frame that stays live is still at its position, with all that it held.
-/

namespace Scoping

namespace Frame

variable {V : Type}

def store (frame : Frame V) (name : Symbol) (cell : Cell V) : Frame V :=
  { frame with cells := frame.cells.set name cell }

def keep (frame : Frame V) : Frame V := { frame with captured := true }

def retire (frame : Frame V) : Frame V := { frame with cells := .empty, retired := true }

end Frame

namespace FrameTree

variable {V : Type} {t : FrameTree V}

/-! ## A frame changed in place -/

def update (t : FrameTree V) (f : FrameId) (change : Frame V → Frame V) : FrameTree V :=
  ⟨t.frames.modify f change⟩

section update

variable {f : FrameId} (change : Frame V → Frame V)

theorem getElem?_update (i : Nat) :
    (t.update f change).frames[i]? = if f = i then t.frames[i]?.map change else t.frames[i]? :=
  Array.getElem?_modify

theorem getElem?_update_self :
    (t.update f change).frames[f]? = t.frames[f]?.map change := by
  rw [getElem?_update, if_pos rfl]

theorem getElem?_update_other {g : FrameId} (h : g ≠ f) :
    (t.update f change).frames[g]? = t.frames[g]? := by
  rw [getElem?_update, if_neg h.symm]

@[simp] theorem size_update : (t.update f change).size = t.size := Array.size_modify

theorem put_eq_update {frame : Frame V} (h : t.frames[f]? = some frame) :
    t.put f (change frame) = t.update f change := by
  have hframes : t.frames.setIfInBounds f (change frame) = t.frames.modify f change := by
    apply Array.ext_getElem?
    intro i
    rw [Array.getElem?_setIfInBounds, Array.getElem?_modify]
    by_cases hi : f = i
    · subst hi
      rw [if_pos rfl, if_pos rfl, if_pos (show f < t.frames.size from lt_of_frame h), h]
      rfl
    · rw [if_neg hi, if_neg hi]
  exact congrArg FrameTree.mk hframes

theorem parent?_update (hparent : ∀ frame, (change frame).parent = frame.parent) (g : FrameId) :
    (t.update f change).parent? g = t.parent? g := by
  by_cases hg : g = f
  · subst hg
    rw [parent?, parent?, getElem?_update_self, Option.bind_map]
    exact congrArg _ (funext hparent)
  · exact parent?_congr (getElem?_update_other change hg)

theorem isLive_update (hretired : ∀ frame, (change frame).retired = frame.retired)
    (g : FrameId) : (t.update f change).isLive g = t.isLive g := by
  by_cases hg : g = f
  · subst hg
    rw [isLive, isLive, getElem?_update_self]
    cases t.frames[g]? with
    | none => rfl
    | some frame => exact congrArg (! ·) (hretired frame)
  · exact isLive_congr (getElem?_update_other change hg)

theorem isCaptured_update (hcaptured : ∀ frame, (change frame).captured = frame.captured)
    (g : FrameId) : (t.update f change).isCaptured g = t.isCaptured g := by
  by_cases hg : g = f
  · subst hg
    rw [isCaptured, isCaptured, getElem?_update_self]
    cases t.frames[g]? with
    | none => rfl
    | some frame => exact hcaptured frame
  · exact isCaptured_congr (getElem?_update_other change hg)

theorem held_update (hcells : ∀ frame, (change frame).cells = frame.cells) (g : FrameId)
    (name : Symbol) : (t.update f change).held g name = t.held g name := by
  by_cases hg : g = f
  · subst hg
    rw [held, held, getElem?_update_self, Option.bind_map]
    exact congrArg _ (funext fun frame => congrArg (·.find? name) (hcells frame))
  · exact held_congr (getElem?_update_other change hg) name

variable (hparent : ∀ frame, (change frame).parent = frame.parent) (wf : t.WF)

include hparent wf

theorem WF.path_update (g : FrameId) : (t.update f change).path g = t.path g :=
  path_congr wf.parents_first fun g _ => parent?_update change hparent g

theorem WF.update (hretired : ∀ frame, (change frame).retired = frame.retired) :
    (t.update f change).WF where
  parents_first g p h := wf.parents_first (by rwa [parent?_update change hparent] at h)
  parent_of_ne_root {g} hg hne := by
    rw [size_update] at hg
    rw [parent?_update change hparent]
    exact wf.parent_of_ne_root hg hne
  root_live := by
    rw [isLive_update change hretired]
    exact wf.root_live
  parent_live {g p} hg h := by
    rw [isLive_update change hretired] at hg ⊢
    rw [parent?_update change hparent] at h
    exact wf.parent_live hg h
  newest_live := by
    rw [size_update, isLive_update change hretired]
    exact wf.newest_live

end update

@[simp] theorem isLive_store {f : FrameId} (name : Symbol) (cell : Cell V) (g : FrameId) :
    (t.update f (·.store name cell)).isLive g = t.isLive g :=
  isLive_update (·.store name cell) (fun _ => rfl) g

@[simp] theorem isCaptured_store {f : FrameId} (name : Symbol) (cell : Cell V) (g : FrameId) :
    (t.update f (·.store name cell)).isCaptured g = t.isCaptured g :=
  isCaptured_update (·.store name cell) (fun _ => rfl) g

@[simp] theorem isLive_keep {f : FrameId} (g : FrameId) :
    (t.update f Frame.keep).isLive g = t.isLive g :=
  isLive_update Frame.keep (fun _ => rfl) g

/-- A retired frame stops being live, and no other one does. -/
theorem isLive_retire {f g : FrameId} :
    (t.update f Frame.retire).isLive g = true ↔ t.isLive g = true ∧ g ≠ f := by
  by_cases hg : g = f
  · subst hg
    refine ⟨fun hlive => ?_, fun h => absurd rfl h.2⟩
    obtain ⟨frame, hframe, hretired⟩ := isLive_iff.1 hlive
    rw [getElem?_update_self, Option.map_eq_some_iff] at hframe
    obtain ⟨old, -, rfl⟩ := hframe
    cases hretired
  · rw [isLive_congr (getElem?_update_other _ hg)]
    exact (and_iff_left hg).symm

section cells

variable {f : FrameId} (hf : f < t.size)

include hf

theorem setCell_eq (name : Symbol) (cell : Cell V) :
    t.setCell f name cell = .ok (t.update f (·.store name cell)) := by
  obtain ⟨frame, hframe⟩ := frame_of_lt hf
  rw [setCell, frame_eq_ok_iff.2 hframe, ← put_eq_update _ hframe]
  rfl

/-- The written cell is read back in its frame, and every other cell is as it was. -/
theorem held_store (name : Symbol) (cell : Cell V) (g : FrameId) (m : Symbol) :
    (t.update f (·.store name cell)).held g m =
      if g = f ∧ m = name then some cell else t.held g m := by
  by_cases hg : g = f
  · subst hg
    obtain ⟨frame, hframe⟩ := frame_of_lt hf
    have hnew : (t.update g (·.store name cell)).frames[g]? = some (frame.store name cell) := by
      rw [getElem?_update_self, hframe]
      rfl
    rw [held_of_frame hnew, held_of_frame hframe, Frame.store, Assoc.find?_set]
    simp only [true_and]
  · rw [if_neg fun h => hg h.1]
    exact held_congr (getElem?_update_other _ hg) m

theorem isCaptured_keep (g : FrameId) :
    (t.update f Frame.keep).isCaptured g = if g = f then true else t.isCaptured g := by
  by_cases hg : g = f
  · subst hg
    obtain ⟨frame, hframe⟩ := frame_of_lt hf
    rw [if_pos rfl, isCaptured, getElem?_update_self, hframe]
    rfl
  · rw [if_neg hg]
    exact isCaptured_congr (getElem?_update_other _ hg)

theorem capture_eq : t.capture f = .ok (t.update f Frame.keep) := by
  obtain ⟨frame, hframe⟩ := frame_of_lt hf
  rw [capture, frame_eq_ok_iff.2 hframe, ← put_eq_update _ hframe]
  rfl

end cells

section write

variable {f : FrameId} (wf : t.WF) (hf : f < t.size)

include wf hf

/-- A write by name changes the nearest cell of the name, or nothing at all. -/
theorem write_eq (who : Occurrence Symbol) (value : V) :
    t.write f who value = match t.nearest f who.name with
      | some found => .ok (t.update found.1 (·.store who.name (.holds value)))
      | none => .error (.error ⟨.undeclared, who⟩) := by
  rw [write, locate_eq wf who.name hf]
  cases hfound : t.nearest f who.name with
  | none => rfl
  | some found =>
    have hlt := wf.lt_size_of_mem_path hf (held_of_nearest hfound).1
    simp only [Interruption.lift, bind, Except.bind, setCell_eq hlt]

theorem write_ne_fault (who : Occurrence Symbol) (value : V) (fault : Fault) :
    t.write f who value ≠ .error (.fault fault) := by
  rw [write_eq wf hf]
  rcases t.nearest f who.name with (_ | found) <;> nofun

theorem locateAt_eq_ok {distance : Nat} {who : Occurrence Symbol} {found : FrameId × Cell V}
    (h : t.locateAt f distance who = .ok found) :
    (t.path f)[distance]? = some found.1 ∧ t.held found.1 who.name = some found.2 := by
  rw [locateAt_eq wf hf] at h
  cases hg : (t.path f)[distance]? with
  | none =>
    rw [hg] at h
    cases h
  | some g =>
    simp only [hg] at h
    cases hcell : t.held g who.name with
    | none =>
      rw [hcell] at h
      cases h
    | some cell =>
      rw [hcell] at h
      cases h
      exact ⟨rfl, hcell⟩

/-- A write by distance changes the cell that the distance leads to, or ends in a fault. -/
theorem writeAt_eq (distance : Nat) (who : Occurrence Symbol) (value : V) :
    t.writeAt f distance who value = match t.locateAt f distance who with
      | .ok found => .ok (t.update found.1 (·.store who.name (.holds value)))
      | .error fault => .error fault := by
  rw [writeAt]
  cases hfound : t.locateAt f distance who with
  | error fault => rfl
  | ok found =>
    have hmem := List.mem_of_getElem? (locateAt_eq_ok wf hf hfound).1
    exact setCell_eq (wf.lt_size_of_mem_path hf hmem) _ _

end write

/-! ## A frame opened at the end -/

def grow (t : FrameTree V) (p : FrameId) : FrameTree V := ⟨t.frames.push (.new (some p))⟩

theorem extend_of_live {p : FrameId} (h : t.isLive p = true) :
    t.extend p = .ok (t.size, t.grow p) := by
  rw [extend, if_pos h]
  rfl

theorem extend_of_not_live {p : FrameId} (h : ¬ t.isLive p = true) :
    t.extend p = .error (.deadParent p t.size) := by
  rw [extend, if_neg h]

section grow

variable {p : FrameId}

@[simp] theorem size_grow : (t.grow p).size = t.size + 1 := Array.size_push _

theorem getElem?_grow_new : (t.grow p).frames[t.size]? = some (.new (some p)) :=
  Array.getElem?_push_size

theorem getElem?_grow_old {f : FrameId} (h : f < t.size) :
    (t.grow p).frames[f]? = t.frames[f]? := by
  rw [grow, Array.getElem?_push_lt h]
  exact (Array.getElem?_eq_getElem h).symm

theorem parent?_grow_new : (t.grow p).parent? t.size = some p := parent?_of_frame getElem?_grow_new

/-- A new frame holds nothing. -/
theorem held_grow (f : FrameId) (name : Symbol) : (t.grow p).held f name = t.held f name := by
  rw [held, held, grow, Array.getElem?_push]
  split
  · next hf =>
    rw [hf, Array.getElem?_eq_none (Nat.le_refl _)]
    rfl
  · rfl

theorem isLive_grow_new : (t.grow p).isLive t.size = true := isLive_of_frame getElem?_grow_new

theorem lt_or_eq_of_lt_grow {f : FrameId} (h : f < (t.grow p).size) : f < t.size ∨ f = t.size := by
  rw [size_grow] at h
  exact Nat.lt_succ_iff_lt_or_eq.1 h

theorem WF.path_grow_old (wf : t.WF) {f : FrameId} (hf : f < t.size) :
    (t.grow p).path f = t.path f :=
  path_congr wf.parents_first fun _ hg =>
    parent?_congr (getElem?_grow_old (Nat.lt_of_le_of_lt hg hf))

variable (wf : t.WF) (hlive : t.isLive p = true)

include wf hlive

theorem WF.grow : (t.grow p).WF where
  parents_first f q h := by
    rcases lt_or_eq_of_lt_grow (lt_of_parent? h) with hf | rfl
    · rw [parent?_congr (getElem?_grow_old hf)] at h
      exact wf.parents_first h
    · rw [parent?_grow_new] at h
      obtain rfl : p = q := Option.some.inj h
      exact lt_of_isLive hlive
  parent_of_ne_root {f} hf hne := by
    rcases lt_or_eq_of_lt_grow hf with hf | rfl
    · rw [parent?_congr (getElem?_grow_old hf)]
      exact wf.parent_of_ne_root hf hne
    · exact ⟨p, parent?_grow_new⟩
  root_live := (isLive_congr (getElem?_grow_old wf.size_pos)).trans wf.root_live
  parent_live {f q} hf h := by
    rcases lt_or_eq_of_lt_grow (lt_of_isLive hf) with hlt | rfl
    · rw [isLive_congr (getElem?_grow_old hlt)] at hf
      rw [parent?_congr (getElem?_grow_old hlt)] at h
      rw [isLive_congr (getElem?_grow_old (wf.parent_lt_size h))]
      exact wf.parent_live hf h
    · rw [parent?_grow_new] at h
      obtain rfl : p = q := Option.some.inj h
      rw [isLive_congr (getElem?_grow_old (lt_of_isLive hlive))]
      exact hlive
  newest_live := by
    rw [size_grow, Nat.add_sub_cancel]
    exact isLive_grow_new

theorem WF.path_grow_new : (t.grow p).path t.size = t.size :: t.path p := by
  rw [path_of_parent? (wf.grow hlive).parents_first parent?_grow_new,
    wf.path_grow_old (lt_of_isLive hlive)]

end grow

/-! ## The pass over the later frames -/

/-- The mark of a position whose frame is inside `parent`, read off the marks before it. -/
def nextMark (base : FrameId) (marks : Array Bool) : Option FrameId → Except Fault Bool
  | some p => if base ≤ p then slot marks (p - base) else .ok false
  | none => .ok false

theorem descendsLive_cons (base : FrameId) (marks : Array Bool) (frame : Frame V)
    (later : List (Frame V)) :
    descendsLive base marks (frame :: later) = match nextMark base marks frame.parent with
      | .ok below =>
        if below && !frame.retired then .ok true else descendsLive base (marks.push below) later
      | .error fault => .error fault := by
  rw [descendsLive]
  cases frame.parent with
  | none => rfl
  | some p =>
    by_cases hle : base ≤ p
    · simp only [nextMark, if_pos hle]
      cases slot marks (p - base) with
      | error fault => rfl
      | ok below => rfl
    · simp only [nextMark, if_neg hle]
      rfl

/-- The first of the frames from a position on is the one at that position. -/
theorem getElem?_of_cons_eq_drop {frame : Frame V} {later : List (Frame V)} {n : Nat}
    (h : frame :: later = t.frames.toList.drop n) :
    t.frames[n]? = some frame ∧ later = t.frames.toList.drop (n + 1) := by
  rw [← Array.getElem?_toList, ← List.head?_drop, ← List.tail_drop, ← h]
  exact ⟨rfl, rfl⟩

section descend

variable (wf : t.WF) (base : Nat)

include wf

theorem nextMark_eq {marks : Array Bool}
    (hmarks : ∀ i, i < marks.size → marks[i]? = some (decide (base ∈ t.path (base + i))))
    (hpos : 0 < marks.size) {frame : Frame V}
    (hframe : t.frames[base + marks.size]? = some frame) :
    nextMark base marks frame.parent = .ok (decide (base ∈ t.path (base + marks.size))) := by
  have hne : base ≠ base + marks.size := by omega
  have hparent := parent?_of_frame hframe
  cases hp : frame.parent with
  | none =>
    have hnot : base ∉ t.path (base + marks.size) := by
      rwa [path_of_parent?_eq_none (hparent.trans hp), List.mem_singleton]
    rw [decide_eq_false hnot]
    rfl
  | some p =>
    have hp' : t.parent? (base + marks.size) = some p := hparent.trans hp
    have hlt : p < base + marks.size := wf.parents_first hp'
    have hmem : base ∈ t.path (base + marks.size) ↔ base ∈ t.path p := by
      rw [path_of_parent? wf.parents_first hp', List.mem_cons]
      exact or_iff_right hne
    rw [decide_eq_decide.2 hmem, nextMark]
    by_cases hle : base ≤ p
    · have hi := hmarks (p - base) (Nat.sub_lt_left_of_lt_add hle hlt)
      rw [Nat.add_sub_cancel' hle] at hi
      rw [if_pos hle, slot_eq_ok_iff.2 hi]
    · have hnot : base ∉ t.path p := fun h => hle (le_of_mem_path wf.parents_first h)
      rw [if_neg hle, decide_eq_false hnot]

/-- The pass over the frames from a position on, given correct marks for the positions before it,
finds out whether one of these frames is live and descends from `base`. -/
theorem descendsLive_eq (later : List (Frame V)) (marks : Array Bool) (hpos : 0 < marks.size)
    (hmarks : ∀ i, i < marks.size → marks[i]? = some (decide (base ∈ t.path (base + i))))
    (hlater : later = t.frames.toList.drop (base + marks.size)) :
    ∃ b, descendsLive base marks later = .ok b ∧
      (b = true ↔ ∃ g : Nat, base + marks.size ≤ g ∧ t.isLive g = true ∧ base ∈ t.path g) := by
  induction later generalizing marks with
  | nil =>
    refine ⟨false, rfl, by simp, fun ⟨g, hg, hlive, _⟩ => ?_⟩
    have hsize : t.size ≤ base + marks.size := List.drop_eq_nil_iff.1 hlater.symm
    exact absurd (Nat.lt_of_lt_of_le (lt_of_isLive hlive) hsize) (Nat.not_lt.2 hg)
  | cons frame later ih =>
    obtain ⟨hframe, hrest⟩ := getElem?_of_cons_eq_drop hlater
    have hlive := isLive_of_frame hframe
    rw [descendsLive_cons, nextMark_eq wf base hmarks hpos hframe]
    by_cases hfound : base ∈ t.path (base + marks.size) ∧ frame.retired = false
    · refine ⟨true, ?_, fun _ => ⟨_, Nat.le_refl _, ?_, hfound.1⟩, fun _ => rfl⟩
      · simp only [decide_eq_true hfound.1, hfound.2]
        rfl
      · rw [hlive, hfound.2]
        rfl
    · simp only
      rw [if_neg (by simpa using hfound)]
      obtain ⟨b, hb, hiff⟩ := ih (marks.push (decide (base ∈ t.path (base + marks.size))))
        (by rw [Array.size_push]; omega)
        (by
          intro i hi
          rw [Array.size_push] at hi
          rcases Nat.lt_succ_iff_lt_or_eq.1 hi with hi | rfl
          · rw [Array.getElem?_push_lt hi, ← hmarks i hi, Array.getElem?_eq_getElem hi]
          · exact Array.getElem?_push_size)
        (by rw [Array.size_push]; exact hrest)
      rw [Array.size_push] at hiff
      refine ⟨b, hb, hiff.trans ⟨fun ⟨g, hg, h⟩ => ⟨g, by omega, h⟩, fun ⟨g, hg, h⟩ => ?_⟩⟩
      -- The frame at this position itself is not the one that was looked for.
      rcases Nat.eq_or_lt_of_le hg with rfl | hg
      · exact absurd ⟨h.2, by simpa [hlive] using h.1⟩ hfound
      · exact ⟨g, hg, h⟩

/-- The pass never leaves the marks, and is right about live descendants. -/
theorem hasLiveDescendant_eq :
    ∃ b, t.hasLiveDescendant base = .ok b ∧
      (b = true ↔ ∃ g, g ≠ base ∧ t.isLive g = true ∧ base ∈ t.path g) := by
  obtain ⟨b, hb, hiff⟩ := descendsLive_eq wf base (t.frames.toList.drop (base + 1)) #[true]
    Nat.one_pos
    (by
      intro i hi
      obtain rfl : i = 0 := Nat.lt_one_iff.1 hi
      rw [Nat.add_zero, decide_eq_true (mem_path_self t base)]
      rfl)
    rfl
  refine ⟨b, hb, hiff.trans ⟨fun ⟨g, hg, h⟩ => ⟨g, ?_, h⟩, fun ⟨g, hne, h⟩ => ⟨g, ?_, h⟩⟩⟩
  · exact Nat.ne_of_gt hg
  · have hle := le_of_mem_path wf.parents_first h.2
    exact Nat.lt_of_le_of_ne hle hne.symm

end descend

/-! ## Retired frames at the end -/

def cut (t : FrameTree V) (m : Nat) : FrameTree V := ⟨t.frames.extract 0 m⟩

theorem size_cut {m : Nat} (h : m ≤ t.size) : (t.cut m).size = m := by
  rw [cut, size, Array.size_extract, Nat.sub_zero]
  exact Nat.min_eq_left h

theorem getElem?_cut (m i : Nat) :
    (t.cut m).frames[i]? = if i < m then t.frames[i]? else none := by
  rw [cut, Array.getElem?_extract, Nat.zero_add, Nat.sub_zero]
  by_cases hi : i < t.frames.size
  · simp only [Nat.lt_min, hi, and_true]
  · simp [hi]

theorem getElem?_cut_of_lt {m : Nat} {g : FrameId} (hg : g < m) :
    (t.cut m).frames[g]? = t.frames[g]? := by
  rw [getElem?_cut, if_pos hg]

theorem back?_cut {m : Nat} (hpos : 0 < m) (h : m ≤ t.size) :
    (t.cut m).frames.back? = t.frames[m - 1]? := by
  have hsize : (t.cut m).frames.size = m := size_cut h
  rw [Array.back?_eq_getElem?, hsize]
  exact getElem?_cut_of_lt (Nat.sub_one_lt_of_lt hpos)

theorem pop_cut {m : Nat} (h : m ≤ t.size) : (t.cut m).frames.pop = (t.cut (m - 1)).frames := by
  have hsize : (t.cut m).frames.size = m := size_cut h
  rw [← Array.extract_eq_pop rfl, hsize]
  simp only [cut, Array.extract_extract, Nat.zero_add, Nat.min_eq_left (Nat.sub_le m 1)]

/-- Dropping the retired frames at the end cuts the tree behind a live frame. -/
theorem dropRetired_cut (hroot : t.isLive FrameId.root = true) {fuel m : Nat} (hpos : 0 < m)
    (hm : m ≤ t.size) (hfuel : m ≤ fuel) :
    ∃ k, 0 < k ∧ k ≤ m ∧ dropRetired fuel (t.cut m).frames = (t.cut k).frames ∧
      (∀ g : Nat, k ≤ g → g < m → t.isLive g = false) ∧ t.isLive (k - 1) = true := by
  induction fuel generalizing m with
  | zero => omega
  | succ fuel ih =>
    obtain ⟨frame, hframe⟩ := frame_of_lt (Nat.lt_of_lt_of_le (Nat.sub_one_lt_of_lt hpos) hm)
    have hlive := isLive_of_frame hframe
    rw [dropRetired, back?_cut hpos hm, hframe, pop_cut hm]
    cases hretired : frame.retired with
    | false =>
      refine ⟨m, hpos, Nat.le_refl _, ?_, fun g hg hlt => absurd hlt (Nat.not_lt.2 hg), ?_⟩
      · simp only [hretired]
        rfl
      · rw [hlive, hretired]
        rfl
    | true =>
      -- The root is live, so a retired frame at the end is not the only one.
      have hone : m ≠ 1 := by
        rintro rfl
        rw [show t.isLive (1 - 1) = t.isLive FrameId.root from rfl, hroot, hretired] at hlive
        cases hlive
      have hmore : 1 < (t.cut m).frames.size := by
        rw [show (t.cut m).frames.size = m from size_cut hm]
        omega
      obtain ⟨k, hk, hle, heq, hdead, hend⟩ := ih (by omega : 0 < m - 1) (by omega) (by omega)
      refine ⟨k, hk, by omega, ?_, fun g hg hlt => ?_, hend⟩
      · simp only [hretired, decide_eq_true hmore, Bool.and_self, if_true, heq]
      · rcases Nat.lt_or_ge g (m - 1) with h | h
        · exact hdead g hg h
        · obtain rfl : g = m - 1 := by omega
          rw [hlive, hretired]
          rfl

/-! ## A frame given back -/

/-- Somebody may still come back to a frame: it is the root, it is captured, or some other frame
inside it is live. -/
def Needed (t : FrameTree V) (f : FrameId) : Prop :=
  f = FrameId.root ∨ t.isCaptured f = true ∨ ∃ g, g ≠ f ∧ t.isLive g = true ∧ f ∈ t.path g

/-- What giving back frame `f` makes of a tree: every frame that is live afterwards is the frame
that was at its position before, and only `f` can have stopped being live. A retired frame is one
from before, or `f` without its cells. -/
structure Released (t : FrameTree V) (f : FrameId) (u : FrameTree V) : Prop where
  size_le : u.size ≤ t.size
  parent?_eq : ∀ {g}, g < u.size → u.parent? g = t.parent? g
  live_iff : ∀ {g}, u.isLive g = true ↔ t.isLive g = true ∧ (g = f → t.Needed f)
  frame_eq : ∀ {g}, u.isLive g = true → u.frames[g]? = t.frames[g]?
  retired : ∀ {g frame}, u.frames[g]? = some frame → frame.retired = true →
    t.frames[g]? = some frame ∨ g = f ∧ frame.cells = .empty ∧ frame.captured = false
  newest_live : u.isLive (u.size - 1) = true

section release

variable {f : FrameId} (wf : t.WF)

include wf

theorem release_of_needed (hf : f < t.size) (h : t.Needed f) : t.release f = .ok (false, t) := by
  obtain ⟨frame, hframe⟩ := frame_of_lt hf
  unfold release
  by_cases hroot : f = FrameId.root
  · rw [if_pos hroot]
  · rw [if_neg hroot, frame_eq_ok_iff.2 hframe]
    simp only [bind, Except.bind, pure, Except.pure]
    by_cases hcaptured : frame.captured = true
    · rw [if_pos hcaptured]
    · obtain ⟨g, hne, hlive, hmem⟩ : ∃ g, g ≠ f ∧ t.isLive g = true ∧ f ∈ t.path g := by
        rcases h with h | h | h
        · exact absurd h hroot
        · exact absurd (isCaptured_of_frame hframe ▸ h) hcaptured
        · exact h
      have hlt : f < g := Nat.lt_of_le_of_ne (le_of_mem_path wf.parents_first hmem) hne.symm
      have hnewest : f + 1 ≠ t.size :=
        Nat.ne_of_lt (Nat.lt_of_le_of_lt hlt (lt_of_isLive hlive))
      obtain ⟨b, hb, hiff⟩ := hasLiveDescendant_eq wf f
      rw [if_neg hcaptured, if_neg hnewest, hb, hiff.2 ⟨g, hne, hlive, hmem⟩]
      rfl

/-- A frame that is not needed and not the newest loses its cells and keeps its slot. -/
theorem release_of_older {frame : Frame V} (hframe : t.frames[f]? = some frame)
    (h : ¬ t.Needed f) (hnewest : f + 1 ≠ t.size) :
    t.release f = .ok (false, t.update f Frame.retire) := by
  unfold release
  have hcaptured : ¬ frame.captured = true := fun hc =>
    h (.inr (.inl ((isCaptured_of_frame hframe).trans hc)))
  obtain ⟨b, hb, hiff⟩ := hasLiveDescendant_eq wf f
  have hnone : b = false := by
    cases b with
    | false => rfl
    | true => exact absurd (.inr (.inr (hiff.1 rfl))) h
  rw [if_neg fun hroot => h (.inl hroot), frame_eq_ok_iff.2 hframe]
  simp only [bind, Except.bind, pure, Except.pure]
  rw [if_neg hcaptured, if_neg hnewest, hb, hnone, ← put_eq_update _ hframe]
  rfl

/-- The newest frame, if it is not needed, goes at once, with the retired frames below it. -/
theorem release_of_newest (hnewest : f + 1 = t.size) (h : ¬ t.Needed f) :
    ∃ m, 0 < m ∧ m ≤ f ∧ t.release f = .ok (true, t.cut m) ∧
      (∀ g : Nat, m ≤ g → g < f → t.isLive g = false) ∧ t.isLive (m - 1) = true := by
  have hf : f < t.size := hnewest ▸ Nat.lt_succ_self f
  have hroot : ¬ f = FrameId.root := fun hroot => h (.inl hroot)
  obtain ⟨frame, hframe⟩ := frame_of_lt hf
  have hcaptured : ¬ frame.captured = true := fun hc =>
    h (.inr (.inl ((isCaptured_of_frame hframe).trans hc)))
  have hpop : t.frames.pop = (t.cut f).frames :=
    (Array.extract_eq_pop (Nat.eq_sub_of_add_eq hnewest)).symm
  obtain ⟨m, hm, hle, heq, hdead, hend⟩ :=
    dropRetired_cut wf.root_live (Nat.pos_of_ne_zero hroot) (Nat.le_of_lt hf) (Nat.le_of_lt hf)
  refine ⟨m, hm, hle, ?_, hdead, hend⟩
  unfold release
  rw [if_neg hroot, frame_eq_ok_iff.2 hframe]
  simp only [bind, Except.bind, pure, Except.pure]
  rw [if_neg hcaptured, if_pos hnewest, hpop, heq]

omit wf in
theorem released_of_needed (wf : t.WF) (h : t.Needed f) : Released t f t where
  size_le := Nat.le_refl _
  parent?_eq _ := rfl
  live_iff := ⟨fun hg => ⟨hg, fun _ => h⟩, And.left⟩
  frame_eq _ := rfl
  retired hg _ := .inl hg
  newest_live := wf.newest_live

theorem released_retire (h : ¬ t.Needed f) (hnewest : f + 1 ≠ t.size) :
    Released t f (t.update f Frame.retire) := by
  refine ⟨Nat.le_of_eq (size_update _), fun _ => parent?_update Frame.retire (fun _ => rfl) _,
    ?_, ?_, ?_, ?_⟩
  · intro g
    rw [isLive_retire]
    exact and_congr_right fun _ =>
      ⟨fun hne heq => absurd heq hne, fun hneeded heq => h (hneeded heq)⟩
  · intro g hg
    exact getElem?_update_other _ (isLive_retire.1 hg).2
  · intro g frame hg hretired
    by_cases hne : g = f
    · subst hne
      rw [getElem?_update_self, Option.map_eq_some_iff] at hg
      obtain ⟨old, hold, rfl⟩ := hg
      refine .inr ⟨rfl, rfl, ?_⟩
      cases hc : old.captured with
      | false => exact hc
      | true => exact absurd (.inr (.inl ((isCaptured_of_frame hold).trans hc))) h
    · rw [getElem?_update_other _ hne] at hg
      exact .inl hg
  · have hne : t.size - 1 ≠ f := fun heq =>
      hnewest (heq ▸ Nat.sub_add_cancel wf.size_pos)
    rw [size_update, isLive_retire]
    exact ⟨wf.newest_live, hne⟩

omit wf in
theorem released_cut {m : Nat} (hnewest : f + 1 = t.size) (h : ¬ t.Needed f) (hm : 0 < m)
    (hle : m ≤ f) (hdead : ∀ g : Nat, m ≤ g → g < f → t.isLive g = false)
    (hend : t.isLive (m - 1) = true) : Released t f (t.cut m) := by
  have hle' : m ≤ t.size := Nat.le_trans (Nat.le_succ_of_le hle) (Nat.le_of_eq hnewest)
  have hsize := size_cut hle'
  have hold : ∀ {g}, g < m → (t.cut m).frames[g]? = t.frames[g]? :=
    getElem?_cut_of_lt
  have hlt : ∀ {g}, (t.cut m).isLive g = true → g < m := fun hg => hsize ▸ lt_of_isLive hg
  refine ⟨by rwa [hsize], fun hg => parent?_congr (hold (hsize ▸ hg)), ?_,
    fun hg => hold (hlt hg), ?_, ?_⟩
  · intro g
    constructor
    · intro hg
      have hgm := hlt hg
      rw [isLive_congr (hold hgm)] at hg
      exact ⟨hg, fun heq => absurd (heq ▸ hgm) (Nat.not_lt.2 hle)⟩
    · rintro ⟨hg, hneeded⟩
      -- A live position is not `f`, which is not needed, and not between `m` and `f`.
      have hne : g ≠ f := fun heq => h (hneeded heq)
      have hgf : g < f := by
        have hlt := lt_of_isLive hg
        rw [← hnewest] at hlt
        exact Nat.lt_of_le_of_ne (Nat.le_of_lt_succ hlt) hne
      have hgm : g < m := by
        rcases Nat.lt_or_ge g m with hgm | hgm
        · exact hgm
        · rw [hdead g hgm hgf] at hg
          cases hg
      rwa [isLive_congr (hold hgm)]
  · intro g frame hg _
    rw [← hold (hsize ▸ lt_of_frame hg)]
    exact .inl hg
  · rw [hsize, isLive_congr (hold (Nat.sub_one_lt_of_lt hm))]
    exact hend

theorem WF.release (hf : f < t.size) :
    ∃ freed u, t.release f = .ok (freed, u) ∧ Released t f u := by
  by_cases h : t.Needed f
  · exact ⟨false, t, release_of_needed wf hf h, released_of_needed wf h⟩
  · by_cases hnewest : f + 1 = t.size
    · obtain ⟨m, hm, hle, heq, hdead, hend⟩ := release_of_newest wf hnewest h
      exact ⟨true, t.cut m, heq, released_cut hnewest h hm hle hdead hend⟩
    · obtain ⟨frame, hframe⟩ := frame_of_lt hf
      exact ⟨false, _, release_of_older wf hframe h hnewest, released_retire wf h hnewest⟩

end release

namespace Released

variable {f : FrameId} {u : FrameTree V} (h : Released t f u)

include h

theorem live_of_live {g : FrameId} (hg : u.isLive g = true) : t.isLive g = true :=
  (h.live_iff.1 hg).1

theorem live_of_ne {g : FrameId} (hg : t.isLive g = true) (hne : g ≠ f) : u.isLive g = true :=
  h.live_iff.2 ⟨hg, fun heq => absurd heq hne⟩

theorem path_eq (wf : t.WF) {g : FrameId} (hg : g < u.size) : u.path g = t.path g :=
  path_congr wf.parents_first fun _ hle => h.parent?_eq (Nat.lt_of_le_of_lt hle hg)

theorem frame_eq_of_ne {g : FrameId} (hg : g < u.size) (hne : g ≠ f) :
    u.frames[g]? = t.frames[g]? := by
  obtain ⟨frame, hframe⟩ := frame_of_lt hg
  cases hretired : frame.retired with
  | false => exact h.frame_eq (isLive_iff.2 ⟨frame, hframe, hretired⟩)
  | true =>
    rcases h.retired hframe hretired with hold | ⟨heq, -⟩
    · exact hframe.trans hold.symm
    · exact absurd heq hne

/-- Nothing is held that was not held before. -/
theorem held_of_held {g : FrameId} {name : Symbol} {cell : Cell V}
    (hheld : u.held g name = some cell) : t.held g name = some cell := by
  obtain ⟨frame, hframe, hcell⟩ := Option.bind_eq_some_iff.1 hheld
  cases hretired : frame.retired with
  | false =>
    rw [← held_congr (h.frame_eq (isLive_iff.2 ⟨frame, hframe, hretired⟩))]
    exact hheld
  | true =>
    rcases h.retired hframe hretired with hold | ⟨-, hempty, -⟩
    · rw [held_of_frame hold]
      exact hcell
    · rw [hempty] at hcell
      cases hcell

/-- The newest frame goes alone if the slot before it is live. -/
theorem size_of_newest (hnewest : f + 1 = t.size) (hneeded : ¬ t.Needed f) (hpos : 0 < f)
    (hbefore : t.isLive (f - 1) = true) : u.size = f := by
  have hpred := Nat.sub_one_lt_of_lt hpos
  have hge := lt_of_isLive (h.live_of_ne hbefore (Nat.ne_of_lt hpred))
  have hle : u.size ≤ f + 1 := hnewest ▸ h.size_le
  have hne : u.size ≠ f + 1 := fun heq => by
    have hlive := h.newest_live
    rw [heq, Nat.add_sub_cancel] at hlive
    exact hneeded ((h.live_iff.1 hlive).2 rfl)
  exact Nat.le_antisymm (Nat.le_of_lt_succ (Nat.lt_of_le_of_ne hle hne)) (Nat.le_of_pred_lt hge)

/-- The invariant survives: a frame around a live one is needed by it. -/
theorem wf (wf : t.WF) : u.WF where
  parents_first g p hp := by
    rw [h.parent?_eq (lt_of_parent? hp)] at hp
    exact wf.parents_first hp
  parent_of_ne_root {g} hg hne := by
    rw [h.parent?_eq hg]
    exact wf.parent_of_ne_root (Nat.lt_of_lt_of_le hg h.size_le) hne
  root_live := h.live_iff.2 ⟨wf.root_live, fun hroot => .inl hroot.symm⟩
  parent_live {g p} hg hp := by
    rw [h.parent?_eq (lt_of_isLive hg)] at hp
    have hlive := h.live_of_live hg
    refine h.live_iff.2 ⟨wf.parent_live hlive hp, fun heq => .inr (.inr ⟨g, ?_, hlive, ?_⟩)⟩
    · exact heq ▸ (Nat.ne_of_lt (wf.parents_first hp)).symm
    · rw [path_of_parent? wf.parents_first hp, ← heq]
      exact List.mem_cons_of_mem g (mem_path_self t p)
  newest_live := h.newest_live

end Released

end FrameTree

end Scoping
