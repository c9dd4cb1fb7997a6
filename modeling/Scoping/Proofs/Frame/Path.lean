import Scoping.Frame.Access

/-!
# Paths through a tree of scopes

The path of a frame lists the frame itself and the frames around it, outward to the root. Because
parents stand before their children, the links followed by `depth`, `ancestor` and `locate` are
exactly those of the path, and none of these walks runs out of fuel: the depth is the length of the
path (`depth_eq`), the frame at a distance is the entry of the path at that place (`ancestor_eq`),
and the frame found by name is the first entry that has the name (`locate_eq`).

`WF` is the representation invariant that these walks rely on; that every operation keeps it is
proved in `Proofs.Frame.Reclaim`.
-/

namespace Scoping.FrameTree

variable {V : Type}

/-! ## What is stored at a position -/

/-- The frame around a frame, if there is one. -/
def parent? (t : FrameTree V) (f : FrameId) : Option FrameId := t.frames[f]?.bind (·.parent)

def held (t : FrameTree V) (f : FrameId) (name : Symbol) : Option (Cell V) :=
  t.frames[f]?.bind (·.cells.find? name)

/-- Whether a position is that of a captured frame. -/
def isCaptured (t : FrameTree V) (f : FrameId) : Bool :=
  match t.frames[f]? with
  | some frame => frame.captured
  | none => false

theorem frame_eq_ok_iff {t : FrameTree V} {f : FrameId} {frame : Frame V} :
    t.frame f = .ok frame ↔ t.frames[f]? = some frame :=
  slot_eq_ok_iff

theorem frame_of_lt {t : FrameTree V} {f : FrameId} (h : f < t.size) :
    ∃ frame, t.frames[f]? = some frame :=
  ⟨_, Array.getElem?_eq_getElem h⟩

theorem lt_of_frame {t : FrameTree V} {f : FrameId} {frame : Frame V}
    (h : t.frames[f]? = some frame) : f < t.size :=
  (Array.getElem?_eq_some_iff.1 h).1

theorem parent?_of_frame {t : FrameTree V} {f : FrameId} {frame : Frame V}
    (h : t.frames[f]? = some frame) : t.parent? f = frame.parent := by
  rw [parent?, h]
  rfl

theorem held_of_frame {t : FrameTree V} {f : FrameId} {frame : Frame V}
    (h : t.frames[f]? = some frame) (name : Symbol) : t.held f name = frame.cells.find? name := by
  rw [held, h]
  rfl

theorem lt_of_held {t : FrameTree V} {f : FrameId} {name : Symbol} {cell : Cell V}
    (h : t.held f name = some cell) : f < t.size := by
  obtain ⟨frame, hframe, -⟩ := Option.bind_eq_some_iff.1 h
  exact lt_of_frame hframe

theorem held_of_le {t : FrameTree V} {f : FrameId} (h : t.size ≤ f) (name : Symbol) :
    t.held f name = none :=
  Option.eq_none_iff_forall_ne_some.2 fun _ hheld => absurd (lt_of_held hheld) (Nat.not_lt.2 h)

theorem lt_of_parent? {t : FrameTree V} {f p : FrameId} (h : t.parent? f = some p) :
    f < t.size := by
  obtain ⟨frame, hframe, -⟩ := Option.bind_eq_some_iff.1 h
  exact lt_of_frame hframe

theorem isLive_iff {t : FrameTree V} {f : FrameId} :
    t.isLive f = true ↔ ∃ frame, t.frames[f]? = some frame ∧ frame.retired = false := by
  unfold isLive
  cases t.frames[f]? with
  | none => simp
  | some frame => simp

theorem isLive_of_frame {t : FrameTree V} {f : FrameId} {frame : Frame V}
    (h : t.frames[f]? = some frame) : t.isLive f = !frame.retired := by
  rw [isLive, h]

theorem lt_of_isLive {t : FrameTree V} {f : FrameId} (h : t.isLive f = true) : f < t.size := by
  obtain ⟨frame, hframe, -⟩ := isLive_iff.1 h
  exact lt_of_frame hframe

theorem isLive_congr {t u : FrameTree V} {f : FrameId} (h : t.frames[f]? = u.frames[f]?) :
    t.isLive f = u.isLive f := by
  rw [isLive, isLive, h]

theorem isCaptured_of_frame {t : FrameTree V} {f : FrameId} {frame : Frame V}
    (h : t.frames[f]? = some frame) : t.isCaptured f = frame.captured := by
  rw [isCaptured, h]

theorem lt_of_isCaptured {t : FrameTree V} {f : FrameId} (h : t.isCaptured f = true) :
    f < t.size := by
  rcases Nat.lt_or_ge f t.size with hlt | hge
  · exact hlt
  · rw [isCaptured, Array.getElem?_eq_none hge] at h
    cases h

theorem isCaptured_congr {t u : FrameTree V} {f : FrameId} (h : t.frames[f]? = u.frames[f]?) :
    t.isCaptured f = u.isCaptured f := by
  rw [isCaptured, isCaptured, h]

theorem parent?_congr {t u : FrameTree V} {f : FrameId} (h : t.frames[f]? = u.frames[f]?) :
    t.parent? f = u.parent? f := by
  rw [parent?, parent?, h]

theorem held_congr {t u : FrameTree V} {f : FrameId} (h : t.frames[f]? = u.frames[f]?)
    (name : Symbol) : t.held f name = u.held f name := by
  rw [held, held, h]

/-! ## Paths -/

def pathWithin (t : FrameTree V) : Nat → FrameId → List FrameId
  | 0, _ => []
  | fuel + 1, f =>
    f :: match t.parent? f with
      | none => []
      | some p => t.pathWithin fuel p

/-- A frame and the frames around it, the innermost first. -/
def path (t : FrameTree V) (f : FrameId) : List FrameId := t.pathWithin (f + 1) f

/-- Every frame stands after the frame around it. -/
def ParentsFirst (t : FrameTree V) : Prop := ∀ ⦃f p : Nat⦄, t.parent? f = some p → p < f

section path

variable {t : FrameTree V}

theorem path_of_parent?_eq_none {f : FrameId} (h : t.parent? f = none) : t.path f = [f] := by
  rw [path, pathWithin, h]

theorem head_path (t : FrameTree V) (f : FrameId) : ∃ rest, t.path f = f :: rest := ⟨_, rfl⟩

theorem mem_path_self (t : FrameTree V) (f : FrameId) : f ∈ t.path f := List.mem_cons_self

/-- Fuel beyond the position of the first frame changes nothing. -/
theorem pathWithin_eq_path (hp : t.ParentsFirst) {fuel : Nat} {f : FrameId} (h : f < fuel) :
    t.pathWithin fuel f = t.path f := by
  suffices ∀ n m g, g < n → g < m → t.pathWithin n g = t.pathWithin m g from
    this fuel (f + 1) f h (Nat.lt_succ_self f)
  intro n
  induction n with
  | zero => intro m g hn _; omega
  | succ n ih =>
    intro m g hn hm
    obtain ⟨m, rfl⟩ : ∃ k, m = k + 1 := ⟨m - 1, by omega⟩
    rw [pathWithin, pathWithin]
    cases hg : t.parent? g with
    | none => rfl
    | some p =>
      have hlt := hp hg
      exact congrArg _ (ih m p (by omega) (by omega))

theorem path_of_parent? (hp : t.ParentsFirst) {f p : FrameId} (h : t.parent? f = some p) :
    t.path f = f :: t.path p := by
  rw [path, pathWithin, h]
  exact congrArg _ (pathWithin_eq_path hp (hp h))

/-- Induction along the links: a frame comes after the frame around it. -/
theorem parent_induction (hp : t.ParentsFirst) {P : FrameId → Prop}
    (root : ∀ f, t.parent? f = none → P f) (inner : ∀ f p, t.parent? f = some p → P p → P f)
    (f : FrameId) : P f := by
  induction f using Nat.strongRecOn with
  | ind f ih =>
    cases h : t.parent? f with
    | none => exact root f h
    | some p => exact inner f p h (ih p (hp h))

theorem le_of_mem_path (hp : t.ParentsFirst) {f g : FrameId} (h : g ∈ t.path f) : g ≤ f := by
  induction f using parent_induction hp with
  | root f hf =>
    rw [path_of_parent?_eq_none hf, List.mem_singleton] at h
    exact Nat.le_of_eq h
  | inner f p hf ih =>
    rw [path_of_parent? hp hf] at h
    rcases List.mem_cons.1 h with rfl | h
    · exact Nat.le_refl _
    · exact Nat.le_trans (ih h) (Nat.le_of_lt (hp hf))

/-- The path of a frame on a path is the rest of that path. -/
theorem path_suffix (hp : t.ParentsFirst) {f g : FrameId} (h : g ∈ t.path f) :
    t.path g <:+ t.path f := by
  induction f using parent_induction hp with
  | root f hf =>
    rw [path_of_parent?_eq_none hf, List.mem_singleton] at h
    subst h
    exact List.suffix_refl _
  | inner f p hf ih =>
    have hpath := path_of_parent? hp hf
    rw [hpath] at h
    rcases List.mem_cons.1 h with rfl | h
    · exact List.suffix_refl _
    · rw [hpath]
      exact (ih h).trans (List.suffix_cons f _)

theorem mem_path_trans (hp : t.ParentsFirst) {f g h : FrameId} (hg : g ∈ t.path f)
    (hh : h ∈ t.path g) : h ∈ t.path f :=
  (path_suffix hp hg).subset hh

/-- No frame is met twice. -/
theorem nodup_path (hp : t.ParentsFirst) (f : FrameId) : (t.path f).Nodup := by
  induction f using parent_induction hp with
  | root f hf =>
    rw [path_of_parent?_eq_none hf]
    exact List.pairwise_singleton _ f
  | inner f p hf ih =>
    rw [path_of_parent? hp hf, List.nodup_cons]
    exact ⟨fun hmem => Nat.not_le.2 (hp hf) (le_of_mem_path hp hmem), ih⟩

/-- A path is determined by the links at the positions up to its first frame. -/
theorem path_congr {u : FrameTree V} (hp : t.ParentsFirst) {f : FrameId}
    (h : ∀ g ≤ f, u.parent? g = t.parent? g) : u.path f = t.path f := by
  suffices ∀ n g, g ≤ f → u.pathWithin n g = t.pathWithin n g from
    this (f + 1) f (Nat.le_refl f)
  intro n
  induction n with
  | zero => intro g _; rfl
  | succ n ih =>
    intro g hg
    rw [pathWithin, pathWithin, h g hg]
    cases hgp : t.parent? g with
    | none => rfl
    | some p =>
      exact congrArg _ (ih p (Nat.le_trans (Nat.le_of_lt (hp hgp)) hg))

end path

/-! ## The representation invariant -/

/-- A well-formed tree: the root is there and is never retired, every other frame has a parent that
stands before it, a live frame is only inside live frames, and the newest frame is live. -/
structure WF (t : FrameTree V) : Prop where
  parents_first : t.ParentsFirst
  parent_of_ne_root : ∀ {f}, f < t.size → f ≠ FrameId.root → ∃ p, t.parent? f = some p
  root_live : t.isLive FrameId.root = true
  parent_live : ∀ {f p}, t.isLive f = true → t.parent? f = some p → t.isLive p = true
  newest_live : t.isLive (t.size - 1) = true

namespace WF

variable {t : FrameTree V}

theorem size_pos (wf : t.WF) : 0 < t.size := lt_of_isLive wf.root_live

theorem parent?_root (wf : t.WF) : t.parent? FrameId.root = none := by
  cases h : t.parent? FrameId.root with
  | none => rfl
  | some p => exact absurd (wf.parents_first h) (Nat.not_lt_zero p)

theorem parent_lt_size (wf : t.WF) {f p : FrameId} (h : t.parent? f = some p) : p < t.size :=
  Nat.lt_trans (wf.parents_first h) (lt_of_parent? h)

theorem live_of_mem_path (wf : t.WF) {f g : FrameId} (hf : t.isLive f = true)
    (h : g ∈ t.path f) : t.isLive g = true := by
  induction f using parent_induction wf.parents_first with
  | root f hroot =>
    rw [path_of_parent?_eq_none hroot, List.mem_singleton] at h
    rwa [h]
  | inner f p hp ih =>
    rw [path_of_parent? wf.parents_first hp] at h
    rcases List.mem_cons.1 h with rfl | h
    · exact hf
    · exact ih (wf.parent_live hf hp) h

theorem lt_size_of_mem_path (wf : t.WF) {f g : FrameId} (hf : f < t.size)
    (h : g ∈ t.path f) : g < t.size :=
  Nat.lt_of_le_of_lt (le_of_mem_path wf.parents_first h) hf

end WF

theorem wf_new : (new : FrameTree V).WF where
  parents_first f p h := by
    have hf : f < new.size := lt_of_parent? h
    obtain rfl : f = 0 := Nat.lt_one_iff.1 hf
    cases h
  parent_of_ne_root {f} hf hne := absurd (Nat.lt_one_iff.1 hf) hne
  root_live := rfl
  parent_live {f p} _ h := by
    have hf : f < new.size := lt_of_parent? h
    obtain rfl : f = 0 := Nat.lt_one_iff.1 hf
    cases h
  newest_live := rfl

/-! ## Walks along a path -/

/-- The nearest frame from `f` outward that has a name, with its cell. -/
def nearest (t : FrameTree V) (f : FrameId) (name : Symbol) : Option (FrameId × Cell V) :=
  (t.path f).findSome? fun g => (t.held g name).map (g, ·)

theorem cell?_eq {t : FrameTree V} {f : FrameId} (hf : f < t.size) (name : Symbol) :
    t.cell? f name = .ok (t.held f name) := by
  obtain ⟨frame, hframe⟩ := frame_of_lt hf
  rw [cell?, frame_eq_ok_iff.2 hframe, held_of_frame hframe]
  rfl

section walk

variable {t : FrameTree V} (wf : t.WF)

include wf

theorem depthWithin_eq {fuel : Nat} {f : FrameId} (hf : f < t.size) (h : f < fuel) :
    t.depthWithin fuel f = .ok (t.path f).tail.length := by
  induction fuel generalizing f with
  | zero => exact absurd h (Nat.not_lt_zero f)
  | succ fuel ih =>
    obtain ⟨frame, hframe⟩ := frame_of_lt hf
    have hparent := parent?_of_frame hframe
    rw [depthWithin, frame_eq_ok_iff.2 hframe]
    cases hp : frame.parent with
    | none =>
      rw [path_of_parent?_eq_none (hparent.trans hp)]
      simp only [bind, Except.bind, hp]
      rfl
    | some p =>
      have hfp : t.parent? f = some p := hparent.trans hp
      have hlt : p < f := wf.parents_first hfp
      have hrec := ih (wf.parent_lt_size hfp) (Nat.lt_of_lt_of_le hlt (Nat.lt_succ_iff.1 h))
      rw [path_of_parent? wf.parents_first hfp]
      simp only [bind, Except.bind, hp, hrec]
      rfl

theorem depth_eq {f : FrameId} (hf : f < t.size) :
    t.depth f = .ok (t.path f).tail.length :=
  depthWithin_eq wf hf (Nat.lt_succ_self f)

theorem ancestorFrom_eq (start : FrameId) (distance left hops : Nat) {f : FrameId}
    (hf : f < t.size) :
    t.ancestorFrom start distance left hops f = match (t.path f)[left]? with
      | some g => .ok g
      | none => .error (.pastRoot distance start (hops + (t.path f).tail.length)) := by
  induction left generalizing f hops with
  | zero => rfl
  | succ left ih =>
    obtain ⟨frame, hframe⟩ := frame_of_lt hf
    have hparent := parent?_of_frame hframe
    rw [ancestorFrom, frame_eq_ok_iff.2 hframe]
    cases hp : frame.parent with
    | none =>
      rw [path_of_parent?_eq_none (hparent.trans hp)]
      simp only [bind, Except.bind, hp]
      rfl
    | some p =>
      have hfp : t.parent? f = some p := hparent.trans hp
      obtain ⟨rest, hrest⟩ := head_path t p
      rw [path_of_parent? wf.parents_first hfp]
      simp only [bind, Except.bind, hp, ih (hops + 1) (wf.parent_lt_size hfp),
        List.getElem?_cons_succ, List.tail_cons]
      rw [hrest, List.tail_cons, List.length_cons, Nat.add_assoc, Nat.add_comm 1]

/-- The frame at a distance is the entry of the path at that place; a distance past the end of the
path is a fault that counts all links of the path. -/
theorem ancestor_eq {f : FrameId} (hf : f < t.size) (distance : Nat) :
    t.ancestor f distance = match (t.path f)[distance]? with
      | some g => .ok g
      | none => .error (.pastRoot distance f (t.path f).tail.length) := by
  rw [ancestor, ancestorFrom_eq wf f distance distance 0 hf, Nat.zero_add]

theorem locateWithin_eq (name : Symbol) {fuel : Nat} {f : FrameId} (hf : f < t.size)
    (h : f < fuel) : t.locateWithin name fuel f = .ok (t.nearest f name) := by
  induction fuel generalizing f with
  | zero => exact absurd h (Nat.not_lt_zero f)
  | succ fuel ih =>
    obtain ⟨frame, hframe⟩ := frame_of_lt hf
    have hparent := parent?_of_frame hframe
    have hheld := held_of_frame hframe name
    rw [locateWithin, frame_eq_ok_iff.2 hframe]
    cases hcell : frame.cells.find? name with
    | some cell =>
      obtain ⟨rest, hrest⟩ := head_path t f
      rw [nearest, hrest, List.findSome?_cons, hheld, hcell]
      simp only [bind, Except.bind, hcell]
      rfl
    | none =>
      cases hp : frame.parent with
      | none =>
        rw [nearest, path_of_parent?_eq_none (hparent.trans hp), List.findSome?_cons, hheld, hcell]
        simp only [bind, Except.bind, hcell, hp]
        rfl
      | some p =>
        have hfp : t.parent? f = some p := hparent.trans hp
        have hlt : p < f := wf.parents_first hfp
        have hrec := ih (wf.parent_lt_size hfp) (Nat.lt_of_lt_of_le hlt (Nat.lt_succ_iff.1 h))
        rw [nearest, path_of_parent? wf.parents_first hfp, List.findSome?_cons, hheld, hcell]
        simp only [bind, Except.bind, hcell, hp, hrec]
        rfl

/-- A search by name always ends, and finds the first frame of the path that has the name. -/
theorem locate_eq (name : Symbol) {f : FrameId} (hf : f < t.size) :
    t.locate f name = .ok (t.nearest f name) :=
  locateWithin_eq wf name hf (Nat.lt_succ_self f)

theorem locateAt_eq {f : FrameId} (hf : f < t.size) (distance : Nat) (who : Occurrence Symbol) :
    t.locateAt f distance who = match (t.path f)[distance]? with
      | none => .error (.pastRoot distance f (t.path f).tail.length)
      | some g => match t.held g who.name with
        | some cell => .ok (g, cell)
        | none => .error (.notDeclared who g distance) := by
  rw [locateAt, ancestor_eq wf hf]
  cases hg : (t.path f)[distance]? with
  | none => rfl
  | some g =>
    have hlt := wf.lt_size_of_mem_path hf (List.mem_of_getElem? hg)
    simp only [bind, Except.bind, cell?_eq hlt]
    cases t.held g who.name with
    | none => rfl
    | some cell => rfl

theorem read_eq {f : FrameId} (hf : f < t.size) (who : Occurrence Symbol) :
    t.read f who = match t.nearest f who.name with
      | some found => found.2.read who
      | none => .error (.error ⟨.undeclared, who⟩) := by
  rw [read, locate_eq wf who.name hf]
  cases t.nearest f who.name with
  | none => rfl
  | some found => rfl

theorem read_ne_fault {f : FrameId} (hf : f < t.size) (who : Occurrence Symbol) (fault : Fault) :
    t.read f who ≠ .error (.fault fault) := by
  rw [read_eq wf hf]
  rcases t.nearest f who.name with (_ | ⟨g, cell⟩)
  · nofun
  · cases cell <;> nofun

end walk

/-- What the nearest cell of a name is: it is the cell that its frame has for the name. -/
theorem held_of_nearest {t : FrameTree V} {f g : FrameId} {name : Symbol} {cell : Cell V}
    (h : t.nearest f name = some (g, cell)) : g ∈ t.path f ∧ t.held g name = some cell := by
  obtain ⟨g', hmem, hg'⟩ := List.exists_of_findSome?_eq_some h
  obtain ⟨cell', hcell, heq⟩ := Option.map_eq_some_iff.1 hg'
  cases heq
  exact ⟨hmem, hcell⟩

end Scoping.FrameTree
