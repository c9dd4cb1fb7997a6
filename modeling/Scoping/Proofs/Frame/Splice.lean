import Scoping.Proofs.Frame.Commute
import Scoping.Proofs.Frame.Survive

/-!
# A tree with one more frame in it

Take a tree, and one more frame opened inside frame `c` of it at position `base`, in which nothing
is ever declared. Frames opened later stand one place further up than they would without it, and
those that would be inside `c` are inside the new frame (`Spliced`). Whoever goes outward from them
passes through the new frame and finds nothing there, so that names are found in the same frames,
up to their positions (`Spliced.nearest_eq`).

Storing, opening and giving back on both sides keep the two trees so (`Spliced.store`,
`Spliced.grow`, `Spliced.shrink`), and without the new frame they are the same tree
(`Spliced.eq_of_left`).
-/

namespace Scoping.FrameTree

variable {V : Type} {base c : Nat} {t u : FrameTree V}

/-! ## Positions on both sides -/

/-- Where a frame stands when there is one more frame at `base`. -/
def moved (base f : Nat) : Nat := if f < base then f else f + 1

/-- The frame to go outward from, in place of `c` or of a frame opened later. -/
def entry (base f : Nat) : Nat := if f < base then base else f + 1

theorem moved_of_lt {f : Nat} (h : f < base) : moved base f = f := if_pos h

theorem moved_of_le {f : Nat} (h : base ≤ f) : moved base f = f + 1 := if_neg (Nat.not_lt.2 h)

theorem entry_of_lt {f : Nat} (h : f < base) : entry base f = base := if_pos h

theorem entry_of_le {f : Nat} (h : base ≤ f) : entry base f = f + 1 := if_neg (Nat.not_lt.2 h)

theorem base_ne_moved (base f : Nat) : base ≠ moved base f := by
  unfold moved
  split <;> omega

theorem succ_eq_moved_iff {f g : Nat} (hf : base ≤ f) : f + 1 = moved base g ↔ f = g := by
  unfold moved
  split <;> omega

theorem moved_eq_iff {f g : Nat} (hf : f < base) : moved base g = f ↔ g = f := by
  unfold moved
  split <;> omega

theorem moved_lt {f n : Nat} (h : f < n) : moved base f < n + 1 := by
  unfold moved
  split <;> omega

/-! ## Spliced trees -/

/-- The second tree has one more frame, a bare one at `base` inside `c`. What stands from `base` on
in the first tree was opened in `c` or inside such frames. -/
structure Spliced (base c : FrameId) (t u : FrameTree V) : Prop where
  lt_base : c < base
  base_le : base ≤ t.size
  size_eq : u.size = t.size + 1
  frame_eq : ∀ {f}, f < base → u.frames[f]? = t.frames[f]?
  parent?_base : u.parent? base = some c
  held_base : ∀ name, u.held base name = none
  parent?_later : ∀ {f}, base ≤ f → f < t.size → ∃ p, (p = c ∨ base ≤ p) ∧
    t.parent? f = some p ∧ u.parent? (f + 1) = some (entry base p)
  held_later : ∀ {f} name, base ≤ f → u.held (f + 1) name = t.held f name

/-- One more frame, just opened. -/
theorem spliced_grow (hc : c < t.size) : Spliced t.size c t (t.grow c) where
  lt_base := hc
  base_le := Nat.le_refl _
  size_eq := size_grow
  frame_eq hf := getElem?_grow_old hf
  parent?_base := parent?_grow_new
  held_base name := by rw [held_grow, held_of_le (Nat.le_refl _)]
  parent?_later hf hlt := absurd hlt (Nat.not_lt.2 hf)
  held_later name hf := by rw [held_grow, held_of_le hf, held_of_le (Nat.le_succ_of_le hf)]

/-- A search by name goes from a frame to the one around it. -/
theorem nearest_of_parent? (hp : t.ParentsFirst) {f p : FrameId} (h : t.parent? f = some p)
    (name : Symbol) :
    t.nearest f name = ((t.held f name).map (f, ·)).or (t.nearest p name) := by
  rw [nearest, path_of_parent? hp h, List.findSome?_cons]
  cases t.held f name <;> rfl

namespace Spliced

variable (h : Spliced base c t u) (ht : t.WF) (hu : u.WF)

include h

theorem held_eq {f : Nat} (hf : f < base) (name : Symbol) : u.held f name = t.held f name :=
  held_congr (h.frame_eq hf) name

include ht

/-- Below the new frame nothing is different. -/
theorem nearest_outside (name : Symbol) : u.nearest c name = t.nearest c name := by
  have below : ∀ {g}, g ≤ c → g < base := fun hg => Nat.lt_of_le_of_lt hg h.lt_base
  refine nearest_congr ?_ fun g hg => h.held_eq (below (le_of_mem_path ht.parents_first hg)) name
  exact path_congr ht.parents_first fun g hg => parent?_congr (h.frame_eq (below hg))

include hu

/-- The same cell is found, in the frame that stands for the one where it was found. -/
theorem nearest_eq {f : Nat} (hf : f = c ∨ base ≤ f) (hlt : f < t.size) (name : Symbol) :
    u.nearest (entry base f) name =
      (t.nearest f name).map fun found => (moved base found.1, found.2) := by
  have outside : u.nearest base name =
      (t.nearest c name).map fun found => (moved base found.1, found.2) := by
    rw [nearest_of_parent? hu.parents_first h.parent?_base, h.held_base, h.nearest_outside ht]
    cases hfound : t.nearest c name with
    | none => rfl
    | some found =>
      have hle := le_of_mem_path ht.parents_first (held_of_nearest hfound).1
      exact congrArg some (Prod.ext (moved_of_lt (Nat.lt_of_le_of_lt hle h.lt_base)).symm rfl)
  induction f using parent_induction ht.parents_first with
  | root f hroot =>
    rcases hf with rfl | hf
    · rwa [entry_of_lt h.lt_base]
    · obtain ⟨p, -, hp, -⟩ := h.parent?_later hf hlt
      cases hroot.symm.trans hp
  | inner f p hp ih =>
    rcases hf with rfl | hf
    · rwa [entry_of_lt h.lt_base]
    · obtain ⟨p', hp', hinner, houter⟩ := h.parent?_later hf hlt
      cases hp.symm.trans hinner
      rw [entry_of_le hf, nearest_of_parent? hu.parents_first houter,
        nearest_of_parent? ht.parents_first hp, h.held_later name hf,
        ih hp' (ht.parent_lt_size hp)]
      cases t.held f name with
      | none => rfl
      | some cell => exact congrArg some (Prod.ext (moved_of_le hf).symm rfl)

omit ht hu

theorem store {g : Nat} (hg : g < t.size) (name : Symbol) (cell : Cell V) :
    Spliced base c (t.update g (·.store name cell))
      (u.update (moved base g) (·.store name cell)) := by
  have hg' : moved base g < u.size := h.size_eq ▸ moved_lt hg
  have parent?_store : ∀ {v : FrameTree V} {k} (f : FrameId),
      (v.update k (·.store name cell)).parent? f = v.parent? f :=
    parent?_update (·.store name cell) fun _ => rfl
  refine ⟨h.lt_base, ?_, ?_, fun {f} hf => ?_, ?_, fun m => ?_, fun {f} hf hlt => ?_,
    fun {f} m hf => ?_⟩
  · rw [size_update]
    exact h.base_le
  · rw [size_update, size_update]
    exact h.size_eq
  · rw [getElem?_update, getElem?_update, h.frame_eq hf]
    simp only [moved_eq_iff hf]
  · rw [parent?_store]
    exact h.parent?_base
  · rw [held_store hg', if_neg fun heq => base_ne_moved base g heq.1]
    exact h.held_base m
  · rw [size_update] at hlt
    rw [parent?_store, parent?_store]
    exact h.parent?_later hf hlt
  · rw [held_store hg', held_store hg, h.held_later m hf]
    simp only [succ_eq_moved_iff hf]

/-- A frame is opened on both sides. -/
theorem grow {f : Nat} (hf : f = c ∨ base ≤ f) :
    Spliced base c (t.grow f) (u.grow (entry base f)) := by
  have hbase : base < u.size := h.size_eq ▸ Nat.lt_succ_of_le h.base_le
  refine ⟨h.lt_base, ?_, ?_, fun {g} hg => ?_, ?_, fun name => ?_, fun {g} hg hlt => ?_,
    fun {g} name hg => ?_⟩
  · rw [size_grow]
    exact Nat.le_succ_of_le h.base_le
  · rw [size_grow, size_grow, h.size_eq]
  · rw [getElem?_grow_old (Nat.lt_trans hg hbase),
      getElem?_grow_old (Nat.lt_of_lt_of_le hg h.base_le)]
    exact h.frame_eq hg
  · rw [parent?_congr (getElem?_grow_old hbase)]
    exact h.parent?_base
  · rw [held_grow]
    exact h.held_base name
  · rcases lt_or_eq_of_lt_grow hlt with hold | rfl
    · have hold' : g + 1 < u.size := h.size_eq ▸ Nat.succ_lt_succ hold
      rw [parent?_congr (getElem?_grow_old hold), parent?_congr (getElem?_grow_old hold')]
      exact h.parent?_later hg hold
    · exact ⟨f, hf, parent?_grow_new, h.size_eq ▸ parent?_grow_new⟩
  · rw [held_grow, held_grow]
    exact h.held_later name hg

/-- The frames at the end are gone on both sides. -/
theorem shrink {t' u' : FrameTree V} (hbase : base ≤ t'.size) (hle : t'.size ≤ t.size)
    (hsize : u'.size = t'.size + 1) (ht : ∀ {f}, f < t'.size → t'.frames[f]? = t.frames[f]?)
    (hu : ∀ {f}, f < u'.size → u'.frames[f]? = u.frames[f]?) : Spliced base c t' u' := by
  have hbase' : base < u'.size := hsize ▸ Nat.lt_succ_of_le hbase
  refine ⟨h.lt_base, hbase, hsize, fun {f} hf => ?_, ?_, fun name => ?_, fun {f} hf hlt => ?_,
    fun {f} name hf => ?_⟩
  · rw [hu (Nat.lt_trans hf hbase'), ht (Nat.lt_of_lt_of_le hf hbase)]
    exact h.frame_eq hf
  · rw [parent?_congr (hu hbase')]
    exact h.parent?_base
  · rw [held_congr (hu hbase')]
    exact h.held_base name
  · have hlt' : f + 1 < u'.size := hsize ▸ Nat.succ_lt_succ hlt
    rw [parent?_congr (ht hlt), parent?_congr (hu hlt')]
    exact h.parent?_later hf (Nat.lt_of_lt_of_le hlt hle)
  · rcases Nat.lt_or_ge f t'.size with hlt | hge
    · have hlt' : f + 1 < u'.size := hsize ▸ Nat.succ_lt_succ hlt
      rw [held_congr (ht hlt), held_congr (hu hlt')]
      exact h.held_later name hf
    · rw [held_of_le hge, held_of_le (hsize ▸ Nat.succ_le_succ hge)]

/-- Without the new frame and what came after it, the two trees are the same. -/
theorem eq_of_left {u' : FrameTree V} (hsize : t.size = base) (hsize' : u'.size = base)
    (hu : ∀ {f}, f < base → u'.frames[f]? = u.frames[f]?) : u' = t := by
  apply ext_getElem?
  intro f
  rcases Nat.lt_or_ge f base with hf | hf
  · exact (hu hf).trans (h.frame_eq hf)
  · have ht : t.frames.size ≤ f := Nat.le_trans (Nat.le_of_eq hsize) hf
    have hu' : u'.frames.size ≤ f := Nat.le_trans (Nat.le_of_eq hsize') hf
    rw [Array.getElem?_eq_none ht, Array.getElem?_eq_none hu']

end Spliced

end Scoping.FrameTree
