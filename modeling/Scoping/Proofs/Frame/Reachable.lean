import Scoping.Proofs.Frame.Effect

/-!
# Trees that can be reached

`Changes` says what an action can make of a tree, whichever action it is (`Effect` says which): it
opens a frame inside a live one, keeps a frame, stores a cell in a frame, or gives one back. Unlike
the actions on a context, these may be handed any position that has a slot, that of a retired frame
included. A position without a slot is a fault and changes nothing.

The representation invariant survives all of this (`WF.changes`), so that it holds after any
actions from a fresh tree. What it means for those who follow links is `Rooted`: from every frame
there is a way to the root, of no more links than the position of the frame says, all of it through
slots that are there (`rooted_after`).
-/

namespace Scoping.FrameTree

variable {V : Type} {t u : FrameTree V}

/-! ## What an action can do to a tree -/

inductive Changes (t : FrameTree V) : FrameTree V → Prop
  | nothing : t.Changes t
  | opened {p : FrameId} (hp : t.isLive p = true) : t.Changes (t.grow p)
  | captured {f : FrameId} (hf : f < t.size) : t.Changes (t.update f Frame.keep)
  | stored {f : FrameId} (hf : f < t.size) (name : Symbol) (cell : Cell V) :
      t.Changes (t.update f (·.store name cell))
  | released {f : FrameId} {u : FrameTree V} (hf : f < t.size) (hu : Released t f u) : t.Changes u

theorem Effect.changes {action : FrameAction Symbol V} (h : t.Effect action u) : t.Changes u := by
  cases h with
  | nothing => exact .nothing
  | opened hp => exact .opened hp
  | captured hf => exact .captured hf
  | given cell hf _ => exact .stored hf _ cell
  | written value hold => exact .stored (lt_of_held hold) _ _
  | released hf hu _ => exact .released hf hu

theorem step_changes (wf : t.WF) (action : FrameAction Symbol V) :
    t.Changes (t.step action).2 :=
  (step_effect wf action).changes

theorem WF.changes (wf : t.WF) (h : t.Changes u) : u.WF := by
  cases h with
  | nothing => exact wf
  | opened hp => exact wf.grow hp
  | captured _ => exact wf.update Frame.keep (fun _ => rfl) fun _ => rfl
  | stored _ name cell => exact wf.update (·.store name cell) (fun _ => rfl) fun _ => rfl
  | released _ hu => exact hu.wf wf

/-! ## Trees after actions -/

/-- A tree after some actions. An action that ends in a fault leaves the tree as it was. -/
def after (t : FrameTree V) (actions : List (FrameAction Symbol V)) : FrameTree V :=
  actions.foldl (fun t action => (t.step action).2) t

theorem WF.after (wf : t.WF) (actions : List (FrameAction Symbol V)) : (t.after actions).WF := by
  induction actions generalizing t with
  | nil => exact wf
  | cons action actions ih => exact ih (wf.changes (step_changes wf action))

/-! ## The way to the root -/

/-- What everybody who follows the links of a tree can rely on. -/
structure Rooted (t : FrameTree V) : Prop where
  root : ∃ frame, t.frame FrameId.root = .ok frame ∧ frame.parent = none ∧ frame.retired = false
  /-- Every other frame is inside one that stands before it. -/
  parent : ∀ {f}, f < t.size → f ≠ FrameId.root → ∃ p, t.parent f = .ok (some p) ∧ p < f
  /-- A frame inside a retired one is retired: what is around a live frame is live. -/
  around_live : ∀ {f g distance}, t.isLive f = true → t.ancestor f distance = .ok g →
    t.isLive g = true
  newest_live : t.isLive (t.size - 1) = true
  /-- The root is no further away than the position says. -/
  depth : ∀ {f}, f < t.size → ∃ n, n ≤ f ∧ t.depth f = .ok n ∧ t.ancestor f n = .ok FrameId.root
  /-- No walk leaves the slots, or goes on for ever. -/
  ancestor : ∀ {f}, f < t.size → ∀ distance,
    (∃ g, g ≤ f ∧ t.ancestor f distance = .ok g) ∨
      ∃ hops, t.ancestor f distance = .error (.pastRoot distance f hops)
  read_ne_fault : ∀ {f}, f < t.size → ∀ who fault, t.read f who ≠ .error (.fault fault)
  write_ne_fault : ∀ {f}, f < t.size → ∀ who value fault, t.write f who value ≠ .error (.fault fault)

section rooted

variable (wf : t.WF)

include wf

theorem WF.length_path_le (f : FrameId) : (t.path f).length ≤ f + 1 := by
  induction f using parent_induction wf.parents_first with
  | root f hf =>
    rw [path_of_parent?_eq_none hf]
    exact Nat.succ_le_succ (Nat.zero_le f)
  | inner f p hp ih =>
    rw [path_of_parent? wf.parents_first hp, List.length_cons]
    exact Nat.succ_le_succ (Nat.le_trans ih (wf.parents_first hp))

/-- A path ends at the root. -/
theorem WF.getElem?_path_root {f : FrameId} (hf : f < t.size) :
    (t.path f)[(t.path f).tail.length]? = some FrameId.root := by
  induction f using parent_induction wf.parents_first with
  | root f hnone =>
    obtain rfl : f = FrameId.root := Decidable.byContradiction fun hne => by
      obtain ⟨p, hp⟩ := wf.parent_of_ne_root hf hne
      rw [hnone] at hp
      cases hp
    rw [path_of_parent?_eq_none hnone]
    rfl
  | inner f p hp ih =>
    obtain ⟨rest, hrest⟩ := head_path t p
    have hroot := ih (wf.parent_lt_size hp)
    rw [hrest] at hroot
    rw [path_of_parent? wf.parents_first hp, hrest]
    exact hroot

theorem WF.rooted : t.Rooted where
  root := by
    obtain ⟨frame, hframe, hretired⟩ := isLive_iff.1 wf.root_live
    refine ⟨frame, frame_eq_ok_iff.2 hframe, ?_, hretired⟩
    rw [← parent?_of_frame hframe]
    exact wf.parent?_root
  parent {f} hf hne := by
    obtain ⟨frame, hframe⟩ := frame_of_lt hf
    obtain ⟨p, hp⟩ := wf.parent_of_ne_root hf hne
    refine ⟨p, ?_, wf.parents_first hp⟩
    rw [FrameTree.parent, frame_eq_ok_iff.2 hframe, ← hp, parent?_of_frame hframe]
    rfl
  around_live {f g distance} hf hg := by
    rw [ancestor_eq wf (lt_of_isLive hf)] at hg
    cases hentry : (t.path f)[distance]? with
    | none =>
      rw [hentry] at hg
      cases hg
    | some g' =>
      rw [hentry] at hg
      cases hg
      exact wf.live_of_mem_path hf (List.mem_of_getElem? hentry)
  newest_live := wf.newest_live
  depth {f} hf := by
    refine ⟨_, ?_, depth_eq wf hf, ?_⟩
    · have hle := wf.length_path_le f
      rw [List.length_tail]
      exact Nat.sub_le_of_le_add hle
    · rw [ancestor_eq wf hf, wf.getElem?_path_root hf]
  ancestor {f} hf distance := by
    rw [ancestor_eq wf hf]
    cases hentry : (t.path f)[distance]? with
    | none => exact .inr ⟨_, rfl⟩
    | some g => exact .inl ⟨g, le_of_mem_path wf.parents_first (List.mem_of_getElem? hentry), rfl⟩
  read_ne_fault hf := FrameTree.read_ne_fault wf hf
  write_ne_fault hf := FrameTree.write_ne_fault wf hf

end rooted

/-- After any actions from a fresh tree, whatever positions they were handed, every way along the
links leads to the root: it meets only slots that are there, and live ones if it begins in one. -/
theorem rooted_after (actions : List (FrameAction Symbol V)) : (new.after actions).Rooted :=
  (wf_new.after actions).rooted

end Scoping.FrameTree
