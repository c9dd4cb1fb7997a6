import Mathlib.Data.Nat.PSub
import Scoping.Proofs.Frame.Distance

/-!
# The pass over the marks

The search for a live descendant marks a frame and everything inside it, slot by slot, and the marks
grow as it goes on. The same pass can be made over a table that has its full length from the start,
one entry for the frame and for each slot after it (`pass`). Every position in the table is then a
difference of two positions in the tree, and three things could go wrong: a difference that would be
negative, an entry read outside the table, and one written there. `pass` has no result if any of
them happens.

None of them happens for a frame that has a slot, in any tree that can be reached: the entry of a
slot's parent stands before the entry of the slot (`passOver_eq`). What the pass answers is whether
some live frame is inside the frame, however many links away (`hasLiveDescendant_after`).
-/

namespace Scoping.FrameTree

variable {V : Type} {t : FrameTree V} {f : FrameId}

/-! ## The pass over a table of fixed length -/

/-- The table with one entry replaced, if the entry is there. -/
def setMark? (marks : Array Bool) (i : Nat) (mark : Bool) : Option (Array Bool) :=
  if i < marks.size then some (marks.setIfInBounds i mark) else none

/-- The mark for a frame inside `parent`. A parent that stands before `base` is not asked about. -/
def markWithin? (base : FrameId) (marks : Array Bool) : Option FrameId → Option Bool
  | some p => if base ≤ p then do marks[← Nat.psub p base]? else some false
  | none => some false

/-- The pass over the frames in later slots, the first of which has the entry `next`. -/
def passOver (base : FrameId) (marks : Array Bool) (next : Nat) : List (Frame V) → Option Bool
  | [] => some false
  | frame :: later => do
    let below ← markWithin? base marks frame.parent
    if below && !frame.retired then return true
    passOver base (← setMark? marks next below) (next + 1) later

def pass (t : FrameTree V) (f : FrameId) : Option Bool := do
  let length ← Nat.psub t.size f
  let marks ← setMark? (.replicate length false) 0 true
  passOver f marks 1 (t.frames.toList.drop (f + 1))

theorem passOver_cons (base : FrameId) (marks : Array Bool) (next : Nat) (frame : Frame V)
    (later : List (Frame V)) :
    passOver base marks next (frame :: later) = match markWithin? base marks frame.parent with
      | some below =>
        if below && !frame.retired then some true
        else (setMark? marks next below).bind fun marks => passOver base marks (next + 1) later
      | none => none := by
  rw [passOver]
  cases markWithin? base marks frame.parent with
  | none => rfl
  | some below => rfl

/-! ## It is the same pass -/

/-- The entry after those that are known is there, as long as some slot is left. -/
theorem setMark?_append (marks : Array Bool) (mark : Bool) (n : Nat) :
    setMark? (marks ++ Array.replicate (n + 1) false) marks.size mark =
      some (marks.push mark ++ Array.replicate n false) := by
  have hlt : marks.size < (marks ++ Array.replicate (n + 1) false).size := by simp
  rw [setMark?, if_pos hlt]
  congr 1
  apply Array.toList_inj.1
  simp [List.replicate_succ]

section pass

variable (wf : t.WF) (base : FrameId)

include wf

/-- Entries that are not known yet are not asked for. -/
theorem markWithin?_eq {marks rest : Array Bool} {frame : Frame V}
    (hframe : t.frames[base + marks.size]? = some frame) :
    markWithin? base (marks ++ rest) frame.parent =
      (nextMark base marks frame.parent).toOption := by
  have hparent := parent?_of_frame hframe
  cases hp : frame.parent with
  | none => rfl
  | some p =>
    have hlt : p < base + marks.size := wf.parents_first (hparent.trans hp)
    rw [markWithin?, nextMark]
    by_cases hle : base ≤ p
    · have hknown : p - base < marks.size := Nat.sub_lt_left_of_lt_add hle hlt
      rw [if_pos hle, if_pos hle, Nat.psub_eq_sub hle, slot_of_lt hknown]
      exact (Array.getElem?_append_left hknown).trans (Array.getElem?_eq_getElem hknown)
    · rw [if_neg hle, if_neg hle]
      rfl

/-- The table holds the marks that are known, with room for one more for each slot that is left. -/
theorem passOver_eq (later : List (Frame V)) (marks : Array Bool)
    (hlater : later = t.frames.toList.drop (base + marks.size)) :
    passOver base (marks ++ Array.replicate later.length false) marks.size later =
      (descendsLive base marks later).toOption := by
  induction later generalizing marks with
  | nil => rfl
  | cons frame later ih =>
    obtain ⟨hframe, hrest⟩ := getElem?_of_cons_eq_drop hlater
    rw [passOver_cons, descendsLive_cons, markWithin?_eq wf base hframe]
    cases nextMark base marks frame.parent with
    | error fault => rfl
    | ok below =>
      have hnext := ih (marks.push below) (by rw [Array.size_push]; exact hrest)
      rw [Array.size_push] at hnext
      simp only [Except.toOption, List.length_cons, setMark?_append, Option.bind_some]
      split
      · rfl
      · exact hnext

theorem pass_eq (hf : f < t.size) : t.pass f = (t.hasLiveDescendant f).toOption := by
  obtain ⟨n, hn⟩ := Nat.exists_eq_succ_of_ne_zero (Nat.sub_ne_zero_of_lt hf)
  have hlength : (t.frames.toList.drop (f + 1)).length = n := by
    rw [List.length_drop, Array.length_toList, Nat.sub_add_eq]
    exact Nat.sub_eq_of_eq_add hn
  have hmarks : setMark? (.replicate (n + 1) false) 0 true =
      some (#[true] ++ Array.replicate n false) := by
    simpa using setMark?_append #[] true n
  have hpass := passOver_eq wf f (t.frames.toList.drop (f + 1)) #[true] rfl
  rw [hlength] at hpass
  rw [pass, Nat.psub_eq_sub (Nat.le_of_lt hf), hn]
  simp only [Nat.succ_eq_add_one, Option.bind_eq_bind, Option.bind_some, hmarks]
  exact hpass

end pass

/-- In any tree that can be reached, the pass from a frame that has a slot stays inside the table
and answers whether a live frame that stands after it has it on its way to the root. -/
theorem hasLiveDescendant_after (actions : List (FrameAction Symbol V))
    (hf : f < (new.after actions).size) :
    ∃ found, (new.after actions).hasLiveDescendant f = .ok found ∧
      (new.after actions).pass f = some found ∧
      (found = true ↔ ∃ g, f < g ∧ (new.after actions).isLive g = true ∧
        (new.after actions).Encloses f g) := by
  have wf : (new.after actions).WF := wf_new.after actions
  obtain ⟨found, hfound, hiff⟩ := hasLiveDescendant_eq wf f
  refine ⟨found, hfound, ?_, hiff.trans ?_⟩
  · rw [pass_eq wf hf, hfound]
    rfl
  · constructor
    · rintro ⟨g, hne, hlive, hmem⟩
      have hlt := Nat.lt_of_le_of_ne (le_of_mem_path wf.parents_first hmem) hne.symm
      exact ⟨g, hlt, hlive, (encloses_iff wf (lt_of_isLive hlive)).2 hmem⟩
    · rintro ⟨g, hlt, hlive, hinside⟩
      exact ⟨g, Nat.ne_of_gt hlt, hlive, (encloses_iff wf (lt_of_isLive hlive)).1 hinside⟩

/-- Of the slots after a scope, the first is inside it and retired, the next beside it, and the last
inside it and live. -/
theorem hasLiveDescendant_after_beside :
    let actions : List (FrameAction Symbol Bool) :=
      [.extend 0, .extend 1, .extend 0, .extend 1, .release 2]
    1 < (new.after actions).size ∧ (new.after actions).hasLiveDescendant 1 = .ok true ∧
      ∃ found, (new.after actions).hasLiveDescendant 1 = .ok found ∧
        (new.after actions).pass 1 = some found ∧
        (found = true ↔ ∃ g, 1 < g ∧ (new.after actions).isLive g = true ∧
          (new.after actions).Encloses 1 g) := by
  intro actions
  have hf : 1 < (new.after actions).size := by decide
  exact ⟨hf, rfl, hasLiveDescendant_after actions hf⟩

end Scoping.FrameTree
