import Scoping.Assoc
import Scoping.Fault

/-!
Frames: the scopes of a running program, as a tree.

A frame holds the cells of one scope and points at the frame around it. Frames are numbered by
their place in one growing list, and a frame's parent always stands before it, so the parent links
form a tree rooted at frame zero. This module builds the tree, walks its links and gives slots back;
cells are read and written in `Frame.Access`.

A frame whose scope was left is kept while somebody may still come back to it: the root, a captured
frame, and a frame that a live frame descends from. Any other frame goes at once if it is the
newest, and takes the retired frames directly below it along. An older one cannot leave the list
yet, so it is retired: it loses its cells now and its slot when everything above it is gone.

The functions that give a changed tree are inlined down to the use of their result. Where the tree
before the change is only needed in case of a fault, the change is then made in place.
-/

namespace Scoping

inductive Cell (V : Type) where
  /-- Declared and not yet assigned: every read fails. -/
  | unassigned
  | holds (value : V)
deriving DecidableEq

structure Frame (V : Type) where
  cells : Assoc Symbol (Cell V)
  /-- The frame around this one; the root has none. -/
  parent : Option FrameId
  /-- Somebody keeps a handle to this frame, so it is never given back. -/
  captured : Bool
  /-- The scope was left while newer frames stood above it: the cells are gone, the slot waits. -/
  retired : Bool
deriving DecidableEq

def Frame.new {V : Type} (parent : Option FrameId) : Frame V := ⟨.empty, parent, false, false⟩

/-- A tree of scopes, listed in the order in which they were opened. -/
structure FrameTree (V : Type) where
  frames : Array (Frame V)
deriving DecidableEq

namespace FrameTree

variable {V : Type}

def new : FrameTree V := ⟨#[.new none]⟩

/-- The number of slots, those of retired frames included. -/
def size (t : FrameTree V) : Nat := t.frames.size

def frame (t : FrameTree V) (f : FrameId) : Except Fault (Frame V) := slot t.frames f

@[inline] def put (t : FrameTree V) (f : FrameId) (frame : Frame V) : FrameTree V :=
  ⟨t.frames.setIfInBounds f frame⟩

/-- Whether a position is that of a frame that has not been retired. -/
def isLive (t : FrameTree V) (f : FrameId) : Bool :=
  match t.frames[f]? with
  | some frame => !frame.retired
  | none => false

/-- Opens a frame inside another one, for which there always is room (see `Scoping.Fault`). -/
@[inline] def extend (t : FrameTree V) (parent : FrameId) : Except Fault (FrameId × FrameTree V) :=
  if t.isLive parent then .ok (t.size, ⟨t.frames.push (.new (some parent))⟩)
  else .error (.deadParent parent t.size)

def parent (t : FrameTree V) (f : FrameId) : Except Fault (Option FrameId) := do
  return (← t.frame f).parent

/-- The number of links from a frame to the root, given that it is less than `fuel`. -/
def depthWithin (t : FrameTree V) : Nat → FrameId → Except Fault Nat
  | 0, _ => .error .endless
  | fuel + 1, f => do
    match (← t.frame f).parent with
    | none => return 0
    | some p => return (← t.depthWithin fuel p) + 1

/-- The number of links from a frame to the root. Each link leads to a smaller position, so that
there are at most `f` of them. -/
def depth (t : FrameTree V) (f : FrameId) : Except Fault Nat := t.depthWithin (f + 1) f

/-- The frame that `distance` links lead to from `start`, of which `hops` have been followed
already, up to `f`. -/
def ancestorFrom (t : FrameTree V) (start : FrameId) (distance : Nat) :
    Nat → Nat → FrameId → Except Fault FrameId
  | 0, _, f => .ok f
  | left + 1, hops, f => do
    match (← t.frame f).parent with
    | none => .error (.pastRoot distance start hops)
    | some p => t.ancestorFrom start distance left (hops + 1) p

/-- The frame that exactly `distance` links lead to. -/
def ancestor (t : FrameTree V) (f : FrameId) (distance : Nat) : Except Fault FrameId :=
  t.ancestorFrom f distance distance 0 f

def capture (t : FrameTree V) (f : FrameId) : Except Fault (FrameTree V) := do
  let frame ← t.frame f
  return t.put f { frame with captured := true }

/-! ## Giving back frames -/

/-- Whether a live frame among `later` descends from frame `base`. The frames are those in the
slots after the marked ones, and `marks` says of frame `base` and each slot after it whether it is
frame `base` or descends from it. Parents stand before their children, so one pass is enough. -/
def descendsLive (base : FrameId) : Array Bool → List (Frame V) → Except Fault Bool
  | _, [] => .ok false
  | marks, frame :: later => do
    let below ← match frame.parent with
      | some p => if base ≤ p then slot marks (p - base) else .ok false
      | none => .ok false
    if below && !frame.retired then return true
    descendsLive base (marks.push below) later

def hasLiveDescendant (t : FrameTree V) (f : FrameId) : Except Fault Bool :=
  descendsLive f #[true] (t.frames.toList.drop (f + 1))

/-- Drops retired frames from the end of the list, `fuel` of them at most and never the root. -/
def dropRetired : Nat → Array (Frame V) → Array (Frame V)
  | 0, frames => frames
  | fuel + 1, frames =>
    match frames.back? with
    | some frame =>
      if frame.retired && decide (1 < frames.size) then dropRetired fuel frames.pop else frames
    | none => frames

/-- Gives back a frame whose scope was left, as far as that is possible, and says whether a slot
became free. -/
@[inline] def release (t : FrameTree V) (f : FrameId) : Except Fault (Bool × FrameTree V) :=
  if f = FrameId.root then .ok (false, t)
  else do
    let frame ← t.frame f
    if frame.captured then return (false, t)
    if f + 1 = t.size then return (true, ⟨dropRetired t.size t.frames.pop⟩)
    if ← t.hasLiveDescendant f then return (false, t)
    return (false, t.put f { frame with cells := .empty, retired := true })

end FrameTree

end Scoping
