import Scoping.Frame.Tree

/-!
Access to the cells of a tree of scopes.

A name is found in two ways: by name, in the nearest frame that declares it, going outward; or by a
distance worked out beforehand, in the frame that so many links lead to. A failed search by name is
an error of the program being run. A distance that leads nowhere, or to a frame without the name,
means that the distances do not belong to this nesting of scopes, and is a fault.
-/

namespace Scoping

inductive AccessProblem where
  /-- No frame on the way to the root declares it. -/
  | undeclared
  /-- It is declared and was never assigned. -/
  | unassigned
deriving DecidableEq

/-- A failed access and the occurrence that asked for it. -/
structure AccessError where
  problem : AccessProblem
  who : Occurrence Symbol
deriving DecidableEq

def Cell.read {V : Type} (who : Occurrence Symbol) : Cell V → Except (Interruption AccessError) V
  | .holds value => .ok value
  | .unassigned => .error (.error ⟨.unassigned, who⟩)

namespace FrameTree

variable {V : Type}

def cell? (t : FrameTree V) (f : FrameId) (name : Symbol) : Except Fault (Option (Cell V)) := do
  return (← t.frame f).cells.find? name

@[inline] def setCell (t : FrameTree V) (f : FrameId) (name : Symbol) (cell : Cell V) :
    Except Fault (FrameTree V) := do
  let frame ← t.frame f
  return t.put f { frame with cells := frame.cells.set name cell }

@[inline] def declare (t : FrameTree V) (f : FrameId) (name : Symbol) :
    Except Fault (FrameTree V) :=
  t.setCell f name .unassigned

@[inline] def define (t : FrameTree V) (f : FrameId) (name : Symbol) (value : V) :
    Except Fault (FrameTree V) :=
  t.setCell f name (.holds value)

/-- The nearest frame that declares a name, with its cell, given that fewer than `fuel` links are
followed. -/
def locateWithin (t : FrameTree V) (name : Symbol) :
    Nat → FrameId → Except Fault (Option (FrameId × Cell V))
  | 0, _ => .error .endless
  | fuel + 1, f => do
    let frame ← t.frame f
    match frame.cells.find? name with
    | some cell => return some (f, cell)
    | none =>
      match frame.parent with
      | none => return none
      | some p => t.locateWithin name fuel p

def locate (t : FrameTree V) (f : FrameId) (name : Symbol) :
    Except Fault (Option (FrameId × Cell V)) :=
  t.locateWithin name (f + 1) f

/-- Reads a name by going outward from a frame: the nearest frame that declares it decides. -/
def read (t : FrameTree V) (f : FrameId) (who : Occurrence Symbol) :
    Except (Interruption AccessError) V := do
  match ← Interruption.lift (t.locate f who.name) with
  | some (_, cell) => cell.read who
  | none => .error (.error ⟨.undeclared, who⟩)

/-- Writes a name by going outward from a frame: the nearest cell is overwritten, whether it was
assigned before or not. No cell is ever added. -/
@[inline] def write (t : FrameTree V) (f : FrameId) (who : Occurrence Symbol) (value : V) :
    Except (Interruption AccessError) (FrameTree V) := do
  match ← Interruption.lift (t.locate f who.name) with
  | some (g, _) => Interruption.lift (t.setCell g who.name (.holds value))
  | none => .error (.error ⟨.undeclared, who⟩)

/-- The frame at a distance, with the cell that it has for a name. -/
def locateAt (t : FrameTree V) (f : FrameId) (distance : Nat) (who : Occurrence Symbol) :
    Except Fault (FrameId × Cell V) := do
  let target ← t.ancestor f distance
  match ← t.cell? target who.name with
  | some cell => return (target, cell)
  | none => .error (.notDeclared who target distance)

def readAt (t : FrameTree V) (f : FrameId) (distance : Nat) (who : Occurrence Symbol) :
    Except (Interruption AccessError) V := do
  let (_, cell) ← Interruption.lift (t.locateAt f distance who)
  cell.read who

@[inline] def writeAt (t : FrameTree V) (f : FrameId) (distance : Nat) (who : Occurrence Symbol)
    (value : V) : Except Fault (FrameTree V) := do
  let (target, _) ← t.locateAt f distance who
  t.setCell target who.name (.holds value)

end FrameTree

end Scoping
