import Scoping.Frame.Access

/-!
Contexts: a tree of scopes and the frame that execution is in.

Blocks open a scope inside the current frame and close it again. Execution can also move to a frame
that was captured earlier and come back, so that frames need not be left in the order in which they
were opened.
-/

namespace Scoping

structure Context (V : Type) where
  tree : FrameTree V
  current : FrameId
deriving DecidableEq

namespace Context

variable {V : Type}

def new : Context V := ⟨.new, FrameId.root⟩

/-- The number of scopes from the current one to the root, both included. -/
def depth (c : Context V) : Except Fault Nat := do
  return (← c.tree.depth c.current) + 1

/-- Opens a scope inside a frame, usually a captured one, and moves into it. -/
@[inline] def openIn (c : Context V) (parent : FrameId) : Except Fault (Context V) := do
  let (f, tree) ← c.tree.extend parent
  return ⟨tree, f⟩

@[inline] def openScope (c : Context V) : Except Fault (Context V) := c.openIn c.current

/-- Leaves the current scope for the one around it and gives its frame back. The root is never
left. -/
@[inline] def closeScope (c : Context V) : Except Fault (Context V) := do
  match ← c.tree.parent c.current with
  | none => return c
  | some parent =>
    let (_, tree) ← c.tree.release c.current
    return ⟨tree, parent⟩

def enter (c : Context V) (f : FrameId) : Except Fault (Context V) :=
  if c.tree.isLive f then .ok { c with current := f } else .error (.deadFrame f)

@[inline] def withTree (c : Context V) (tree : FrameTree V) : Context V := { c with tree }

/-- Keeps the current frame from ever being given back, so that it can be entered later. -/
def capture (c : Context V) : Except Fault (Context V) :=
  c.withTree <$> c.tree.capture c.current

@[inline] def declare (c : Context V) (name : Symbol) : Except Fault (Context V) :=
  c.withTree <$> c.tree.declare c.current name

@[inline] def define (c : Context V) (name : Symbol) (value : V) : Except Fault (Context V) :=
  c.withTree <$> c.tree.define c.current name value

def read (c : Context V) (who : Occurrence Symbol) : Except (Interruption AccessError) V :=
  c.tree.read c.current who

/-- Writes a name from the current scope outward. -/
@[inline] def write (c : Context V) (who : Occurrence Symbol) (value : V) :
    Except (Interruption AccessError) (Context V) :=
  c.withTree <$> c.tree.write c.current who value

def readAt (c : Context V) (distance : Nat) (who : Occurrence Symbol) :
    Except (Interruption AccessError) V :=
  c.tree.readAt c.current distance who

@[inline] def writeAt (c : Context V) (distance : Nat) (who : Occurrence Symbol) (value : V) :
    Except Fault (Context V) :=
  c.withTree <$> c.tree.writeAt c.current distance who value

end Context

end Scoping
