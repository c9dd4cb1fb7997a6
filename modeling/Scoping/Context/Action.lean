import Scoping.Context.Basic
import Scoping.Frame.Action

/-!
Everything that can be done with a context, as data.

An action that ends in a fault leaves the context as it was. Questions about frames other than the
current one go to the tree.
-/

namespace Scoping

inductive ContextAction (N V : Type) where
  | openScope
  | closeScope
  | capture
  /-- Opens a scope inside a frame; answers the frame that was current. -/
  | openIn (parent : FrameId)
  /-- Moves to a frame; answers the frame that was current. -/
  | enter (f : FrameId)
  /-- Moves back to a frame. -/
  | restore (f : FrameId)
  | declare (name : N)
  | define (name : N) (value : V)
  | read (who : Occurrence N)
  | write (who : Occurrence N) (value : V)
  | readAt (distance : Nat) (who : Occurrence N)
  | writeAt (distance : Nat) (who : Occurrence N) (value : V)
  /-- The cell that a frame itself has for a name. -/
  | cell (f : FrameId) (name : N)
  | readFrom (f : FrameId) (who : Occurrence N)
  | isLive (f : FrameId)
  | parent (f : FrameId)
  | depthOf (f : FrameId)
  | ancestor (f : FrameId) (distance : Nat)
deriving DecidableEq

/-- The action with its names and values replaced by the results of `f` and `g`, names first. -/
def ContextAction.traverse {N M V W : Type} {m : Type → Type} [Monad m] (f : N → m M)
    (g : V → m W) : ContextAction N V → m (ContextAction M W)
  | .openScope => pure .openScope
  | .closeScope => pure .closeScope
  | .capture => pure .capture
  | .openIn p => pure (.openIn p)
  | .enter x => pure (.enter x)
  | .restore x => pure (.restore x)
  | .declare name => .declare <$> f name
  | .define name value => do return .define (← f name) (← g value)
  | .read who => .read <$> who.traverse f
  | .write who value => do return .write (← who.traverse f) (← g value)
  | .readAt distance who => .readAt distance <$> who.traverse f
  | .writeAt distance who value => do return .writeAt distance (← who.traverse f) (← g value)
  | .cell x name => .cell x <$> f name
  | .readFrom x who => .readFrom x <$> who.traverse f
  | .isLive x => pure (.isLive x)
  | .parent x => pure (.parent x)
  | .depthOf x => pure (.depthOf x)
  | .ancestor x distance => pure (.ancestor x distance)

namespace Context

variable {V : Type}

def apply (c : Context V) : ContextAction Symbol V → Except Fault (Reply V × Context V)
  | .openScope => do return (.done, ← c.openScope)
  | .closeScope => do return (.done, ← c.closeScope)
  | .capture => do return (.frame c.current, ← c.capture)
  | .openIn parent => do return (.frame c.current, ← c.openIn parent)
  | .enter f => do return (.frame c.current, ← c.enter f)
  | .restore f => do return (.done, ← c.enter f)
  | .declare name => do return (.done, ← c.declare name)
  | .define name value => do return (.done, ← c.define name value)
  | .read who => do return (← Reply.ofRead (c.read who), c)
  | .write who value =>
    match c.write who value with
    | .ok c => .ok (.written, c)
    | .error (.error e) => .ok (.refused e, c)
    | .error (.fault fault) => .error fault
  | .readAt distance who => do return (← Reply.ofRead (c.readAt distance who), c)
  | .writeAt distance who value => do return (.done, ← c.writeAt distance who value)
  | .cell f name => do return (.cell (← c.tree.cell? f name), c)
  | .readFrom f who => do return (← Reply.ofRead (c.tree.read f who), c)
  | .isLive f => .ok (.flag (c.tree.isLive f), c)
  | .parent f => do return (.parent (← c.tree.parent f), c)
  | .depthOf f => do return (.count (← c.tree.depth f), c)
  | .ancestor f distance => do return (.frame (← c.tree.ancestor f distance), c)

/-- One action: the answer or the fault, and the context after it, which a fault leaves as it
was. -/
def step (c : Context V) (action : ContextAction Symbol V) :
    Except Fault (Reply V) × Context V :=
  match c.apply action with
  | .ok (reply, c) => (.ok reply, c)
  | .error fault => (.error fault, c)

end Context

end Scoping
