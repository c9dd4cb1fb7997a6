import Scoping.Frame.Access
import Scoping.Symbol.Table

/-!
Everything that can be done with a tree of scopes, as data.

An action that ends in a fault leaves the tree as it was. The type of names is a parameter, so that
actions can be written down with texts and numbered when their turn comes.
-/

namespace Scoping

inductive FrameAction (N V : Type) where
  | root
  | extend (parent : FrameId)
  | isLive (f : FrameId)
  | parent (f : FrameId)
  | depth (f : FrameId)
  | capture (f : FrameId)
  | release (f : FrameId)
  | declare (f : FrameId) (name : N)
  | define (f : FrameId) (name : N) (value : V)
  /-- The cell that a frame itself has for a name. -/
  | cell (f : FrameId) (name : N)
  | read (f : FrameId) (who : Occurrence N)
  | write (f : FrameId) (who : Occurrence N) (value : V)
  | ancestor (f : FrameId) (distance : Nat)
  | readAt (f : FrameId) (distance : Nat) (who : Occurrence N)
  | writeAt (f : FrameId) (distance : Nat) (who : Occurrence N) (value : V)
deriving DecidableEq

inductive Reply (V : Type) where
  | done
  | frame (f : FrameId)
  | parent (p : Option FrameId)
  | flag (b : Bool)
  | count (n : Nat)
  | cell (c : Option (Cell V))
  | value (v : V)
  /-- A write that went well, of the kind that can fail. -/
  | written
  | refused (e : AccessError)
deriving DecidableEq

/-- The answer to a read; a fault has no answer. -/
def Reply.ofRead {V : Type} :
    Except (Interruption AccessError) V → Except Fault (Reply V)
  | .ok v => .ok (.value v)
  | .error (.error e) => .ok (.refused e)
  | .error (.fault f) => .error f

/-- The action with its names and values replaced by the results of `f` and `g`, names first. -/
def FrameAction.traverse {N M V W : Type} {m : Type → Type} [Monad m] (f : N → m M)
    (g : V → m W) : FrameAction N V → m (FrameAction M W)
  | .root => pure .root
  | .extend p => pure (.extend p)
  | .isLive x => pure (.isLive x)
  | .parent x => pure (.parent x)
  | .depth x => pure (.depth x)
  | .capture x => pure (.capture x)
  | .release x => pure (.release x)
  | .declare x name => .declare x <$> f name
  | .define x name value => do return .define x (← f name) (← g value)
  | .cell x name => .cell x <$> f name
  | .read x who => .read x <$> who.traverse f
  | .write x who value => do return .write x (← who.traverse f) (← g value)
  | .ancestor x distance => pure (.ancestor x distance)
  | .readAt x distance who => .readAt x distance <$> who.traverse f
  | .writeAt x distance who value => do
    return .writeAt x distance (← who.traverse f) (← g value)

def FrameAction.intern {V : Type} (action : FrameAction String V) :
    StateM SymbolTable (FrameAction Symbol V) :=
  action.traverse SymbolTable.internM pure

namespace FrameTree

variable {V : Type}

def apply (t : FrameTree V) : FrameAction Symbol V → Except Fault (Reply V × FrameTree V)
  | .root => .ok (.frame FrameId.root, t)
  | .extend p => do
    let (f, t) ← t.extend p
    return (.frame f, t)
  | .isLive f => .ok (.flag (t.isLive f), t)
  | .parent f => do return (.parent (← t.parent f), t)
  | .depth f => do return (.count (← t.depth f), t)
  | .capture f => do return (.done, ← t.capture f)
  | .release f => do
    let (freed, t) ← t.release f
    return (.flag freed, t)
  | .declare f name => do return (.done, ← t.declare f name)
  | .define f name value => do return (.done, ← t.define f name value)
  | .cell f name => do return (.cell (← t.cell? f name), t)
  | .read f who => do return (← Reply.ofRead (t.read f who), t)
  | .write f who value =>
    match t.write f who value with
    | .ok t => .ok (.written, t)
    | .error (.error e) => .ok (.refused e, t)
    | .error (.fault fault) => .error fault
  | .ancestor f distance => do return (.frame (← t.ancestor f distance), t)
  | .readAt f distance who => do return (← Reply.ofRead (t.readAt f distance who), t)
  | .writeAt f distance who value => do return (.done, ← t.writeAt f distance who value)

/-- One action: the answer or the fault, and the tree after it, which a fault leaves as it was. -/
def step (t : FrameTree V) (action : FrameAction Symbol V) :
    Except Fault (Reply V) × FrameTree V :=
  match t.apply action with
  | .ok (reply, t) => (.ok reply, t)
  | .error fault => (.error fault, t)

end FrameTree

end Scoping
