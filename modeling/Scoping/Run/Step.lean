import Scoping.Context.Action
import Scoping.Run.Evaluate
import Scoping.Syntax.Draft

/-!
Steps: what can be asked of a session, as data.

A step is a statement to execute, an expression to evaluate or to print, an action on the context,
or a list of steps inside a scope of their own. A step that ends badly does not stop the steps
after it. After each step the session can be looked at through its status.
-/

namespace Scoping

/-- One step of a session. -/
inductive Step where
  | execute (id : StmtId)
  | interpret (ids : List StmtId)
  | evaluate (id : ExprId)
  | print (id : ExprId)
  /-- An action whose names and strings are numbered when its turn comes. -/
  | context (action : ContextAction String (Literal String))
  /-- Steps inside a scope of their own. -/
  | inScope (steps : List Step)

/-- What can be seen of a session from outside. -/
structure Status where
  current : FrameId
  depth : Nat
  slots : Nat
deriving DecidableEq

/-- The status of a context. The current frame of a context in use is always in its tree. -/
def Context.status {V : Type} (c : Context V) : Status :=
  ⟨c.current, match c.depth with | .ok depth => depth | .error _ => 0, c.tree.size⟩

/-- The answer to a step, with the status after it. -/
inductive Answer where
  | finished (result : Except (Interruption RuntimeError) Unit) (after : Status)
  /-- A value comes with its text. -/
  | evaluated (result : Except (Interruption RuntimeError) (Value × String)) (after : Status)
  | printed (result : Except Fault String) (after : Status)
  | context (result : Except Fault (Reply Value)) (after : Status)
  /-- The status after the scope was opened, and the answers inside. -/
  | inScope (opened : Status) (answers : List Answer) (after : Status)
  | fault (f : Fault) (after : Status)

/-- The action with its names and its string numbered, the name first. -/
def ContextAction.intern (action : ContextAction String (Literal String)) :
    StateM SymbolTable (ContextAction Symbol Value) :=
  action.traverse SymbolTable.internM Value.intern

/-- Numbers the names and the string of an action, and performs it. -/
def Session.act (s : Session) (action : ContextAction String (Literal String)) :
    Except Fault (Reply Value) × Session :=
  let (action, symbols) := action.intern.run s.symbols
  let (reply, context) := s.context.step action
  (reply, ⟨context, symbols⟩)

namespace Script

mutual

def step (x : Script) : Step → Session → Answer × Session
  | .execute id, s =>
    let (result, s) := x.execute id s
    (.finished result s.context.status, s)
  | .interpret ids, s =>
    let (result, s) := x.interpret ids s
    (.finished result s.context.status, s)
  | .evaluate id, s =>
    let show? (value : Value) : Run (Value × String) := do
      return (value, ← Run.ofFault (value.render (← Run.session).symbols))
    let (result, s) := (x.evaluate id >>= show?) s
    (.evaluated result s.context.status, s)
  | .print id, s => (.printed (x.program.reversePolish s.symbols id) s.context.status, s)
  | .context action, s =>
    let (result, s) := s.act action
    (.context result s.context.status, s)
  | .inScope inner, s =>
    let body (s : Session) :=
      let opened := s.context.status
      let (answers, s) := x.steps inner s
      ((opened, answers), s)
    match s.inScope body with
    | (.ok (opened, answers), s) => (.inScope opened answers s.context.status, s)
    | (.error f, s) => (.fault f s.context.status, s)

def steps (x : Script) : List Step → Session → List Answer × Session
  | [], s => ([], s)
  | first :: rest, s =>
    let (answer, s) := x.step first s
    let (answers, s) := x.steps rest s
    (answer :: answers, s)

end

end Script

end Scoping
