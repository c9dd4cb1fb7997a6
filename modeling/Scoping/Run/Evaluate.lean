import Scoping.Run.Session

/-!
Evaluation of expressions and execution of statements.

Operands are evaluated from left to right. An assignment evaluates its value before it looks for its
target, and the first value of a declaration is evaluated before the name is declared. An error
keeps the place of the node whose own operation failed. A block runs in a scope of its own.

A block may hold itself, and so may an expression: then it runs again inside itself until a name has
the value that leads past it. How deep that goes depends on the values, so that no count of nodes
bounds it. Both functions therefore take the number of levels that they may go down, and an answer
given within some number of levels is the answer within every larger one. Without such cycles no
expression is nested deeper than the program has expressions, and no statement deeper than it has
statements; a script allows for all of these and for its spare levels besides.
-/

namespace Scoping.Script

def readName (x : Script) (id : ExprId) (who : Occurrence Symbol) : Run Value := do
  let context := (← Run.session).context
  match x.distance? id with
  | some distance => Run.ofAccess (context.readAt distance who)
  | none => Run.ofAccess (context.read who)

def writeName (x : Script) (id : ExprId) (who : Occurrence Symbol) (value : Value) : Run Unit := do
  match x.distance? id with
  | some distance => Run.modifyContext (·.writeAt distance who value)
  | none =>
    let context ← Run.ofAccess ((← Run.session).context.write who value)
    Run.modifyContext fun _ => .ok context

def applyBinary (op : BinaryOp) (span : Span) (left right : Value) : Run Value := fun s =>
  match op.apply s.symbols left right with
  | .ok (value, symbols) => (.ok value, { s with symbols })
  | .error (.error e) => (.error (.error (e.located span)), s)
  | .error (.fault fault) => (.error (.fault fault), s)

def applyUnary (op : UnaryOp) (span : Span) (operand : Value) : Run Value :=
  match op.apply operand with
  | .ok value => pure value
  | .error e => Run.ofResult (.error (.error (e.located span)))

/-- The value of an expression, for which at most `fuel` levels are gone down. -/
def evaluateWithin (x : Script) : Nat → ExprId → Run Value
  | 0, _ => Run.ofFault (.error .endless)
  | fuel + 1, id => do
    let expr ← Run.ofFault (x.program.expr id)
    match expr.form with
    | .literal value => pure (.ofLiteral value)
    | .reference who => x.readName id who
    | .assign target value =>
      let value ← x.evaluateWithin fuel value
      x.writeName id target value
      pure value
    | .binary left op right =>
      let left ← x.evaluateWithin fuel left
      let right ← x.evaluateWithin fuel right
      applyBinary op expr.span left right
    | .unary op operand =>
      let operand ← x.evaluateWithin fuel operand
      applyUnary op expr.span operand
    | .logical left op right =>
      let left ← x.evaluateWithin fuel left
      if op.decidedBy left.isTruthy then pure left else x.evaluateWithin fuel right
    | .group inner => x.evaluateWithin fuel inner

def evaluate (x : Script) (id : ExprId) : Run Value :=
  x.evaluateWithin (x.program.exprs.size + x.spareLevels + 1) id

/-- Executes a statement, for which at most `fuel` levels of blocks are gone down. -/
def executeWithin (x : Script) : Nat → StmtId → Run Unit
  | 0, _ => Run.ofFault (.error .endless)
  | fuel + 1, id => do
    match (← Run.ofFault (x.program.stmt id)).form with
    | .expression e => let _ ← x.evaluate e
    | .declare name none => Run.modifyContext (·.declare name.name)
    | .declare name (some init) =>
      let value ← x.evaluate init
      Run.modifyContext (·.define name.name value)
    | .block body =>
      let stmts ← Run.ofFault (x.program.body body)
      Run.inScope (stmts.forM (x.executeWithin fuel))

def execute (x : Script) (id : StmtId) : Run Unit :=
  x.executeWithin (x.program.stmts.size + x.spareLevels + 1) id

/-- Executes statements one after the other in the current scope, up to the first that does not
end well. -/
def interpret (x : Script) (ids : List StmtId) : Run Unit := ids.forM x.execute

end Scoping.Script
