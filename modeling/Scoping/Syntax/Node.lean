import Scoping.Source
import Scoping.Syntax.Operator

/-!
Expressions and statements.

Nodes refer to each other by position, so that a program is a few flat lists. The type of names `N`
is a parameter: text as it was written, or symbols once a table has numbered it; `traverse` goes
over the names of a node from left to right.
-/

namespace Scoping

/-- A constant. Numbers are kept as the 64 bits of a double, so that equality of literals is
decidable and tells zeros and not-a-numbers apart. -/
inductive Literal (N : Type) where
  | nil
  | bool (b : Bool)
  | number (bits : UInt64)
  | str (s : N)
deriving DecidableEq

structure ExprId where
  index : Nat
deriving DecidableEq

instance : Ord ExprId := ⟨fun a b => compare a.index b.index⟩

structure StmtId where
  index : Nat
deriving DecidableEq

/-- A run of entries in a program's list of statement positions. -/
structure StmtRange where
  start : Nat
  len : Nat
deriving DecidableEq

def StmtRange.isEmpty (r : StmtRange) : Bool := r.len == 0

inductive ExprForm (N : Type) where
  | literal (value : Literal N)
  /-- The value of a name. -/
  | reference (who : Occurrence N)
  /-- Gives a name that is declared already a new value. -/
  | assign (target : Occurrence N) (value : ExprId)
  | binary (left : ExprId) (op : BinaryOp) (right : ExprId)
  | unary (op : UnaryOp) (operand : ExprId)
  | logical (left : ExprId) (op : LogicalOp) (right : ExprId)
  /-- An expression in parentheses. -/
  | group (inner : ExprId)
deriving DecidableEq

structure Expr (N : Type) where
  form : ExprForm N
  span : Span
deriving DecidableEq

inductive StmtForm (N : Type) where
  /-- An expression evaluated for its effect. -/
  | expression (e : ExprId)
  /-- A new name in the current scope, with or without a first value. -/
  | declare (name : Occurrence N) (init : Option ExprId)
  /-- Statements that run in a scope of their own. -/
  | block (body : StmtRange)
deriving DecidableEq

structure Stmt (N : Type) where
  form : StmtForm N
  span : Span
deriving DecidableEq

variable {N M : Type} {m : Type → Type} [Monad m]

def Literal.traverse (f : N → m M) : Literal N → m (Literal M)
  | .nil => pure .nil
  | .bool b => pure (.bool b)
  | .number bits => pure (.number bits)
  | .str s => .str <$> f s

def ExprForm.traverse (f : N → m M) : ExprForm N → m (ExprForm M)
  | .literal value => .literal <$> value.traverse f
  | .reference who => .reference <$> who.traverse f
  | .assign target value => do return .assign (← target.traverse f) value
  | .binary left op right => pure (.binary left op right)
  | .unary op operand => pure (.unary op operand)
  | .logical left op right => pure (.logical left op right)
  | .group inner => pure (.group inner)

def Expr.traverse (f : N → m M) (e : Expr N) : m (Expr M) := do
  return ⟨← e.form.traverse f, e.span⟩

def StmtForm.traverse (f : N → m M) : StmtForm N → m (StmtForm M)
  | .expression e => pure (.expression e)
  | .declare name init => do return .declare (← name.traverse f) init
  | .block body => pure (.block body)

def Stmt.traverse (f : N → m M) (s : Stmt N) : m (Stmt M) := do
  return ⟨← s.form.traverse f, s.span⟩

end Scoping
