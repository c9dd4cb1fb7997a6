import Scoping.Assoc
import Scoping.Fault
import Scoping.Syntax.Node

/-!
Programs: flat storage of expressions, statements and block bodies.

Entries are only ever added at the end, so that a position or a run handed out once keeps its
meaning in every later program. Positions are not checked when a node is added; a dangling one is a
fault of whoever follows it.
-/

namespace Scoping

/-- The expressions and statements of a program, and the concatenation of its block bodies. -/
structure Program (N : Type) where
  exprs : Array (Expr N)
  stmts : Array (Stmt N)
  bodies : Array StmtId
deriving DecidableEq

namespace Program

variable {N : Type}

def empty : Program N := ⟨#[], #[], #[]⟩

/-- Adds an expression, for which there always is room (see `Scoping.Fault`). -/
def addExpr (p : Program N) (e : Expr N) : ExprId × Program N :=
  (⟨p.exprs.size⟩, { p with exprs := p.exprs.push e })

def addStmt (p : Program N) (s : Stmt N) : StmtId × Program N :=
  (⟨p.stmts.size⟩, { p with stmts := p.stmts.push s })

/-- Stores a block body behind those stored before. Its length is how far the list has grown. -/
def addBody (p : Program N) (body : List StmtId) : StmtRange × Program N :=
  let start := p.bodies.size
  let bodies := p.bodies ++ body
  (⟨start, bodies.size - start⟩, { p with bodies })

def expr (p : Program N) (id : ExprId) : Except Fault (Expr N) := slot p.exprs id.index

def stmt (p : Program N) (id : StmtId) : Except Fault (Stmt N) := slot p.stmts id.index

theorem expr_addExpr_self (p : Program N) (e : Expr N) :
    (p.addExpr e).2.expr (p.addExpr e).1 = .ok e :=
  slot_eq_ok_iff.2 Array.getElem?_push_size

theorem stmt_addStmt_self (p : Program N) (s : Stmt N) :
    (p.addStmt s).2.stmt (p.addStmt s).1 = .ok s :=
  slot_eq_ok_iff.2 Array.getElem?_push_size

/-- The statements of a run; a run that starts past the end is a fault even if it is empty. -/
def body (p : Program N) (r : StmtRange) : Except Fault (List StmtId) :=
  if p.bodies.size < r.start then .error (.sliceStart r.start p.bodies.size)
  else if p.bodies.size < r.start + r.len then
    .error (.sliceStop (r.start + r.len) p.bodies.size)
  else .ok (p.bodies.extract r.start (r.start + r.len)).toList

end Program

/-- For references and assignments, how many scopes out from the current one their name was found
to be declared. A node without an entry is resolved by name. -/
abbrev Distances := Assoc ExprId Nat

/-- The table with these entries; a later entry of a node replaces an earlier one. -/
def Distances.ofList (entries : List (ExprId × Nat)) : Distances :=
  entries.foldl (fun table entry => table.set entry.1 entry.2) .empty

end Scoping
